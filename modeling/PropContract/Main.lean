import PropContract.CommandLine.Run

/-!
The program: it lets a run work on a picture of the files that it can see, and writes what has
changed.
-/

namespace PropContract.Program

def usage : String :=
  "Usage: ts-proptypes [OPTIONS] [FILES]...\n\n" ++
  "Options:\n" ++
  "      --workspace <WORKSPACE>    Project root [default: .]\n" ++
  "      --tsconfig <TSCONFIG>      Path to tsconfig.json\n" ++
  "      --mode <MODE>              generate, inject or ast [default: generate]\n" ++
  "      --out-dir <OUT_DIR>        Directory holding the transpiled JavaScript\n" ++
  "      --write                    Write results to disk instead of stdout\n" ++
  "      --sort-props               Sort props alphabetically\n" ++
  "      --include-comments         Annotate each validator with the declared type\n" ++
  "      --no-jsdoc                 Do not copy JSDoc comments onto validators\n" ++
  "      --conflict <CONFLICT>      fail, replace or merge\n" ++
  "      --include-unused-props     Keep props the component never reads (inject mode)\n" ++
  "      --ignore <IGNORE>          Glob patterns to ignore\n" ++
  "      --output <OUTPUT>          human or json [default: human]\n" ++
  "      --config <CONFIG>          JSON file with generator and injector options\n" ++
  "  -v, --verbose                  Log debug output to stderr\n" ++
  "  -h, --help                     Print help\n" ++
  "  -V, --version                  Print version\n"

def usageMessage : UsageError → String
  | .invalidValue => "error: a value is missing or invalid\n"
  | .unknownArgument => "error: unexpected argument found\n"
  | .conflict => "error: an argument cannot be used multiple times\n"
  | .tooManyValues => "error: unexpected value for an argument found\n"
  | .help => usage
  | .version => "ts-proptypes 0.1.0\n"

def places (cwd : Path) (a : Arguments) : List Path :=
  let workspace := (a.workspace.getD ⟨"."⟩).absoluteIn cwd
  let named := (a.files ++ a.tsconfig.toList ++ a.config.toList).filterMap fun file =>
    (file.absoluteIn workspace).parent?
  (workspace :: (a.outDir.map fun dir => dir.absoluteIn workspace).toList ++ named).eraseDups

def contentAt (place : String) : IO FileContent := do
  let bytes ← IO.FS.readBinFile place
  match String.fromUTF8? bytes with
  | some text => pure (.text text)
  | none => pure (.binary bytes.toList)

def entriesBelow (place : Path) : IO (List (String × FileContent)) := do
  let root := (← IO.currentDir) / place.text
  if ← root.isDir then
    let found ← root.walkDir
    let files ← found.toList.filterM fun file => do pure !(← file.isDir)
    files.mapM fun file => do pure (file.toString, ← contentAt file.toString)
  else pure []

def picture (places : List Path) : IO FileTree := do
  pure (FileTree.ofFiles (← places.mapM entriesBelow).flatten)

def writeBack : String × FileContent → IO Unit
  | (place, .text text) => do
    IO.FS.createDirAll (((Path.mk place).parent?.getD ⟨"/"⟩).text)
    IO.FS.writeFile place text
  | (_, .binary _) => pure ()

def perform (a : Arguments) : IO UInt32 := do
  let cwd : Path := ⟨(← IO.currentDir).toString⟩
  let tree ← picture (places cwd a)
  let (result, after) := (Run.work cwd a).run.run tree
  (after.changesSince tree).forM writeBack
  match result with
  | .error e =>
    IO.eprintln ("Error: " ++ e.message)
    pure 1
  | .ok outcome =>
    IO.print outcome.stdout
    IO.eprint outcome.stderr
    pure outcome.exitCode.toUInt32

end PropContract.Program

open PropContract in
def main (args : List String) : IO UInt32 := do
  match Arguments.read args with
  | .ok a => Program.perform a
  | .error e =>
    if e = .help || e = .version then
      IO.print (Program.usageMessage e)
      pure 0
    else
      IO.eprint (Program.usageMessage e)
      pure 2
