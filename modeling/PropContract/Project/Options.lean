import PropContract.FileTree
import PropContract.Json.Reader
import PropContract.Json.Record

/-!
Compiler options and the configuration files that set them: JSON with comments and trailing commas.
-/

namespace PropContract

structure CompilerOptions where
  strict : Bool := false
  strictNullChecks : Option Bool := none
  baseUrl : Option Path := none
  paths : Table (List String) := []
  pathsBase : Option Path := none
  followImports : Bool := true
  deriving DecidableEq, Repr, Inhabited

def CompilerOptions.nullChecks (options : CompilerOptions) : Bool :=
  options.strictNullChecks.getD options.strict

inductive ConfigError where
  | unreadable (path : Path) (fault : ReadFault)
  | malformed (path : Path)
  | circular (path : Path)
  deriving DecidableEq, Repr

namespace ConfigError

def message : ConfigError → String
  | unreadable path fault => s!"failed to read {path.text}: {fault.message}"
  | malformed path => s!"invalid config {path.text}: malformed JSON"
  | circular path => s!"invalid config {path.text}: circular `extends`"

end ConfigError

namespace ConfigText

inductive Place where
  | code
  | string
  | lineComment
  | blockComment
  deriving DecidableEq, Repr

/-- Removes line and block comments outside strings. A line comment leaves its line feed, and
the end of the text closes a block comment too. -/
def stripComments : Place → List Char → List Char
  | _, [] => []
  | .string, '\\' :: c :: rest => '\\' :: c :: stripComments .string rest
  | .string, c :: rest => c :: stripComments (if c = '"' then .code else .string) rest
  | .lineComment, c :: rest =>
    if c = '\n' then c :: stripComments .code rest else stripComments .lineComment rest
  | .blockComment, '*' :: '/' :: rest => stripComments .code rest
  | .blockComment, _ :: rest => stripComments .blockComment rest
  | .code, '/' :: '/' :: rest => stripComments .lineComment rest
  | .code, '/' :: '*' :: rest => stripComments .blockComment rest
  | .code, c :: rest => c :: stripComments (if c = '"' then .string else .code) rest

def closesNext (cs : List Char) : Bool :=
  match cs.dropWhile Text.isBlank with
  | '}' :: _ | ']' :: _ => true
  | _ => false

def stripTrailingCommas : Bool → List Char → List Char
  | _, [] => []
  | true, '\\' :: c :: rest => '\\' :: c :: stripTrailingCommas true rest
  | true, c :: rest => c :: stripTrailingCommas (c != '"') rest
  | false, c :: rest =>
    if c = ',' && closesNext rest then stripTrailingCommas false rest
    else c :: stripTrailingCommas (c == '"') rest

def clean (text : String) : String :=
  String.ofList (stripTrailingCommas false (stripComments .code text.toList))

end ConfigText

structure ConfigFile where
  parent : Option String := none
  strict : Option Bool := none
  strictNullChecks : Option Bool := none
  baseUrl : Option String := none
  paths : Option (Table (List String)) := none
  deriving DecidableEq, Repr, Inhabited

namespace ConfigFile

def strings? (value : Json) : Option (List String) := do
  (← value.asArray?).mapM Json.asString?

def paths? (value : Json) : Option (Table (List String)) := do
  let entries ← (← value.asObject?).mapM fun (pattern, targets) => do
    pure (pattern, ← strings? targets)
  pure (Table.ofEntries entries)

def compilerOptions? (file : ConfigFile) (value : Json) : Option ConfigFile := do
  match ← Json.fields? ["strict", "strictNullChecks", "baseUrl", "paths"] 4 value with
  | [strict, checks, baseUrl, paths] =>
    pure { file with
      strict := ← Json.optional? Json.asBool? strict
      strictNullChecks := ← Json.optional? Json.asBool? checks
      baseUrl := ← Json.optional? Json.asString? baseUrl
      paths := ← Json.optional? paths? paths }
  | _ => none

def ofJson? (value : Json) : Option ConfigFile := do
  match ← Json.fields? ["extends", "compilerOptions"] 1 value with
  | [parent, options] =>
    let file : ConfigFile := { parent := ← Json.optional? Json.asString? parent }
    match options with
    | none => pure file
    | some options => compilerOptions? file options
  | _ => none

def read (tree : FileTree) (path : Path) : Except ConfigError ConfigFile :=
  match tree.read path with
  | .error fault => .error (.unreadable path fault)
  | .ok text =>
    match (Json.read? (ConfigText.clean text)).bind ofJson? with
    | some file => .ok file
    | none => .error (.malformed path)

def directory (path : Path) : Path :=
  path.parent?.getD ⟨"/"⟩

def parentPath? (path : Path) (file : ConfigFile) : Option Path := do
  let parent ← file.parent
  guard (parent.startsWith ".")
  let target := ((directory path).join ⟨parent⟩).normalize
  pure (if target.text.endsWith ".json" then target else ⟨target.text ++ ".json"⟩)

def apply (path : Path) (file : ConfigFile) (options : CompilerOptions) : CompilerOptions :=
  let dir := path.parent?.getD ⟨""⟩
  { options with
    strict := file.strict.getD options.strict
    strictNullChecks := file.strictNullChecks <|> options.strictNullChecks
    baseUrl := (file.baseUrl.map fun url => (dir.join ⟨url⟩).normalize) <|> options.baseUrl
    paths := file.paths.getD options.paths
    pathsBase := if file.paths.isSome then some dir else options.pathsBase }

end ConfigFile

namespace CompilerOptions

/-- Reads a chain of files from `path` on. The files already read are `chain`, the last one
first. A tree has finitely many files, so `fuel` above their number is never used up. -/
def loadChain (tree : FileTree) : Nat → List (Path × ConfigFile) → Path →
    Except ConfigError (List (Path × ConfigFile))
  | 0, _, path => .error (.circular path)
  | fuel + 1, chain, path =>
    if chain.any fun (p, _) => p.samePlace path then .error (.circular path)
    else do
      let file ← ConfigFile.read tree path
      let chain := (path, file) :: chain
      match file.parentPath? path with
      | none => .ok chain
      | some parent => loadChain tree fuel chain parent

def load (tree : FileTree) (path : Path) : Except ConfigError CompilerOptions := do
  let chain ← loadChain tree (tree.files.length + 1) [] path.normalize
  pure (chain.foldl (fun options (path, file) => file.apply path options) {})

end CompilerOptions

end PropContract
