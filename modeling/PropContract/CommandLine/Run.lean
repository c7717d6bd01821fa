import PropContract.CommandLine.Report
import PropContract.CommandLine.Settings
import PropContract.Extraction
import PropContract.Glob
import PropContract.Shape.Json

namespace PropContract

inductive RunError where
  | unreadable (path : Path) (fault : ReadFault)
  | malformed (path : Path)
  | options (e : ConfigError)
  | invalidGlob (pattern : String)
  | project (e : ProjectError)
  | extraction (e : Extraction.ExtractError)

def RunError.message : RunError → String
  | unreadable path fault => s!"failed to read {path.text}: {fault.message}"
  | malformed path => s!"invalid config {path.text}: malformed settings"
  | options e => e.message
  | invalidGlob pattern => s!"invalid glob pattern: {pattern}"
  | project e => e.message
  | extraction e => e.message

namespace Workspace

def alwaysIgnored : List String :=
  ["**/node_modules/**", "**/dist/**", "**/.git/**"]

def outDirPattern? (workspace : Path) (outDir : Option Path) : Option String := do
  let relative ← (← outDir).relativeTo? workspace
  guard (relative.text != "")
  pure (relative.text ++ "/**")

def ignored (workspace : Path) (outDir : Option Path) (patterns : List String) :
    Except RunError (List Glob) :=
  (patterns ++ alwaysIgnored ++ (outDirPattern? workspace outDir).toList).mapM fun pattern =>
    match Glob.ofText? pattern with
    | some glob => .ok glob
    | none => .error (.invalidGlob pattern)

def sources (tree : FileTree) (workspace : Path) (globs : List Glob) : List Path :=
  (tree.filesBelow workspace).filter fun p =>
    (SourceKind.ofPath? p).isSome &&
      !globs.any fun glob => glob.isMatch (p.relativeTo workspace).text

def commonRoot? : List Path → Option Path
  | [] => none
  | first :: others => do
    let root ← first.parent?
    others.foldlM (fun root p => root.ancestors.find? p.startsWith) root

def sourceEndings : List String :=
  [".d.ts", ".d.mts", ".d.cts", ".tsx", ".ts", ".mts", ".cts"]

def stem (p : Path) : String :=
  let name := p.fileName?.getD ""
  (sourceEndings.findSome? fun ending => Modules.strip? ending name).getD name

def builtEndings : List String :=
  [".js", ".jsx", ".mjs", ".cjs"]

end Workspace

structure Job where
  write : Bool
  settings : Settings
  sourceRoot : Path
  outDir : Option Path
  document : Document

namespace Job

def documentAt (job : Job) (source : Path) : Document :=
  ⟨job.document.componentsAt source⟩

/-- Where the outputs for a source are: beside it, or in the matching place below the output
directory. -/
def targetDir (job : Job) (source : Path) : Path :=
  let parent := source.parent?.getD job.sourceRoot
  match job.outDir with
  | none => parent
  | some outDir =>
    match parent.relativeTo? job.sourceRoot with
    | some relative => outDir.join relative
    | none => outDir

/-- Writes a text to a path whose directories are made if they are missing. A message says why
nothing was written. -/
def writeText (tree : FileTree) (target : Path) (text : String) : FileTree × Option String :=
  let parent := target.parent?.getD ⟨""⟩
  match tree.makeDirectories parent with
  | (tree, some fault) => (tree, some s!"failed to create {parent.text}: {fault.message}")
  | (tree, none) =>
    match tree.write target text with
    | (tree, some fault) => (tree, some s!"failed to write {target.text}: {fault.message}")
    | (tree, none) => (tree, none)

def writtenReport (report : Report) (target : Path) (fault : Option String) : Report :=
  match fault with
  | none => { report with target := some target, status := .written }
  | some message => { report with target := some target, status := .failed, message }

def generatedTarget (job : Job) (source : Path) : Path :=
  (job.targetDir source).join ⟨Workspace.stem source ++ ".propTypes.js"⟩

def generate (job : Job) (tree : FileTree) (report : Report) (d : Document) :
    FileTree × Report :=
  let text := Block.ofDocument job.settings.validators d
  if job.write then
    let target := job.generatedTarget report.source
    let (tree, fault) := writeText tree target text
    (tree, writtenReport report target fault)
  else (tree, { report with status := .generated, output := some text })

def builtFile? (job : Job) (tree : FileTree) (source : Path) : Option Path :=
  (Workspace.builtEndings.map fun ending =>
    (job.targetDir source).join ⟨Workspace.stem source ++ ending⟩).find? tree.isFile

def inject (job : Job) (tree : FileTree) (report : Report) (d : Document) : FileTree × Report :=
  match job.builtFile? tree report.source with
  | none =>
    let dir := job.targetDir report.source
    (tree, { report with
      status := .skipped, message := some s!"no transpiled output found in {dir.text}" })
  | some target =>
    let failed (message : String) : Report :=
      { report with target := some target, status := .failed, message := some message }
    match tree.read target with
    | .error fault => (tree, failed s!"failed to read {target.text}: {fault.message}")
    | .ok text =>
      match Injection.inject job.settings.injectOptions d text with
      | .error e => (tree, failed e.message)
      | .ok text =>
        if job.write then
          let (tree, fault) := writeText tree target text
          (tree, writtenReport report target fault)
        else
          (tree, { report with target := some target, status := .injected, output := some text })

def process (job : Job) (mode : RunMode) (tree : FileTree) (source : Path) :
    FileTree × Option Report :=
  let d := job.documentAt source
  if d.components.isEmpty then (tree, none)
  else
    let report : Report :=
      { source, components := d.components.map Component.name, status := .generated }
    let (tree, report) := match mode with
      | .inject => job.inject tree report d
      | _ => job.generate tree report d
    (tree, some report)

def processAll (job : Job) (mode : RunMode) : FileTree → List Path → FileTree × List Report
  | tree, [] => (tree, [])
  | tree, source :: sources =>
    let (tree, report) := job.process mode tree source
    let (tree, reports) := processAll job mode tree sources
    (tree, report.toList ++ reports)

end Job

structure Outcome where
  tree : FileTree
  reports : List Report := []
  summary : Summary
  stdout : String
  stderr : String := ""

def Outcome.exitCode (o : Outcome) : Nat :=
  if 0 < o.summary.failedCount then 1 else 0

namespace Run

def settings (tree : FileTree) (workspace : Path) (a : Arguments) : Except RunError Settings := do
  let s ← match a.config with
    | none => pure {}
    | some config =>
      let path := config.absoluteIn workspace
      let text ← (tree.read path).mapError (RunError.unreadable path)
      match (Json.read? text).bind Settings.ofJson? with
      | some s => pure s
      | none => throw (.malformed path)
  pure (s.override a)

def compilerOptions (tree : FileTree) (workspace : Path) (a : Arguments) :
    Except RunError CompilerOptions :=
  match a.tsconfig with
  | some path => (CompilerOptions.load tree (path.absoluteIn workspace)).mapError .options
  | none =>
    let path := workspace.join ⟨"tsconfig.json"⟩
    if tree.isFile path then (CompilerOptions.load tree path).mapError .options else .ok {}

def files (tree : FileTree) (workspace : Path) (outDir : Option Path) (a : Arguments) :
    Except RunError (List Path) :=
  if a.files.isEmpty then do
    pure (Workspace.sources tree workspace (← Workspace.ignored workspace outDir a.ignore))
  else .ok (a.files.map fun file => file.absoluteIn workspace)

def rootsOf (p : Project) (files : List Path) : List Path :=
  (files.filterMap fun file => ((p.idOf? file).bind p.file?).map SourceFile.path).eraseDups

/-- Work on a tree of files. What it has done to the tree stays done when it fails. -/
abbrev Work := ExceptT RunError (StateM FileTree)

def look {α : Type} (find : FileTree → Except RunError α) : Work α := do
  find (← get)

def work (cwd : Path) (a : Arguments) : Work Outcome := do
  let workspace := (a.workspace.getD ⟨"."⟩).absoluteIn cwd
  let settings ← look fun tree => settings tree workspace a
  let options ← look fun tree => compilerOptions tree workspace a
  let outDir := a.outDir.map fun dir => dir.absoluteIn workspace
  let files ← look fun tree => files tree workspace outDir a
  let project ← look fun tree => (Project.load tree options files).mapError RunError.project
  let roots := rootsOf project files
  let document ← look fun _ =>
    (Extraction.document { project } roots).mapError RunError.extraction
  match a.mode.getD .generate with
  | .ast => pure {
      tree := ← get
      summary := { fileCount := roots.length, componentCount := document.components.length }
      stdout := document.toJson.render ++ "\n" }
  | mode =>
    let job : Job := {
      write := a.write, settings, outDir, document
      sourceRoot := (Workspace.commonRoot? roots).getD workspace }
    let reports ← modifyGet fun tree => (job.processAll mode tree roots).swap
    let style := a.output.getD .human
    let summary := Summary.ofReports reports
    pure {
      tree := ← get, reports, summary
      stdout := Report.printed style workspace reports
      stderr := if style = .human then summary.line ++ "\n" else "" }

def run (cwd : Path) (a : Arguments) (tree : FileTree) : Except RunError Outcome :=
  ((work cwd a).run.run tree).1

/-- The tree that a run leaves, also one that has failed. -/
def treeAfter (cwd : Path) (a : Arguments) (tree : FileTree) : FileTree :=
  ((work cwd a).run.run tree).2

end Run

end PropContract
