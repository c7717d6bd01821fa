import PropContract.Project.Options
import PropContract.Project.Scope
import PropContract.Project.SourceKind
import PropContract.Text.Position

namespace PropContract

open Syntax

structure SourceFile where
  path : Path
  kind : SourceKind
  text : String
  items : List Item
  scope : Scope
  isRoot : Bool
  deriving Inhabited

namespace SourceFile

def textOf (file : SourceFile) (span : Span) : String :=
  (span.slice? file.text).getD ""

end SourceFile

inductive ProjectError where
  | unreadable (path : Path) (fault : ReadFault)
  | relative (path : Path)
  | malformed (path : Path) (position : Position)
  deriving DecidableEq, Repr

def ProjectError.message : ProjectError → String
  | unreadable path fault => s!"failed to read {path.text}: {fault.message}"
  | relative path => s!"source path must be absolute: {path.text}"
  | malformed path position =>
    s!"{path.text}:{position.line}:{position.column}: unexpected token"

structure DeclRef where
  file : Nat
  name : String
  deriving DecidableEq, Repr, Inhabited

structure Project where
  options : CompilerOptions := {}
  files : List SourceFile := []
  deriving Inhabited

namespace Project

def file? (p : Project) (id : Nat) : Option SourceFile :=
  p.files[id]?

def scopeOf (p : Project) (id : Nat) : Scope :=
  ((p.file? id).map SourceFile.scope).getD {}

def idAt? (p : Project) (place : Path) : Option Nat :=
  p.files.findIdx? fun f => f.path == place

def idOf? (p : Project) (path : Path) : Option Nat :=
  p.idAt? path.normalize

def contains (p : Project) (path : Path) : Bool :=
  (p.idOf? path).isSome

def roots (p : Project) : List SourceFile :=
  p.files.filter SourceFile.isRoot

def declarations (p : Project) (d : DeclRef) : List Declared :=
  ((p.scopeOf d.file).locals.get? d.name).getD []

end Project

namespace Modules

def strip? (ending : String) (text : String) : Option String :=
  if ending.toList.isSuffixOf text.toList then
    some (String.ofList (text.toList.take (text.length - ending.length)))
  else none

def builtEndings : List (String × List String) :=
  [(".js", [".ts", ".tsx", ".d.ts"]), (".jsx", [".tsx"]), (".mjs", [".mts"]), (".cjs", [".cts"])]

def candidates (base : Path) : List Path :=
  (if (SourceKind.ofPath? base).isSome then [base] else []) ++
  (builtEndings.flatMap fun (built, sources) =>
    match strip? built base.text with
    | some stem => sources.map fun ending => ⟨stem ++ ending⟩
    | none => []) ++
  ([".ts", ".tsx", ".d.ts"].map fun ending => ⟨base.text ++ ending⟩) ++
  ["index.ts", "index.tsx", "index.d.ts"].map fun index => base.join ⟨index⟩

def splitStar? (pattern : String) : Option (List Char × List Char) :=
  let cs := pattern.toList
  let before := cs.takeWhile (· != '*')
  match cs.drop before.length with
  | [] => none
  | _ :: after => some (before, after)

def capture? (pattern specifier : String) : Option (List Char) :=
  match splitStar? pattern with
  | none => if pattern = specifier then some [] else none
  | some (before, after) =>
    let cs := specifier.toList
    if before.isPrefixOf cs then
      let rest := cs.drop before.length
      if after.isSuffixOf rest then some (rest.take (rest.length - after.length)) else none
    else none

def fillStar (target : String) (text : List Char) : String :=
  match splitStar? target with
  | none => target
  | some (before, after) => String.ofList (before ++ text ++ after)

def mappedPaths (options : CompilerOptions) (specifier : String) : List Path :=
  match options.baseUrl <|> options.pathsBase with
  | none => []
  | some root =>
    options.paths.flatMap fun (pattern, targets) =>
      match capture? pattern specifier with
      | none => []
      | some text => targets.map fun target => (root.join ⟨fillStar target text⟩).normalize

def bases (options : CompilerOptions) (importer : Path) (specifier : String) : List Path :=
  if specifier.startsWith "./" || specifier.startsWith "../" || specifier = "." then
    [((importer.parent?.getD ⟨"/"⟩).join ⟨specifier⟩).normalize]
  else if specifier.startsWith "/" then [(Path.mk specifier).normalize]
  else
    mappedPaths options specifier ++
      (options.baseUrl.map fun url => (url.join ⟨specifier⟩).normalize).toList

def find? (options : CompilerOptions) (exists? : Path → Bool) (importer : Path)
    (specifier : String) : Option Path :=
  ((bases options importer specifier).flatMap candidates).find? exists?

end Modules

namespace Project

def moduleOf? (p : Project) (id : Nat) (specifier : String) : Option Nat := do
  let file ← p.file? id
  let target ← Modules.find? p.options (fun c => (p.idAt? c).isSome) file.path specifier
  p.idAt? target

structure Pending where
  texts : Table String
  queue : List Path

def parseFile (roots : List String) (path : Path) (kind : SourceKind) (text : String) :
    Except ProjectError SourceFile :=
  match Grammar.parseModule kind.dialect text with
  | .error e => .error (.malformed path (Position.of text e.offset))
  | .ok items => .ok {
      path, kind, text, items
      scope := Scope.ofItems items
      isRoot := roots.contains path.text }

def enqueue (tree : FileTree) (p : Project) (file : SourceFile) (rest : Pending) : List Path :=
  if p.options.followImports then
    file.scope.requests.foldl (fun queue request =>
      let exists? := fun c : Path => rest.texts.contains c.text || tree.isFile c
      match Modules.find? p.options exists? file.path request with
      | some target =>
        if (p.idAt? target).isSome || queue.contains target then queue else queue ++ [target]
      | none => queue) rest.queue
  else rest.queue

/-- Reads the files of the queue. Each round reads one file or drops one path, and a path is
queued once. -/
def readAll (tree : FileTree) (roots : List String) : Nat → Pending → Project →
    Except ProjectError Project
  | 0, _, p => .ok p
  | fuel + 1, pending, p =>
    match pending.queue with
    | [] => .ok p
    | path :: queue =>
      match SourceKind.ofPath? path with
      | none => readAll tree roots fuel { pending with queue } p
      | some kind =>
        if (p.idAt? path).isSome then readAll tree roots fuel { pending with queue } p
        else do
          let text ← match pending.texts.get? path.text with
            | some text => .ok text
            | none => (tree.read path).mapError (.unreadable path)
          let file ← parseFile roots path kind text
          let rest : Pending := { texts := pending.texts.erase path.text, queue }
          let p := { p with files := p.files ++ [file] }
          readAll tree roots fuel { rest with queue := enqueue tree p file rest } p

def placed (sources : List (Path × String)) : Except ProjectError (Table String) :=
  sources.foldlM (fun table (path, text) =>
    if path.isAbsolute then .ok (table.put path.normalize.text text)
    else .error (.relative path)) []

def ofSources (tree : FileTree) (options : CompilerOptions) (sources : List (Path × String)) :
    Except ProjectError Project := do
  let texts ← placed sources
  let queue := texts.keys.map Path.mk
  readAll tree texts.keys (2 * (texts.length + tree.files.length) + 1) ⟨texts, queue⟩ { options }

def load (tree : FileTree) (options : CompilerOptions) (paths : List Path) :
    Except ProjectError Project := do
  let sources ← paths.mapM fun path => do
    let text ← (tree.read path).mapError (ProjectError.unreadable path)
    pure (path, text)
  ofSources tree options sources

end Project

end PropContract
