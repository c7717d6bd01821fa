import PropContract.Injection.Survey
import PropContract.Text.Edit
import PropContract.Text.Position
import PropContract.Validator.Block

namespace PropContract

inductive ConflictPolicy where
  | fail
  | replace
  | merge
  deriving DecidableEq, Repr, Inhabited

def ConflictPolicy.ofText? : String → Option ConflictPolicy
  | "fail" => some .fail
  | "replace" => some .replace
  | "merge" => some .merge
  | _ => none

structure InjectOptions where
  typed : Bool := false
  conflict : ConflictPolicy := .fail
  includeUnused : Bool := true
  ensureImport : Bool := true
  validators : ValidatorOptions := {}
  deriving DecidableEq, Repr, Inhabited

def InjectOptions.ofJson? : Json → Option InjectOptions
  | .object members => do
    let field := fun name => Json.field? name members
    pure {
      typed := ← ValidatorOptions.given? Json.asBool? false (← field "typescript")
      conflict := ← ValidatorOptions.given?
        (fun j => j.asVariant?.bind ConflictPolicy.ofText?) .fail (← field "conflict")
      includeUnused := ← ValidatorOptions.given? Json.asBool? true (← field "includeUnusedProps")
      ensureImport := ← ValidatorOptions.given? Json.asBool? true (← field "ensureImport")
      validators := ← ValidatorOptions.ofMembers? members }
  | _ => none

inductive InjectError where
  | malformed (position : Position)
  | notFound (component : String)
  | ambiguous (component : String) (count : Nat)
  | existing (component : String) (position : Position)
  | edit (component : String) (e : EditError)
  deriving DecidableEq, Repr

namespace InjectError

def message : InjectError → String
  | malformed p => s!"failed to parse source at {p.line}:{p.column}: unexpected token"
  | notFound component => s!"no declaration found for component `{component}`"
  | ambiguous component count => s!"component `{component}` matches {count} declarations"
  | existing component p =>
    s!"component `{component}` already declares propTypes at {p.line}:{p.column}"
  | edit component e => s!"internal edit conflict while injecting `{component}`: {e.message}"

def component? : InjectError → Option String
  | malformed _ => none
  | notFound c | ambiguous c _ | existing c _ | edit c _ => some c

end InjectError

namespace Injection

open Survey

def isIndent (c : Char) : Bool :=
  c = ' ' || c = '\t'

def isIndentOrEnd (c : Char) : Bool :=
  isIndent c || c = ';'

/-- How many characters after a removed part go with it: blanks, semicolons and the end of the
line. `none` when something else is on the line. -/
def lineEnd? (after : List Char) : Option Nat :=
  let blanks := (after.takeWhile isIndentOrEnd).length
  match after.drop blanks with
  | [] => some blanks
  | '\r' :: '\n' :: _ => some (blanks + 2)
  | '\n' :: _ => some (blanks + 1)
  | _ => none

/-- How many characters before a removed part go with it: its indentation. `none` when something
else is on the line; `before` runs backwards. -/
def lineStart? (before : List Char) : Option Nat :=
  let blanks := (before.takeWhile isIndent).length
  match before.drop blanks with
  | [] => some blanks
  | '\n' :: _ => some blanks
  | _ => none

def widen (source : String) (span : Span) : Span :=
  match Text.cut? span.start source.toList, Text.cut? span.stop source.toList with
  | some (before, _), some (_, after) =>
    match lineStart? before.reverse, lineEnd? after with
    | some indent, some rest => ⟨span.start - indent, span.stop + rest⟩
    | _, _ => span
  | _, _ => span

/-- Generated entries first, then those of hand-written ones that have a key of their own, each
key once, or none at all. -/
def keptEntries : List String → List HandWritten → List String
  | _, [] => []
  | seen, e :: es =>
    match e.key with
    | none => ("  " ++ e.text ++ ",\n") :: keptEntries seen es
    | some key =>
      if seen.contains key then keptEntries seen es
      else ("  " ++ e.text ++ ",\n") :: keptEntries (key :: seen) es

def mergedBlock (o : ValidatorOptions) (c : Component) (written : List HandWritten) : String :=
  let generated := Block.entries o c
  Block.wrap o c.name (generated.map Prod.snd ++ keptEntries (generated.map Prod.fst) written)

def withoutEnd (block : String) : String :=
  String.ofList (Text.trimEnd block.toList)

def usedPart (o : InjectOptions) (candidate : Candidate) (c : Component) : Component :=
  match o.includeUnused, candidate.used with
  | false, some used => { c with props := c.props.filter fun p => used.contains p.name }
  | _, _ => c

def appended (candidate : Candidate) (block : String) : Edit :=
  Edit.insert candidate.stop ("\n\n" ++ withoutEnd block)

/-- Puts a block in the place of the first statement with validators, and removes the others.
The edits are given with whether the block has found its place. -/
def replaceExisting (source block : String) : Bool → List Existing → List Edit × Bool
  | placed, [] => ([], placed)
  | placed, e :: es =>
    if e.place = .statement && !placed then
      let (edits, placed) := replaceExisting source block true es
      (⟨e.span, withoutEnd block⟩ :: edits, placed)
    else
      let (edits, placed) := replaceExisting source block placed es
      (Edit.delete (widen source e.span) :: edits, placed)

def candidateFor (found : Findings) (c : Component) : Except InjectError Candidate :=
  match found.candidates.filter fun k => k.name == c.name && k.fingerprint.accepts c.kind with
  | [] => .error (.notFound c.name)
  | [candidate] => .ok candidate
  | candidates => .error (.ambiguous c.name candidates.length)

def componentEdits (o : InjectOptions) (source : String) (found : Findings) (d : Document)
    (c : Component) : Except InjectError (List Edit) := do
  let count := (d.components.filter fun k => k.name == c.name).length
  if 1 < count then throw (.ambiguous c.name count)
  let candidate ← candidateFor found c
  let used := usedPart o candidate c
  match found.existing.filter fun e => e.component == c.name with
  | [] => pure [appended candidate (Block.ofComponent o.validators used)]
  | first :: others =>
    let existing := first :: others
    let written ← match o.conflict with
      | .fail => throw (.existing c.name (Position.of source first.span.start))
      | .replace => pure []
      | .merge => pure (existing.flatMap Existing.entries)
    let block := mergedBlock o.validators used written
    let (edits, placed) := replaceExisting source block false existing
    pure (if placed then edits else edits ++ [appended candidate block])

def importLine (o : ValidatorOptions) (found : Findings) : String :=
  let module := Quoted.encode o.quotes "prop-types"
  if found.importsByCall then "const " ++ o.importedName ++ " = require(" ++ module ++ ");"
  else "import " ++ o.importedName ++ " from " ++ module ++ ";"

def importEdits (o : InjectOptions) (found : Findings) : List Edit :=
  if o.ensureImport && !found.bindings.contains o.validators.importedName then
    let line := importLine o.validators found
    match found.lastImport <|> found.prologue with
    | some offset => [Edit.insert offset ("\n" ++ line)]
    | none => [Edit.insert 0 (line ++ "\n")]
  else []

def dialect (o : InjectOptions) : Grammar.Dialect :=
  { typed := o.typed, markup := true }

def survey (o : InjectOptions) (source : String) : Except InjectError Findings :=
  match Grammar.parseModule (dialect o) source with
  | .ok items => .ok (ofItems source items)
  | .error e => .error (.malformed (Position.of source e.offset))

def inject (o : InjectOptions) (d : Document) (source : String) : Except InjectError String :=
  if d.components.isEmpty then .ok source
  else do
    let found ← survey o source
    let edits ← d.components.mapM (componentEdits o source found d)
    match Edit.apply (edits.flatten ++ importEdits o found) source with
    | .ok text => pure text
    | .error e => throw (.edit (", ".intercalate (d.components.map Component.name)) e)

end Injection

end PropContract
