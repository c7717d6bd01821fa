import PropContract.CommandLine.Arguments
import PropContract.Json.Reader

/-!
Settings of a run, from a file and from the command line, which wins.
-/

namespace PropContract

structure Settings where
  validators : ValidatorOptions := {}
  conflict : ConflictPolicy := .fail
  includeUnused : Bool := true
  ensureImport : Bool := true
  deriving DecidableEq, Repr, Inhabited

namespace Settings

def sections : List String :=
  ["generator", "injector"]

def injectorFields : List String :=
  ["conflict", "includeUnusedProps", "ensureImport"]

def withInjector? (s : Settings) (value : Json) : Option Settings := do
  match ← Json.fields? injectorFields 0 value with
  | [conflict, includeUnused, ensureImport] =>
    pure { s with
      conflict := ← ValidatorOptions.given?
        (fun j => j.asVariant?.bind ConflictPolicy.ofText?) .fail conflict
      includeUnused := ← ValidatorOptions.given? Json.asBool? true includeUnused
      ensureImport := ← ValidatorOptions.given? Json.asBool? true ensureImport }
  | _ => none

def hasOnly (names : List String) : Json → Bool
  | .object members => members.all fun (name, _) => names.contains name
  | _ => true

def ofJson? (value : Json) : Option Settings := do
  guard (hasOnly sections value)
  match ← Json.fields? sections 0 value with
  | [generator, injector] =>
    let s : Settings :=
      { validators := ← ValidatorOptions.given? ValidatorOptions.ofJson? {} generator }
    match injector with
    | some injector => s.withInjector? injector
    | none => pure s
  | _ => none

def override (s : Settings) (a : Arguments) : Settings :=
  { s with
    validators := { s.validators with
      sortProps := s.validators.sortProps || a.sortProps
      includeComments := s.validators.includeComments || a.includeComments
      includeDocs := s.validators.includeDocs && !a.noDocs }
    conflict := a.conflict.getD s.conflict
    includeUnused := a.includeUnused.getD s.includeUnused }

def injectOptions (s : Settings) : InjectOptions where
  conflict := s.conflict
  includeUnused := s.includeUnused
  ensureImport := s.ensureImport
  validators := s.validators

end Settings

end PropContract
