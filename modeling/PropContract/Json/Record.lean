import PropContract.Json.Value

/-!
Records in JSON: objects in which each name of a field may stand once, or lists of the values.
-/

namespace PropContract.Json

def optional? {α : Type} (decode : Json → Option α) : Option Json → Option (Option α)
  | none | some .null => some none
  | some value => (decode value).map some

/-- The fields of a record that is written as an object or as the list of its values. The number
of values that a list must have at least is given. -/
def fields? (names : List String) (least : Nat) : Json → Option (List (Option Json))
  | .object members => names.mapM fun name => field? name members
  | .array items =>
    if least ≤ items.length ∧ items.length ≤ names.length then
      some (names.zipIdx.map fun (_, i) => items[i]?)
    else none
  | _ => none

def asVariant? : Json → Option String
  | string s => some s
  | object [(s, null)] => some s
  | _ => none

def asInnerVariant? : Json → Option String
  | object [(s, object [])] => some s
  | value => value.asVariant?

def optionalMember (name : String) (value : Option Json) : List (String × Json) :=
  match value with
  | some v => [(name, v)]
  | none => []

end PropContract.Json
