import PropContract.Number.Double
import PropContract.Table

/-!
JSON values. An object keeps its members in order, repeated names included. A text can be well
formed and still stand for no value: half of a surrogate pair is no character, and a number can be
out of range.
-/

namespace PropContract

inductive Json where
  | null
  | bool (value : Bool)
  | integer (value : Int)
  | real (value : Double)
  | string (value : String)
  | array (items : List Json)
  | object (members : List (String × Json))
  /-- A text without a value: a string that is not Unicode, a number out of range, an object in
  which such a string is a name. -/
  | unreadable
  deriving Inhabited

namespace Json

def asBool? : Json → Option Bool
  | bool b => some b
  | _ => none

def asString? : Json → Option String
  | string s => some s
  | _ => none

def asArray? : Json → Option (List Json)
  | array items => some items
  | _ => none

def asObject? : Json → Option (List (String × Json))
  | object members => some members
  | _ => none

mutual

def depth : Json → Nat
  | array items => itemsDepth items + 1
  | object members => membersDepth members + 1
  | null | bool _ | integer _ | real _ | string _ | unreadable => 0

def itemsDepth : List Json → Nat
  | [] => 0
  | item :: items => max item.depth (itemsDepth items)

def membersDepth : List (String × Json) → Nat
  | [] => 0
  | (_, value) :: members => max value.depth (membersDepth members)

end

def isNull : Json → Bool
  | null => true
  | _ => false

def member? (name : String) : Json → Option Json
  | object members => Table.get? name members
  | _ => none

def field? (name : String) (members : List (String × Json)) : Option (Option Json) :=
  match members.filter (fun entry => entry.1 == name) with
  | [] => some none
  | [entry] => some (some entry.2)
  | _ => none

end Json

end PropContract
