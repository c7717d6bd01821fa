import PropContract.Proofs.Table
import PropContract.Shape.Basic

namespace PropContract

/-- Values at run time. Objects have an identity beside their fields. -/
inductive Value where
  | undefined
  | null
  | boolean (value : Bool)
  | number (value : Double)
  | notANumber
  | bigInt (value : Int)
  | string (value : String)
  | symbol (identity : Nat)
  | function (identity : Nat)
  | array (items : List Value)
  | object (identity : Nat) (fields : List (String × Value))

namespace Value

def isNullish : Value → Bool
  | undefined | null => true
  | _ => false

def isObject : Value → Bool
  | object .. => true
  | _ => false

def items? : Value → Option (List Value)
  | array items => some items
  | _ => none

def fields? : Value → Option (Table Value)
  | object _ fields => some fields
  | _ => none

def fieldOf (fields : Table Value) (name : String) : Value :=
  (fields.get? name).getD undefined

end Value

def Primitive.holds : Primitive → Value → Bool
  | .string, .string _ | .number, .number _ | .number, .notANumber | .boolean, .boolean _
  | .bigInt, .bigInt _ | .symbol, .symbol _ | .object, .object .. | .array, .array _
  | .any, _ => true
  | _, _ => false

/-- A value is a literal, and not only equal to it: the two zeros are told apart. -/
def Literal.holds : Literal → Value → Bool
  | .string s, .string t => s == t
  | .number a, .number b => a == b
  | .boolean a, .boolean b => a == b
  | .null, .null => true
  | _, _ => false

structure World where
  isInstance : String → Value → Bool
  renders : ElementKind → Value → Bool

end PropContract
