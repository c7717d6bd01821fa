import PropContract.Number.Decimal
import PropContract.Shape.Basic
import PropContract.Validator.Quoted

namespace PropContract

mutual

inductive Validator where
  | plain (name : String)
  | oneOf (values : List Literal)
  | arrayOf (element : Validator)
  | shape (fields : List ValidatorField)
  | oneOfType (branches : List Validator)
  | instanceOf (name : String)

inductive ValidatorField where
  | mk (name : String) (required : Bool) (validator : Validator)

end

instance : Inhabited Validator := ⟨.plain "any"⟩

namespace Validator

def literalText (style : QuoteStyle) : Literal → String
  | .string v => Quoted.encode style v
  | .number v => v.plainText
  | .boolean true => "true"
  | .boolean false => "false"
  | .null => "null"

def commas (items : List String) : String :=
  ", ".intercalate items

def applied (o : ValidatorOptions) (name argument : String) : String :=
  o.importedName ++ "." ++ name ++ "(" ++ argument ++ ")"

def requiredText (required : Bool) : String :=
  if required then ".isRequired" else ""

mutual

def text (o : ValidatorOptions) : Validator → String
  | plain name => o.importedName ++ "." ++ name
  | oneOf values => applied o "oneOf" ("[" ++ commas (values.map (literalText o.quotes)) ++ "]")
  | arrayOf e => applied o "arrayOf" (e.text o)
  | shape fields => applied o "shape" ("\x7b " ++ commas (fieldTexts o fields) ++ " \x7d")
  | oneOfType branches => applied o "oneOfType" ("[" ++ commas (texts o branches) ++ "]")
  | instanceOf name => applied o "instanceOf" name

def texts (o : ValidatorOptions) : List Validator → List String
  | [] => []
  | v :: vs => v.text o :: texts o vs

def fieldTexts (o : ValidatorOptions) : List ValidatorField → List String
  | [] => []
  | .mk name required v :: fields =>
    (Quoted.key o.quotes name ++ ": " ++ v.text o ++ requiredText required) :: fieldTexts o fields

end

def primitiveName : Primitive → String
  | .string => "string"
  | .number | .bigInt => "number"
  | .boolean => "bool"
  | .symbol => "symbol"
  | .object => "object"
  | .array => "array"
  | .any => "any"

def elementName : ElementKind → String
  | .node => "node"
  | .element => "element"
  | .elementType => "elementType"

abbrev Branch := Literal ⊕ Validator

def literalsOf (branches : List Branch) : List Literal :=
  branches.filterMap Sum.getLeft?

/-- Adds a branch to those before it. All the literals stand together, where the first of them
was; a validator that is written as another one is left out. -/
def addBranch (o : ValidatorOptions) (literals : List Literal) (kept : List Validator × Bool) :
    Branch → List Validator × Bool
  | .inl _ => if kept.2 then kept else (kept.1 ++ [oneOf literals], true)
  | .inr v =>
    if (kept.1.map (text o)).contains (v.text o) then kept else (kept.1 ++ [v], kept.2)

def union (o : ValidatorOptions) (branches : List Branch) : Validator :=
  match (branches.foldl (addBranch o (literalsOf branches)) ([], false)).1 with
  | [v] => v
  | vs => oneOfType vs

mutual

def ofShape (o : ValidatorOptions) (refer : String → Validator) : Shape → Validator
  | .primitive kind => plain (primitiveName kind)
  | .literal l => oneOf [l]
  | .oneOf ls => oneOf ls
  | .arrayOf e => if e.isAny then plain "array" else arrayOf (ofShape o refer e)
  | .object [] => plain "object"
  | .object (p :: ps) => shape (ofProps o refer (p :: ps))
  | .union members => union o (branchesOf o refer members)
  | .function => plain "func"
  | .reference name => refer name
  | .element kind => plain (elementName kind)
  | .instance name => instanceOf name

def branchesOf (o : ValidatorOptions) (refer : String → Validator) : List Shape → List Branch
  | [] => []
  | .literal l :: rest => .inl l :: branchesOf o refer rest
  | s :: rest => .inr (ofShape o refer s) :: branchesOf o refer rest

def ofProps (o : ValidatorOptions) (refer : String → Validator) :
    List PropInfo → List ValidatorField
  | [] => []
  | .mk name required s _ _ _ :: rest =>
    .mk name required (ofShape o refer s) :: ofProps o refer rest

end

/-- The validator of a reference. A definition that is being expanded already, or is missing, is
only known to be an object. -/
def ofReference (o : ValidatorOptions) (definitions : Table Shape) :
    Nat → List String → String → Validator
  | 0, _, _ => plain "object"
  | n + 1, expanding, name =>
    if expanding.contains name then plain "object"
    else
      match definitions.get? name with
      | some s => ofShape o (ofReference o definitions n (name :: expanding)) s
      | none => plain "object"

def ofComponent (o : ValidatorOptions) (c : Component) (s : Shape) : Validator :=
  ofShape o (ofReference o c.definitions (c.definitions.length + 1) []) s

end Validator

end PropContract
