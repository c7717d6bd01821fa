import PropContract.Json.Reader
import PropContract.Json.Record
import PropContract.Shape.Basic

/-!
Documents as JSON. Names of members that a record does not have are passed over, and a name that it
has may stand there once.
-/

namespace PropContract

namespace Literal

def toJson : Literal → Json
  | string v => .string v
  | number v => .real v
  | boolean v => .bool v
  | null => .null

end Literal

namespace Primitive

def text : Primitive → String
  | string => "string"
  | number => "number"
  | boolean => "boolean"
  | bigInt => "bigInt"
  | symbol => "symbol"
  | object => "object"
  | array => "array"
  | any => "any"

def all : List Primitive := [string, number, boolean, bigInt, symbol, object, array, any]

def ofText? (t : String) : Option Primitive :=
  all.find? fun p => p.text == t

end Primitive

namespace ElementKind

def text : ElementKind → String
  | node => "node"
  | element => "element"
  | elementType => "elementType"

def all : List ElementKind := [node, element, elementType]

def ofText? (t : String) : Option ElementKind :=
  all.find? fun k => k.text == t

end ElementKind

namespace ComponentKind

def text : ComponentKind → String
  | .function => "function"
  | .classBased => "class"
  | .wrapped => "wrapped"

def all : List ComponentKind := [.function, .classBased, .wrapped]

def ofText? (t : String) : Option ComponentKind :=
  all.find? fun k => k.text == t

end ComponentKind

def tagged (kind : String) (value : Json) : Json :=
  .object [("kind", .string kind), ("value", value)]

mutual

def Shape.toJson : Shape → Json
  | .primitive p => tagged "primitive" (.string p.text)
  | .literal l => tagged "literal" l.toJson
  | .oneOf ls => tagged "enumOfLiterals" (.array (ls.map Literal.toJson))
  | .arrayOf s => tagged "arrayOf" s.toJson
  | .object ps => tagged "objectOf" (.array (PropInfo.allToJson ps))
  | .union ss => tagged "unionOf" (.array (Shape.allToJson ss))
  | .function => .object [("kind", .string "functionSignature")]
  | .reference name => tagged "reference" (.string name)
  | .element k => tagged "element" (.string k.text)
  | .instance name => tagged "instanceOf" (.string name)

def Shape.allToJson : List Shape → List Json
  | [] => []
  | s :: ss => s.toJson :: Shape.allToJson ss

def PropInfo.toJson : PropInfo → Json
  | .mk name required shape default doc typeText =>
    .object ([("name", .string name), ("required", .bool required), ("shape", shape.toJson)] ++
      Json.optionalMember "defaultValue" (default.map Literal.toJson) ++
      Json.optionalMember "doc" (doc.map .string) ++
      Json.optionalMember "typeText" (typeText.map .string))

def PropInfo.allToJson : List PropInfo → List Json
  | [] => []
  | p :: ps => p.toJson :: PropInfo.allToJson ps

end

def Component.toJson (c : Component) : Json :=
  .object ([("name", .string c.name), ("originFilePath", .string c.origin.text),
    ("kind", .string c.kind.text), ("props", .array (PropInfo.allToJson c.props))] ++
    if c.definitions.isEmpty then []
    else [("definitions", .object (c.definitions.map fun (name, s) => (name, s.toJson)))])

def Document.toJson (d : Document) : Json :=
  .object [("body", .array (d.components.map Component.toJson))]

def Literal.ofJson? : Json → Option Literal
  | .string v => some (.string v)
  | .integer i => some (.number (Double.ofInt i))
  | .real v => some (.number v)
  | .bool v => some (.boolean v)
  | .null => some .null
  | .array _ | .object _ | .unreadable => none

def Shape.ofContent? (kind : String) (value : Json) (shape : Unit → Option Shape)
    (shapes : Unit → Option (List Shape)) (props : Unit → Option (List PropInfo)) : Option Shape :=
  match kind with
  | "primitive" => (value.asVariant?.bind Primitive.ofText?).map .primitive
  | "literal" => (Literal.ofJson? value).map .literal
  | "enumOfLiterals" => (value.asArray?.bind fun vs => vs.mapM Literal.ofJson?).map .oneOf
  | "arrayOf" => (shape ()).map .arrayOf
  | "objectOf" => (props ()).map .object
  | "unionOf" => (shapes ()).map .union
  | "functionSignature" => if value.isNull then some .function else none
  | "reference" => value.asString?.map .reference
  | "element" => (value.asVariant?.bind ElementKind.ofText?).map .element
  | "instanceOf" => value.asString?.map .instance
  | _ => none

def Shape.kindIn? (members : List (String × Json)) : Option String := do
  let _ ← Json.field? "value" members
  (← (← Json.field? "kind" members)).asVariant?

def PropInfo.ofParts? (name required : Option Json) (shape : Option Shape)
    (default doc typeText : Option Json) : Option PropInfo := do
  pure (.mk (← (← name).asString?) (← (← required).asBool?) (← shape)
    (← Json.optional? Literal.ofJson? default)
    (← Json.optional? Json.asString? doc)
    (← Json.optional? Json.asString? typeText))

mutual

def Shape.ofJson? : Json → Option Shape
  | .object members => do
    let kind ← Shape.kindIn? members
    Shape.ofMembers? kind members
  | .array [kind, value] => do
    Shape.ofContent? (← kind.asVariant?) value (fun _ => Shape.ofJson? value)
      (fun _ => Shape.listOfJson? value) (fun _ => PropInfo.listOfJson? value)
  | _ => none

def Shape.ofMembers? (kind : String) : List (String × Json) → Option Shape
  | [] => if kind = "functionSignature" then some .function else none
  | (name, value) :: rest =>
    if name = "value" then
      Shape.ofContent? kind value (fun _ => Shape.ofJson? value)
        (fun _ => Shape.listOfJson? value) (fun _ => PropInfo.listOfJson? value)
    else Shape.ofMembers? kind rest

def Shape.listOfJson? : Json → Option (List Shape)
  | .array items => Shape.allOfJson? items
  | _ => none

def Shape.allOfJson? : List Json → Option (List Shape)
  | [] => some []
  | j :: js => do
    let s ← Shape.ofJson? j
    pure (s :: (← Shape.allOfJson? js))

def PropInfo.ofJson? : Json → Option PropInfo
  | .object members => do
    let _ ← Json.field? "shape" members
    PropInfo.ofParts? (← Json.field? "name" members) (← Json.field? "required" members)
      (PropInfo.shapeIn? members) (← Json.field? "defaultValue" members)
      (← Json.field? "doc" members) (← Json.field? "typeText" members)
  | .array (name :: required :: shape :: rest) =>
    if rest.length ≤ 3 then
      PropInfo.ofParts? (some name) (some required) (Shape.ofJson? shape) (rest[0]?) (rest[1]?)
        (rest[2]?)
    else none
  | _ => none

def PropInfo.shapeIn? : List (String × Json) → Option Shape
  | [] => none
  | (name, value) :: rest =>
    if name = "shape" then Shape.ofJson? value else PropInfo.shapeIn? rest

def PropInfo.listOfJson? : Json → Option (List PropInfo)
  | .array items => PropInfo.allOfJson? items
  | _ => none

def PropInfo.allOfJson? : List Json → Option (List PropInfo)
  | [] => some []
  | j :: js => do
    let p ← PropInfo.ofJson? j
    pure (p :: (← PropInfo.allOfJson? js))

end

def definitionsOfJson? (value : Json) : Option (Table Shape) := do
  let entries ← (← value.asObject?).mapM fun (name, s) => do
    pure (name, ← Shape.ofJson? s)
  pure (Table.ofEntries entries)

def Component.ofJson? (value : Json) : Option Component := do
  match ← Json.fields? ["name", "originFilePath", "kind", "props", "definitions"] 4 value with
  | [name, origin, kind, props, definitions] =>
    pure {
      name := ← (← name).asString?
      origin := ⟨← (← origin).asString?⟩
      kind := ← ComponentKind.ofText? (← (← kind).asVariant?)
      props := ← PropInfo.listOfJson? (← props)
      definitions := ← match definitions with
        | none => some []
        | some d => definitionsOfJson? d }
  | _ => none

def Document.ofJson? (value : Json) : Option Document := do
  match ← Json.fields? ["body"] 1 value with
  | [body] => pure ⟨← (← (← body).asArray?).mapM Component.ofJson?⟩
  | _ => none

/-- A document from its text. The reader gives up on a text that is nested deeper than it may
recurse. -/
def Document.read? (text : String) : Option Document := do
  let value ← Json.read? text
  guard (value.depth ≤ 127)
  Document.ofJson? value

end PropContract
