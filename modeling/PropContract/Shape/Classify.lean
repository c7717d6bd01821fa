import PropContract.Shape.Basic

/-!
The shape of a union. Members that say the same are named once, a literal beside the primitive
of its kind adds nothing, and both booleans together are all of them.
-/

namespace PropContract.Shape

def isIn (s : Shape) (list : List Shape) : Bool :=
  list.any fun t => t.same s

def distinct (shapes : List Shape) : List Shape :=
  shapes.foldl (fun kept s => if s.isIn kept then kept else kept ++ [s]) []

def isBooleanLiteral : Shape → Bool
  | literal (.boolean _) => true
  | _ => false

def joinBooleans (shapes : List Shape) : List Shape :=
  if isIn (literal (.boolean true)) shapes && isIn (literal (.boolean false)) shapes then
    let position := (shapes.takeWhile fun s => !s.isBooleanLiteral).length
    let rest := shapes.filter fun s => !s.isBooleanLiteral
    if isIn (primitive .boolean) rest then rest
    else rest.take position ++ primitive .boolean :: rest.drop position
  else shapes

def absorber? : Shape → Option Primitive
  | literal (.string _) => some .string
  | literal (.number _) => some .number
  | literal (.boolean _) => some .boolean
  | _ => none

def absorb (shapes : List Shape) : List Shape :=
  shapes.filter fun s =>
    match s.absorber? with
    | some p => !isIn (primitive p) shapes
    | none => true

def literal? : Shape → Option Literal
  | literal l => some l
  | _ => none

def combine : List Shape → Shape
  | [] => any
  | [s] => s
  | s :: shapes =>
    match (s :: shapes).mapM literal? with
    | some (l :: ls) =>
      if ls.all fun x => x.sameKind l then oneOf (l :: ls) else union (s :: shapes)
    | _ => union (s :: shapes)

def classify (shapes : List Shape) : Shape :=
  let shapes := distinct shapes
  if shapes.any isAny then any else combine (absorb (joinBooleans shapes))

def branches : Shape → List Shape
  | union members => members
  | oneOf values => values.map literal
  | s => [s]

end PropContract.Shape
