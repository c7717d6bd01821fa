import PropContract.Path
import PropContract.Shape.Literal
import PropContract.Table

namespace PropContract

inductive Primitive where
  | string
  | number
  | boolean
  | bigInt
  | symbol
  | object
  | array
  | any
  deriving DecidableEq, Repr, Inhabited

inductive ElementKind where
  | node
  | element
  | elementType
  deriving DecidableEq, Repr, Inhabited

mutual

inductive Shape where
  | primitive (kind : Primitive)
  | literal (value : Literal)
  /-- Two or more literals of the same kind. -/
  | oneOf (values : List Literal)
  | arrayOf (element : Shape)
  | object (props : List PropInfo)
  | union (members : List Shape)
  | function
  | reference (name : String)
  | element (kind : ElementKind)
  | «instance» (name : String)

inductive PropInfo where
  | mk (name : String) (required : Bool) (shape : Shape) (default : Option Literal)
      (doc : Option String) (typeText : Option String)

end

instance : Inhabited Shape := ⟨.primitive .any⟩

instance : Inhabited PropInfo := ⟨.mk "" true default none none none⟩

namespace PropInfo

def name : PropInfo → String
  | mk name .. => name

def required : PropInfo → Bool
  | mk _ required .. => required

def shape : PropInfo → Shape
  | mk _ _ shape .. => shape

def default : PropInfo → Option Literal
  | mk _ _ _ default _ _ => default

def doc : PropInfo → Option String
  | mk _ _ _ _ doc _ => doc

def typeText : PropInfo → Option String
  | mk _ _ _ _ _ typeText => typeText

def withDefault (value : Literal) : PropInfo → PropInfo
  | mk name _ shape _ doc typeText => mk name false shape (some value) doc typeText

end PropInfo

namespace Shape

def any : Shape := primitive .any

def isAny : Shape → Bool
  | primitive .any => true
  | _ => false

end Shape

mutual

def Shape.same : Shape → Shape → Bool
  | .primitive a, .primitive b => a == b
  | .literal a, .literal b => a.same b
  | .oneOf as, .oneOf bs => Literal.sameAll as bs
  | .arrayOf a, .arrayOf b => a.same b
  | .object ps, .object qs => PropInfo.sameAll ps qs
  | .union ss, .union ts => Shape.sameAll ss ts
  | .function, .function => true
  | .reference a, .reference b => a == b
  | .element a, .element b => a == b
  | .instance a, .instance b => a == b
  | _, _ => false

def Shape.sameAll : List Shape → List Shape → Bool
  | [], [] => true
  | a :: as, b :: bs => a.same b && Shape.sameAll as bs
  | _, _ => false

def PropInfo.same : PropInfo → PropInfo → Bool
  | .mk n r s d doc text, .mk n' r' s' d' doc' text' =>
    n == n' && r == r' && s.same s' && Literal.sameOption d d' && doc == doc' && text == text'

def PropInfo.sameAll : List PropInfo → List PropInfo → Bool
  | [], [] => true
  | a :: as, b :: bs => a.same b && PropInfo.sameAll as bs
  | _, _ => false

end

inductive ComponentKind where
  | function
  | classBased
  | wrapped
  deriving DecidableEq, Repr, Inhabited

structure Component where
  name : String
  origin : Path
  kind : ComponentKind
  props : List PropInfo
  definitions : Table Shape := []
  deriving Inhabited

def Component.prop? (c : Component) (name : String) : Option PropInfo :=
  c.props.find? fun p => p.name == name

structure Document where
  components : List Component
  deriving Inhabited

def Document.componentsAt (d : Document) (path : Path) : List Component :=
  d.components.filter fun c => c.origin.samePlace path

end PropContract
