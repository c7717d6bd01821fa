import PropContract.Number.Double
import PropContract.Text.Span

namespace PropContract.Syntax

inductive Keyword where
  | any
  | unknown
  | never
  | void
  | null
  | undefined
  | string
  | number
  | boolean
  | bigint
  | symbol
  | object
  deriving DecidableEq, Repr, Inhabited

inductive TypeOperator where
  | keyof
  | readonly
  | unique
  deriving DecidableEq, Repr, Inhabited

inductive Use where
  | whole (name : String)
  | key (name key : String)
  deriving DecidableEq, Repr, Inhabited

/-- The key of a member: a bare name, a string or a number, or anything else, by the mentions
in it. -/
inductive MemberKey where
  | bare (name : String)
  | literal (text : String)
  | computed (uses : List Use)
  deriving DecidableEq, Repr, Inhabited

def MemberKey.name? : MemberKey → Option String
  | bare name => some name
  | literal text => some text
  | computed _ => none

structure MemberHead where
  span : Span
  keySpan : Span
  key : MemberKey
  isOptional : Bool := false
  doc : Option String := none
  deriving DecidableEq, Repr, Inhabited

def MemberHead.uses (head : MemberHead) : List Use :=
  match head.key with
  | .bare name => [.whole name]
  | .literal _ => []
  | .computed uses => uses

inductive OptionalMark where
  | keep
  | add
  | remove
  deriving DecidableEq, Repr, Inhabited

mutual

inductive TypeExpr where
  | keyword (kind : Keyword)
  | this
  | string (value : String)
  | number (value : Double)
  | boolean (value : Bool)
  | bigint
  | template (texts : List String) (types : List TypeExpr)
  | reference (path : List String) (args : List TypeExpr)
  /-- `typeof` and `import(...)`: a name that is not a type's own. -/
  | query (path : List String) (args : List TypeExpr)
  | object (members : List TypeMember)
  | array (element : TypeExpr)
  | tuple (labels : List String) (elements : List TypeExpr)
  | optional (type : TypeExpr)
  | rest (type : TypeExpr)
  | union (types : List TypeExpr)
  | intersection (types : List TypeExpr)
  | conditional (check bound yes no : TypeExpr)
  | infer (name : String) (bounds : List TypeExpr)
  | paren (type : TypeExpr)
  | operator (op : TypeOperator) (type : TypeExpr)
  | indexed (object index : TypeExpr)
  | mapped (param : String) (keys : TypeExpr) (rename : Option TypeExpr) (mark : OptionalMark)
      (value : Option TypeExpr)
  | callable (uses : List Use) (types : List TypeExpr)
  | predicate (subject : String) (type : Option TypeExpr)

inductive TypeMember where
  | property (head : MemberHead) (typeSpan : Span) (type : Option TypeExpr)
  | method (head : MemberHead) (uses : List Use) (types : List TypeExpr)
  | getter (head : MemberHead) (typeSpan : Span) (type : Option TypeExpr)
  | setter (head : MemberHead) (uses : List Use) (types : List TypeExpr)
  | call (uses : List Use) (types : List TypeExpr)
  | construct (uses : List Use) (types : List TypeExpr)
  | index (uses : List Use) (types : List TypeExpr)

end

instance : Inhabited TypeExpr := ⟨.this⟩

instance : Inhabited TypeMember := ⟨.call [] []⟩

structure TypeParam where
  name : String
  bound : Option TypeExpr := none
  default : Option TypeExpr := none
  deriving Inhabited

namespace TypeMember

def isCall : TypeMember → Bool
  | call .. => true
  | _ => false

end TypeMember

mutual

def TypeExpr.uses : TypeExpr → List Use
  | .keyword _ | .this | .string _ | .number _ | .boolean _ | .bigint => []
  | .template _ types => TypeExpr.usesAll types
  | .reference path args | .query path args =>
    (path.take 1).map .whole ++ TypeExpr.usesAll args
  | .object members => TypeMember.usesAll members
  | .array t | .optional t | .rest t | .paren t | .operator _ t => t.uses
  | .tuple labels types => labels.map .whole ++ TypeExpr.usesAll types
  | .union types | .intersection types => TypeExpr.usesAll types
  | .conditional a b c d => a.uses ++ b.uses ++ c.uses ++ d.uses
  | .infer name bounds => .whole name :: TypeExpr.usesAll bounds
  | .indexed a b => a.uses ++ b.uses
  | .mapped param keys rename _ value =>
    .whole param :: keys.uses ++ TypeExpr.usesOf rename ++ TypeExpr.usesOf value
  | .callable uses types => uses ++ TypeExpr.usesAll types
  | .predicate subject type => .whole subject :: TypeExpr.usesOf type

def TypeExpr.usesAll : List TypeExpr → List Use
  | [] => []
  | t :: ts => t.uses ++ TypeExpr.usesAll ts

def TypeExpr.usesOf : Option TypeExpr → List Use
  | none => []
  | some t => t.uses

def TypeMember.uses : TypeMember → List Use
  | .property head _ type | .getter head _ type => head.uses ++ TypeExpr.usesOf type
  | .method head uses types | .setter head uses types =>
    head.uses ++ uses ++ TypeExpr.usesAll types
  | .call uses types | .construct uses types | .index uses types =>
    uses ++ TypeExpr.usesAll types

def TypeMember.usesAll : List TypeMember → List Use
  | [] => []
  | m :: ms => m.uses ++ TypeMember.usesAll ms

end

def TypeParam.uses (p : TypeParam) : List Use :=
  .whole p.name :: TypeExpr.usesOf p.bound ++ TypeExpr.usesOf p.default

end PropContract.Syntax
