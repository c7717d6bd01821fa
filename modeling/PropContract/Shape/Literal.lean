import PropContract.Syntax.Tree

namespace PropContract

inductive Literal where
  | string (value : String)
  | number (value : Double)
  | boolean (value : Bool)
  | null
  deriving DecidableEq, Repr, Inhabited

namespace Literal

def same : Literal → Literal → Bool
  | string a, string b => a == b
  | number a, number b => a.same b
  | boolean a, boolean b => a == b
  | null, null => true
  | _, _ => false

def sameAll : List Literal → List Literal → Bool
  | [], [] => true
  | a :: as, b :: bs => a.same b && sameAll as bs
  | _, _ => false

def sameOption : Option Literal → Option Literal → Bool
  | none, none => true
  | some a, some b => a.same b
  | _, _ => false

def sameKind : Literal → Literal → Bool
  | string _, string _ | number _, number _ | boolean _, boolean _ | null, null => true
  | _, _ => false

def negate? : Literal → Option Literal
  | number v => some (number v.neg)
  | _ => none

end Literal

def Syntax.Expr.literal? : Syntax.Expr → Option Literal
  | .string v => some (.string v)
  | .number v => some (.number v)
  | .boolean v => some (.boolean v)
  | .null => some .null
  | .negate e => e.literal?.bind Literal.negate?
  | .template texts [] => some (.string (String.join texts))
  | .paren e => e.literal?
  | _ => none

end PropContract
