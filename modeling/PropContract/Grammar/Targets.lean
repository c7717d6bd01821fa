import PropContract.Grammar.Patterns

/-!
Expressions that turn out to be patterns, since only what follows tells them from one.
-/

namespace PropContract.Syntax.Expr

def isArrow : Expr → Bool
  | .arrow _ => true
  | _ => false

def isName : Expr → Bool
  | .name _ => true
  | _ => false

def isObjectOrArray : Expr → Bool
  | .object _ | .array _ => true
  | _ => false

def isTarget : Expr → Bool
  | .name n => !isFixedName n
  | .member .. | .index .. | .privateMember _ | .superMember _ => true
  | .paren inner | .cast inner _ | .asserted _ inner | .applied inner _ => inner.isTarget
  | _ => false

def looksLikeTarget : Expr → Bool
  | .name _ | .member .. | .index .. | .privateMember _ | .superMember _ | .paren _ | .chain _
  | .cast .. | .asserted .. | .applied .. => true
  | _ => false

def isToleratedTarget : Expr → Bool
  | .string _ | .number _ | .boolean _ | .null | .binary .. => true
  | .paren inner => inner.isToleratedTarget
  | _ => false

def isElementTarget : Expr → Bool
  | .name n => !isFixedName n
  | .member .. | .index .. | .privateMember _ | .superMember _ => true
  | .paren inner | .cast inner _ => inner.isTarget
  | _ => false

end PropContract.Syntax.Expr

namespace PropContract.Grammar

open Syntax

inductive Role where
  | binding
  | element
  deriving DecidableEq, Repr

mutual

/-- The pattern that an expression, which starts at `start`, stands for. What cannot be one is
noted. -/
def patternOf (role : Role) (start : Nat) : Expr → Parser Pattern
  | .name n => do
    if isFixedName n then complain start
    return .name n none
  | .object properties => return .object (← membersOf role properties) none
  | .array elements => return .array (← patternsOf role elements) none
  | .assign true target value => do
    let p ←
      if target.isObjectOrArray then quietly (patternOf .element start target)
      else patternOf role start target
    return .assign p value
  | e => do
    unless role = .element && e.isElementTarget do complain start
    return .expr e

def membersOf (role : Role) : List Property → Parser (List PatternMember)
  | [] => return []
  | p :: ps => do
    let m ← memberOf role ps.isEmpty p
    return m :: (← membersOf role ps)

def memberOf (role : Role) (isLast : Bool) : Property → Parser PatternMember
  | .shorthand span n => do
    if role = .binding && isFixedName n then complain span.start
    return .shorthand n none
  | .defaulted span n value => do
    if role = .binding && isFixedName n then complain span.start
    return .shorthand n (some value)
  | .keyed _ key start value => return .keyed key (← patternOf role start value)
  | .method span _ _ => failAt span.start
  | .spread span start inner comma => do
    if !isLast then complain span.start
    else if let some offset := comma then complain offset
    if role = .binding && !inner.isName then
      complain span.start
      return .rest (.expr inner)
    else
      let p ← patternOf role start inner
      if p.isAssign then complain span.start
      return .rest p

def patternsOf (role : Role) : List Element → Parser (List Pattern)
  | [] => return []
  | e :: es => do
    let p ← elementOf role es.isEmpty e
    return p :: (← patternsOf role es)

def elementOf (role : Role) (isLast : Bool) : Element → Parser Pattern
  | .hole => return .array [] none
  | .item start value => patternOf role start value
  | .spread start innerStart inner comma => do
    if isLast then
      if let some offset := comma then complain offset
      let p ← patternOf role innerStart inner
      if p.isAssign then complain start
      return .rest p none
    else
      complain start
      return .rest (.expr inner) none

end

def checkTarget (start : Nat) (e : Expr) : Parser Unit := do
  let isTolerated := (← typed) && e.isToleratedTarget
  unless e.isTarget || isTolerated do complain start

def checkAssigned (plain : Bool) (start : Nat) (e : Expr) : Parser Unit := do
  if plain && e.isObjectOrArray then
    let _ ← patternOf .element start e
  else
    if plain then checkTarget start e
    else unless e.isTarget do complain start
    unless e.looksLikeTarget do failAt start

end PropContract.Grammar
