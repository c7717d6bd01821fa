import PropContract.Grammar.Basic
import PropContract.Number.Decimal

namespace PropContract.Syntax.Pattern

def isName : Pattern → Bool
  | .name .. => true
  | _ => false

def isRest : Pattern → Bool
  | .rest .. => true
  | _ => false

def isAssign : Pattern → Bool
  | .assign .. => true
  | _ => false

def withType (type : Option TypeExpr) : Pattern → Pattern
  | .name n _ => .name n type
  | .object ms _ => .object ms type
  | .array es _ => .array es type
  | .rest t _ => .rest t type
  | p => p

end PropContract.Syntax.Pattern

namespace PropContract.Grammar

open Syntax

structure Parameter where
  start : Nat
  decorators : List Expr
  pattern : Pattern

def areSimple (ps : List Parameter) : Bool :=
  ps.all fun p => p.pattern.isName

def parameterUses (ps : List Parameter) : List Use :=
  ps.flatMap fun p => p.decorators.flatMap Expr.uses ++ p.pattern.gather useSearch

def followsModifier (next : Token) : Bool :=
  match next.kind with
  | .name _ _ | .string _ | .number _ | .bigint => true
  | .privateName _ => !next.afterBreak
  | .mark m => !next.afterBreak && (m == "[" || m == "\x7b" || m == "*" || m == "...")
  | _ => false

def eatModifier? (words : List String) : Parser (Option String) := do
  match ← currentKind with
  | .name text _ =>
    if (← typed) && words.contains text && followsModifier (← nextToken) then
      advance
      return some text
    else return none
  | _ => return none

def eatAccess : Parser Bool := do
  let start ← position
  match ← eatModifier? ["public", "protected", "private", "in", "out"] with
  | none => return false
  | some word =>
    if word == "in" || word == "out" then
      complain start
      return false
    else return true

def eatParameterWord : Parser Bool := do
  match ← currentKind with
  | .name text _ =>
    let next ← nextToken
    let starts := match next.kind with
      | .name _ _ => true
      | .mark m => m == "\x7b" || m == "["
      | _ => false
    if (← typed) && starts && ["public", "private", "protected", "readonly"].contains text then
      if followsModifier next then advance
      return true
    else return false
  | _ => return false

namespace Rules

variable (g : Rules)

def decorators : Parser (List Expr) :=
  many do
    if ← isMark "@" then return some (← g.decorator) else return none

def typeAnnotation : Parser (Option TypeExpr) := do
  if (← typed) && (← isMark ":") then
    advance
    return some (← enclosed g.type)
  else return none

def computedKey : Parser Expr := do
  expectMark "["
  let start ← position
  let first ← enclosed g.assignment
  if (← typed) && (← isMark ",") then
    let rest ← many do
      if ← eatMark "," then return some (← enclosed g.assignment) else return none
    complain start
    expectMark "]"
    return .sequence (first :: rest)
  else
    expectMark "]"
    return first

def propertyKey : Parser PropertyKey := do
  match ← currentKind with
  | .name n _ =>
    advance
    return .named n
  | .string v =>
    advance
    return .named v
  | .number v =>
    advance
    return .named v.plainText
  | .bigint =>
    advance
    return .hidden
  | .mark "[" => return .computed (← g.computedKey)
  | _ => unexpected

def bindingElement : Parser Pattern := do
  let target ← g.pattern false
  if ← eatMark "=" then return .assign target (← enclosed g.assignment) else return target

def patternMember : Parser PatternMember := do
  if ← eatMark "..." then return .rest (← g.pattern false)
  let kind ← currentKind
  let key ← g.propertyKey
  if ← eatMark ":" then return .keyed key (← g.bindingElement)
  match kind with
  | .name n _ =>
    return .shorthand n (← optionally (eatMark "=") (enclosed g.assignment))
  | _ => unexpected

structure Listed (α : Type) where
  start : Nat
  value : α
  comma : Option Nat

def listed {α : Type} (close : String) (item : Parser α) : Parser (Option (Listed α)) := do
  if ← isMark close then return none
  let start ← position
  let value ← item
  if ← isMark close then return some ⟨start, value, none⟩
  let comma ← position
  expectMark ","
  return some ⟨start, value, some comma⟩

def checkRest : List (Listed PatternMember) → Parser Unit
  | [] => pure ()
  | [⟨start, .rest target, comma⟩] => do
    unless target.isName do failAt start
    if let some offset := comma then complain offset
  | ⟨start, .rest _, _⟩ :: ms => do
    complain start
    checkRest ms
  | _ :: ms => checkRest ms

def objectPattern : Parser Pattern := do
  expectMark "\x7b"
  let members ← enclosed (many (listed "\x7d" g.patternMember))
  expectMark "\x7d"
  checkRest members
  return .object (members.map Listed.value) none

def patternElements : Nat → Option Nat → Parser (List Pattern)
  | 0, _ => unexpected
  | n + 1, rest => do
    if ← isMark "]" then return []
    if ← eatMark "," then return .array [] none :: (← patternElements n rest)
    if let some offset := rest then complain offset
    let start ← position
    let isRest ← eatMark "..."
    let p ← if isRest then pure (.rest (← g.pattern false) none) else g.bindingElement
    unless ← isMark "]" do
      let comma ← position
      expectMark ","
      if isRest && (← isMark "]") then complain comma
    return p :: (← patternElements n (if isRest then some start else rest))

def arrayPattern : Parser Pattern := do
  expectMark "["
  let elements ← enclosed (do g.patternElements (← read).fuel none)
  expectMark "]"
  return .array elements none

def patternRule (noLet : Bool) : Parser Pattern := do
  match ← currentKind with
  | .mark "\x7b" => g.objectPattern
  | .mark "[" => g.arrayPattern
  | _ => return .name (← bindingName noLet) none

def parameterPattern : Parser Pattern := do
  let start ← position
  let isMarked ← eatParameterWord
  let patternStart ← position
  let element ← g.bindingElement
  let question ← position
  let isOptional ← if ← typed then eatMark "?" else pure false
  if isOptional && element.isAssign && !(← read).ambient then failAt question
  let type ← g.typeAnnotation
  if element.isAssign && type.isSome then complain patternStart
  let target := element.withType type
  let whole ←
    if ← eatMark "=" then
      if isOptional then complain patternStart
      let value ← enclosed g.assignment
      if (← read).ambient then complain start
      pure (.assign target value)
    else pure target
  if isMarked then complain start
  return whole

def restPattern : Parser Pattern := do
  expectMark "..."
  let start ← position
  let target ← g.pattern false
  let target ←
    if ← eatMark "=" then
      let value ← enclosed g.assignment
      complain start
      pure (.assign target value)
    else pure target
  let type ← g.typeAnnotation
  if (← typed) && (← isMark "?") then
    complain (← position)
    advance
  return .rest target type

def parameter (other : Parser Pattern) : Parser Parameter := do
  let decorators ← g.decorators
  let start ← position
  let pattern ← if ← isMark "..." then g.restPattern else other
  return { start, decorators, pattern }

def parametersFrom (other : Parser Pattern) : Nat → Option Nat → Parser (List Parameter)
  | 0, _ => unexpected
  | n + 1, rest => do
    if ← isMark ")" then return []
    if let some offset := rest then complain offset
    let p ← g.parameter other
    unless ← isMark ")" do
      let comma ← position
      expectMark ","
      if p.pattern.isRest && (← isMark ")") then complain comma
    return p :: (← parametersFrom other n (if p.pattern.isRest then some p.start else rest))

def openParameters (other : Parser Pattern) : Parser (List Parameter) := do
  expectMark "("
  enclosed (do g.parametersFrom other (← read).fuel none)

def parameters : Parser (List Parameter) := do
  let ps ← g.openParameters g.parameterPattern
  expectMark ")"
  return ps

def signatureParameters : Parser (List Parameter) := do
  let ps ← g.openParameters g.parameterPattern
  if ps.any fun p => p.pattern.isAssign then unexpected
  expectMark ")"
  return ps

def memberPattern : Parser Pattern := do
  let hasAccess ← eatAccess
  let isOverride ← eatModifier? ["override"]
  let isReadonly ← eatModifier? ["readonly"]
  let start ← position
  let p ← g.parameterPattern
  let isMember := hasAccess || isOverride.isSome || isReadonly.isSome
  if isMember && !p.isName && !p.isAssign then failAt start
  return p

end Rules

end PropContract.Grammar
