import PropContract.Grammar.Functions

namespace PropContract.Grammar

open Syntax

namespace Rules

variable (g : Rules)

def spreadOr (item : Parser Expr) : Parser Expr := do
  if ← eatMark "..." then return .spread (← item) else item

def arguments : Parser (List Expr) := do
  expectMark "("
  enclosed (commaList ")" (spreadOr g.assignment))

def arrayElements : Nat → Parser (List Element)
  | 0 => unexpected
  | n + 1 => do
    if ← isMark "]" then return []
    if ← eatMark "," then return .hole :: (← arrayElements n)
    let start ← position
    let isSpread ← eatMark "..."
    let innerStart ← position
    let e ← g.assignment
    let comma ← position
    let isLast ← isMark "]"
    unless isLast do expectMark ","
    let element :=
      if isSpread then Element.spread start innerStart e (if isLast then none else some comma)
      else .item start e
    return element :: (← arrayElements n)

def arrayLiteral : Parser Expr := do
  expectMark "["
  let elements ← enclosed (do g.arrayElements (← read).fuel)
  expectMark "]"
  return .array elements

def wordedMethod (start : Nat) (word : String) : Parser Property := do
  let isGenerator ← if word == "async" then eatMark "*" else pure false
  let keyStart ← position
  let key ← g.propertyKey
  let f ←
    if word == "get" then g.methodTail false false (checkGetter keyStart)
    else if word == "set" then g.methodTail false false (checkSetter keyStart)
    else g.methodTail true isGenerator fun _ => pure ()
  return .method (← spanFrom start) key f

def bareProperty (start : Nat) (name : String) : Parser Property := do
  if ← isMark "?" then
    complain (← position)
    advance
  if ← eatMark "=" then
    let value ← g.assignment
    return .defaulted (← spanFrom start) name value
  else if (← isMark ",") || (← isMark "\x7d") then return .shorthand (← spanFrom start) name
  else if name == "get" || name == "set" || name == "async" then g.wordedMethod start name
  else unexpected

def property : Parser Property := do
  let start ← position
  if ← eatMark "..." then
    let innerStart ← position
    let e ← g.assignment
    return .spread (← spanFrom start) innerStart e none
  else if ← eatMark "*" then
    let key ← g.propertyKey
    let f ← g.methodTail false true fun _ => pure ()
    return .method (← spanFrom start) key f
  else
    let _ ← eatParameterWord
    let t ← currentToken
    let key ← g.propertyKey
    if ← eatMark ":" then
      let valueStart ← position
      let value ← g.assignment
      return .keyed (← spanFrom start) key valueStart value
    else if ← atMethod then
      let f ← g.methodTail false false fun _ => pure ()
      return .method (← spanFrom start) key f
    else
      match t.kind with
      | .name n _ => g.bareProperty start n
      | _ => unexpected

def listedProperty (p : Listed Property) : Property :=
  match p.value with
  | .spread span innerStart inner _ => .spread span innerStart inner p.comma
  | other => other

def objectLiteral : Parser Expr := do
  expectMark "\x7b"
  let properties ← enclosed (many (listed "\x7d" g.property))
  expectMark "\x7d"
  return .object (properties.map listedProperty)

end Rules

end PropContract.Grammar
