import PropContract.Grammar.Expressions

/-!
The grammar of markup. An element ends at its last bracket, which stays the current token.
-/

namespace PropContract.Grammar

open Syntax

namespace Rules

variable (g : Rules)

def tagWord : Parser String := do
  match ← currentKind with
  | .name _ _ =>
    reread Lexer.markupName
    anyName
  | _ => unexpected

def tagName : Parser (List String × List Expr) := do
  let first ← tagWord
  if ← eatMark ":" then return ([first, ":", ← tagWord], [])
  let rest ← many do
    if ← eatMark "." then return some (← tagWord) else return none
  return (first :: rest, [.name first])

def bracedExpr : Parser Expr := do
  let start ← position
  expectMark "\x7b"
  if ← eatMark "\x7d" then failAt start
  let e ← enclosed g.expr
  expectMark "\x7d"
  return e

def attributeValue : Parser (List Expr) := do
  match ← currentKind with
  | .string _ =>
    advance
    return []
  | .mark "\x7b" => return [← g.bracedExpr]
  | .mark "<" =>
    let e ← g.element
    advance
    return [e]
  | _ => unexpected

def tagAttribute : Parser (Option (List Expr)) := do
  match ← currentKind with
  | .mark "\x7b" =>
    advance
    expectMark "..."
    let e ← enclosed g.assignment
    expectMark "\x7d"
    return some [e]
  | .name _ _ =>
    let _ ← tagWord
    if ← eatMark ":" then
      let _ ← tagWord
    if ← isMark "=" then
      advanceBy Lexer.markupValue
      return some (← g.attributeValue)
    else return some []
  | _ => return none

def bracedChild : Parser (List Expr) := do
  expectMark "\x7b"
  if ← isMark "\x7d" then return []
  let _ ← eatMark "..."
  let e ← enclosed g.expr
  unless ← isMark "\x7d" do unexpected
  return [e]

def closingTag (name : List String) : Parser (List Expr) := do
  unless ← atClosingTag do unexpected
  advance
  expectMark "/"
  let start ← position
  let (closing, root) ← if name.isEmpty then pure ([], []) else tagName
  unless ← isMark ">" do unexpected
  if closing = name then return root
  else
    advance
    failAt start

def checkText (start stop : Cursor) : Parser Unit := do
  let (_, stray) := start.span fun c => c != '>' && c != '}'
  if stray.offset < stop.offset then complain stray.offset

def children : Nat → Cursor → Parser (List Expr)
  | 0, _ => unexpected
  | n + 1, c => do
    let next := Lexer.markupText c
    checkText c next
    standAt next
    let isElement := (← isMark "<") && !(← atClosingTag)
    let child ←
      if isElement then pure ((← salvage g.element).map fun e => [e])
      else if ← isMark "\x7b" then salvage g.bracedChild
      else pure none
    match child with
    | some es => return es ++ (← children n (← get).after)
    | none => return []

def contents (name : List String) : Parser (List Expr) := do
  let found ← g.children (← read).fuel (← get).after
  return found ++ (← closingTag name)

def elementRule : Parser Expr := do
  expectMark "<"
  if ← isMark ">" then return .jsx (← g.contents [])
  let (name, root) ← tagName
  let types ← if (← typed) && (← isMark "<") then attempt g.typeArgs else pure none
  let attributes ← many g.tagAttribute
  let inTag := root ++ [.group (types.getD []) []] ++ attributes.flatten
  if ← eatMark "/" then
    unless ← isMark ">" do unexpected
    return .jsx inTag
  else
    unless ← isMark ">" do unexpected
    return .jsx (inTag ++ (← g.contents name))

end Rules

end PropContract.Grammar
