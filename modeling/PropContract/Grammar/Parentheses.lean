import PropContract.Grammar.Operators

/-!
The grammar of arrow functions and of what stands in parentheses. Whether that is an expression or
a list of parameters is known only at its end.
-/

namespace PropContract.Grammar

open Syntax

inductive ParenItem where
  | expr (start : Nat) (e : Expr)
  | spread (start innerStart : Nat) (e : Expr)
  | pattern (start : Nat) (p : Pattern)

def ParenItem.isPattern : ParenItem → Bool
  | .pattern .. => true
  | _ => false

def patternsOfItems : List (Rules.Listed ParenItem) → Parser (List Pattern)
  | [] => return []
  | item :: items => do
    let isLast := items.isEmpty
    match item.value with
    | .expr start e => return (← patternOf .binding start e) :: (← patternsOfItems items)
    | .spread start innerStart e =>
      if isLast then
        let p ← patternOf .binding innerStart e
        if p.isAssign then complain start
        if let some offset := item.comma then complain offset
        return [.rest p none]
      else
        complain start
        patternsOfItems items
    | .pattern start p =>
      if p.isRest && !isLast then
        complain start
        patternsOfItems items
      else
        if p.isRest then
          if let some offset := item.comma then complain offset
        return p :: (← patternsOfItems items)

def exprsOfItems (spreads : Bool) : List ParenItem → Parser (List Expr)
  | [] => return []
  | .expr _ e :: items => return e :: (← exprsOfItems spreads items)
  | .spread _ innerStart e :: items => do
    if !spreads then failAt innerStart
    return .spread e :: (← exprsOfItems spreads items)
  | .pattern start _ :: _ => failAt start

def checkItems (items : List ParenItem) : Parser Unit :=
  items.forM fun
    | .expr _ (.object properties) | .spread _ _ (.object properties) =>
      properties.forM fun
        | .defaulted span _ _ => complain span.start
        | _ => pure ()
    | _ => pure ()

namespace Rules

variable (g : Rules)

def arrowBody (isAsync isSimple : Bool) : Parser (List Stmt) :=
  inBody isAsync false do
    if ← isMark "\x7b" then g.functionBlock isSimple else return [.expr (← g.assignment)]

def arrowFrom (isAsync : Bool) (params : List Pattern) (result : Option TypeExpr) :
    Parser Expr := do
  let body ← g.arrowBody isAsync (params.all Pattern.isName)
  return .arrow (.mk [] [] [] params result true body)

def shortArrow (isAsync : Bool) (start : Nat) (name : String) : Parser Expr := do
  if isFixedName name then complain start
  g.arrowFrom isAsync [.name name none] none

def genericAsyncArrow : Parser Expr := do
  unless ← isMark "<" do unexpected
  let tps ← g.functionTypeParams
  let params ← inHead true false g.parameters
  let result ← g.resultAnnotation
  expectMark "=>"
  let body ← g.arrowBody true (areSimple params)
  return .arrow (makeFunction [] tps params result (some body))

def canBeArrow (offset : Nat) : Parser Bool := do
  return (← read).arrowAt == some offset

def openExpr (start : Nat) : Parser Expr := do
  g.assignmentAfter start (← g.binary)

def marksOptional : Parser Bool := do
  if (← typed) && (← isMark "?") then
    match (← nextToken).kind with
    | .mark m => return [",", "=", ")", ":"].contains m
    | _ => return false
  else return false

def patternAfter (start : Nat) (p : Pattern) : Parser Pattern := do
  let p ← match p with
    | .expr _ => pure p
    | .assign .. =>
      if (← g.typeAnnotation).isSome then complain start
      pure p
    | _ => pure (p.withType (← g.typeAnnotation))
  if ← eatMark "=" then return .assign p (← g.assignment) else return p

def parenItemAfterWords (start : Nat) : Parser ParenItem := do
  let next ← nextToken
  let isOpen := match ← currentKind with
    | .mark "..." => next.kind.isReference
    | kind => kind.isReference
  let isSpread ← eatMark "..."
  let innerStart ← position
  let e ←
    if (← typed) && isOpen then
      if isSpread then g.binary else g.openExpr innerStart
    else g.assignment
  let question ← position
  let isOptional ← marksOptional
  if isOptional then
    advance
    if isSpread then complain question
    unless e.isName do failAt start
  let isChoice := (← typed) && !isSpread && (← isMark "?")
  let e ←
    if isChoice then
      advance
      g.choiceAfter e
    else pure e
  if isOptional || ((← typed) && (← isMark ":")) then
    let p ← patternOf .binding innerStart e
    return .pattern start (← g.patternAfter start (if isSpread then .rest p none else p))
  else if isSpread then return .spread start innerStart e
  else return .expr start e

def parenItem : Parser ParenItem := do
  let start ← position
  inMode (fun m => { m with arrowAt := some start }) do
    let isMarked ← eatParameterWord
    let item ← g.parenItemAfterWords start
    if isMarked then complain start
    match item with
    | .expr start (.name n) =>
      if ← eatMark "=>" then return .expr start (← g.shortArrow false start n) else return item
    | _ => return item

/-- The rest of an arrow function in a branch of a choice: it is one only if the colon of the
choice is still to come. -/
def arrowInChoice (isAsync : Bool) (items : List (Listed ParenItem)) : Parser Expr := do
  let result ← g.resultAnnotation
  expectMark "=>"
  let e ← g.arrowFrom isAsync (← patternsOfItems items) result
  if (← read).inBranch && !(← isMark ":") then unexpected
  return e

def arrowResult : Parser TypeExpr := do
  expectMark ":"
  let t ← enclosed g.resultType
  unless ← isMark "=>" do unexpected
  return t

/-- The rest of an arrow function, from its arrow on. No operator can follow a block. -/
def arrowAfter (isAsync : Bool) (start : Nat) (items : List (Listed ParenItem))
    (result : Option TypeExpr) : Parser Expr := do
  if ← atBreak then failAt start
  unless ← canBeArrow start do failAt start
  expectMark "=>"
  let params ← patternsOfItems items
  let hasBlock ← isMark "\x7b"
  let e ← g.arrowFrom isAsync params result
  if hasBlock && (← atOperator) then
    complain (← position)
    g.operatorsAfter start e
  else return e

/-- What stands in parentheses: an expression, the arguments of a function called `async`, or the
parameters of an arrow function. -/
def parenthesized (asyncStart : Option Nat) : Parser Expr := do
  let here ← position
  let start := asyncStart.getD here
  let isAsync := asyncStart.isSome
  expectMark "("
  let items ← enclosed (many (listed ")" g.parenItem))
  expectMark ")"
  let mode ← read
  let mayAnnotate := mode.typed && (← isMark ":")
  let inChoice ←
    if mayAnnotate && mode.inChoice then attempt (g.arrowInChoice isAsync items) else pure none
  match inChoice with
  | some e => return e
  | none =>
    let result ←
      if mayAnnotate && !mode.inBranch then attempt g.arrowResult else pure none
    let values := items.map Listed.value
    if values.any ParenItem.isPattern || result.isSome || (← isMark "=>") then
      g.arrowAfter isAsync start items result
    else
      checkItems values
      if isAsync then return .call (.name "async") [] (← exprsOfItems true values)
      if values.isEmpty then failAt start
      match ← exprsOfItems false values with
      | [e] => return .paren e
      | es => return .paren (.sequence es)

end Rules

end PropContract.Grammar
