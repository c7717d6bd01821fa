import PropContract.Grammar.Literals
import PropContract.Grammar.Parentheses

namespace PropContract.Syntax.Expr

def isChain : Expr → Bool
  | .chain _ => true
  | _ => false

def isMember : Expr → Bool
  | .member .. | .index .. | .privateMember _ => true
  | _ => false

def isDeletable : Expr → Bool
  | .paren inner => inner.isDeletable
  | .chain inner => inner.isMember
  | e => e.isMember

end PropContract.Syntax.Expr

namespace PropContract.Grammar

open Syntax

def areFlags : List Char → Bool
  | [] => true
  | c :: cs => "dgimsuvy".toList.contains c && !cs.contains c && areFlags cs

namespace Rules

variable (g : Rules)

def functionExpr : Parser Expr := do
  let (_, f) ← g.functionFrom (optionalName false) Option.toList
  unless f.hasBody do unexpected
  return .function f

def classExpr : Parser Expr := do
  let decorators ← g.decorators
  expectWord "class"
  let name ← className false
  return .class (← g.classTail false name.toList decorators)

def asyncName (mayArrow : Bool) : Parser Expr := do
  let start ← position
  advance
  if !mayArrow || (← atBreak) then return .name "async"
  else if ← eatMark "=>" then g.shortArrow false start "async"
  else if (← currentKind).isReference then
    let nameStart ← position
    let name ← bindingName false
    if name == "as" && (← typed) && !(← isMark "=>") then
      return .cast (.name "async") (← enclosed g.type)
    else
      expectMark "=>"
      g.shortArrow true nameStart name
  else return .name "async"

def asyncExpr : Parser Expr := do
  let start ← position
  let next ← nextToken
  let mayArrow ← canBeArrow start
  if ← startsAsyncFunction then g.functionExpr
  else
    let generic ←
      if mayArrow && (← typed) && next.kind == .mark "<" then
        attempt (do advance; g.genericAsyncArrow)
      else pure none
    match generic with
    | some e => return e
    | none =>
      if mayArrow && next.kind == .mark "(" && !next.afterBreak then
        advance
        g.parenthesized (some start)
      else g.asyncName mayArrow

def nameExpr (text keyword : String) : Parser Expr := do
  if keyword != "let" && isReserved keyword then unexpected
  let start ← position
  advance
  if keyword == "let" then complain start
  if text == "arguments" && (← read).inField then complain start
  if (← canBeArrow start) && !(← atBreak) && (← eatMark "=>") then g.shortArrow false start text
  else return .name text

def regexExpr : Parser Expr := do
  reread Lexer.regex
  match ← currentKind with
  | .regex flags =>
    unless areFlags flags do complain (← position)
    advance
    return plainGroup []
  | _ => unexpected

def primary : Parser Expr := do
  match ← currentKind with
  | .name text keyword =>
    match keyword with
    | "this" =>
      advance
      return plainGroup []
    | "null" =>
      advance
      return .null
    | "true" =>
      advance
      return .boolean true
    | "false" =>
      advance
      return .boolean false
    | "function" => g.functionExpr
    | "class" => g.classExpr
    | "async" => g.asyncExpr
    | _ => g.nameExpr text keyword
  | .string v =>
    advance
    return .string v
  | .number v =>
    advance
    return .number v
  | .bigint | .privateName _ =>
    advance
    return plainGroup []
  | .backquote =>
    let (texts, parts) ← template false g.expr
    return .template texts parts
  | .mark "(" => g.parenthesized none
  | .mark "[" => g.arrayLiteral
  | .mark "\x7b" => g.objectLiteral
  | .mark "@" => g.classExpr
  | .mark "/" | .mark "/=" => regexExpr
  | _ => unexpected

/-- A chain of members and calls, which starts at `start`; `isLoose` once one of its links may be
missing. -/
structure Chain where
  start : Nat
  expr : Expr
  isLoose : Bool := false

def Chain.link (c : Chain) (e : Expr) : Chain :=
  { c with expr := if c.isLoose then .chain e else e }

def Chain.call (c : Chain) (types : List TypeExpr) (args : List Expr) : Chain :=
  if c.isLoose then { c with expr := .chain (.group types (c.expr :: args)) }
  else { c with expr := .call c.expr types args }

def memberLink (c : Chain) : Parser Chain := do
  match ← currentKind with
  | .privateName _ =>
    advance
    return c.link (.privateMember c.expr)
  | _ => return c.link (.member c.expr (← anyName))

def indexLink (c : Chain) : Parser Chain := do
  expectMark "["
  let e ← enclosed g.expr
  expectMark "]"
  return c.link (.index c.expr e)

def templateLink (c : Chain) (types : List TypeExpr) : Parser Chain := do
  let (_, parts) ← template true g.expr
  if c.isLoose then complain c.start
  return { c with expr := .group types (c.expr :: parts), isLoose := false }

def typedLink (calls : Bool) (c : Chain) : Parser Chain := do
  let types ← g.typeArgs
  match ← currentKind with
  | .mark "(" => if calls then return c.call types (← g.arguments) else unexpected
  | .backquote => g.templateLink c types
  | .mark "=" | .name _ "as" | .name _ "satisfies" =>
    return { c with expr := .applied c.expr types }
  | _ => unexpected

def looseLink (c : Chain) : Parser Chain := do
  let c := { c with isLoose := true }
  match ← currentKind with
  | .mark "(" => return c.call [] (← g.arguments)
  | .mark "[" => g.indexLink c
  | .mark "<" =>
    if ← typed then
      let types ← g.typeArgs
      return c.call types (← g.arguments)
    else unexpected
  | _ => memberLink c

def chainStep (calls indices : Bool) (c : Chain) : Parser (Option Chain) := do
  match ← currentKind with
  | .mark "." =>
    advance
    return some (← memberLink c)
  | .mark "?." =>
    advance
    return some (← g.looseLink c)
  | .mark "[" => if indices then return some (← g.indexLink c) else return none
  | .mark "!" =>
    if (← typed) && !(← atBreak) then
      advance
      return some { c with expr := .asserted [] c.expr }
    else return none
  | .mark "(" => if calls then return some (c.call [] (← g.arguments)) else return none
  | .mark "<" => if ← typed then attempt (g.typedLink calls c) else return none
  | .backquote => return some (← g.templateLink c [])
  | _ => return none

def memberChain (c : Chain) : Parser Chain :=
  extend (g.chainStep false true) c

def callChain (c : Chain) : Parser Chain :=
  extend (g.chainStep true true) c

def superChain (calls : Bool) (start : Nat) : Parser Chain := do
  let mode ← read
  let mayUse := mode.typed || mode.allowSuper
  let e ←
    match ← currentKind with
    | .mark "." =>
      advance
      let _ ← anyName
      unless mayUse do failAt start
      pure (Expr.superMember none)
    | .mark "[" =>
      advance
      let key ← enclosed g.expr
      expectMark "]"
      unless mayUse do failAt start
      pure (.superMember (some key))
    | .mark "(" => if calls then pure (.call (plainGroup []) [] (← g.arguments)) else unexpected
    | _ => unexpected
  extend (g.chainStep calls true) { start, expr := e }

def importCall (calls : Bool) (start : Nat) : Parser Chain := do
  unless calls do unexpected
  let e : Expr := .call (plainGroup []) [] (← g.arguments)
  extend (g.chainStep calls true) { start, expr := e }

def importChain (calls : Bool) (start : Nat) : Parser Chain := do
  if ← eatMark "." then
    let word ← anyName
    if word == "meta" then
      extend (g.chainStep calls true) { start, expr := plainGroup [] }
    else if word == "defer" || word == "source" then g.importCall calls start
    else unexpected
  else g.importCall calls start

def newTarget (start : Nat) : Parser Chain := do
  unless ← eatWord "target" do unexpected
  let mode ← read
  unless mode.hasNewTarget || mode.inParameters || mode.inClass do complain start
  g.memberChain { start, expr := plainGroup [] }

def callTypes? : Parser (Option (List TypeExpr)) := do
  if (← typed) && (← isMark "<") then
    attempt do
      let types ← g.typeArgs
      unless ← isMark "(" do unexpected
      return types
  else return none

def newChain (isNested : Bool) (start : Nat) : Parser Chain := do
  if ← eatMark "." then g.newTarget start
  else
    let calleeStart ← position
    let callee ← g.constructed
    if callee.isArrow then return { start, expr := callee }
    if callee.isChain then failAt calleeStart
    let types := (← g.callTypes?).getD []
    if !isNested || (← isMark "(") then
      let args ← if ← isMark "(" then g.arguments else pure []
      g.memberChain { start, expr := .group types (callee :: args) }
    else return { start, expr := .group types [callee] }

def appliedTypes? : Parser (Option (List TypeExpr)) := do
  if (← typed) && (← isMark "<") then
    attempt do
      let types ← g.typeArgs
      unless endsTypeArgs (← currentToken) do unexpected
      return types
  else return none

def openChain (isNested : Bool) : Parser Chain := do
  let start ← position
  if ← eatWord "new" then g.newChain isNested start
  else if ← eatWord "super" then g.superChain false start
  else if ← eatWord "import" then g.importChain false start
  else
    let e ← g.primary
    if e.isArrow then return { start, expr := e }
    match ← g.appliedTypes? with
    | some types => g.memberChain { start, expr := .applied e types }
    | none => g.memberChain { start, expr := e }

def constructedRule : Parser Expr := do
  return (← g.openChain true).expr

def referenceRule : Parser Expr := do
  let start ← position
  if (← read).markup && (← isMark "<") then
    let e ← g.element
    advance
    return e
  else if ← eatWord "super" then return (← g.superChain true start).expr
  else if ← eatWord "import" then return (← g.importChain true start).expr
  else
    let c ← g.openChain false
    if c.expr.isArrow then return c.expr
    let types ← g.callTypes?
    if ← isMark "(" then
      let args ← g.arguments
      return (← g.callChain (c.call (types.getD []) args)).expr
    else return c.expr

def decoratorRule : Parser Expr := do
  expectMark "@"
  let e ←
    if ← eatMark "(" then
      let e ← enclosed g.expr
      expectMark ")"
      pure e
    else
      let start ← position
      let name ← bindingName false
      pure (← extend (g.chainStep true false) { start, expr := .name name }).expr
  let types ← if (← typed) && (← isMark "<") then pure (some (← g.typeArgs)) else pure none
  if types.isSome || (← isMark "(") then return .call e (types.getD []) (← g.arguments)
  else return e

def postfixed : Parser Expr := do
  let start ← position
  let e ← g.reference
  if e.isArrow || (← atBreak) then return e
  if (← isMark "++") || (← isMark "--") then
    checkTarget start e
    advance
    return .operation [e]
  else return e

def updated : Parser Expr := do
  advance
  let start ← position
  let e ← g.unary
  checkTarget start e
  return .operation [e]

def operand : Parser Expr := do
  match ← observe g.unary with
  | .ok e => return e
  | .error e =>
    set e.state
    complain e.offset
    return plainGroup []

def innerStart : Parser Nat := do
  let s ← get
  let _ ← many do
    if ← eatMark "(" then return some () else return none
  let start ← position
  set s
  return start

def deleteExpr : Parser Expr := do
  advance
  let start ← position
  let inner ← innerStart
  let e ← g.operand
  if e.isName then complain start
  if (← typed) && !e.isDeletable then complain inner
  return .unary e

def awaitExpr : Parser Expr := do
  let start ← position
  advance
  if ← isMark "*" then unexpected
  let mode ← read
  if !mode.inAsync && ((← isMark ")") || (← isMark "]") || (← atSemicolon)) then
    complain start
    return .name "await"
  if mode.inFunction && !mode.inAsync then complain start
  if mode.inParameters && !mode.inFunction then complain start
  return .await (← g.unary)

def angleCast : Parser Expr := do
  expectMark "<"
  if ← eatWord "const" then
    expectMark ">"
    return .asserted [] (← g.unary)
  else
    let type ← enclosed g.type
    expectMark ">"
    return .asserted [type] (← g.unary)

def unaryRule : Parser Expr := do
  match ← currentKind with
  | .mark "<" =>
    let mode ← read
    if mode.typed && !mode.markup then g.angleCast else g.postfixed
  | .mark "++" | .mark "--" => g.updated
  | .mark "-" =>
    advance
    return .negate (← g.operand)
  | .mark "+" | .mark "~" | .mark "!" | .name _ "void" | .name _ "typeof" =>
    advance
    return .unary (← g.operand)
  | .name _ "delete" => g.deleteExpr
  | .name _ "await" => g.awaitExpr
  | _ => g.postfixed

end Rules

end PropContract.Grammar
