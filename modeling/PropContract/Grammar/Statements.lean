import PropContract.Grammar.Declarations
import PropContract.Grammar.Markup

namespace PropContract.Grammar

open Syntax

namespace Rules

variable (g : Rules)

def condition : Parser Stmt := do
  expectMark "("
  let e ← enclosed g.expr
  expectMark ")"
  return .expr e

def ifStatement : Parser Stmt := do
  advance
  let test ← g.condition
  let yes ← g.statement false
  if ← eatWord "else" then return .group [test, yes, ← g.statement false]
  else return .group [test, yes]

def withStatement : Parser Stmt := do
  complain (← position)
  advance
  let subject ← g.condition
  return .group [subject, ← g.statement false]

def loopBody : Parser Stmt :=
  inMode (fun m => { m with canBreak := true, canContinue := true }) (g.statement false)

def checkLooped (ds : List (Nat × Declarator)) : Parser Unit := do
  let isBare : Pattern → Bool
    | .name _ type | .object _ type | .array _ type => type.isNone
    | _ => true
  match ds with
  | [(start, .mk target init)] =>
    if init.isSome || ((← typed) && !isBare target) then complain start
  | _ => (ds.drop 1).forM fun d => complain d.1

def loopedValues (isOf : Bool) : Parser Stmt := do
  if isOf then return .expr (← g.assignment) else return .expr (← g.expr)

def loopOver? (left : Bool → Parser Stmt) : Parser (Option (Bool × List Stmt)) := do
  let isOf ← isWord "of"
  if isOf || (← isWord "in") then
    let target ← left isOf
    advance
    return some (isOf, [target, ← g.loopedValues isOf])
  else return none

def loopWhile (start : List Stmt) : Parser (Bool × List Stmt) := do
  expectMark ";"
  let test ← if ← isMark ";" then pure [] else pure [Stmt.expr (← g.expr)]
  expectMark ";"
  let step ← if ← isMark ")" then pure [] else pure [Stmt.expr (← g.expr)]
  return (false, start ++ test ++ step)

def variableHead (kind : VariableKind) : Parser (Bool × List Stmt) := do
  advance
  let ds ← g.variableList kind true
  let declared : Stmt := .declaration (.vars kind (ds.map Prod.snd))
  let head? ← g.loopOver? fun _ => do
    checkLooped ds
    return declared
  match head? with
  | some head => return head
  | none => g.loopWhile [declared]

def startsUsingHead : Parser Bool := do
  if !(← typed) then return false
  succeeds do
    let _ ← eatWord "await"
    expectWord "using"
    if (← isWord "of") || !(← currentKind).isReference then unexpected
    advance
    unless (← isWord "of") || (← isWord "in") do unexpected

def usingHead : Parser (Bool × List Stmt) := do
  let start ← position
  let isAwait ← eatWord "await"
  expectWord "using"
  let name ← bindingName false
  let kind := if isAwait then VariableKind.awaitUsing else .using
  let head? ← g.loopOver? fun isOf => do
    unless isOf do complain start
    return .declaration (.vars kind [.mk (.name name none) none])
  match head? with
  | some head => return head
  | none => unexpected

def expressionHead : Parser (Bool × List Stmt) := do
  let start ← position
  let e ← inMode (fun m => { m with allowIn := false }) g.expr
  let head? ← g.loopOver? fun isOf => do
    if e.isObjectOrArray then
      let _ ← patternOf .element start e
      if (← typed) && !isOf then complain start
    else checkTarget start e
    return .expr e
  match head? with
  | some head => return head
  | none => g.loopWhile [.expr e]

def loopHead : Parser (Bool × List Stmt) := do
  let next ← nextToken
  match ← currentKind with
  | .name _ "const" => g.variableHead .const
  | .name _ "var" => g.variableHead .var
  | .name _ "let" => if followsLet next.kind then g.variableHead .let else g.expressionHead
  | .mark ";" => g.loopWhile []
  | _ => if ← startsUsingHead then g.usingHead else g.expressionHead

def forStatement : Parser Stmt := do
  advance
  let await ← position
  let isAwait ← eatWord "await"
  expectMark "("
  let (isOf, head) ← enclosed g.loopHead
  expectMark ")"
  let body ← g.loopBody
  if isAwait && !isOf then failAt await
  return .group (head ++ [body])

def whileStatement : Parser Stmt := do
  advance
  let test ← g.condition
  return .group [test, ← g.loopBody]

def doStatement : Parser Stmt := do
  advance
  let body ← g.loopBody
  expectWord "while"
  let test ← g.condition
  let _ ← eatMark ";"
  return .group [body, test]

def switchCase (hasDefault : Bool) : Parser (Bool × List Stmt) := do
  let isDefault ← isWord "default"
  advance
  let test ← if isDefault then pure [] else pure [Stmt.expr (← g.expr)]
  if isDefault && hasDefault then unexpected
  expectMark ":"
  let body ← many do
    if (← isMark "\x7d") || (← isWord "case") || (← isWord "default") ||
        (← currentKind) == .eof then return none
    return some (← g.statement true)
  return (isDefault, test ++ body)

def switchCases : Nat → Bool → Parser (List Stmt)
  | 0, _ => unexpected
  | n + 1, hasDefault => do
    if (← isWord "case") || (← isWord "default") then
      let (isDefault, body) ← g.switchCase hasDefault
      return body ++ (← switchCases n (hasDefault || isDefault))
    else return []

def switchStatement : Parser Stmt := do
  advance
  let subject ← g.condition
  expectMark "\x7b"
  let cases ← inMode (fun m => { m with canBreak := true })
    (enclosed (do g.switchCases (← read).fuel false))
  expectMark "\x7d"
  return .group (subject :: cases)

def catchParam : Parser (List Stmt) := do
  if ← eatMark "(" then
    let p ← g.pattern false
    let type ← g.typeAnnotation
    expectMark ")"
    return [.binding (p.withType type)]
  else return []

def catchClause? : Parser (Option (List Stmt)) := do
  if ← eatWord "catch" then
    let p ← g.catchParam
    return some (p ++ (← g.block))
  else return none

def finallyClause? : Parser (Option (List Stmt)) :=
  optionally (eatWord "finally") g.block

def tryStatement : Parser Stmt := do
  advance
  let body ← g.block
  let start ← position
  let handler ← g.catchClause?
  let last ← g.finallyClause?
  if handler.isNone && last.isNone then complain start
  return .group (body ++ handler.getD [] ++ last.getD [])

def strayClause : Parser Stmt := do
  complain (← position)
  let _ ← salvage g.catchClause?
  let _ ← salvage g.finallyClause?
  return .group []

def returnStatement : Parser Stmt := do
  let start ← position
  advance
  let value ← if ← atSemicolon then pure [] else pure [Stmt.expr (← g.expr)]
  semicolon
  unless (← read).inFunction do complain start
  return .group value

def throwStatement : Parser Stmt := do
  advance
  if ← atBreak then unexpected
  let e ← g.expr
  semicolon
  return .group [.expr e]

def Mode.canJump (m : Mode) (isBreak : Bool) (label : Option String) : Bool :=
  let isKnown := match label with
    | some l => m.labels.contains l
    | none => true
  isKnown && (if isBreak then m.canBreak else m.canContinue)

def jumpStatement (isBreak : Bool) : Parser Stmt := do
  let start ← position
  advance
  let label ← if ← eatSemicolon then pure none else
    let l ← bindingName false
    semicolon
    pure (some l)
  unless Mode.canJump (← read) isBreak label do complain start
  return .group (label.toList.map fun l => .expr (.name l))

def labelled (start : Nat) (label : String) : Parser Stmt := do
  let isRepeated := (← read).labels.contains label
  let body ← inMode (fun m => { m with canBreak := true, labels := label :: m.labels }) do
    if ← isWord "function" then
      let here ← position
      let d ← g.functionDeclaration false
      complain here
      return Stmt.declaration d
    else g.statement false
  if isRepeated then complain start
  return .group [.expr (.name label), body]

def expressionEnd (start : Nat) (e : Expr) : Parser Stmt := do
  if ← atOperator then
    complain (← position)
    return .expr (← g.operatorsAfter start e)
  else
    semicolon
    return .expr e

/-- A statement that begins with an expression: a label, a declaration whose first word is no
keyword, or the expression itself. -/
def expressionStatement (decorators : List Expr) : Parser Stmt := do
  let start ← position
  match ← g.expr with
  | .name n =>
    if ← eatMark ":" then g.labelled start n
    else
      let declared ← if ← typed then g.declarationAfter? n start decorators else pure none
      match declared with
      | some d => return .declaration d
      | none => g.expressionEnd start (.name n)
  | e => g.expressionEnd start e

def wordStatement? (keyword : String) : Parser (Option Stmt) := do
  match keyword with
  | "if" => return some (← g.ifStatement)
  | "for" => return some (← g.forStatement)
  | "while" => return some (← g.whileStatement)
  | "do" => return some (← g.doStatement)
  | "switch" => return some (← g.switchStatement)
  | "try" => return some (← g.tryStatement)
  | "catch" | "finally" => return some (← g.strayClause)
  | "return" => return some (← g.returnStatement)
  | "throw" => return some (← g.throwStatement)
  | "break" => return some (← jumpStatement true)
  | "continue" => return some (← jumpStatement false)
  | "with" => return some (← g.withStatement)
  | "debugger" =>
    advance
    semicolon
    return some (.group [])
  | _ => return none

def startsAwaitUsing : Parser Bool := do
  if ← isWord "await" then
    succeeds do
      advance
      unless ← startsUsing do unexpected
  else return false

def declaration? (isList : Bool) (decorators : List Expr) : Parser (Option Declaration) := do
  let start ← position
  let next ← nextToken
  match ← currentKind with
  | .name _ "var" => return some (← g.variableDeclaration .var)
  | .name _ "const" => if isList then return some (← g.variableDeclaration .const) else return none
  | .name _ "let" =>
    if isList && followsLet next.kind then return some (← g.variableDeclaration .let)
    else return none
  | .name _ "function" =>
    unless isList do complain start
    return some (← g.functionDeclaration false)
  | .name _ "class" =>
    unless isList do complain start
    return some (← g.classDeclaration false decorators)
  | _ =>
    if ← startsAsyncFunction then return some (← g.functionDeclaration false)
    else if ← startsUsing then return some (← g.usingDeclaration .using start isList)
    else if ← startsAwaitUsing then
      advance
      return some (← g.usingDeclaration .awaitUsing start isList)
    else g.typeDeclaration?

def statementAfter (isList : Bool) (decorators : List Expr) : Parser Stmt := do
  if let some d ← g.constEnum? then return .declaration d
  match ← currentKind with
  | .mark "\x7b" => return .group (← g.block)
  | .mark ";" =>
    advance
    return .group []
  | kind =>
    let keyword := match kind with
      | .name _ keyword => keyword
      | _ => ""
    if let some s ← g.wordStatement? keyword then return s
    match ← g.declaration? isList decorators with
    | some d => return .declaration d
    | none => g.expressionStatement decorators

def startsImportExpr : Parser Bool := do
  let next ← nextToken
  return (← isWord "import") && (next.kind == .mark "(" || next.kind == .mark ".")

def importStatement : Parser Stmt := do
  let e ← g.expr
  let _ ← eatSemicolon
  return .expr e

def statementRule (isList : Bool) : Parser Stmt := do
  let decorators ← g.decorators
  if ← startsImportExpr then g.importStatement
  else if (← isWord "import") || (← isWord "export") then unexpected
  else g.statementAfter isList decorators

end Rules

end PropContract.Grammar
