import PropContract.Grammar.Functions
import PropContract.Grammar.Targets

namespace PropContract.Syntax

def Function.withTypeParams (names : List String) (types : List TypeExpr) : Function → Function
  | .mk ns ts decorators params result hasBody body =>
    .mk (names ++ ns) (types ++ ts) decorators params result hasBody body

namespace Expr

def isPrefixed : Expr → Bool
  | .negate _ | .unary _ | .await _ => true
  | _ => false

def isOperation : Expr → Bool
  | .negate _ | .unary _ | .binary .. | .operation _ => true
  | _ => false

def isBinaryBy (ops : List String) : Expr → Bool
  | .binary op _ _ => ops.contains op
  | _ => false

end Expr

end PropContract.Syntax

namespace PropContract.Grammar

open Syntax

def plainGroup (parts : List Expr) : Expr :=
  .group [] parts

def precedence? : String → Option Nat
  | "??" | "||" => some 1
  | "&&" => some 2
  | "|" => some 3
  | "^" => some 4
  | "&" => some 5
  | "==" | "!=" | "===" | "!==" => some 6
  | "<" | ">" | "<=" | ">=" | "instanceof" | "in" => some 7
  | "<<" | ">>" | ">>>" => some 8
  | "+" | "-" => some 9
  | "*" | "/" | "%" => some 10
  | "**" => some 11
  | _ => none

def castPrecedence : Nat := 7

def assignMarks : List String :=
  ["=", "+=", "-=", "*=", "/=", "%=", "**=", "<<=", ">>=", ">>>=", "&=", "|=", "^=", "&&=", "||=",
    "??="]

def openingWords : List String :=
  ["this", "super", "null", "true", "false", "function", "class", "new", "import", "typeof", "void",
    "delete", "await", "yield"]

def startsExpr : TokenKind → Bool
  | .name _ keyword => !reservedWords.contains keyword || openingWords.contains keyword
  | .string _ | .number _ | .bigint | .regex _ | .backquote | .privateName _ => true
  | .mark m =>
    ["(", "[", "\x7b", "+", "-", "!", "~", "++", "--", "/", "/=", "@", "<"].contains m
  | _ => false

def endsTypeArgs (t : Token) : Bool :=
  match t.kind with
  | .mark m =>
    !(["(", "<", ">", "=", "+", "-"].contains m) &&
      (t.afterBreak || (precedence? m).isSome || !startsExpr (.mark m))
  | .backquote => false
  | .name text keyword =>
    t.afterBreak || ["as", "satisfies", "in", "instanceof"].contains keyword ||
      !startsExpr (.name text keyword)
  | kind => t.afterBreak || !startsExpr kind

def atClosingTag : Parser Bool := do
  if !(← read).markup then return false
  match (← get).here.rest with
  | '<' :: '/' :: '*' :: _ => return false
  | '<' :: '/' :: _ => return true
  | _ => return false

def rereadAngle : Parser Unit := do
  if (← isMark "<") || (← isMark ">") then
    unless ← atClosingTag do
      reread fun c => (Lexer.markIn? Lexer.angleMarks c).getD (.bad c.offset, c)

def binaryOperator? : Parser (Option (String × Nat)) := do
  match ← currentKind with
  | .mark m =>
    if ← atClosingTag then return none
    return (precedence? m).map fun p => (m, p)
  | .name _ "instanceof" => return some ("instanceof", 7)
  | .name _ "in" => if (← read).allowIn then return some ("in", 7) else return none
  | _ => return none

def atOperator : Parser Bool := do
  match ← currentKind with
  | .mark m => return (precedence? m).isSome && !(← atClosingTag)
  | .name _ keyword => return keyword == "in" || keyword == "instanceof"
  | _ => return false

namespace Rules

variable (g : Rules)

def castTo (isAs : Bool) (left : Expr) : Parser Expr := do
  if isAs && (← eatWord "const") then return .asserted [] left
  else return .cast left (← enclosed g.type)

def mixes (op : String) (operand : Expr) : Bool :=
  if op == "??" then operand.isBinaryBy ["||", "&&"]
  else (op == "||" || op == "&&") && operand.isBinaryBy ["??"]

def operators : Nat → Nat → Nat → Expr → Parser Expr
  | 0, _, _, _ => unexpected
  | n + 1, least, start, left => do
    rereadAngle
    let isAs ← isWord "as"
    let isCast := isAs || (← isWord "satisfies")
    if isCast && least < castPrecedence && (← typed) && !(← atBreak) then
      advance
      operators n least start (← g.castTo isAs left)
    else
      match ← binaryOperator? with
      | none => return left
      | some (op, p) =>
        if p ≤ least then return left
        advance
        if op == "**" && left.isPrefixed then unexpected
        let rightStart ← position
        let right ← operators n (if op == "**" then p - 1 else p) rightStart (← g.unary)
        if mixes op left then complain start
        if mixes op right then complain rightStart
        operators n least start (.binary op left right)

def operatorsAfter (start : Nat) (left : Expr) : Parser Expr := do
  g.operators (← read).fuel 0 start left

def missingOperand (e : Failure) : Parser Expr := do
  let s ← get
  set e.state
  if ← atOperator then
    complain (← position)
    return plainGroup []
  else
    set s
    throw e

def binary : Parser Expr := do
  let start ← position
  let e ← match ← observe g.unary with
    | .ok e => pure e
    | .error e => missingOperand e
  if e.isArrow then return e
  g.operatorsAfter start e

def choiceAfter (test : Expr) : Parser Expr := do
  let yes ← inMode (fun m => { m with allowIn := true, inChoice := true, inBranch := true })
    g.assignment
  expectMark ":"
  let no ← inMode (fun m => { m with inChoice := true, inBranch := false }) g.assignment
  return .operation [test, yes, no]

def choice : Parser Expr := do
  let test ← g.binary
  if test.isArrow || !(← isMark "?") then return test
  advance
  g.choiceAfter test

def assignmentAfter (start : Nat) (target : Expr) : Parser Expr := do
  rereadAngle
  match ← currentKind with
  | .mark m =>
    if assignMarks.contains m then
      checkAssigned (m == "=") start target
      advance
      return .assign (m == "=") target (← g.assignment)
    else return target
  | _ => return target

def yieldExpr : Parser Expr := do
  let start ← position
  advance
  let mode ← read
  if mode.inParameters && !mode.inFunction then failAt start
  if ← atSemicolon then return plainGroup []
  if ← eatMark "*" then return plainGroup [← g.assignment]
  if startsExpr (← currentKind) then return plainGroup [← g.assignment] else return plainGroup []

def genericArrow : Parser Expr := do
  let tps ← g.functionTypeParams
  match ← g.assignment with
  | .arrow f => return .arrow (f.withTypeParams (paramNames tps) (paramTypes tps))
  | _ => unexpected

def genericArrow? : Parser (Option Expr) := do
  if (← typed) && (← isMark "<") && (← nextToken).kind.isWord then
    inMode (fun m => { m with inBranch := false }) (attempt g.genericArrow)
  else return none

def assignmentRule : Parser Expr := do
  match ← g.genericArrow? with
  | some e => return e
  | none =>
    if (← isWord "yield") && (← read).inGenerator then g.yieldExpr
    else
      let start ← position
      let target ← inMode (fun m => { m with arrowAt := some start }) g.choice
      if target.isArrow || target.isOperation then return target
      g.assignmentAfter start target

def exprRule : Parser Expr := do
  match ← separated "," g.assignment with
  | [e] => return e
  | es => return .sequence es

end Rules

end PropContract.Grammar
