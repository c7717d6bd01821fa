import PropContract.Syntax.Token
import PropContract.Syntax.Walk

/-!
Parsers: steps over the tokens of a text. An error that leaves the rest of the text readable is
kept until the end; any other ends the reading at once.
-/

namespace PropContract.Grammar

open Syntax

structure SyntaxError where
  offset : Nat
  deriving DecidableEq, Repr, Inhabited

structure Mode where
  typed : Bool
  markup : Bool
  declares : Bool := false
  ambient : Bool := false
  allowIn : Bool := true
  allowConditional : Bool := true
  /-- Where the expression that is read starts: only there can an arrow function begin. -/
  arrowAt : Option Nat := none
  inChoice : Bool := false
  /-- Whether a colon can end the expression, as between the branches of a choice. -/
  inBranch : Bool := false
  canBreak : Bool := false
  canContinue : Bool := false
  labels : List String := []
  inFunction : Bool := false
  inParameters : Bool := false
  inClass : Bool := false
  hasBase : Bool := false
  inField : Bool := false
  hasNewTarget : Bool := false
  allowSuper : Bool := false
  inAsync : Bool := false
  inGenerator : Bool := false
  fuel : Nat

structure State where
  here : Cursor
  token : Token
  after : Cursor
  previousStop : Nat
  pending : Option SyntaxError

structure Failure where
  offset : Nat
  state : State

abbrev Parser := ReaderT Mode (StateT State (Except Failure))

variable {α β : Type}

instance : Inhabited (Parser α) := ⟨fun _ s => .error ⟨s.token.start, s⟩⟩

def currentToken : Parser Token := do
  return (← get).token

def currentKind : Parser TokenKind := do
  return (← get).token.kind

def position : Parser Nat := do
  return (← get).token.start

def failAt (offset : Nat) : Parser α := do
  throw ⟨offset, ← get⟩

def unexpected : Parser α := do
  failAt (← position)

def complain (offset : Nat) : Parser Unit :=
  modify fun s => { s with pending := s.pending <|> some ⟨offset⟩ }

def spanFrom (start : Nat) : Parser Span := do
  return ⟨start, (← get).previousStop⟩

def noteFlaw (pending : Option SyntaxError) : TokenKind → Option SyntaxError
  | .flawed offset _ => pending <|> some ⟨offset⟩
  | _ => pending

def State.readBy (s : State) (scan : Cursor → TokenKind × Cursor) (c : Cursor) : State :=
  let (token, here, after) := Lexer.nextBy scan (some s.token.kind) c
  { s with here, token := token.plain, after, pending := noteFlaw s.pending token.kind }

def State.readFrom (s : State) (c : Cursor) : State :=
  s.readBy (Lexer.scan false) c

def moveTo (c : Cursor) : Parser Unit :=
  modify fun s => s.readFrom c

def standAt (c : Cursor) : Parser Unit :=
  modify fun s =>
    let (kind, after) := Lexer.scan false c
    { s with here := c, token := ⟨kind, c.offset, after.offset, false, none⟩, after }

def advanceBy (scan : Cursor → TokenKind × Cursor) : Parser Unit :=
  modify fun s => { s.readBy scan s.after with previousStop := s.token.stop }

def advance : Parser Unit :=
  advanceBy (Lexer.scan false)

def reread (how : Cursor → TokenKind × Cursor) : Parser Unit :=
  modify fun s =>
    let (kind, after) := how s.here
    { s with token := { s.token with kind, stop := after.offset }, after }

def nextToken : Parser Token := do
  let s ← get
  return (Lexer.next (some s.token.kind) s.after).1.plain

def isMark (text : String) : Parser Bool := do
  return (← currentKind) == .mark text

def isWord (text : String) : Parser Bool := do
  return (← currentKind).isKeyword text

def atBreak : Parser Bool := do
  return (← currentToken).afterBreak

def eatMark (text : String) : Parser Bool := do
  if ← isMark text then
    advance
    return true
  else return false

def eatWord (text : String) : Parser Bool := do
  if ← isWord text then
    advance
    return true
  else return false

def expectMark (text : String) : Parser Unit := do
  unless ← eatMark text do unexpected

def expectWord (text : String) : Parser Unit := do
  unless ← eatWord text do unexpected

/-- A name that a declaration introduces. Names that a module should not use are noted; `let` is
none at all where `noLet` says so. -/
def bindingName (noLet : Bool) : Parser String := do
  let start ← position
  match ← currentKind with
  | .name text keyword =>
    if noLet && keyword == "let" then unexpected
    advance
    if keyword == "enum" || strictWords.contains keyword then complain start
    else if keyword == "await" then
      unless (← read).ambient do failAt start
    else if keyword == "this" then
      unless (← read).typed do failAt start
    else if reservedWords.contains keyword then failAt start
    else if isFixedName text then complain start
    return text
  | _ => unexpected

def anyName : Parser String := do
  match ← currentKind with
  | .name text _ =>
    advance
    return text
  | _ => unexpected

def atSemicolon : Parser Bool := do
  let t ← currentToken
  return t.kind == .mark ";" || t.kind == .mark "\x7d" || t.kind == .eof || t.afterBreak

def eatSemicolon : Parser Bool := do
  if ← eatMark ";" then return true else atSemicolon

def semicolon : Parser Unit := do
  unless ← eatSemicolon do unexpected

def typed : Parser Bool := do
  return (← read).typed

def observe (p : Parser α) : Parser (Except Failure α) := fun mode s =>
  match p mode s with
  | .ok (a, s) => .ok (.ok a, s)
  | .error e => .ok (.error e, s)

def quietly (p : Parser α) : Parser α := do
  let pending := (← get).pending
  let a ← p
  modify fun s => { s with pending }
  return a

def attempt (p : Parser α) : Parser (Option α) := do
  match ← observe (quietly p) with
  | .ok a => return some a
  | .error _ => return none

def salvage (p : Parser α) : Parser (Option α) := fun mode s =>
  match p mode s with
  | .ok (a, s) => .ok (some a, s)
  | .error e => .ok (none, e.state)

def succeeds (p : Parser α) : Parser Bool := fun mode s =>
  match p mode s with
  | .ok _ => .ok (true, s)
  | .error _ => .ok (false, s)

def repeatWhile (step : Parser (Option α)) : Nat → Parser (List α)
  | 0 => unexpected
  | n + 1 => do
    match ← step with
    | none => return []
    | some a => return a :: (← repeatWhile step n)

def many (step : Parser (Option α)) : Parser (List α) := do
  repeatWhile step (← read).fuel

def extendWhile (step : α → Parser (Option α)) : Nat → α → Parser α
  | 0, _ => unexpected
  | n + 1, a => do
    match ← step a with
    | none => return a
    | some b => extendWhile step n b

def extend (step : α → Parser (Option α)) (a : α) : Parser α := do
  extendWhile step (← read).fuel a

def listItem (close : String) (item : Parser α) : Parser (Option α) := do
  if ← isMark close then return none
  let a ← item
  unless ← isMark close do expectMark ","
  return some a

def commaList (close : String) (item : Parser α) : Parser (List α) := do
  let items ← many (listItem close item)
  expectMark close
  return items

def untilMark (close : String) (item : Parser α) : Parser (List α) := do
  let items ← many do
    if ← isMark close then return none
    return some (← item)
  expectMark close
  return items

def separated (mark : String) (item : Parser α) : Parser (List α) := do
  let first ← item
  let rest ← many do
    if ← eatMark mark then return some (← item) else return none
  return first :: rest

def optionally (condition : Parser Bool) (p : Parser α) : Parser (Option α) := do
  if ← condition then return some (← p) else return none

def inMode (change : Mode → Mode) (p : Parser α) : Parser α :=
  fun mode s => p (change mode) s

def enclosed (p : Parser α) : Parser α :=
  inMode (fun m => { m with allowIn := true, allowConditional := true, inBranch := false }) p

structure Rules where
  type : Parser TypeExpr
  typeOperand : Parser TypeExpr
  pattern : Bool → Parser Pattern
  expr : Parser Expr
  assignment : Parser Expr
  unary : Parser Expr
  reference : Parser Expr
  constructed : Parser Expr
  decorator : Parser Expr
  element : Parser Expr
  statement : Bool → Parser Stmt
  item : Parser Item

instance : Inhabited Rules :=
  ⟨⟨unexpected, unexpected, fun _ => unexpected, unexpected, unexpected, unexpected, unexpected,
    unexpected, unexpected, unexpected, fun _ => unexpected, unexpected⟩⟩

end PropContract.Grammar
