import PropContract.Grammar.Expressions

namespace PropContract.Syntax

def ImportedName.names : ImportedName → List String
  | .named name => [name]
  | .namespace => []

def Item.statement (i : Item) : Stmt :=
  let mention (names : List String) : Stmt := .group (names.map fun n => .expr (.name n))
  match i.kind with
  | .statement s => s
  | .exportDeclaration d | .exportDefault d => .declaration d
  | .exportValue e => .expr e
  | .imports _ specifiers =>
    mention (specifiers.flatMap fun s => s.localName :: s.imported.names)
  | .exportNames _ specifiers => mention (specifiers.flatMap fun s => s.exported :: s.source.names)
  | .exportAll _ => .group []
  | .moduleSyntax parts => .group (parts.map .expr)

end PropContract.Syntax

namespace PropContract.Grammar

open Syntax

namespace Rules

variable (g : Rules)

def followsLet : TokenKind → Bool
  | .name _ keyword => !reservedWords.contains keyword
  | .mark m => m == "\x7b" || m == "["
  | _ => false

/-- A declared variable, and where it starts. In the head of a loop its value may come from the
loop. -/
def declarator (kind : VariableKind) (inLoop : Bool) : Parser (Nat × Declarator) := do
  let start ← position
  let target ← g.pattern (kind = .let || kind = .const)
  if (← typed) && target.isName then
    let _ ← eatMark "!"
  let target := target.withType (← g.typeAnnotation)
  let isLooped := inLoop && ((← isWord "of") || (← isWord "in"))
  if isLooped then return (start, .mk target none)
  if ← eatMark "=" then return (start, .mk target (some (← g.assignment)))
  unless (← read).ambient do
    if kind = .const && !inLoop then complain start
    else unless target.isName do failAt start
  return (start, .mk target none)

def declaratorsFrom (kind : VariableKind) (inLoop : Bool) :
    Nat → Nat → Parser (List (Nat × Declarator))
  | 0, _ => unexpected
  | n + 1, offset => do
    if (← isMark ";") || (← currentKind) == .eof then
      complain offset
      return []
    let d ← g.declarator kind inLoop
    let comma ← position
    if ← eatMark "," then return d :: (← declaratorsFrom kind inLoop n comma) else return [d]

def variableList (kind : VariableKind) (inLoop : Bool) : Parser (List (Nat × Declarator)) := do
  let allowIn := kind != .var || !inLoop
  inMode (fun m => { m with allowIn })
    (do g.declaratorsFrom kind inLoop (← read).fuel (← get).previousStop)

def skipToEnd : Parser Unit := do
  complain (← position)
  let _ ← salvage g.expr
  let _ ← many do
    if ← eatSemicolon then return none
    advance
    return some ()

def variableDeclaration (kind : VariableKind) : Parser Declaration := do
  advance
  let ds ← g.variableList kind false
  unless ← eatSemicolon do g.skipToEnd
  return .vars kind (ds.map Prod.snd)

def startsUsing : Parser Bool := do
  let next ← nextToken
  return (← isWord "using") && next.kind.isReference && !next.afterBreak

def usingDeclaration (kind : VariableKind) (start : Nat) (isAllowed : Bool) :
    Parser Declaration := do
  expectWord "using"
  let ds ← separated "," (g.declarator .var false)
  let isProper : Declarator → Bool
    | .mk target init => target.isName && init.isSome
  unless (← typed) && isAllowed && ds.all (isProper ·.2) do complain start
  semicolon
  return .vars kind (ds.map Prod.snd)

def functionDeclaration (isAmbient : Bool) : Parser Declaration := do
  let (name, f) ← g.functionFrom (bindingName false) fun _ => []
  return .function name isAmbient f

def classDeclaration (isAbstract : Bool) (decorators : List Expr) : Parser Declaration := do
  expectWord "class"
  let name ← className true
  return .class (name.getD "") (← g.classTail isAbstract [] decorators)

def interfaceTail : Parser Interface := do
  let start ← position
  let name ← anyName
  checkTypeName start name
  let params ← g.typeParams { variance := true, const := false }
  let bases ← if ← eatWord "extends" then g.interfaceBases else pure []
  if ← isWord "extends" then
    complain (← position)
    let _ ← many do
      if (← isMark "\x7b") || (← currentKind) == .eof then return none
      advance
      return some ()
  let members ← g.typeMembers
  return { name, params, bases, members }

def aliasTail : Parser TypeAlias := do
  let name ← anyName
  let params ← g.typeParams { variance := true, const := false }
  expectMark "="
  let type ← enclosed g.type
  semicolon
  return { name, params, type }

def enumName : Parser (String × Bool) := do
  let start ← position
  match ← currentKind with
  | .string v =>
    advance
    return (v, true)
  | .number _ | .bigint =>
    complain start
    advance
    return ("", true)
  | .mark "[" =>
    advance
    let e ← enclosed g.expr
    expectMark "]"
    match e with
    | .string v => return (v, true)
    | .template [text] [] => return (Lexer.resolve text, true)
    | _ =>
      complain start
      return ("", true)
  | _ => return (← anyName, false)

def enumMembers : Nat → Parser (List EnumMember)
  | 0 => unexpected
  | n + 1 => do
    if ← isMark "\x7d" then return []
    let (name, isQuoted) ← g.enumName
    let init ← optionally (eatMark "=") g.assignment
    unless ← isMark "\x7d" do
      if init.isNone && !(← isMark ",") then
        complain (← position)
        advance
      else expectMark ","
    return .mk name isQuoted init :: (← enumMembers n)

def enumTail : Parser Declaration := do
  let name ← anyName
  expectMark "\x7b"
  let members ← enclosed (do g.enumMembers (← read).fuel)
  expectMark "\x7d"
  return .enum name members

def namespaceBody : Parser (List Stmt) := do
  expectMark "\x7b"
  let items ← enclosed (untilMark "\x7d" g.item)
  return items.map Item.statement

def namespaceTail : Parser Declaration := do
  let path ← separated "." anyName
  return .namespace path (← g.namespaceBody)

def moduleTail : Parser Declaration := do
  advance
  if ← isMark "\x7b" then return .namespace [] (← g.namespaceBody)
  else
    semicolon
    return .namespace [] []

def isQuoted : TokenKind → Bool
  | .string _ => true
  | _ => false

def typedDeclaration? (decorators : List Expr) : Parser (Option Declaration) := do
  let t ← currentToken
  match t.kind with
  | .name "abstract" _ =>
    advance
    return some (← g.classDeclaration true decorators)
  | .name "enum" _ =>
    advance
    return some (← g.enumTail)
  | .name "interface" _ =>
    advance
    return some (.interface (← g.interfaceTail))
  | .name "namespace" _ =>
    advance
    return some (← g.namespaceTail)
  | .name "type" _ =>
    advance
    return some (.typeAlias (← g.aliasTail))
  | .name "module" _ =>
    if t.afterBreak then return none
    advance
    if isQuoted (← currentKind) then return some (← g.moduleTail)
    else return some (← g.namespaceTail)
  | _ => return none

def ambientDeclaration? (start : Nat) (decorators : List Expr) : Parser (Option Declaration) := do
  let mode ← read
  if mode.ambient && !mode.declares then complain start
  inMode (fun m => { m with ambient := true }) do
    let next ← nextToken
    match ← currentKind with
    | .name _ "function" => return some (← g.functionDeclaration true)
    | .name _ "class" => return some (← g.classDeclaration false decorators)
    | .name _ "const" =>
      if next.kind.isKeyword "enum" then
        advance
        advance
        return some (← g.enumTail)
      else return some (← g.variableDeclaration .const)
    | .name _ "var" => return some (← g.variableDeclaration .var)
    | .name _ "let" => return some (← g.variableDeclaration .let)
    | .name _ "global" =>
      advance
      if ← isMark "\x7b" then return some (.namespace ["global"] (← g.namespaceBody))
      else
        semicolon
        return some (.namespace ["global"] [])
    | _ => g.typedDeclaration? decorators

def declarationAfter? (word : String) (start : Nat) (decorators : List Expr) :
    Parser (Option Declaration) := do
  let t ← currentToken
  match word with
  | "declare" => g.ambientDeclaration? start decorators
  | "global" =>
    if ← isMark "\x7b" then return some (.namespace ["global"] (← g.namespaceBody))
    else return none
  | "abstract" =>
    if t.kind.isKeyword "class" && !t.afterBreak then
      return some (← g.classDeclaration true decorators)
    else return none
  | "module" =>
    if t.afterBreak then return none
    else if isQuoted t.kind then return some (← g.moduleTail)
    else if t.kind.isReference then return some (← g.namespaceTail)
    else return none
  | "namespace" => if t.kind.isReference then return some (← g.namespaceTail) else return none
  | _ => return none

def typeDeclaration? : Parser (Option Declaration) := do
  let next ← nextToken
  if !(← typed) || !next.kind.isWord || next.afterBreak then return none
  match ← currentKind with
  | .name _ "interface" =>
    advance
    return some (.interface (← g.interfaceTail))
  | .name _ "type" =>
    advance
    return some (.typeAlias (← g.aliasTail))
  | .name _ "enum" =>
    advance
    return some (← g.enumTail)
  | _ => return none

def constEnum? : Parser (Option Declaration) := do
  if (← typed) && (← isWord "const") && (← nextToken).kind.isKeyword "enum" then
    advance
    advance
    return some (← g.enumTail)
  else return none

end Rules

end PropContract.Grammar
