import PropContract.Grammar.Statements

namespace PropContract.Grammar

open Syntax

namespace Rules

variable (g : Rules)

def moduleAttributes : Parser Unit := do
  if !(← atBreak) && ((← isWord "with") || (← isWord "assert")) then
    advance
    let _ ← g.objectLiteral

def sourceText : Parser String := do
  match ← currentKind with
  | .string v =>
    advance
    g.moduleAttributes
    return v
  | _ => unexpected

def fromSource : Parser String := do
  expectWord "from"
  let v ← g.sourceText
  semicolon
  return v

def bindingLabel : Parser String := do
  match ← currentKind with
  | .string v =>
    advance
    return v
  | _ => anyName

def mayMarkType (word : TokenKind) : Parser Bool := do
  return (← typed) && word.isCalled "type" && (← currentKind).isWord

def checkMark (typesOnly : Bool) (start : Nat) : Parser Unit := do
  if typesOnly then complain start

def importRenamed (name : String) : Parser ImportSpecifier := do
  let localName ← if ← eatWord "as" then bindingName false else pure name
  return { localName, imported := .named name }

def importTypeAs (typesOnly : Bool) (start : Nat) : Parser ImportSpecifier := do
  if !(← currentKind).isWord then
    checkMark typesOnly start
    return { localName := "as", imported := .named "as" }
  let third ← bindingName false
  if third == "as" && (← currentKind).isWord then
    let localName ← bindingName false
    checkMark typesOnly start
    return { localName, imported := .named "as" }
  else return { localName := third, imported := .named "type" }

def importSpecifier (typesOnly : Bool) : Parser ImportSpecifier := do
  let t ← currentToken
  let name ← bindingLabel
  if isQuoted t.kind then
    unless ← eatWord "as" do failAt t.start
    return { localName := ← bindingName false, imported := .named name }
  else if ← mayMarkType t.kind then
    let second ← anyName
    if second == "as" then importTypeAs typesOnly t.start
    else
      checkMark typesOnly t.start
      importRenamed second
  else importRenamed name

def importBindings (typesOnly : Bool) : Parser (List ImportSpecifier) := do
  if ← eatMark "*" then
    expectWord "as"
    return [{ localName := ← bindingName false, imported := .namespace }]
  else if ← eatMark "\x7b" then commaList "\x7d" (importSpecifier typesOnly)
  else return []

inductive ImportStart where
  | equals (name : String)
  | bindings (typesOnly : Bool) (first : List ImportSpecifier)

def atDefaultBinding : Parser Bool := do
  return (← currentKind).isReference &&
    (!(← isWord "from") || (← nextToken).kind.isKeyword "from")

def importAfterName (typesOnly : Bool) (name : String) : Parser ImportStart := do
  let isPhase := name == "source" || name == "defer"
  if (← typed) && (← isMark "=") then return .equals name
  else if isPhase && ((← isMark "*") || (← isMark "\x7b")) then return .bindings typesOnly []
  else
    let name ← if isPhase && (← atDefaultBinding) then bindingName false else pure name
    unless ← isWord "from" do expectMark ","
    return .bindings typesOnly [{ localName := name, imported := .named "default" }]

def importAfterType : Parser ImportStart := do
  if (← isMark "*") || (← isMark "\x7b") then return .bindings true []
  else if ← atDefaultBinding then importAfterName true (← bindingName false)
  else if (← isWord "from") && (← nextToken).kind == .mark "=" then
    importAfterName true (← anyName)
  else importAfterName false "type"

def importStart : Parser ImportStart := do
  if (← currentKind).isReference then
    let name ← bindingName false
    if (← typed) && name == "type" then importAfterType else importAfterName false name
  else return .bindings false []

def importEquals (name : String) : Parser ItemKind := do
  expectMark "="
  if (← isWord "require") && (← nextToken).kind == .mark "(" then
    advance
    advance
    unless isQuoted (← currentKind) do unexpected
    advance
    expectMark ")"
    semicolon
    return .moduleSyntax [.name name]
  else
    let path ← entityPath (bindingName false)
    semicolon
    return .moduleSyntax ((name :: path.take 1).map .name)

def importItem : Parser ItemKind := do
  expectWord "import"
  if isQuoted (← currentKind) then
    let v ← g.sourceText
    let _ ← eatSemicolon
    return .imports v []
  else
    match ← importStart with
    | .equals name => importEquals name
    | .bindings typesOnly first =>
      let rest ← importBindings typesOnly
      return .imports (← g.fromSource) (first ++ rest)

structure ExportPart where
  specifier : ExportSpecifier
  flaw : Option Nat := none

def exportRenamed (t : Token) (name : String) : Parser ExportPart := do
  let renamed ← optionally (eatWord "as") bindingLabel
  let isForeign := isQuoted t.kind || name == "package" || reservedWords.contains name
  return {
    specifier := { source := .named name, exported := renamed.getD name }
    flaw := if isForeign then some t.start else none }

def exportTypeAs (typesOnly : Bool) (start : Nat) : Parser ExportPart := do
  if !(← currentKind).isWord then
    checkMark typesOnly start
    return { specifier := { source := .named "as", exported := "as" } }
  let third ← anyName
  if third == "as" && (← currentKind).isWord then
    let exported ← anyName
    checkMark typesOnly start
    return { specifier := { source := .named "as", exported } }
  else return { specifier := { source := .named "type", exported := third } }

def exportPart (typesOnly : Bool) : Parser ExportPart := do
  let t ← currentToken
  let name ← bindingLabel
  if ← mayMarkType t.kind then
    let second ← currentToken
    let name ← anyName
    if name == "as" then exportTypeAs typesOnly t.start
    else
      checkMark typesOnly t.start
      exportRenamed second name
  else exportRenamed t name

def exportNames (typesOnly : Bool) : Parser ItemKind := do
  expectMark "\x7b"
  let parts ← commaList "\x7d" (exportPart typesOnly)
  let specifiers := parts.map ExportPart.specifier
  if ← isWord "from" then return .exportNames (some (← g.fromSource)) specifiers
  else
    (parts.filterMap ExportPart.flaw).forM complain
    let _ ← eatSemicolon
    return .exportNames none specifiers

def exportStar : Parser ItemKind := do
  expectMark "*"
  if ← eatWord "as" then
    let name ← bindingLabel
    return .exportNames (some (← g.fromSource)) [{ source := .namespace, exported := name }]
  else return .exportAll (← g.fromSource)

def moreDecorators (decorators : List Expr) : Parser (List Expr) := do
  let start ← position
  let more ← g.decorators
  if more.isEmpty then return decorators
  unless decorators.isEmpty do failAt start
  return more

def defaultClass (isAbstract : Bool) (decorators : List Expr) : Parser ItemKind := do
  expectWord "class"
  let name ← className false
  let c ← g.classTail isAbstract [] decorators
  match name with
  | some n => return .exportDefault (.class n c)
  | none => return .exportValue (.class c)

def defaultFunction : Parser ItemKind := do
  let (name, f) ← g.functionFrom (optionalName false) fun _ => []
  match name with
  | some n => return .exportDefault (.function n false f)
  | none => return .exportValue (.function f)

def exportDefault (decorators : List Expr) : Parser ItemKind := do
  let decorators ← g.moreDecorators decorators
  let next ← nextToken
  let isAbstract := (← typed) && (← isWord "abstract")
  if isAbstract && next.kind.isKeyword "class" && !next.afterBreak then
    advance
    g.defaultClass true decorators
  else
    if isAbstract && next.kind.isKeyword "interface" then
      complain (← position)
      advance
    let isInterface ← if ← typed then eatWord "interface" else pure false
    if isInterface then return .exportDefault (.interface (← g.interfaceTail))
    else if ← isWord "class" then g.defaultClass false decorators
    else if (← isWord "function") || (← startsAsyncFunction) then g.defaultFunction
    else
      let e ← g.assignment
      semicolon
      return .exportValue e

def exportedType? (decorators : List Expr) : Parser (Option Declaration) := do
  if (← typed) && (← currentKind).isWord then
    attempt do
      match ← g.typedDeclaration? decorators with
      | some d => return d
      | none => unexpected
  else return none

def typedExport? : Parser (Option ItemKind) := do
  if !(← typed) then return none
  else if ← eatWord "import" then
    if (← isWord "type") && (← nextToken).kind.isWord then advance
    return some (← importEquals (← anyName))
  else if ← eatMark "=" then
    let e ← g.expr
    semicolon
    return some (.moduleSyntax [e])
  else if ← eatWord "as" then
    expectWord "namespace"
    let name ← bindingName false
    semicolon
    return some (.moduleSyntax [.name name])
  else return none

def exportedDeclaration? (decorators : List Expr) : Parser (Option Declaration) := do
  let next ← nextToken
  if let some d ← g.constEnum? then return some d
  match ← currentKind with
  | .name _ "class" => return some (← g.classDeclaration false decorators)
  | .name _ "function" => return some (← g.functionDeclaration false)
  | .name _ "var" => return some (← g.variableDeclaration .var)
  | .name _ "const" => return some (← g.variableDeclaration .const)
  | .name _ "let" =>
    if followsLet next.kind then return some (← g.variableDeclaration .let) else return none
  | _ => if ← startsAsyncFunction then return some (← g.functionDeclaration false) else return none

def plainExport (decorators : List Expr) : Parser ItemKind := do
  let typesOnly ← if ← typed then eatWord "type" else pure false
  if !typesOnly && (← eatWord "default") then g.exportDefault decorators
  else
    let decorators ← g.moreDecorators decorators
    let declared ← if typesOnly then pure none else g.exportedDeclaration? decorators
    match declared with
    | some d => return .exportDeclaration d
    | none => if ← isMark "*" then g.exportStar else g.exportNames typesOnly

def exportItem (decorators : List Expr) : Parser ItemKind := do
  expectWord "export"
  let start ← position
  let isAmbient ← if ← typed then eatWord "declare" else pure false
  let ambient ← if isAmbient then g.ambientDeclaration? start decorators else pure none
  match ambient with
  | some d => return .exportDeclaration d
  | none =>
    match ← g.exportedType? decorators with
    | some d => return .exportDeclaration d
    | none =>
      match ← g.typedExport? with
      | some kind => return kind
      | none => g.plainExport decorators

def startsAtDecorators (t next : Token) : Stmt → Bool
  | .expr _ => true
  | _ =>
    t.kind == .mark ";" || ["class", "break", "continue", "debugger"].any t.kind.isKeyword ||
      (t.kind.isKeyword "const" && next.kind.isKeyword "enum")

def itemRule : Parser Item := do
  let first ← currentToken
  let decorators ← g.decorators
  let t ← currentToken
  let next ← nextToken
  if ← isWord "export" then
    unless decorators.isEmpty || (← typed) do failAt first.start
    let kind ← g.exportItem decorators
    return ⟨← spanFrom t.start, t.doc, kind⟩
  else if (← isWord "import") && !(← startsImportExpr) then
    let kind ← g.importItem
    return ⟨← spanFrom t.start, t.doc, kind⟩
  else
    let s ← if ← startsImportExpr then g.importStatement else g.statementAfter true decorators
    let t := if startsAtDecorators t next s then first else t
    return ⟨← spanFrom t.start, t.doc, .statement s⟩

end Rules

/-- The rules, where they may refer to each other `n` times in a row. -/
def rules : Nat → Rules
  | 0 => default
  | n + 1 =>
    let g : Rules := {
      type := fun m s => (rules n).type m s
      typeOperand := fun m s => (rules n).typeOperand m s
      pattern := fun noLet m s => (rules n).pattern noLet m s
      expr := fun m s => (rules n).expr m s
      assignment := fun m s => (rules n).assignment m s
      unary := fun m s => (rules n).unary m s
      reference := fun m s => (rules n).reference m s
      constructed := fun m s => (rules n).constructed m s
      decorator := fun m s => (rules n).decorator m s
      element := fun m s => (rules n).element m s
      statement := fun isList m s => (rules n).statement isList m s
      item := fun m s => (rules n).item m s }
    { type := g.typeRule
      typeOperand := g.typeOperandRule
      pattern := g.patternRule
      expr := g.exprRule
      assignment := g.assignmentRule
      unary := g.unaryRule
      reference := g.referenceRule
      constructed := g.constructedRule
      decorator := g.decoratorRule
      element := g.elementRule
      statement := g.statementRule
      item := g.itemRule }

structure Dialect where
  typed : Bool
  markup : Bool
  ambient : Bool := false
  deriving DecidableEq, Repr

def items (g : Rules) : Parser (List Item) := do
  let found ← many do
    if (← currentKind) == .eof then return none
    return some (← g.item)
  match (← get).pending with
  | some e => failAt e.offset
  | none => return found

/-- The text without a mark of its encoding in front. Offsets count from here. -/
def withoutMark : List Char → List Char
  | c :: cs => if c.toNat = 0xFEFF then cs else c :: cs
  | [] => []

def beginning (cs : List Char) : Cursor :=
  match cs with
  | '#' :: '!' :: _ => ((Cursor.ofText cs).span fun c => !isLineEnd c).2
  | _ => Cursor.ofText cs

def parseModule (dialect : Dialect) (text : String) : Except SyntaxError (List Item) :=
  let cs := withoutMark text.toList
  let size := cs.length + 2
  let (token, here, after) := Lexer.next none (beginning cs)
  let mode : Mode := {
    typed := dialect.typed
    markup := dialect.markup
    declares := dialect.ambient
    ambient := dialect.ambient
    fuel := size }
  match items (rules (16 * size)) mode ⟨here, token.plain, after, 0, noteFlaw none token.kind⟩ with
  | .ok (found, _) => .ok found
  | .error e => .error ⟨e.offset⟩

end PropContract.Grammar
