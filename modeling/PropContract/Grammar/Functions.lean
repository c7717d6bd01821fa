import PropContract.Grammar.Types

namespace PropContract.Grammar

open Syntax

/-- Where a block asks for strictness, which a module has anyway. -/
def strictDirective? : List (Nat × Stmt) → Option Nat
  | (start, .expr (.string v)) :: rest =>
    if v = "use strict" then some start else strictDirective? rest
  | _ => none

def builtinTypeNames : List String :=
  ["string", "null", "number", "object", "any", "unknown", "boolean", "bigint", "symbol", "void",
    "never", "intrinsic"]

def checkTypeName (start : Nat) (name : String) : Parser Unit := do
  if (← typed) && builtinTypeNames.contains name then complain start

namespace Rules

variable (g : Rules)

def block : Parser (List Stmt) := do
  expectMark "\x7b"
  enclosed (untilMark "\x7d" (g.statement true))

def inHead {α : Type} (isAsync isGenerator : Bool) (p : Parser α) : Parser α :=
  inMode (fun m => { m with
    inParameters := true, inFunction := false, inAsync := isAsync, inGenerator := isGenerator }) p

def inBody {α : Type} (isAsync isGenerator : Bool) (p : Parser α) : Parser α :=
  inMode (fun m => { m with
    inFunction := true, inParameters := false, inAsync := isAsync, inGenerator := isGenerator
    canBreak := false, canContinue := false, labels := [] }) p

def functionBlock (isSimple : Bool) : Parser (List Stmt) := do
  expectMark "\x7b"
  let body ← enclosed (untilMark "\x7d" (do return (← position, ← g.statement true)))
  unless isSimple do
    if let some offset := strictDirective? body then complain offset
  return body.map Prod.snd

def functionBody (isAsync isGenerator isSimple : Bool) : Parser (Option (List Stmt)) :=
  inBody isAsync isGenerator do
    let isMissing ← if (← typed) && !(← isMark "\x7b") then eatSemicolon else pure false
    if isMissing then return none
    if (← read).ambient && (← typed) && (← isMark "\x7b") then complain (← position)
    return some (← g.functionBlock isSimple)

def checkValues (ps : List Parameter) : Parser Unit :=
  ps.forM fun p => if p.pattern.isAssign then complain p.start else pure ()

def makeFunction (names : List String) (tps : List TypeParam) (ps : List Parameter)
    (result : Option TypeExpr) (body : Option (List Stmt)) : Function :=
  .mk (names ++ paramNames tps) (paramTypes tps) (ps.flatMap Parameter.decorators)
    (ps.map Parameter.pattern) result body.isSome (body.getD [])

def functionTail (names : List String) (isAsync isGenerator : Bool)
    (check : List Parameter → Parser Unit) : Parser Function :=
  inMode (fun m => { m with hasNewTarget := true, inField := false }) do
    let tps ← g.functionTypeParams
    let params ← inHead isAsync isGenerator g.parameters
    check params
    let result ← g.resultAnnotation
    let body ← g.functionBody isAsync isGenerator (areSimple params)
    if body.isNone then checkValues params
    return makeFunction names tps params result body

def plainTail (names : List String) (isAsync isGenerator : Bool) : Parser Function :=
  g.functionTail names isAsync isGenerator fun _ => pure ()

def methodTail (isAsync isGenerator : Bool) (check : List Parameter → Parser Unit) :
    Parser Function :=
  inMode (fun m => { m with allowSuper := true })
    (g.functionTail [] isAsync isGenerator check)

def isThis (p : Parameter) : Bool :=
  match p.pattern with
  | .name "this" _ => true
  | _ => false

def checkGetter (offset : Nat) (ps : List Parameter) : Parser Unit := do
  unless ps.all isThis do complain offset

def checkSetter (offset : Nat) (ps : List Parameter) : Parser Unit := do
  unless (ps.filter fun p => !isThis p).length = 1 do complain offset
  if let some first := ps.head? then
    if first.pattern.isRest then complain first.start

def startsAsyncFunction : Parser Bool := do
  let next ← nextToken
  return (← isWord "async") && next.kind.isKeyword "function" && !next.afterBreak

def functionFrom {α : Type} (name : Parser α) (label : α → List String) :
    Parser (α × Function) := do
  let isAsync ← eatWord "async"
  expectWord "function"
  let isGenerator ← eatMark "*"
  let n ← name
  let f ← inMode (fun m => { m with allowSuper := false })
    (g.plainTail (label n) isAsync isGenerator)
  return (n, f)

def optionalName (noLet : Bool) : Parser (Option String) := do
  if (← currentKind).isReference || ((← isWord "this") && (← typed)) then
    return some (← bindingName noLet)
  else return none

structure MemberWords where
  start : Nat
  decorators : List Expr
  isDeclared : Bool := false
  hasAccess : Bool := false
  isStatic : Bool := false
  isAbstract : Bool := false
  isOverride : Bool := false
  isReadonly : Bool := false
  isAccessor : Bool := false

def classKey : Parser (PropertyKey × Bool) := do
  match ← currentKind with
  | .privateName n =>
    if n == "constructor" then complain (← position)
    advance
    return (.hidden, true)
  | _ => return (← g.propertyKey, false)

def isConstructor (key : PropertyKey) : Bool :=
  match key with
  | .named n => n == "constructor"
  | _ => false

def atMethod : Parser Bool := do
  return (← isMark "(") || ((← typed) && (← isMark "<"))

def atPropertyEnd (mayBreak : Bool) : Parser Bool := do
  if (← isMark "=") || (← isMark "\x7d") then return true
  else if (← typed) && ((← isMark "!") || (← isMark ":")) then return true
  else if mayBreak then atSemicolon
  else isMark ";"

def method (w : MemberWords) (key : PropertyKey) (isAsync isGenerator : Bool)
    (check : List Parameter → Parser Unit) : Parser ClassMember := do
  let f ← g.methodTail isAsync isGenerator check
  if w.isAbstract && f.hasBody then complain w.start
  return .method key f w.decorators

def plainMethod (w : MemberWords) (key : PropertyKey) (isAsync isGenerator : Bool) :
    Parser ClassMember :=
  g.method w key isAsync isGenerator fun _ => pure ()

def keyParts : PropertyKey → List Expr
  | .computed e => [e]
  | .named _ | .hidden => []

def classProperty (w : MemberWords) (key : PropertyKey) (keyStart : Nat)
    (isPrivate isOptional : Bool) : Parser ClassMember := do
  if isConstructor key then failAt keyStart
  if isPrivate && (w.isDeclared || w.isAbstract) then complain keyStart
  if (← typed) && !isOptional then
    let _ ← eatMark "!"
  let type ← g.typeAnnotation
  let value ← optionally (eatMark "=")
    (inMode (fun m => { m with inField := true }) (enclosed g.assignment))
  unless ← eatSemicolon do complain (← position)
  if isPrivate || w.isAccessor then
    return .hidden [] type.toList (w.decorators ++ keyParts key ++ value.toList)
  else return .property (← spanFrom w.start) w.isStatic key type value w.decorators

def memberCalled? (w : MemberWords) (word : String) (mayBreak : Bool) :
    Parser (Option ClassMember) := do
  if ← atMethod then return some (← g.plainMethod w (.named word) false false)
  else if (← atPropertyEnd mayBreak) || ((← typed) && (← isMark "?")) then
    let isOptional ← if ← typed then eatMark "?" else pure false
    return some (← g.classProperty w (.named word) w.start false isOptional)
  else return none

def memberWord (w : MemberWords) : Parser (Option MemberWords) := do
  let start ← position
  if (← isWord "static") && (← nextToken).kind == .mark "\x7b" then return none
  match ← eatModifier? ["abstract", "readonly", "override", "static"] with
  | none => return none
  | some "abstract" =>
    if w.isAbstract || w.isOverride || w.isReadonly then complain start
    return some { w with isAbstract := true }
  | some "override" =>
    if w.isOverride || w.isReadonly || w.isDeclared || !(← read).hasBase then complain start
    return some { w with isOverride := true }
  | some "readonly" =>
    if w.isReadonly then complain start
    return some { w with isReadonly := true }
  | some _ =>
    if w.isStatic || w.isOverride then complain start
    return some { w with isStatic := true }

def eatAccessor : Parser Bool := do
  let next ← nextToken
  let follows := match next.kind with
    | .name _ _ | .string _ | .number _ | .bigint | .privateName _ | .mark "[" => !next.afterBreak
    | _ => false
  if (← typed) && (← isWord "accessor") && follows then
    advance
    return true
  else return false

def constructorMethod (w : MemberWords) : Parser ClassMember := do
  if (← typed) && (w.isOverride || w.isStatic || w.isAbstract) then complain w.start
  let f ← inMode (fun m => { m with hasNewTarget := true, inField := false, allowSuper := true }) do
    let params ← inHead false false (g.openParameters g.memberPattern)
    expectMark ")"
    if (← typed) && (← isMark ":") then
      advance
      complain (← position)
      let _ ← enclosed g.type
    let body ← g.functionBody false false (areSimple params)
    if body.isNone then checkValues params
    return makeFunction [] [] params none body
  return .method (.named "constructor") f w.decorators

def methodOrProperty? (w : MemberWords) (key : PropertyKey) (keyStart : Nat)
    (isPrivate isOptional mayBeProperty : Bool) : Parser (Option ClassMember) := do
  if ← atMethod then
    if w.isDeclared then complain w.start
    if w.isReadonly then failAt w.start
    if isConstructor key then return some (← g.constructorMethod w)
    else return some (← g.plainMethod w key false false)
  else if mayBeProperty && (← atPropertyEnd true) then
    return some (← g.classProperty w key keyStart isPrivate isOptional)
  else return none

def asyncMethod (w : MemberWords) : Parser ClassMember := do
  let wordStart ← position
  if (← eatModifier? ["override"]).isSome then complain wordStart
  let isGenerator ← eatMark "*"
  let keyStart ← position
  let (key, _) ← g.classKey
  if isConstructor key then failAt keyStart
  if w.isReadonly then failAt w.start
  if ← typed then
    let _ ← eatMark "?"
  g.plainMethod w key true isGenerator

def accessMethod (w : MemberWords) (word : String) (wordStart : Nat) : Parser ClassMember := do
  let (key, _) ← g.classKey
  if w.isReadonly || isConstructor key then complain wordStart
  g.method w key false false
    (if word == "get" then checkGetter wordStart else checkSetter wordStart)

def memberFromKey (w : MemberWords) : Parser ClassMember := do
  let t ← currentToken
  let (key, isPrivate) ← g.classKey
  let isOptional ← if ← typed then eatMark "?" else pure false
  let word := match t.kind with
    | .name text _ => text
    | _ => ""
  let isAccess := (word == "get" || word == "set") && !(← atPropertyEnd false) &&
    !((← atBreak) && (← isMark "*"))
  match ← g.methodOrProperty? w key t.start isPrivate isOptional !isAccess with
  | some m => return m
  | none =>
    if word == "async" && !(← atBreak) then g.asyncMethod w
    else if isAccess then g.accessMethod w word t.start
    else unexpected

def memberAfterWords (w : MemberWords) : Parser ClassMember := do
  if w.isStatic && (← isMark "\x7b") then
    if w.isDeclared then complain w.start
    if w.hasAccess then complain (← position)
    return .block (← inMode (fun m => { m with inField := true }) g.block)
  else if (← typed) && (← startsIndex) then
    let (name, types) ← g.indexSignature
    return .hidden [name] types w.decorators
  else if ← eatMark "*" then
    let keyStart ← position
    let (key, _) ← g.classKey
    if isConstructor key then complain keyStart
    g.plainMethod w key false true
  else g.memberFromKey w

def memberBehind (w : MemberWords) : Parser (Bool × ClassMember) := do
  let w ← extend memberWord w
  let w := { w with isAccessor := ← eatAccessor }
  return (w.isAbstract, ← g.memberAfterWords w)

def classMember : Parser (Bool × ClassMember) := do
  let start ← position
  let decorators ← g.decorators
  let w : MemberWords := { start, decorators }
  let isDeclared ← if ← typed then eatWord "declare" else pure false
  if isDeclared then
    if let some m ← g.memberCalled? w "declare" true then return (false, m)
  let hasAccess ← if ← typed then eatAccess else pure false
  let w := { w with hasAccess }
  let isDeclared ← if !isDeclared && (← typed) then eatWord "declare" else pure isDeclared
  if isDeclared then
    if let some m ← g.memberCalled? w "declare" false then return (false, m)
  let w := { w with isDeclared }
  if ← eatWord "static" then
    if let some m ← g.memberCalled? w "static" false then return (false, m)
    g.memberBehind { w with isStatic := true }
  else g.memberBehind w

def isFullConstructor : ClassMember → Bool
  | .method key f _ => isConstructor key && f.hasBody
  | _ => false

def classMembers (isAbstract : Bool) : Nat → Bool → Parser (List ClassMember)
  | 0, _ => unexpected
  | n + 1, hasConstructor => do
    if (← isMark "\x7d") || (← currentKind) == .eof then return []
    if ← eatMark ";" then classMembers isAbstract n hasConstructor
    else
      let start ← position
      let (isAbstractMember, m) ← g.classMember
      if isAbstractMember && !isAbstract then complain start
      let isNext := isFullConstructor m && !(← read).ambient
      if isNext && hasConstructor then complain start
      return m :: (← classMembers isAbstract n (hasConstructor || isNext))

def atHeritageEnd : Parser Bool := do
  return (← isMark "\x7b") || (← isWord "implements") || (← isWord "extends")

def heritage {α : Type} (item : Parser α) : Parser (List α) :=
  many do
    if ← atHeritageEnd then return none
    let a ← item
    unless ← eatMark "," do
      unless ← atHeritageEnd do unexpected
    return some a

def withTypeArgs : Parser (Expr × List TypeExpr) := do
  match ← g.reference with
  | .applied e types => return (e, types)
  | e => if (← typed) && (← isMark "<") then return (e, ← g.typeArgs) else return (e, [])

def interfaceBase : Parser InterfaceBase := do
  let (e, args) ← g.withTypeArgs
  return { path := e.path?, uses := e.uses, args }

def interfaceBases : Parser (List InterfaceBase) :=
  heritage g.interfaceBase

def repeated? {α : Type} (word : String) (p : Parser α) : Parser (Option α) := do
  let start ← position
  if ← eatWord word then
    complain start
    return some (← p)
  else return none

def classTail (isAbstract : Bool) (names : List String) (decorators : List Expr) :
    Parser ClassBody := do
  let tps ← g.typeParams { variance := true, const := true }
  let base ← optionally (eatWord "extends") g.withTypeArgs
  let _ ← repeated? "extends" g.withTypeArgs
  let isTyped ← typed
  let implemented ←
    optionally (do if isTyped then eatWord "implements" else return false) g.interfaceBases
  if isTyped then
    let _ ← repeated? "implements" g.interfaceBases
  let second ← repeated? "extends" g.withTypeArgs
  let base := base <|> second
  expectMark "\x7b"
  let members ← inMode (fun m => { m with
      inClass := true, hasBase := base.isSome, allowSuper := true })
    (enclosed (do g.classMembers isAbstract (← read).fuel false))
  if (← currentKind) == .eof then complain (← position) else expectMark "\x7d"
  return .mk (names ++ paramNames tps) (paramTypes tps) decorators (base.map Prod.fst)
    ((base.map Prod.snd).getD []) (implemented.getD []) members

def className (isRequired : Bool) : Parser (Option String) := do
  let start ← position
  let name ← if isRequired then pure (some (← bindingName true)) else optionalName true
  if let some n := name then checkTypeName start n
  return name

end Rules

end PropContract.Grammar
