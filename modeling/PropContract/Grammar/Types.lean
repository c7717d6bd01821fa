import PropContract.Grammar.Patterns

namespace PropContract.Grammar

open Syntax

def paramTypes (ps : List TypeParam) : List TypeExpr :=
  ps.flatMap fun p => p.bound.toList ++ p.default.toList

def paramNames (ps : List TypeParam) : List String :=
  ps.map TypeParam.name

structure ParamWords where
  variance : Bool
  const : Bool

structure SeenWords where
  isIn : Bool := false
  isOut : Bool := false

namespace Rules

variable (g : Rules)

def typeArgs : Parser (List TypeExpr) := do
  expectMark "<"
  enclosed (commaList ">" g.type)

def paramWordFits (allowed : ParamWords) (seen : SeenWords) (word : String) : Bool :=
  if word == "const" then allowed.const
  else if word == "in" then allowed.variance && !seen.isIn && !seen.isOut
  else word == "out" && allowed.variance && !seen.isOut

def paramWord (allowed : ParamWords) (seen : SeenWords) : Parser (Option SeenWords) := do
  let start ← position
  match ← eatModifier?
      ["public", "private", "protected", "readonly", "abstract", "const", "override", "in",
        "out"] with
  | none => return none
  | some word =>
    unless paramWordFits allowed seen word do complain start
    return some { isIn := seen.isIn || word == "in", isOut := seen.isOut || word == "out" }

def typeParam (allowed : ParamWords) : Parser TypeParam := do
  let _ ← extend (paramWord allowed) {}
  let name ← anyName
  let bound ← optionally (eatWord "extends") g.type
  let default ← optionally (eatMark "=") g.type
  return { name, bound, default }

def typeParams (allowed : ParamWords) : Parser (List TypeParam) := do
  if (← typed) && (← isMark "<") then
    advance
    enclosed (commaList ">" (g.typeParam allowed))
  else return []

def functionTypeParams : Parser (List TypeParam) :=
  g.typeParams { variance := false, const := true }

def resultType : Parser TypeExpr := do
  let isAssertion := (← isWord "asserts") && (← nextToken).kind.isReference
  if isAssertion then advance
  let next ← nextToken
  let isStatement := (← currentKind).isReference && next.kind.isKeyword "is" && !next.afterBreak
  if isStatement then
    let name ← anyName
    advance
    return .predicate name (some (← g.type))
  else if isAssertion then return .predicate (← anyName) none
  else g.type

def resultAnnotation : Parser (Option TypeExpr) := do
  if (← typed) && (← isMark ":") then
    advance
    return some (← enclosed g.resultType)
  else return none

def signature : Parser (List Use × List TypeExpr) := do
  let tps ← g.functionTypeParams
  let params ← g.signatureParameters
  let result ← g.resultAnnotation
  return ((paramNames tps).map .whole ++ parameterUses params, paramTypes tps ++ result.toList)

def memberEnd : Parser Unit := do
  unless ← eatMark "," do semicolon

def memberKey : Parser (MemberKey × Span) := do
  let t ← currentToken
  match t.kind with
  | .name n _ =>
    advance
    return (.bare n, ⟨t.start, t.stop⟩)
  | .privateName _ =>
    complain t.start
    advance
    return (.computed [], ⟨t.start, t.stop⟩)
  | .string v =>
    advance
    return (.literal v, ⟨t.start, t.stop⟩)
  | .number v =>
    advance
    return (.literal v.plainText, ⟨t.start, t.stop⟩)
  | .bigint =>
    advance
    return (.computed [], ⟨t.start, t.stop⟩)
  | .mark "[" =>
    advance
    let start ← position
    let e ← enclosed g.assignment
    let span ← spanFrom start
    expectMark "]"
    match e with
    | .string v => return (.literal v, span)
    | .number v => return (.literal v.plainText, span)
    | _ => return (.computed e.uses, span)
  | _ => unexpected

def startsIndex : Parser Bool :=
  succeeds do
    expectMark "["
    unless (← currentKind).isReference do unexpected
    advance
    unless (← isMark ":") || (← isMark ",") do unexpected

def indexSignature : Parser (String × List TypeExpr) := do
  expectMark "["
  let start ← position
  let name ← anyName
  if ← eatMark "," then complain start else expectMark ":"
  let keyType ← enclosed g.type
  expectMark "]"
  let type ← g.typeAnnotation
  memberEnd
  return (name, keyType :: type.toList)

def typeStart : Parser (TypeExpr → Nat) := do
  let s ← get
  let whole ← position
  let _ ← eatMark "|"
  let inUnion ← position
  let _ ← eatMark "&"
  let inBoth ← position
  set s
  return fun
    | .conditional .. | .union _ => whole
    | .intersection _ => inUnion
    | _ => inBoth

def spannedAnnotation : Parser (Span × Option TypeExpr) := do
  if ← eatMark ":" then
    let start ← typeStart
    let type ← enclosed g.type
    return (← spanFrom (start type), some type)
  else return (default, none)

def getterMember (start : Nat) (doc : Option String) : Parser TypeMember := do
  expectWord "get"
  let (key, keySpan) ← g.memberKey
  expectMark "("
  expectMark ")"
  let (typeSpan, type) ← g.spannedAnnotation
  memberEnd
  return .getter { span := ← spanFrom start, keySpan, key, doc } typeSpan type

def setterMember (start : Nat) (doc : Option String) : Parser TypeMember := do
  expectWord "set"
  let (key, keySpan) ← g.memberKey
  match ← g.signatureParameters with
  | [] => unexpected
  | first :: _ =>
    memberEnd
    let uses := first.pattern.gather useSearch
    return .setter { span := ← spanFrom start, keySpan, key, doc } uses []

def namedMember (start : Nat) (doc : Option String) (isReadonly : Bool) : Parser TypeMember := do
  let (key, keySpan) ← g.memberKey
  let isOptional ← eatMark "?"
  if (← isMark "(") || (← isMark "<") then
    if isReadonly then unexpected
    let (uses, types) ← g.signature
    memberEnd
    return .method { span := ← spanFrom start, keySpan, key, isOptional, doc } uses types
  else
    let (typeSpan, type) ← g.spannedAnnotation
    memberEnd
    return .property { span := ← spanFrom start, keySpan, key, isOptional, doc } typeSpan type

def typeMember : Parser TypeMember := do
  let t ← currentToken
  let next ← nextToken
  if t.kind == .mark "(" || t.kind == .mark "<" then
    let (uses, types) ← g.signature
    memberEnd
    return .call uses types
  else if t.kind.isKeyword "new" && (next.kind == .mark "(" || next.kind == .mark "<") then
    advance
    let (uses, types) ← g.signature
    memberEnd
    return .construct uses types
  else
    let isReadonly := (← eatModifier? ["readonly"]).isSome
    if ← startsIndex then
      let (name, types) ← g.indexSignature
      return .index [.whole name] types
    else if isReadonly then g.namedMember t.start t.doc true
    else
      match ← attempt (g.getterMember t.start t.doc) with
      | some m => return m
      | none =>
        match ← attempt (g.setterMember t.start t.doc) with
        | some m => return m
        | none => g.namedMember t.start t.doc false

def typeMembers : Parser (List TypeMember) := do
  expectMark "\x7b"
  enclosed (untilMark "\x7d" g.typeMember)

def startsMapped : Parser Bool :=
  succeeds do
    expectMark "\x7b"
    if (← eatMark "+") || (← eatMark "-") then expectWord "readonly"
    else
      let _ ← eatWord "readonly"
      expectMark "["
      unless (← currentKind).isReference do unexpected
      advance
      expectWord "in"

def optionalMark : Parser OptionalMark := do
  if ← eatMark "-" then
    expectMark "?"
    return .remove
  else if ← eatMark "+" then
    expectMark "?"
    return .add
  else if ← eatMark "?" then return .add
  else return .keep

def mappedType : Parser TypeExpr := do
  expectMark "\x7b"
  if (← eatMark "+") || (← eatMark "-") then expectWord "readonly"
  else
    let _ ← eatWord "readonly"
  expectMark "["
  let param ← anyName
  expectWord "in"
  let keys ← enclosed g.type
  let rename ← optionally (eatWord "as") (enclosed g.type)
  expectMark "]"
  let mark ← optionalMark
  let value ← enclosed g.typeAnnotation
  semicolon
  expectMark "\x7d"
  return .mapped param keys rename mark value

def tupleLabel : Parser String := do
  let _ ← eatMark "..."
  let name ← anyName
  let _ ← eatMark "?"
  expectMark ":"
  return name

def tupleElement : Parser (List String × TypeExpr) := do
  let label ← attempt tupleLabel
  if ← eatMark "..." then return (label.toList, .rest (← g.type))
  else
    let t ← g.type
    if ← eatMark "?" then return (label.toList, .optional t) else return (label.toList, t)

def needsAfterOptional : Bool → List TypeExpr → Bool
  | _, [] => false
  | seen, .rest _ :: ts => needsAfterOptional seen ts
  | _, .optional _ :: ts => needsAfterOptional true ts
  | seen, _ :: ts => seen || needsAfterOptional seen ts

def tupleType : Parser TypeExpr := do
  let start ← position
  expectMark "["
  let elements ← enclosed (commaList "]" g.tupleElement)
  let types := elements.map Prod.snd
  if needsAfterOptional false types then failAt start
  return .tuple (elements.flatMap Prod.fst) types

/-- The pieces of a template from a cursor inside it: texts, and what `part` reads between. An
escape without a meaning is an error unless `isTagged`. -/
def templatePieces {α : Type} (isTagged : Bool) (part : Parser α) :
    Nat → Cursor → Parser (List String × List α)
  | 0, _ => unexpected
  | n + 1, c => do
    match Lexer.templatePiece? (c.rest.length + 1) none [] c with
    | none => unexpected
    | some piece =>
      if let some offset := piece.flaw then
        unless isTagged do failAt offset
      if piece.isOpen then
        let start ← currentToken
        moveTo piece.after
        let a ← part
        unless ← isMark "\x7d" do unexpected
        let close := (← get).after
        modify fun s =>
          { s with token := { s.token with start := start.start, kind := start.kind } }
        let (texts, parts) ← templatePieces isTagged part n close
        return (piece.text :: texts, a :: parts)
      else
        modify fun s =>
          { s with token := { s.token with stop := piece.after.offset }, after := piece.after }
        advance
        return ([piece.text], [])

def template {α : Type} (isTagged : Bool) (part : Parser α) : Parser (List String × List α) := do
  templatePieces isTagged (enclosed part) (← read).fuel (← get).after

def entityPath (word : Parser String) : Parser (List String) := do
  let isVoid ← isWord "void"
  let first ← anyName
  if isVoid then complain (← position)
  let rest ← many do
    if ← eatMark "." then
      match ← currentKind with
      | .name _ _ => return some (← word)
      | .privateName _ => unexpected
      | _ =>
        complain (← position)
        return none
    else return none
  return first :: rest

def typePath : Parser (List String) :=
  entityPath anyName

def sameLineArgs : Parser (List TypeExpr) := do
  if (← isMark "<") && !(← atBreak) then g.typeArgs else return []

def importTypeOptions : Parser Unit := do
  expectMark "\x7b"
  expectWord "with"
  expectMark ":"
  unless ← isMark "\x7b" do unexpected
  let _ ← g.reference
  let _ ← eatMark ","
  expectMark "\x7d"

def importType : Parser TypeExpr := do
  expectWord "import"
  expectMark "("
  match ← currentKind with
  | .string _ => advance
  | _ =>
    complain (← position)
    advance
  if (← eatMark ",") && (← isMark "\x7b") then g.importTypeOptions
  expectMark ")"
  let path ← optionally (eatMark ".") (entityPath (bindingName false))
  let args ← if ← isMark "<" then g.typeArgs else pure []
  return .query (path.getD []) args

def typeQuery : Parser TypeExpr := do
  expectWord "typeof"
  if ← isWord "import" then
    let t ← g.importType
    let _ ← g.sameLineArgs
    return t
  else
    let path ← typePath
    return .query path (← g.sameLineArgs)

def keywordOf? : String → Option Keyword
  | "any" => some .any
  | "unknown" => some .unknown
  | "never" => some .never
  | "void" => some .void
  | "null" => some .null
  | "undefined" => some .undefined
  | "string" => some .string
  | "number" => some .number
  | "boolean" => some .boolean
  | "bigint" => some .bigint
  | "symbol" => some .symbol
  | "object" => some .object
  | _ => none

def typeReference : Parser TypeExpr := do
  let start ← position
  let isMarked ← eatParameterWord
  let path ← typePath
  let args ← g.sameLineArgs
  if isMarked then complain start
  return .reference path args

def thisType (isAssertion : Bool) : Parser TypeExpr := do
  expectWord "this"
  if (← isWord "is") && (isAssertion || !(← atBreak)) then
    advance
    return .predicate "this" (some (← g.type))
  else if isAssertion then return .predicate "this" none
  else return .this

def unnamingWords : List String :=
  "let" :: reservedWords.filter fun word => word != "break" && word != "enum"

def wordType (keyword : String) : Parser TypeExpr := do
  let next ← nextToken
  if keyword == "asserts" && next.kind.isKeyword "this" then
    advance
    g.thisType true
  else
    match keywordOf? keyword with
    | some k =>
      if next.kind == .mark "." then g.typeReference
      else
        advance
        return .keyword k
    | none =>
      if unnamingWords.contains keyword then unexpected
      g.typeReference

def primaryType : Parser TypeExpr := do
  match ← currentKind with
  | .name _ "this" => g.thisType false
  | .name _ "true" =>
    advance
    return .boolean true
  | .name _ "false" =>
    advance
    return .boolean false
  | .name _ "typeof" => g.typeQuery
  | .name _ "import" => g.importType
  | .name _ keyword => g.wordType keyword
  | .string v =>
    advance
    return .string v
  | .number v =>
    advance
    return .number v
  | .bigint =>
    advance
    return .bigint
  | .backquote =>
    let (texts, types) ← template false g.type
    return .template texts types
  | .mark "-" =>
    advance
    match ← currentKind with
    | .number v =>
      advance
      return .number v.neg
    | .bigint =>
      advance
      return .bigint
    | _ => unexpected
  | .mark "\x7b" => if ← startsMapped then g.mappedType else return .object (← g.typeMembers)
  | .mark "[" => g.tupleType
  | .mark "(" =>
    advance
    let t ← enclosed g.type
    expectMark ")"
    return .paren t
  | _ => unexpected

def typeSuffix (t : TypeExpr) : Parser (Option TypeExpr) := do
  if (← isMark "[") && !(← atBreak) then
    advance
    if ← eatMark "]" then return some (.array t)
    else
      let index ← enclosed g.type
      expectMark "]"
      return some (.indexed t index)
  else return none

def operatorOf? : TokenKind → Option TypeOperator
  | .name _ "keyof" => some .keyof
  | .name _ "readonly" => some .readonly
  | .name _ "unique" => some .unique
  | _ => none

def inferBound (plain : Parser TypeExpr) : Parser TypeExpr := do
  expectWord "extends"
  let t ← inMode (fun m => { m with allowConditional := false }) plain
  if (← read).allowConditional && (← isMark "?") then unexpected
  return t

def operandType (plain : Parser TypeExpr) : Parser TypeExpr := do
  let kind ← currentKind
  match operatorOf? kind with
  | some op =>
    advance
    return .operator op (← g.typeOperand)
  | none =>
    if kind.isKeyword "infer" then
      advance
      let name ← anyName
      let bound ← attempt (inferBound plain)
      return .infer name bound.toList
    else extend g.typeSuffix (← g.primaryType)

def joined (mark : String) (make : List TypeExpr → TypeExpr) (item : Parser TypeExpr) :
    Parser TypeExpr := do
  let _ ← eatMark mark
  match ← separated mark item with
  | [t] => return t
  | ts => return make ts

def unionType : Parser TypeExpr :=
  joined "|" .union (joined "&" .intersection g.typeOperand)

def skipParameter : Parser Unit := do
  let _ ← eatParameterWord
  if (← isMark "\x7b") || (← isMark "[") then
    let _ ← g.pattern false
  else
    let _ ← anyName

def startsParameters : Parser Bool :=
  succeeds do
    expectMark "("
    if (← isMark ")") || (← isMark "...") then pure ()
    else
      g.skipParameter
      match ← currentKind with
      | .mark m =>
        unless [":", ",", "?", "="].contains m do
          expectMark ")"
          expectMark "=>"
      | _ => unexpected

def functionType : Parser TypeExpr := do
  let tps ← g.functionTypeParams
  let params ← g.signatureParameters
  expectMark "=>"
  let result ← g.resultType
  return .callable ((paramNames tps).map .whole ++ parameterUses params)
    (paramTypes tps ++ [result])

def plainType : Parser TypeExpr := do
  if (← isMark "<") || (← g.startsParameters) then g.functionType
  else if ← isWord "new" then
    advance
    g.functionType
  else if (← isWord "abstract") && (← nextToken).kind.isKeyword "new" then
    advance
    advance
    g.functionType
  else g.unionType

def typeRule : Parser TypeExpr :=
  inMode (fun m => { m with allowConditional := true }) do
    let t ← g.plainType
    if (← atBreak) || !(← isWord "extends") then return t
    advance
    let bound ← inMode (fun m => { m with allowConditional := false }) g.plainType
    expectMark "?"
    let yes ← g.type
    expectMark ":"
    let no ← g.type
    return .conditional t bound yes no

def typeOperandRule : Parser TypeExpr :=
  g.operandType g.plainType

end Rules

end PropContract.Grammar
