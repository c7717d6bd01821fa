import PropContract.Number.Double
import PropContract.Syntax.DocComment
import PropContract.Text.Letter

/-!
Tokens. What a slash or an angle bracket begins depends on where it stands, so it is read as an
operator or as a token by itself, and whoever knows better reads again.
-/

namespace PropContract.Syntax

structure Cursor where
  rest : List Char
  offset : Nat
  deriving Inhabited

namespace Cursor

def ofText (cs : List Char) : Cursor := ⟨cs, 0⟩

def next (c : Cursor) : Cursor :=
  match c.rest with
  | [] => c
  | ch :: rest => ⟨rest, c.offset + ch.utf8Size⟩

def skip : Nat → Cursor → Cursor
  | 0, c => c
  | n + 1, c => skip n c.next

def span (p : Char → Bool) (c : Cursor) : List Char × Cursor :=
  let taken := c.rest.takeWhile p
  (taken, c.skip taken.length)

end Cursor

inductive TokenKind where
  /-- A word: what it is called, and what it says where a keyword may stand. A word that cannot
  be a keyword says nothing. -/
  | name (text keyword : String)
  | privateName (text : String)
  | number (value : Double)
  | bigint
  | string (value : String)
  | regex (flags : List Char)
  | backquote
  | mark (text : String)
  | jsxText
  | eof
  | bad (offset : Nat)
  | flawed (offset : Nat) (kind : TokenKind)
  deriving DecidableEq, Repr, Inhabited

structure Token where
  kind : TokenKind
  start : Nat
  stop : Nat
  afterBreak : Bool
  doc : Option String
  deriving Inhabited

def Token.plain (t : Token) : Token :=
  match t.kind with
  | .flawed _ kind => { t with kind }
  | _ => t

def isLineEnd (c : Char) : Bool :=
  c = '\n' || c = '\r' || c.toNat == 0x2028 || c.toNat == 0x2029

def isGapBlank (c : Char) : Bool :=
  let n := c.toNat
  n == 9 || n == 11 || n == 12 || n == 32 || n == 0x85 || n == 0xA0 || n == 0xFEFF ||
    n == 0x1680 || (0x2000 ≤ n && n ≤ 0x200B) || n == 0x202F || n == 0x205F || n == 0x3000

def reservedWords : List String :=
  ["break", "case", "catch", "class", "const", "continue", "debugger", "default", "delete", "do",
    "else", "enum", "export", "extends", "false", "finally", "for", "function", "if", "import",
    "in", "instanceof", "new", "null", "return", "super", "switch", "this", "throw", "true",
    "try", "typeof", "var", "void", "while", "with"]

def strictWords : List String :=
  ["implements", "interface", "let", "package", "private", "protected", "public", "static",
    "yield"]

def contextualWords : List String :=
  ["abstract", "accessor", "any", "as", "assert", "asserts", "async", "bigint", "boolean",
    "constructor", "declare", "from", "get", "global", "infer", "intrinsic", "is", "keyof", "meta",
    "module", "namespace", "never", "number", "object", "of", "out", "override", "readonly",
    "require", "satisfies", "set", "string", "symbol", "target", "type", "undefined", "unique",
    "unknown", "using"]

def TokenKind.isKeyword (kind : TokenKind) (word : String) : Bool :=
  match kind with
  | name _ keyword => keyword == word
  | _ => false

def TokenKind.isCalled (kind : TokenKind) (text : String) : Bool :=
  match kind with
  | name called _ => called == text
  | _ => false

def TokenKind.isWord : TokenKind → Bool
  | name _ _ => true
  | _ => false

def isReserved (word : String) : Bool :=
  reservedWords.contains word || strictWords.contains word || word == "await"

def TokenKind.isReference : TokenKind → Bool
  | name _ keyword => !isReserved keyword
  | _ => false

def isFixedName (text : String) : Bool :=
  text == "eval" || text == "arguments"

def TokenKind.ownsComment : TokenKind → Bool
  | name _ keyword =>
    keyword = "enum" || !(reservedWords ++ ["let", "await", "yield"]).contains keyword
  | privateName _ | number _ | bigint | string _ | regex _ | jsxText => true
  | mark text => text = ";" || text = "\x7b" || text = "\x7d" || text = "$\x7b"
  | backquote | eof | bad _ => false
  | flawed _ kind => kind.ownsComment

namespace Lexer

def blockBody : List Char → List Char → Option (List Char × List Char)
  | done, '*' :: '/' :: rest => some (done.reverse, rest)
  | done, c :: rest => blockBody (c :: done) rest
  | _, [] => none

structure Gap where
  cursor : Cursor
  afterBreak : Bool
  doc : Option String
  isOpen : Bool := false
  flaw : Option Nat := none

def semicolonNext (cs : List Char) : Bool :=
  (cs.dropWhile fun c => isGapBlank c || isLineEnd c).head? == some ';'

def Gap.skipForeign (gap : Gap) : Gap :=
  { gap with
    cursor := (gap.cursor.span fun c => !isLineEnd c).2
    flaw := gap.flaw <|> some gap.cursor.offset }

/-- Skips blanks and comments. While no line has ended, a documentation comment counts for the
token that follows only if it does not belong to the token before (`owned`) and no semicolon
follows; afterwards it always counts. -/
def skipGap (owned : Bool) : Nat → Gap → Gap
  | 0, gap => gap
  | fuel + 1, gap =>
    match gap.cursor.rest with
    | '<' :: '!' :: '-' :: '-' :: _ => skipGap owned fuel gap.skipForeign
    | '-' :: '-' :: '>' :: _ =>
      if gap.afterBreak then skipGap owned fuel gap.skipForeign else gap
    | '/' :: '/' :: _ =>
      let (_, cursor) := gap.cursor.span (fun c => !isLineEnd c)
      skipGap owned fuel { gap with cursor }
    | '/' :: '*' :: rest =>
      match blockBody [] rest with
      | none => { gap with isOpen := true }
      | some (body, _) =>
        let cursor := gap.cursor.skip (body.length + 4)
        let counts := gap.afterBreak || (!owned && !semicolonNext cursor.rest)
        let doc := if counts then DocComment.text? body <|> gap.doc else gap.doc
        let afterBreak := gap.afterBreak || body.any isLineEnd
        skipGap owned fuel { gap with cursor, afterBreak, doc }
    | c :: _ =>
      if isLineEnd c then
        skipGap owned fuel { gap with cursor := gap.cursor.next, afterBreak := true }
      else if isGapBlank c then skipGap owned fuel { gap with cursor := gap.cursor.next }
      else gap
    | [] => gap

def digitValue? (c : Char) : Option Nat :=
  if '0' ≤ c ∧ c ≤ '9' then some (c.toNat - '0'.toNat)
  else if 'a' ≤ c ∧ c ≤ 'f' then some (c.toNat - 'a'.toNat + 10)
  else if 'A' ≤ c ∧ c ≤ 'F' then some (c.toNat - 'A'.toNat + 10)
  else none

def isRadixDigit (radix : Nat) (c : Char) : Bool :=
  match digitValue? c with
  | some d => d < radix
  | none => false

def digitsValue (radix : Nat) (ds : List Char) : Nat :=
  ds.foldl (fun n c =>
    match digitValue? c with
    | some d => n * radix + d
    | none => n) 0

def countDigits (ds : List Char) : Nat :=
  (ds.filter fun c => c != '_').length

def isDecimalPart (c : Char) : Bool :=
  isRadixDigit 10 c || c = '_'

def separatesDigits : List Char → Bool
  | [] => true
  | '_' :: _ => false
  | [_] => true
  | _ :: '_' :: '_' :: _ => false
  | [_, '_'] => false
  | _ :: '_' :: rest => separatesDigits rest
  | _ :: c :: rest => separatesDigits (c :: rest)

def checkDigits (offset : Nat) (digits : List Char) (kind : TokenKind) : TokenKind :=
  if separatesDigits digits then kind else .flawed offset kind

def hasIdleZero (digits : List Char) : Bool :=
  digits.head? == some '0' && 1 < digits.length

def exponentPart (c : Cursor) : Int × Cursor :=
  match c.rest with
  | e :: rest =>
    if e = 'e' || e = 'E' then
      let sign := rest.head?
      let signed := sign == some '-' || sign == some '+'
      let (digits, after) := (c.skip (if signed then 2 else 1)).span isDecimalPart
      if digits.isEmpty then (0, c)
      else
        let value : Int := digitsValue 10 digits
        (if sign == some '-' then -value else value, after)
    else (0, c)
  | [] => (0, c)

def radixNumber (radix : Nat) (c : Cursor) : TokenKind × Cursor :=
  let (digits, after) := c.span fun ch => isRadixDigit radix ch || ch = '_'
  if digits.isEmpty then (.bad c.offset, after)
  else if after.rest.head? = some 'n' then (checkDigits c.offset digits .bigint, after.next)
  else
    (checkDigits c.offset digits (.number (Double.ofNat (digitsValue radix digits))), after)

def decimalNumber (c : Cursor) : TokenKind × Cursor :=
  let (whole, point) := c.span isDecimalPart
  let checked (kind : TokenKind) : TokenKind :=
    if hasIdleZero whole then .flawed c.offset kind else checkDigits c.offset whole kind
  if point.rest.head? = some 'n' && !whole.isEmpty then (checked .bigint, point.next)
  else
    let (fraction, after) :=
      if point.rest.head? = some '.' then point.next.span isDecimalPart else ([], point)
    let (exponent, after) := exponentPart after
    let coefficient := digitsValue 10 (whole ++ fraction)
    let value := Double.ofDecimal false coefficient (exponent - (countDigits fraction : Int))
    (checked (checkDigits point.next.offset fraction (.number value)), after)

def number (c : Cursor) : TokenKind × Cursor :=
  let (kind, after) :=
    match c.rest with
    | '0' :: r :: _ =>
      if r = 'x' || r = 'X' then radixNumber 16 (c.skip 2)
      else if r = 'o' || r = 'O' then radixNumber 8 (c.skip 2)
      else if r = 'b' || r = 'B' then radixNumber 2 (c.skip 2)
      else decimalNumber c
    | _ => decimalNumber c
  match after.rest with
  | ch :: _ => if Text.isNameStart ch then (.bad after.offset, after) else (kind, after)
  | [] => (kind, after)

def escapeDigits (limit : Nat) : Nat → Nat → Nat → Cursor → Nat × Nat × Cursor
  | 0, count, value, c => (count, value, c)
  | fuel + 1, count, value, c =>
    match c.rest with
    | '_' :: _ => escapeDigits limit fuel count value c.next
    | ch :: _ =>
      match digitValue? ch with
      | none => (count, value, c)
      | some d =>
        if count + 1 = limit then (limit, value * 16 + d, c.next)
        else escapeDigits limit fuel (count + 1) (value * 16 + d) c.next
    | [] => (count, value, c)

def hexEscape? (limit : Nat) (c : Cursor) : Option (Nat × Cursor) :=
  let (count, value, after) := escapeDigits limit (c.rest.length + 1) 0 0 c
  if count = limit then some (value, after) else none

def unicodeEscape? (c : Cursor) : Option (Nat × Cursor) :=
  match c.rest with
  | '{' :: _ =>
    let (count, value, after) := escapeDigits 0 (c.rest.length + 1) 0 0 c.next
    if after.rest.head? = some '}' && 0 < count && value ≤ 0x10FFFF then some (value, after.next)
    else none
  | _ => hexEscape? 4 c

def isHigh (n : Nat) : Bool := 0xD800 ≤ n && n ≤ 0xDBFF

def isLow (n : Nat) : Bool := 0xDC00 ≤ n && n ≤ 0xDFFF

/-- Characters of code points; two surrogates that make a pair are one character, and a lone
one is replaced. -/
def decodeUnits : List Nat → List Char
  | [] => []
  | [n] => [if isHigh n || isLow n then Char.ofNat 0xFFFD else Char.ofNat n]
  | n :: m :: rest =>
    if isHigh n && isLow m then
      Char.ofNat (0x10000 + (n - 0xD800) * 0x400 + (m - 0xDC00)) :: decodeUnits rest
    else
      (if isHigh n || isLow n then Char.ofNat 0xFFFD else Char.ofNat n) :: decodeUnits (m :: rest)

structure Escape where
  units : List Nat
  after : Cursor
  isOctal : Bool := false

/-- The code points of an escape after `\u`. Half of a pair has to be followed by another escape
with four digits, if by one with `\u` at all. -/
def unicodeUnits? (c : Cursor) : Option Escape := do
  let (n, after) ← unicodeEscape? c
  match c.rest, after.rest with
  | '{' :: _, _ => pure ⟨[n], after, false⟩
  | _, '\\' :: 'u' :: _ =>
    if isHigh n then
      let (m, last) ← hexEscape? 4 (after.skip 2)
      if isLow m then pure ⟨[n, m], last, false⟩ else pure ⟨[n], after, false⟩
    else pure ⟨[n], after, false⟩
  | _, _ => pure ⟨[n], after, false⟩

def escape? (c : Cursor) : Option Escape :=
  match c.rest with
  | [] => none
  | 'n' :: _ => some ⟨[10], c.next, false⟩
  | 't' :: _ => some ⟨[9], c.next, false⟩
  | 'r' :: _ => some ⟨[13], c.next, false⟩
  | 'b' :: _ => some ⟨[8], c.next, false⟩
  | 'v' :: _ => some ⟨[11], c.next, false⟩
  | 'f' :: _ => some ⟨[12], c.next, false⟩
  | '\r' :: '\n' :: _ => some ⟨[], c.skip 2, false⟩
  | 'x' :: _ => (hexEscape? 2 c.next).map fun (n, after) => ⟨[n], after, false⟩
  | 'u' :: _ => unicodeUnits? c.next
  | ch :: rest =>
    if isLineEnd ch then some ⟨[], c.next, false⟩
    else if isRadixDigit 8 ch then
      let digits := (c.rest.take (if ch ≤ '3' then 3 else 2)).takeWhile (isRadixDigit 8)
      let isNull := ch = '0' && !((rest.head?.map (isRadixDigit 8)).getD false)
      some ⟨[digitsValue 8 digits], c.skip digits.length, !isNull⟩
    else some ⟨[ch.toNat], c.next, false⟩

def stringOf (units : List Nat) : TokenKind :=
  .string (String.ofList (decodeUnits units.reverse))

def withFlaw (flaw : Option Nat) (kind : TokenKind) : TokenKind :=
  match flaw with
  | some offset => .flawed offset kind
  | none => kind

/-- A string after its opening quote, which stands at `start`. The end of the line ends it too,
but that is an error, as is an escape in base eight. -/
def stringBody (start : Nat) (quote : Char) :
    Nat → Option Nat → List Nat → Cursor → TokenKind × Cursor
  | 0, _, _, c => (.bad c.offset, c)
  | fuel + 1, flaw, units, c =>
    match c.rest with
    | [] => (withFlaw (flaw <|> some start) (stringOf units), c)
    | ch :: _ =>
      if ch = quote then (withFlaw flaw (stringOf units), c.next)
      else if ch = '\\' then
        match escape? c.next with
        | some e =>
          let flaw := if e.isOctal then flaw <|> some c.offset else flaw
          stringBody start quote fuel flaw (e.units.reverse ++ units) e.after
        | none => (.bad c.offset, c)
      else if ch = '\n' || ch = '\r' then
        (withFlaw (flaw <|> some start) (stringOf units), c)
      else stringBody start quote fuel flaw (ch.toNat :: units) c.next

/-- The characters of a name, in reverse, and whether some are escaped. Only characters that
satisfy `accepts` may follow. -/
def nameBody (accepts : Char → Bool) :
    Nat → Bool → List Char → Cursor → Option (List Char × Bool × Cursor)
  | 0, escaped, done, c => some (done, escaped, c)
  | fuel + 1, escaped, done, c =>
    match c.rest with
    | '\\' :: 'u' :: _ => do
      let (n, after) ← unicodeEscape? (c.skip 2)
      nameBody accepts fuel true (Char.ofNat n :: done) after
    | '\\' :: _ => none
    | ch :: _ =>
      if accepts ch then nameBody accepts fuel escaped (ch :: done) c.next
      else some (done, escaped, c)
    | [] => some (done, escaped, c)

def isName : List Char → Bool
  | [] => false
  | c :: cs => Text.isNameStart c && cs.all Text.isNamePart

/-- A word with escapes in it. One that begins with an escape is no keyword. Any other is one if
it would be without escapes, and is then called by its raw text; reserved words have no escapes. -/
def escapedName (isFirst : Bool) (c : Cursor) (text : List Char) (after : Cursor) : TokenKind :=
  let resolved := String.ofList text
  let raw := String.ofList (c.rest.take (c.rest.length - after.rest.length))
  if c.rest.head? = some '\\' then .name resolved ""
  else if reservedWords.contains resolved || (!isFirst && strictWords.contains resolved) then
    .bad c.offset
  else if contextualWords.contains resolved || strictWords.contains resolved then
    .name raw resolved
  else .name resolved ""

def name (isFirst : Bool) (c : Cursor) : TokenKind × Cursor :=
  match nameBody Text.isNamePart (c.rest.length + 1) false [] c with
  | some (done, escaped, after) =>
    let text := done.reverse
    if text.isEmpty then (.bad c.offset, c)
    else if !escaped then (.name (String.ofList text) (String.ofList text), after)
    else if isName text then (escapedName isFirst c text after, after)
    else (.flawed c.offset (escapedName isFirst c text after), after)
  | none => (.bad c.offset, c)

def longMarks : List String :=
  ["...", "??=", "===", "!==", "**=", "&&=", "||=", "??", "==", "=>", "!=", "++", "+=", "--",
    "-=", "**", "*=", "/=", "%=", "&&", "&=", "||", "|=", "^="]

def angleMarks : List String :=
  [">>>=", ">>>", ">>=", "<<=", ">>", "<<", ">=", "<=", ">", "<"]

def singleMarks : List Char :=
  ['{', '}', '(', ')', '[', ']', ';', ',', '<', '>', '.', '?', '=', '!', '+', '-', '*', '/', '%',
    '&', '|', '^', '~', ':', '@']

def markIn? (marks : List String) (c : Cursor) : Option (TokenKind × Cursor) := do
  let text ← marks.find? fun m => m.toList.isPrefixOf c.rest
  pure (.mark text, c.skip text.length)

def mark (c : Cursor) : TokenKind × Cursor :=
  match c.rest with
  | '?' :: '.' :: d :: _ =>
    if isRadixDigit 10 d then (.mark "?", c.next) else (.mark "?.", c.skip 2)
  | ['?', '.'] => (.mark "?.", c.skip 2)
  | ch :: _ =>
    match markIn? longMarks c with
    | some found => found
    | none =>
      if singleMarks.contains ch then (.mark (String.singleton ch), c.next) else (.bad c.offset, c)
  | [] => (.eof, c)

/-- The token at a cursor that stands in front of one; `isFirst` when none stands before it. -/
def scan (isFirst : Bool) (c : Cursor) : TokenKind × Cursor :=
  match c.rest with
  | [] => (.eof, c)
  | ch :: rest =>
    if Text.isNameStart ch || ch = '\\' then name isFirst c
    else if isRadixDigit 10 ch then number c
    else if ch = '.' && (rest.head?.map (isRadixDigit 10)).getD false then number c
    else if ch = '"' || ch = '\'' then stringBody c.offset ch (rest.length + 1) none [] c.next
    else if ch = '`' then (.backquote, c.next)
    else if ch = '#' then
      match nameBody Text.isNamePart (rest.length + 1) false [] c.next with
      | some (done, _, after) =>
        if isName done.reverse then (.privateName (String.ofList done.reverse), after)
        else (.bad c.offset, c)
      | none => (.bad c.offset, c)
    else mark c

def nextBy (scan : Cursor → TokenKind × Cursor) (previous : Option TokenKind) (c : Cursor) :
    Token × Cursor × Cursor :=
  let owned := (previous.map TokenKind.ownsComment).getD false
  let gap := skipGap owned (c.rest.length + 1)
    { cursor := c, afterBreak := previous.isNone, doc := none }
  let here := gap.cursor
  let (kind, after) := if gap.isOpen then (.bad here.offset, here) else scan here
  let start := match kind with
    | .bad offset => offset
    | _ => here.offset
  (⟨withFlaw gap.flaw kind, start, after.offset, gap.afterBreak, gap.doc⟩, here, after)

def next (previous : Option TokenKind) (c : Cursor) : Token × Cursor × Cursor :=
  nextBy (scan previous.isNone) previous c

def regexBody : Bool → Nat → Cursor → Option Cursor
  | _, 0, _ => none
  | inClass, fuel + 1, c =>
    match c.rest with
    | [] => none
    | '\\' :: ch :: _ => if isLineEnd ch then none else regexBody inClass fuel (c.skip 2)
    | ch :: _ =>
      if isLineEnd ch then none
      else if ch = '/' && !inClass then some c.next
      else regexBody (if ch = '[' then true else if ch = ']' then false else inClass) fuel c.next

def regex (c : Cursor) : TokenKind × Cursor :=
  match regexBody false (c.rest.length + 1) c.next with
  | some after =>
    let (flags, rest) := after.span Text.isNamePart
    (.regex flags, rest)
  | none => (.bad c.offset, c)

/-- A piece of a template: its raw text, where an escape in it has no meaning, whether a place for
an expression follows, and what comes next. -/
structure TemplatePiece where
  text : String
  flaw : Option Nat
  isOpen : Bool
  after : Cursor

def templatePiece? : Nat → Option Nat → List Char → Cursor → Option TemplatePiece
  | 0, _, _, _ => none
  | fuel + 1, flaw, done, c =>
    match c.rest with
    | [] => none
    | '`' :: _ => some ⟨String.ofList done.reverse, flaw, false, c.next⟩
    | '$' :: '{' :: _ => some ⟨String.ofList done.reverse, flaw, true, c.skip 2⟩
    | '\\' :: ch :: _ =>
      let isGood := match escape? c.next with
        | some e => !e.isOctal
        | none => false
      let flaw := if isGood then flaw else flaw <|> some c.offset
      templatePiece? fuel flaw (ch :: '\\' :: done) (c.skip 2)
    | ch :: _ => templatePiece? fuel flaw (ch :: done) c.next

def resolvedUnits : Nat → Cursor → List Nat
  | 0, _ => []
  | fuel + 1, c =>
    match c.rest with
    | [] => []
    | '\\' :: _ =>
      match escape? c.next with
      | some e => e.units ++ resolvedUnits fuel e.after
      | none => resolvedUnits fuel c.next
    | '\r' :: '\n' :: _ => 10 :: resolvedUnits fuel (c.skip 2)
    | '\r' :: _ => 10 :: resolvedUnits fuel c.next
    | ch :: _ => ch.toNat :: resolvedUnits fuel c.next

def resolve (raw : String) : String :=
  String.ofList (decodeUnits (resolvedUnits (raw.length + 1) (Cursor.ofText raw.toList)))

def markupName (c : Cursor) : TokenKind × Cursor :=
  let accepts (ch : Char) : Bool := Text.isNamePart ch || ch = '-'
  match nameBody accepts (c.rest.length + 1) false [] c with
  | some (done, _, after) =>
    if done.isEmpty then (.bad c.offset, c) else (.name (String.ofList done.reverse) "", after)
  | none => (.bad c.offset, c)

def markupText (c : Cursor) : Cursor :=
  (c.span fun ch => ch != '{' && ch != '<').2

def markupValue (c : Cursor) : TokenKind × Cursor :=
  match c.rest with
  | q :: _ =>
    if q = '"' || q = '\'' then
      let (text, after) := c.next.span (· != q)
      if after.rest.isEmpty then (.bad c.offset, c)
      else (.string (String.ofList text), after.next)
    else scan false c
  | [] => (.eof, c)

end Lexer

end PropContract.Syntax
