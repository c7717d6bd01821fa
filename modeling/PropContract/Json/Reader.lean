import PropContract.Json.Value

/-!
Reading JSON text. A number with a fraction or an exponent is built from as many leading digits as
fit in 64 bits, scaled by a power of ten in one rounded step.
-/

namespace PropContract.Json

def isSpace (c : Char) : Bool :=
  c = ' ' || c = '\n' || c = '\t' || c = '\r'

def skipSpace (cs : List Char) : List Char :=
  cs.dropWhile isSpace

def hexDigit? (c : Char) : Option Nat :=
  if '0' ≤ c ∧ c ≤ '9' then some (c.toNat - '0'.toNat)
  else if 'a' ≤ c ∧ c ≤ 'f' then some (c.toNat - 'a'.toNat + 10)
  else if 'A' ≤ c ∧ c ≤ 'F' then some (c.toNat - 'A'.toNat + 10)
  else none

def hex4? : List Char → Option (Nat × List Char)
  | a :: b :: c :: d :: rest => do
    let a ← hexDigit? a
    let b ← hexDigit? b
    let c ← hexDigit? c
    let d ← hexDigit? d
    pure (((a * 16 + b) * 16 + c) * 16 + d, rest)
  | _ => none

def isHighSurrogate (n : Nat) : Bool := 0xD800 ≤ n && n ≤ 0xDBFF

def isLowSurrogate (n : Nat) : Bool := 0xDC00 ≤ n && n ≤ 0xDFFF

def combineSurrogates (high low : Nat) : Nat :=
  0x10000 + (high - 0xD800) * 0x400 + (low - 0xDC00)

def lowSurrogate? : List Char → Option (Nat × List Char)
  | '\\' :: 'u' :: rest => do
    let (n, rest) ← hex4? rest
    guard (isLowSurrogate n)
    pure (n, rest)
  | _ => none

def unicodeEscape? (cs : List Char) : Option (Option Char × List Char) := do
  let (n, rest) ← hex4? cs
  if isHighSurrogate n then
    match lowSurrogate? rest with
    | some (m, rest) => pure (some (Char.ofNat (combineSurrogates n m)), rest)
    | none => pure (none, rest)
  else if isLowSurrogate n then pure (none, rest)
  else pure (some (Char.ofNat n), rest)

def simpleEscape? : Char → Option Char
  | '"' => some '"'
  | '\\' => some '\\'
  | '/' => some '/'
  | 'b' => some (Char.ofNat 8)
  | 'f' => some (Char.ofNat 12)
  | 'n' => some '\n'
  | 'r' => some '\r'
  | 't' => some '\t'
  | _ => none

def stringBody? : Nat → Option (List Char) → List Char → Option (Option String × List Char)
  | 0, _, _ => none
  | _ + 1, _, [] => none
  | fuel + 1, done, c :: cs =>
    if c = '"' then some (done.map fun done => String.ofList done.reverse, cs)
    else if c = '\\' then
      match cs with
      | 'u' :: rest => do
        let (c, rest) ← unicodeEscape? rest
        stringBody? fuel (c.bind fun c => done.map (c :: ·)) rest
      | e :: rest => do
        let c ← simpleEscape? e
        stringBody? fuel (done.map (c :: ·)) rest
      | [] => none
    else if c.toNat < 0x20 then none
    else stringBody? fuel (done.map (c :: ·)) cs

def withMember (name : Option String) (item : Json) : Json → Json
  | object members =>
    match name with
    | some name => object ((name, item) :: members)
    | none => unreadable
  | _ => unreadable

def digitsToNat (ds : List Char) : Nat :=
  ds.foldl (fun n c => n * 10 + (c.toNat - '0'.toNat)) 0

def takeSignificand : Nat → List Char → Nat × List Char
  | n, [] => (n, [])
  | n, d :: ds =>
    let next := n * 10 + (d.toNat - '0'.toNat)
    if next < Nat.pow 2 64 then takeSignificand next ds else (n, d :: ds)

/-- A significand times a power of ten, rounded at each step; too large a number has no value. -/
def scaleTen : Nat → Double → Int → Option Double
  | 0, _, _ => none
  | fuel + 1, x, e =>
    if e.natAbs ≤ 308 then
      let power := Double.ofDecimal false 1 e.natAbs
      if 0 ≤ e then
        let y := x.mul power
        if y.isInfinite then none else some y
      else some (x.div power)
    else if x.isZero then some x
    else if 0 ≤ e then none
    else scaleTen fuel (x.div (Double.ofDecimal false 1 308)) (e + 308)

def realOfParts? (negative : Bool) (significand : Nat) (exponent : Int) : Option Json := do
  let x ← scaleTen (exponent.natAbs / 308 + 2) (Double.ofNat significand) exponent
  pure (real (if negative then x.neg else x))

/-- An integer when it fits in 64 bits, signed or unsigned, and a real number otherwise. -/
def wholeNumber? (negative : Bool) (digits : List Char) : Option Json :=
  let n := digitsToNat digits
  if n < Nat.pow 2 64 then
    if negative then
      if n = 0 ∨ Nat.pow 2 63 < n then some (real (Double.ofNat n).neg)
      else some (integer (-(n : Int)))
    else some (integer n)
  else
    let (significand, left) := takeSignificand 0 digits
    realOfParts? negative significand left.length

def isDigit (c : Char) : Bool :=
  '0' ≤ c && c ≤ '9'

def exponent? (cs : List Char) : Option (Int × List Char) :=
  let (negative, cs) :=
    match cs with
    | '-' :: cs => (true, cs)
    | '+' :: cs => (false, cs)
    | cs => (false, cs)
  match cs.takeWhile isDigit with
  | [] => none
  | ds =>
    let e : Int := digitsToNat ds
    some (if negative then -e else e, cs.dropWhile isDigit)

def signed : List Char → Bool × List Char
  | '-' :: cs => (true, cs)
  | cs => (false, cs)

def fractionPart? : List Char → Option (Option (List Char) × List Char)
  | '.' :: cs =>
    if (cs.takeWhile isDigit).isEmpty then none
    else some (some (cs.takeWhile isDigit), cs.dropWhile isDigit)
  | cs => some (none, cs)

def exponentPart? : List Char → Option (Option Int × List Char)
  | 'e' :: cs | 'E' :: cs => (exponent? cs).map fun (e, rest) => (some e, rest)
  | cs => some (none, cs)

def realNumber? (negative : Bool) (whole fraction : List Char) (exponent : Int) : Option Json :=
  let (significand, left) := takeSignificand 0 whole
  let (significand, unread) :=
    if left.isEmpty then takeSignificand significand fraction else (significand, fraction)
  let shift : Int := left.length - (fraction.length - unread.length : Nat)
  realOfParts? negative significand (shift + exponent)

def numberOf? (negative : Bool) (whole : List Char) :
    Option (List Char) → Option Int → Option Json
  | none, none => wholeNumber? negative whole
  | fraction, exponent => realNumber? negative whole (fraction.getD []) (exponent.getD 0)

def isWhole (ds : List Char) : Bool :=
  !ds.isEmpty && (ds.length == 1 || ds.head? != some '0')

def number? (cs : List Char) : Option (Json × List Char) := do
  let (negative, cs) := signed cs
  let whole := cs.takeWhile isDigit
  guard (isWhole whole)
  let (fraction, rest) ← fractionPart? (cs.dropWhile isDigit)
  let (exponent, rest) ← exponentPart? rest
  pure ((numberOf? negative whole fraction exponent).getD unreadable, rest)

mutual

def value? : Nat → List Char → Option (Json × List Char)
  | 0, _ => none
  | fuel + 1, cs =>
    match skipSpace cs with
    | 'n' :: 'u' :: 'l' :: 'l' :: rest => some (null, rest)
    | 't' :: 'r' :: 'u' :: 'e' :: rest => some (bool true, rest)
    | 'f' :: 'a' :: 'l' :: 's' :: 'e' :: rest => some (bool false, rest)
    | '"' :: rest => do
      let (s, rest) ← stringBody? (rest.length + 1) (some []) rest
      pure (s.elim unreadable string, rest)
    | '[' :: rest =>
      match skipSpace rest with
      | ']' :: rest => some (array [], rest)
      | rest => do
        let (items, rest) ← items? fuel rest
        pure (array items, rest)
    | '{' :: rest =>
      match skipSpace rest with
      | '}' :: rest => some (object [], rest)
      | rest => members? fuel rest
    | rest => number? rest

def items? : Nat → List Char → Option (List Json × List Char)
  | 0, _ => none
  | fuel + 1, cs => do
    let (item, rest) ← value? fuel cs
    match skipSpace rest with
    | ',' :: rest =>
      let (items, rest) ← items? fuel rest
      pure (item :: items, rest)
    | ']' :: rest => pure ([item], rest)
    | _ => none

def members? : Nat → List Char → Option (Json × List Char)
  | 0, _ => none
  | fuel + 1, cs =>
    match skipSpace cs with
    | '"' :: rest => do
      let (name, rest) ← stringBody? (rest.length + 1) (some []) rest
      match skipSpace rest with
      | ':' :: rest =>
        let (item, rest) ← value? fuel rest
        match skipSpace rest with
        | ',' :: rest =>
          let (members, rest) ← members? fuel rest
          pure (withMember name item members, rest)
        | '}' :: rest => pure (withMember name item (object []), rest)
        | _ => none
      | _ => none
    | _ => none

end

def read? (text : String) : Option Json :=
  let cs := text.toList
  match value? (cs.length + 1) cs with
  | some (value, rest) => if (skipSpace rest).isEmpty then some value else none
  | none => none

end PropContract.Json
