import PropContract.Number.Double

/-!
The shortest decimal of a double: of the decimals that round to it, one with the fewest digits,
and of those the nearest.
-/

namespace PropContract

structure Decimal where
  coefficient : Nat
  exponent : Int
  deriving DecidableEq, Repr, Inhabited

namespace Decimal

def scaled (num den : Nat) (e : Int) : Nat × Nat :=
  if 0 ≤ e then (num, den * Nat.pow 10 e.toNat) else (num * Nat.pow 10 (-e).toNat, den)

def stepsToOne : Nat → Nat → Nat → Nat
  | 0, _, _ => 0
  | fuel + 1, num, den => if den ≤ num then 0 else stepsToOne fuel (num * 10) den + 1

def leadingPower (num den : Nat) : Int :=
  if den ≤ num then ((Nat.toDigits 10 (num / den)).length : Int) - 1
  else -(stepsToOne 400 num den : Int)

/-- Where the reals that round to `m * 2 ^ e` begin and end, in units of `2 ^ (e - 2)`. -/
def roundingInterval (m : Nat) (e : Int) : Nat × Nat :=
  (if m = Nat.pow 2 52 ∧ Double.leastExponent < e then 4 * m - 1 else 4 * m - 2, 4 * m + 2)

def roundsTo (m : Nat) (e : Int) (k : Nat) (p : Int) : Bool :=
  let (lo, hi) := roundingInterval m e
  let (n, d) := if 0 ≤ p then (k * Nat.pow 10 p.toNat, 1) else (k, Nat.pow 10 (-p).toNat)
  let (n, d) := Double.scaled n d (e - 2)
  if m % 2 == 0 then lo * d ≤ n && n ≤ hi * d else lo * d < n && n < hi * d

def onGrid? (m : Nat) (e : Int) (num den : Nat) (p : Int) : Option Decimal :=
  let (n, d) := scaled num den p
  let low := n / d
  let up := low + 1
  let distanceLow := n - low * d
  let distanceUp := up * d - n
  match roundsTo m e low p, roundsTo m e up p with
  | true, true =>
    some ⟨if distanceLow < distanceUp || (distanceLow == distanceUp && low % 2 == 0) then low
      else up, p⟩
  | true, false => some ⟨low, p⟩
  | false, true => some ⟨up, p⟩
  | false, false => none

def search (m : Nat) (e : Int) (num den : Nat) : Nat → Int → Decimal
  | 0, p => ⟨(scaled num den p).1 / (scaled num den p).2, p⟩
  | fuel + 1, p => (onGrid? m e num den p).getD (search m e num den fuel (p - 1))

def trimZeros : Nat → Decimal → Decimal
  | 0, d => d
  | fuel + 1, d =>
    if d.coefficient % 10 = 0 ∧ d.coefficient ≠ 0 then
      trimZeros fuel ⟨d.coefficient / 10, d.exponent + 1⟩
    else d

def shortest (m : Nat) (e : Int) : Decimal :=
  let (num, den) := if 0 ≤ e then (m * Nat.pow 2 e.toNat, 1) else (m, Nat.pow 2 (-e).toNat)
  trimZeros 20 (search m e num den 17 (leadingPower num den))

def digits (d : Decimal) : List Char :=
  Nat.toDigits 10 d.coefficient

def positional (d : Decimal) : List Char :=
  let ds := d.digits
  if 0 ≤ d.exponent then ds ++ List.replicate d.exponent.toNat '0'
  else
    let places := (-d.exponent).toNat
    if places < ds.length then
      ds.take (ds.length - places) ++ '.' :: ds.drop (ds.length - places)
    else '0' :: '.' :: List.replicate (places - ds.length) '0' ++ ds

def scientific (d : Decimal) : List Char :=
  let ds := d.digits
  let power := d.exponent + (ds.length : Int) - 1
  let exponentDigits := Nat.toDigits 10 power.natAbs
  let fraction := if ds.length ≤ 1 then [] else '.' :: ds.drop 1
  ds.take 1 ++ fraction ++ 'e' :: (if power < 0 then '-' else '+') ::
    (if exponentDigits.length < 2 then '0' :: exponentDigits else exponentDigits)

end Decimal

namespace Double

def signText (negative : Bool) : List Char :=
  if negative then ['-'] else []

/-- Positional text with the fewest digits: never an exponent, `-0` for the negative zero. -/
def plainText : Double → String
  | .infinite negative => String.ofList (signText negative ++ "inf".toList)
  | .finite negative m e =>
    if m = 0 then String.ofList (signText negative ++ ['0'])
    else String.ofList (signText negative ++ (Decimal.shortest m e).positional)

end Double

end PropContract
