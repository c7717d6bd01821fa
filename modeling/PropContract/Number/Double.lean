/-!
Numbers in double precision, as exact data. Every operation is done on exact ratios and rounded
once, to the nearest double, a tie to the even mantissa.
-/

namespace PropContract

inductive Double where
  | finite (negative : Bool) (mantissa : Nat) (exponent : Int)
  | infinite (negative : Bool)
  deriving DecidableEq, Repr, Inhabited

namespace Double

def leastExponent : Int := -1074

def greatestExponent : Int := 971

def zero (negative : Bool) : Double :=
  .finite negative 0 leastExponent

def scaled (num den : Nat) (e : Int) : Nat × Nat :=
  if 0 ≤ e then (num, den * Nat.pow 2 e.toNat) else (num * Nat.pow 2 (-e).toNat, den)

/-- The exponent at which a positive ratio has a mantissa of 53 bits, or the least one. -/
def exponentFor (num den : Nat) : Int :=
  let guess : Int := (num.log2 : Int) - (den.log2 : Int) - 52
  let (n, d) := scaled num den guess
  max leastExponent (if n < d * Nat.pow 2 52 then guess - 1 else guess)

/-- The quotient of naturals rounded to the nearest natural, a tie to the even one. -/
def roundDiv (num den : Nat) : Nat :=
  let q := num / den
  let r := num % den
  if den < 2 * r || (2 * r == den && q % 2 == 1) then q + 1 else q

def ofRatio (negative : Bool) (num den : Nat) : Double :=
  if num = 0 then zero negative
  else
    let e := exponentFor num den
    let (n, d) := scaled num den e
    let m := roundDiv n d
    let (m, e) := if m = Nat.pow 2 53 then (Nat.pow 2 52, e + 1) else (m, e)
    if greatestExponent < e then .infinite negative else .finite negative m e

def ofNat (n : Nat) : Double :=
  ofRatio false n 1

def ofInt (i : Int) : Double :=
  ofRatio (i < 0) i.natAbs 1

def neg : Double → Double
  | finite negative m e => finite (!negative) m e
  | infinite negative => infinite (!negative)

def isZero : Double → Bool
  | finite _ m _ => m == 0
  | infinite _ => false

def isInfinite : Double → Bool
  | finite .. => false
  | infinite _ => true

def isNegative : Double → Bool
  | finite negative .. => negative
  | infinite negative => negative

def same (a b : Double) : Bool :=
  (a.isZero && b.isZero) || a == b

def ratio? : Double → Option (Nat × Nat)
  | finite _ m e => some (if 0 ≤ e then (m * Nat.pow 2 e.toNat, 1) else (m, Nat.pow 2 (-e).toNat))
  | infinite _ => none

def addOne (x : Double) : Double :=
  match x, x.ratio? with
  | finite negative _ _, some (n, d) =>
    if negative then
      if d < n then ofRatio true (n - d) d else ofRatio false (d - n) d
    else ofRatio false (n + d) d
  | x, _ => x

def mul (x y : Double) : Double :=
  match x.ratio?, y.ratio? with
  | some (n, d), some (n', d') => ofRatio (x.isNegative != y.isNegative) (n * n') (d * d')
  | _, _ => .infinite (x.isNegative != y.isNegative)

def div (x y : Double) : Double :=
  match x.ratio?, y.ratio? with
  | some (n, d), some (n', d') => ofRatio (x.isNegative != y.isNegative) (n * d') (d * n')
  | _, _ => .infinite (x.isNegative != y.isNegative)

/-- The double nearest to `coefficient * 10 ^ exponent`. Exponents that only infinity or zero can
come of are not worked out. -/
def ofDecimal (negative : Bool) (coefficient : Nat) (exponent : Int) : Double :=
  if coefficient = 0 || exponent < -((coefficient.log2 : Int) + 401) then zero negative
  else if exponent > 400 then .infinite negative
  else if 0 ≤ exponent then ofRatio negative (coefficient * Nat.pow 10 exponent.toNat) 1
  else ofRatio negative coefficient (Nat.pow 10 (-exponent).toNat)

end Double

end PropContract
