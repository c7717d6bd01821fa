import Mathlib.Algebra.Order.Field.Rat
import Mathlib.Algebra.Order.Floor.Semiring
import Mathlib.Data.List.TakeWhile
import Mathlib.Data.Rat.Floor
import Mathlib.Tactic.FieldSimp
import Mathlib.Tactic.Linarith
import Mathlib.Tactic.NormNum.Basic
import Mathlib.Tactic.Positivity
import Mathlib.Tactic.Ring
import PropContract.Number.Decimal

namespace PropContract

open List Decimal

theorem zpow_of_nonneg {b : ℚ} {e : ℤ} (h : 0 ≤ e) : b ^ e = b ^ e.toNat := by
  rw [← zpow_natCast, Int.toNat_of_nonneg h]

theorem zpow_of_neg {b : ℚ} {e : ℤ} (h : ¬ 0 ≤ e) : b ^ e = (b ^ (-e).toNat)⁻¹ := by
  rw [← zpow_natCast, Int.toNat_of_nonneg (by omega), zpow_neg, inv_inv]

theorem ratio_div_zpow {b : Nat} (hb : 0 < b) (num : Nat) {den : Nat} (hden : 0 < den) (e : Int) :
    let r := if 0 ≤ e then (num, den * Nat.pow b e.toNat) else (num * Nat.pow b (-e).toNat, den)
    0 < r.2 ∧ (r.1 : ℚ) / r.2 = num / den / (b : ℚ) ^ e := by
  have hb' : (b : ℚ) ≠ 0 := by exact_mod_cast hb.ne'
  have hden' : (den : ℚ) ≠ 0 := by exact_mod_cast hden.ne'
  dsimp only
  split
  · rename_i he
    refine ⟨Nat.mul_pos hden (Nat.pow_pos hb), ?_⟩
    rw [zpow_of_nonneg he]
    push_cast [Nat.pow_eq]
    field_simp
  · rename_i he
    refine ⟨hden, ?_⟩
    rw [zpow_of_neg he]
    push_cast [Nat.pow_eq]
    field_simp

theorem Double.scaled_ratio (num : Nat) {den : Nat} (hden : 0 < den) (e : Int) :
    0 < (Double.scaled num den e).2 ∧
      ((Double.scaled num den e).1 : ℚ) / (Double.scaled num den e).2 = num / den / 2 ^ e :=
  ratio_div_zpow two_pos num hden e

theorem Decimal.scaled_ratio (num : Nat) {den : Nat} (hden : 0 < den) (e : Int) :
    0 < (Decimal.scaled num den e).2 ∧
      ((Decimal.scaled num den e).1 : ℚ) / (Decimal.scaled num den e).2 = num / den / 10 ^ e :=
  ratio_div_zpow (by decide) num hden e

namespace Double

structure Canonical (m : Nat) (e : Int) : Prop where
  lt : m < 2 ^ 53
  least : leastExponent ≤ e
  full : m < 2 ^ 52 → e = leastExponent

instance (m : Nat) (e : Int) : Decidable (Canonical m e) :=
  decidable_of_iff (m < 2 ^ 53 ∧ leastExponent ≤ e ∧ (m < 2 ^ 52 → e = leastExponent))
    ⟨fun h => ⟨h.1, h.2.1, h.2.2⟩, fun h => ⟨h.lt, h.least, h.full⟩⟩

def magnitude (m : Nat) (e : Int) : ℚ :=
  m * 2 ^ e

end Double

namespace Decimal

def value (d : Decimal) : ℚ :=
  d.coefficient * 10 ^ d.exponent

def lower (m : Nat) (e : Int) : ℚ :=
  (roundingInterval m e).1 * 2 ^ (e - 2)

def upper (m : Nat) (e : Int) : ℚ :=
  (roundingInterval m e).2 * 2 ^ (e - 2)

/-- The reals that round to `m * 2 ^ e`: those between the ends, and the ends if the mantissa is
even. -/
def Rounds (m : Nat) (e : Int) (x : ℚ) : Prop :=
  if m % 2 = 0 then lower m e ≤ x ∧ x ≤ upper m e else lower m e < x ∧ x < upper m e

theorem decimal_ratio (k : Nat) (p : Int) :
    let r : Nat × Nat := if 0 ≤ p then (k * Nat.pow 10 p.toNat, 1) else (k, Nat.pow 10 (-p).toNat)
    0 < r.2 ∧ (r.1 : ℚ) / r.2 = k * 10 ^ p := by
  intro r
  by_cases hp : 0 ≤ p
  · simp only [r, if_pos hp, zpow_of_nonneg hp]
    push_cast [Nat.pow_eq]
    simp
  · simp only [r, if_neg hp, zpow_of_neg hp]
    push_cast [Nat.pow_eq]
    exact ⟨by positivity, by field_simp⟩

theorem roundsTo_iff (m : Nat) (e : Int) (k : Nat) (p : Int) :
    roundsTo m e k p ↔ Rounds m e (k * 10 ^ p) := by
  obtain ⟨hpos, hvalue⟩ := decimal_ratio k p
  unfold roundsTo Rounds lower upper
  rw [← hvalue]
  generalize (if 0 ≤ p then (k * Nat.pow 10 p.toNat, 1) else (k, Nat.pow 10 (-p).toNat)) = r at hpos
  obtain ⟨hpos', hratio⟩ := Double.scaled_ratio r.1 hpos (e - 2)
  have hunit : (0 : ℚ) < 2 ^ (e - 2) := zpow_pos two_pos _
  have hx : (r.1 : ℚ) / r.2 = (Double.scaled r.1 r.2 (e - 2)).1 /
      (Double.scaled r.1 r.2 (e - 2)).2 * 2 ^ (e - 2) := by
    rw [hratio]
    field_simp
  rw [hx]
  dsimp only
  generalize Double.scaled r.1 r.2 (e - 2) = q at hpos'
  have hq : (0 : ℚ) < q.2 := by exact_mod_cast hpos'
  have hle (a : Nat) : (a : ℚ) * 2 ^ (e - 2) ≤ q.1 / q.2 * 2 ^ (e - 2) ↔ a * q.2 ≤ q.1 := by
    rw [mul_le_mul_iff_left₀ hunit, le_div_iff₀ hq]
    exact_mod_cast Iff.rfl
  have hge (a : Nat) : (q.1 : ℚ) / q.2 * 2 ^ (e - 2) ≤ a * 2 ^ (e - 2) ↔ q.1 ≤ a * q.2 := by
    rw [mul_le_mul_iff_left₀ hunit, div_le_iff₀ hq]
    exact_mod_cast Iff.rfl
  have hlt (a : Nat) : (a : ℚ) * 2 ^ (e - 2) < q.1 / q.2 * 2 ^ (e - 2) ↔ a * q.2 < q.1 := by
    rw [← not_le, hge, not_le]
  have hgt (a : Nat) : (q.1 : ℚ) / q.2 * 2 ^ (e - 2) < a * 2 ^ (e - 2) ↔ q.1 < a * q.2 := by
    rw [← not_le, hle, not_le]
  simp only [hle, hge, hlt, hgt]
  by_cases hm : m % 2 = 0 <;> simp [hm]

theorem magnitude_eq (m : Nat) (e : Int) : Double.magnitude m e = 4 * m * 2 ^ (e - 2) := by
  rw [Double.magnitude, zpow_sub₀ two_ne_zero]
  norm_num
  ring

theorem upper_eq (m : Nat) (e : Int) : upper m e = (4 * m + 2) * 2 ^ (e - 2) := by
  simp only [upper, roundingInterval]
  push_cast
  rfl

variable {m m' num den : Nat} {e e' : Int} {x : ℚ}

theorem lower_eq (hm : 0 < m) (e : Int) :
    lower m e = (4 * m - if m = 2 ^ 52 ∧ Double.leastExponent < e then 1 else 2) * 2 ^ (e - 2) := by
  simp only [lower, roundingInterval, Nat.pow_eq]
  split
  · rw [Nat.cast_sub (by omega)]
    push_cast
    rfl
  · rw [Nat.cast_sub (by omega)]
    push_cast
    rfl

theorem lower_lt (hm : 0 < m) (e : Int) : lower m e < Double.magnitude m e := by
  have hunit : (0 : ℚ) < 2 ^ (e - 2) := zpow_pos two_pos _
  rw [lower_eq hm, magnitude_eq]
  refine mul_lt_mul_of_pos_right ?_ hunit
  split <;> linarith

theorem lt_upper (m : Nat) (e : Int) : Double.magnitude m e < upper m e := by
  have hunit : (0 : ℚ) < 2 ^ (e - 2) := zpow_pos two_pos _
  rw [upper_eq, magnitude_eq]
  exact mul_lt_mul_of_pos_right (by linarith) hunit

theorem step_lt_width (h : Double.Canonical m e) (hm : 0 < m) {power : Int}
    (hpower : 10 ^ power ≤ Double.magnitude m e) : 10 ^ (power - 16) < upper m e - lower m e := by
  have hunit : (0 : ℚ) < 2 ^ (e - 2) := zpow_pos two_pos _
  have hlt : (m : ℚ) + 1 ≤ 2 ^ 53 := by exact_mod_cast h.lt
  have hstep : (10 : ℚ) ^ (power - 16) * 10 ^ 16 ≤ 4 * m * 2 ^ (e - 2) := by
    rw [← magnitude_eq]
    refine le_trans (le_of_eq ?_) hpower
    rw [zpow_sub₀ (by norm_num)]
    norm_num
  rw [lower_eq hm, upper_eq]
  split
  · rename_i hpow
    rw [hpow.1] at hstep ⊢
    push_cast at hstep ⊢
    nlinarith
  · nlinarith

theorem le_lower_of_not_rounds (hx : x ≤ Double.magnitude m e) (h : ¬ Rounds m e x) :
    x ≤ lower m e := by
  have hinside := lt_upper m e
  by_contra hlower
  rw [not_le] at hlower
  apply h
  unfold Rounds
  split
  · exact ⟨hlower.le, by linarith⟩
  · exact ⟨hlower, by linarith⟩

theorem upper_le_of_not_rounds (hm : 0 < m) (hx : Double.magnitude m e ≤ x) (h : ¬ Rounds m e x) :
    upper m e ≤ x := by
  have hinside := lower_lt hm e
  by_contra hupper
  rw [not_le] at hupper
  apply h
  unfold Rounds
  split
  · exact ⟨by linarith, hupper.le⟩
  · exact ⟨by linarith, hupper⟩

theorem onGrid?_cases (hm : 0 < m) (hden : 0 < den)
    (hvalue : (num : ℚ) / den = Double.magnitude m e) (p : Int) :
    (∃ d, onGrid? m e num den p = some d ∧ Rounds m e d.value) ∨
      onGrid? m e num den p = none ∧ upper m e - lower m e ≤ 10 ^ p := by
  obtain ⟨hpos, hratio⟩ := scaled_ratio num hden p
  have hstep : (0 : ℚ) < 10 ^ p := zpow_pos (by norm_num) _
  rw [hvalue] at hratio
  unfold onGrid?
  dsimp only
  generalize scaled num den p = r at hpos hratio
  have hr : (0 : ℚ) < r.2 := by exact_mod_cast hpos
  have hlow : ((r.1 / r.2 : Nat) : ℚ) * 10 ^ p ≤ Double.magnitude m e := by
    rw [← le_div_iff₀ hstep, ← hratio, le_div_iff₀ hr]
    exact_mod_cast Nat.div_mul_le_self r.1 r.2
  have hup : Double.magnitude m e < ((r.1 / r.2 + 1 : Nat) : ℚ) * 10 ^ p := by
    rw [← div_lt_iff₀ hstep, ← hratio, div_lt_iff₀ hr, mul_comm]
    exact_mod_cast Nat.lt_mul_div_succ r.1 hpos
  cases hl : roundsTo m e (r.1 / r.2) p <;> cases hu : roundsTo m e (r.1 / r.2 + 1) p
  · right
    refine ⟨rfl, ?_⟩
    rw [← Bool.not_eq_true, roundsTo_iff] at hl hu
    have hbelow := le_lower_of_not_rounds hlow hl
    have habove := upper_le_of_not_rounds hm hup.le hu
    have hgap : ((r.1 / r.2 + 1 : Nat) : ℚ) * 10 ^ p - (r.1 / r.2 : Nat) * 10 ^ p = 10 ^ p := by
      push_cast
      ring
    linarith
  · exact .inl ⟨_, rfl, (roundsTo_iff ..).mp hu⟩
  · exact .inl ⟨_, rfl, (roundsTo_iff ..).mp hl⟩
  · refine .inl ⟨_, rfl, ?_⟩
    unfold value
    dsimp only
    split
    · exact (roundsTo_iff ..).mp hl
    · exact (roundsTo_iff ..).mp hu

theorem search_rounds (hm : 0 < m) (hden : 0 < den)
    (hvalue : (num : ℚ) / den = Double.magnitude m e) (n : Nat) (p : Int)
    (hfine : 10 ^ (p - n) < upper m e - lower m e) :
    Rounds m e (search m e num den (n + 1) p).value := by
  induction n generalizing p with
  | zero =>
    rw [search]
    rcases onGrid?_cases hm hden hvalue p with ⟨d, hd, hr⟩ | ⟨-, hcoarse⟩
    · rw [hd]
      exact hr
    · rw [Nat.cast_zero, sub_zero] at hfine
      exact absurd hcoarse (not_le.mpr hfine)
  | succ n ih =>
    rw [search]
    rcases onGrid?_cases hm hden hvalue p with ⟨d, hd, hr⟩ | ⟨hnone, -⟩
    · rw [hd]
      exact hr
    · rw [hnone, Option.getD_none]
      refine ih (p - 1) ?_
      rwa [sub_sub, add_comm, ← Nat.cast_succ]

theorem value_trimZeros (n : Nat) (d : Decimal) : (trimZeros n d).value = d.value := by
  induction n generalizing d with
  | zero => rfl
  | succ n ih =>
    rw [trimZeros]
    split
    · rename_i hzero
      have hdiv : d.coefficient = d.coefficient / 10 * 10 := by omega
      rw [ih, value, value, zpow_add₀ (by norm_num), zpow_one, hdiv]
      push_cast
      rw [Nat.mul_div_cancel _ (by decide)]
      ring
    · rfl

theorem le_stepsToOne {fuel : Nat} (h : den ≤ num * 10 ^ fuel) :
    den ≤ num * 10 ^ stepsToOne fuel num den := by
  induction fuel generalizing num with
  | zero => exact h
  | succ fuel ih =>
    rw [stepsToOne]
    split
    · simpa
    · rw [pow_succ, mul_comm (10 ^ _), ← mul_assoc]
      refine ih ?_
      rwa [mul_assoc, mul_comm 10, ← pow_succ]

theorem pow_length_toDigits_le {n : Nat} (hn : 0 < n) :
    10 ^ ((Nat.toDigits 10 n).length - 1) ≤ n := by
  have hlength := Nat.length_toDigits_pos (b := 10) (n := n)
  by_cases hone : (Nat.toDigits 10 n).length = 1
  · rw [hone]
    exact hn
  · have hlt := mt (Nat.length_toDigits_le_iff (n := n) (by decide : 1 < 10)
      (by omega : 0 < (Nat.toDigits 10 n).length - 1)).mpr (by omega)
    exact not_lt.mp hlt

theorem leadingPower_le (hden : 0 < den) (hsmall : den ≤ num * 10 ^ 400) :
    (10 : ℚ) ^ leadingPower num den ≤ num / den := by
  have hpos : (0 : ℚ) < den := by exact_mod_cast hden
  rw [le_div_iff₀ hpos, leadingPower]
  split
  · rename_i hle
    have hdigits := pow_length_toDigits_le (Nat.div_pos hle hden)
    have hlength := Nat.length_toDigits_pos (b := 10) (n := num / den)
    rw [zpow_of_nonneg (by omega)]
    have hnat : (((Nat.toDigits 10 (num / den)).length : Int) - 1).toNat =
        (Nat.toDigits 10 (num / den)).length - 1 := by omega
    rw [hnat]
    exact_mod_cast (Nat.mul_le_mul_right den hdigits).trans (Nat.div_mul_le_self num den)
  · rw [zpow_neg, zpow_natCast, inv_mul_le_iff₀ (by positivity), mul_comm]
    exact_mod_cast le_stepsToOne hsmall

theorem two_pow_le {k n : Nat} (hm : 0 < m) (hk : k ≤ 3 * n) : 2 ^ k ≤ m * 10 ^ n := by
  calc 2 ^ k ≤ 2 ^ (3 * n) := Nat.pow_le_pow_right two_pos hk
    _ = (2 ^ 3) ^ n := pow_mul ..
    _ ≤ 10 ^ n := Nat.pow_le_pow_left (by decide) n
    _ ≤ m * 10 ^ n := Nat.le_mul_of_pos_left _ hm

theorem rounds_shortest (h : Double.Canonical m e) (hm : 0 < m) :
    Rounds m e (shortest m e).value := by
  have hratio : ∃ num den : Nat, shortest m e = trimZeros 20 (search m e num den 17
      (leadingPower num den)) ∧ 0 < den ∧ den ≤ num * 10 ^ 400 ∧
      (num : ℚ) / den = Double.magnitude m e := by
    by_cases he : 0 ≤ e
    · refine ⟨m * 2 ^ e.toNat, 1, by rw [shortest, if_pos he]; rfl, one_pos, ?_, ?_⟩
      · exact Nat.one_le_iff_ne_zero.mpr (by positivity)
      · rw [Double.magnitude, zpow_of_nonneg he]
        push_cast
        ring
    · refine ⟨m, 2 ^ (-e).toNat, by rw [shortest, if_neg he]; rfl, by positivity, ?_, ?_⟩
      · refine two_pow_le hm ?_
        have := h.least
        unfold Double.leastExponent at this
        omega
      · rw [Double.magnitude, zpow_of_neg he]
        push_cast
        rfl
  obtain ⟨num, den, hshortest, hden, hsmall, hvalue⟩ := hratio
  rw [hshortest, value_trimZeros]
  refine search_rounds hm hden hvalue 16 _ (step_lt_width h hm ?_)
  rw [← hvalue]
  exact leadingPower_le hden hsmall

theorem upper_le_lower_of_exponent_lt (h : Double.Canonical m e) (h' : Double.Canonical m' e')
    (hm' : 0 < m') (hlt : e < e') :
    upper m e ≤ lower m' e' ∧ (upper m e = lower m' e' → m % 2 ≠ m' % 2) := by
  have hunit : (0 : ℚ) < 2 ^ (e - 2) := zpow_pos two_pos _
  have hfull : 2 ^ 52 ≤ m' := by
    by_contra hc
    have := h'.full (not_le.mp hc)
    have := h.least
    omega
  have hend : (4 * m + 2 : ℚ) ≤ 2 ^ 55 - 2 := by
    have : (m : ℚ) + 1 ≤ 2 ^ 53 := by exact_mod_cast h.lt
    linarith
  have hleast : Double.leastExponent < e' := lt_of_le_of_lt h.least hlt
  have hunit' : (2 : ℚ) * 2 ^ (e - 2) ≤ 2 ^ (e' - 2) := by
    rw [← zpow_one_add₀ two_ne_zero]
    exact zpow_le_zpow_right₀ one_le_two (by omega)
  rw [upper_eq, lower_eq hm']
  -- The greater one has the least full mantissa, or more.
  by_cases hpow : m' = 2 ^ 52
  · rw [if_pos ⟨hpow, hleast⟩, hpow]
    push_cast
    refine ⟨by nlinarith, fun heq => ?_⟩
    have hodd : (4 * m + 2 : ℚ) = 2 ^ 55 - 2 := by nlinarith
    have : 4 * m + 4 = 2 ^ 55 := by
      exact_mod_cast (by linarith : (4 * m + 4 : ℚ) = 2 ^ 55)
    omega
  · have hmore : (2 ^ 52 + 1 : ℚ) ≤ m' := by exact_mod_cast (by omega : 2 ^ 52 + 1 ≤ m')
    rw [if_neg fun hc => hpow hc.1]
    have hstrict : (4 * m + 2) * (2 : ℚ) ^ (e - 2) < (4 * m' - 2) * 2 ^ (e' - 2) := by nlinarith
    exact ⟨hstrict.le, fun heq => absurd heq hstrict.ne⟩

theorem upper_le_lower_of_mantissa_lt (hm' : 0 < m') (hlt : m < m') (e : Int) :
    upper m e ≤ lower m' e ∧ (upper m e = lower m' e → m % 2 ≠ m' % 2) := by
  have hunit : (0 : ℚ) < 2 ^ (e - 2) := zpow_pos two_pos _
  have hnat : (m : ℚ) + 1 ≤ m' := by exact_mod_cast hlt
  rw [upper_eq, lower_eq hm']
  constructor
  · refine mul_le_mul_of_nonneg_right ?_ hunit.le
    split <;> linarith
  · intro heq
    have heq' := mul_right_cancel₀ hunit.ne' heq
    split at heq'
    · have : 4 * m + 3 = 4 * m' := by
        exact_mod_cast (by linarith : (4 * m + 3 : ℚ) = 4 * m')
      omega
    · have : 4 * m + 4 = 4 * m' := by
        exact_mod_cast (by linarith : (4 * m + 4 : ℚ) = 4 * m')
      omega

section

variable (h : Double.Canonical m e) (h' : Double.Canonical m' e') (hm' : 0 < m')
  (hlt : e < e' ∨ e = e' ∧ m < m')

include h h' hm' hlt

/-- The interval of a double ends where that of a greater one begins, or before. Where they meet,
one of the two mantissas is odd. -/
theorem upper_le_lower : upper m e ≤ lower m' e' ∧ (upper m e = lower m' e' → m % 2 ≠ m' % 2) := by
  rcases hlt with hlt | ⟨rfl, hlt⟩
  · exact upper_le_lower_of_exponent_lt h h' hm' hlt
  · exact upper_le_lower_of_mantissa_lt hm' hlt e

theorem not_rounds_both (hx : Rounds m e x) (hx' : Rounds m' e' x) : False := by
  obtain ⟨hle, hmeet⟩ := upper_le_lower h h' hm' hlt
  unfold Rounds at hx hx'
  split at hx <;> split at hx'
  · exact hmeet (by linarith) (by omega)
  · linarith
  · linarith
  · linarith

end

theorem not_rounds_zero (hm : 0 < m) (e : Int) : ¬ Rounds m e 0 := by
  have hpos : 0 < lower m e := by
    rw [lower_eq hm]
    refine mul_pos ?_ (zpow_pos two_pos _)
    have : (1 : ℚ) ≤ m := by exact_mod_cast hm
    split <;> linarith
  unfold Rounds
  split
  · exact fun h => absurd h.1 (not_le.mpr hpos)
  · exact fun h => absurd h.1 (not_lt.mpr hpos.le)

theorem rounds_unique (h : Double.Canonical m e) (h' : Double.Canonical m' e') (hm : 0 < m)
    (hm' : 0 < m') (hx : Rounds m e x) (hx' : Rounds m' e' x) : m = m' ∧ e = e' := by
  rcases lt_trichotomy e e' with he | rfl | he
  · exact (not_rounds_both h h' hm' (.inl he) hx hx').elim
  · rcases lt_trichotomy m m' with hlt | rfl | hlt
    · exact (not_rounds_both h h' hm' (.inr ⟨rfl, hlt⟩) hx hx').elim
    · exact ⟨rfl, rfl⟩
    · exact (not_rounds_both h' h hm (.inr ⟨rfl, hlt⟩) hx' hx).elim
  · exact (not_rounds_both h' h hm (.inl he) hx' hx).elim

def numeral (cs : List Char) : ℚ :=
  let whole := cs.takeWhile (· != '.')
  let fraction := (cs.dropWhile (· != '.')).tail
  Nat.ofDigitChars 10 (whole ++ fraction) 0 / 10 ^ fraction.length

theorem numeral_of_whole {whole : List Char} (h : ∀ c ∈ whole, c != '.') :
    numeral whole = Nat.ofDigitChars 10 whole 0 := by
  have htake : whole.takeWhile (· != '.') = whole := by
    rw [takeWhile_eq_self_iff]
    exact h
  have hdrop : whole.dropWhile (· != '.') = [] := by
    rw [dropWhile_eq_nil_iff]
    exact h
  simp [numeral, htake, hdrop]

theorem numeral_of_point {whole : List Char} (h : ∀ c ∈ whole, c != '.') (fraction : List Char) :
    numeral (whole ++ '.' :: fraction) =
      Nat.ofDigitChars 10 (whole ++ fraction) 0 / 10 ^ fraction.length := by
  have htake : (whole ++ '.' :: fraction).takeWhile (· != '.') = whole := by
    rw [takeWhile_append_of_pos h]
    simp
  have hdrop : (whole ++ '.' :: fraction).dropWhile (· != '.') = '.' :: fraction := by
    rw [dropWhile_append_of_pos h]
    simp
  simp only [numeral, htake, hdrop, tail_cons]

theorem isDigit_of_mem_digits {d : Decimal} {c : Char} (h : c ∈ d.digits) : c.isDigit :=
  Nat.isDigit_of_mem_toDigits (by decide) (by decide) h

theorem ne_point_of_isDigit {c : Char} (h : c.isDigit) : c != '.' := by
  rw [bne_iff_ne]
  rintro rfl
  cases h

theorem numeral_positional (d : Decimal) : numeral d.positional = d.value := by
  have hdigits : Nat.ofDigitChars 10 d.digits 0 = d.coefficient := Nat.ofDigitChars_ten_toDigits
  have hpoint : ∀ c ∈ d.digits, c != '.' := fun c hc =>
    ne_point_of_isDigit (isDigit_of_mem_digits hc)
  unfold positional
  dsimp only
  split
  · rename_i he
    rw [numeral_of_whole, Nat.ofDigitChars_append, hdigits, Nat.ofDigitChars_replicate_zero, value,
      zpow_of_nonneg he]
    · push_cast
      ring
    · intro c hc
      rcases mem_append.mp hc with hc | hc
      · exact hpoint c hc
      · rw [eq_of_mem_replicate hc]
        rfl
  · rename_i he
    rw [value, zpow_of_neg he, ← div_eq_mul_inv]
    split
    · rename_i hlt
      rw [numeral_of_point fun c hc => hpoint c (mem_of_mem_take hc), take_append_drop,
        hdigits, length_drop]
      congr 2
      omega
    · rename_i hge
      have hzeros : '0' :: '.' :: List.replicate ((-d.exponent).toNat - d.digits.length) '0' ++
          d.digits = ['0'] ++ '.' ::
            (List.replicate ((-d.exponent).toNat - d.digits.length) '0' ++ d.digits) := by
        simp
      rw [hzeros, numeral_of_point (by simp), Nat.ofDigitChars_append, Nat.ofDigitChars_append,
        Nat.ofDigitChars_replicate_zero, length_append, length_replicate]
      have hzero : Nat.ofDigitChars 10 ['0'] 0 = 0 := rfl
      rw [hzero, mul_zero, hdigits]
      congr 2
      omega

theorem positional_chars (d : Decimal) : (∃ c ∈ d.positional.head?, c.isDigit) ∧
    ∀ c ∈ d.positional, c.isDigit ∨ c = '.' := by
  have hdigit : ∀ c ∈ d.digits, c.isDigit := fun c hc => isDigit_of_mem_digits hc
  have hzero {n : Nat} {c : Char} (hc : c ∈ List.replicate n '0') : c.isDigit := by
    rw [eq_of_mem_replicate hc]
    rfl
  obtain ⟨first, rest, hfirst⟩ := exists_cons_of_ne_nil (l := d.digits) Nat.toDigits_ne_nil
  have hhead : first.isDigit := hdigit first (hfirst ▸ mem_cons_self)
  unfold positional
  dsimp only
  split
  · refine ⟨⟨first, by simp [hfirst], hhead⟩, fun c hc => .inl ?_⟩
    exact (mem_append.mp hc).elim (hdigit c) hzero
  · split
    · rename_i hlt
      refine ⟨⟨first, ?_, hhead⟩, fun c hc => ?_⟩
      · obtain ⟨n, hn⟩ : ∃ n, d.digits.length - (-d.exponent).toNat = n + 1 :=
          ⟨d.digits.length - (-d.exponent).toNat - 1, by omega⟩
        rw [hn, hfirst, take_succ_cons]
        rfl
      · rcases mem_append.mp hc with hc | hc
        · exact .inl (hdigit c (mem_of_mem_take hc))
        · rcases mem_cons.mp hc with rfl | hc
          · exact .inr rfl
          · exact .inl (hdigit c (mem_of_mem_drop hc))
    · refine ⟨⟨'0', rfl, rfl⟩, fun c hc => ?_⟩
      rcases mem_cons.mp hc with rfl | hc
      · exact .inl rfl
      · rcases mem_cons.mp hc with rfl | hc
        · exact .inr rfl
        · exact .inl ((mem_append.mp hc).elim hzero (hdigit c))

end Decimal

namespace Double

def IsFinite : Double → Prop
  | finite _ m e => Canonical m e ∧ e ≤ greatestExponent
  | infinite _ => False

def unsignedText : Double → List Char
  | infinite _ => "inf".toList
  | finite _ m e => if m = 0 then ['0'] else (Decimal.shortest m e).positional

theorem toList_plainText (x : Double) :
    x.plainText.toList = signText x.isNegative ++ x.unsignedText := by
  cases x with
  | infinite negative => simp [plainText, unsignedText, isNegative]
  | finite negative m e =>
    simp only [plainText, unsignedText, isNegative]
    split <;> exact String.toList_ofList

theorem unsignedText_finite (negative : Bool) {m : Nat} {e : Int} (h : Canonical m e) :
    (∃ c ∈ (finite negative m e).unsignedText.head?, c.isDigit) ∧
      (m = 0 ∧ Decimal.numeral (finite negative m e).unsignedText = 0 ∨
        0 < m ∧ Decimal.Rounds m e (Decimal.numeral (finite negative m e).unsignedText)) := by
  simp only [unsignedText]
  split
  · rename_i hm
    refine ⟨⟨'0', rfl, rfl⟩, .inl ⟨hm, ?_⟩⟩
    rw [numeral_of_whole (by simp)]
    rfl
  · rename_i hm
    refine ⟨(positional_chars _).1, .inr ⟨Nat.pos_of_ne_zero hm, ?_⟩⟩
    rw [numeral_positional]
    exact rounds_shortest h (Nat.pos_of_ne_zero hm)

theorem unsignedText_chars (negative : Bool) (m : Nat) (e : Int) :
    ∀ c ∈ (finite negative m e).unsignedText, c.isDigit ∨ c = '.' := by
  simp only [unsignedText]
  split
  · intro c hc
    rw [mem_singleton.mp hc]
    exact .inl rfl
  · exact (positional_chars _).2

end Double

end PropContract
