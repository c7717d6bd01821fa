import Mathlib.Algebra.Order.Field.Power
import PropContract.Proofs.Number.Shortest

/-!
Rounding of ratios. The double that is made of a ratio is the one whose rounding interval holds it.
-/

namespace PropContract.Double

open Decimal

theorem roundDiv_spec (n : Nat) {d : Nat} (hd : 0 < d) :
    2 * (roundDiv n d * d) ≤ 2 * n + d ∧ 2 * n ≤ 2 * (roundDiv n d * d) + d ∧
      (roundDiv n d % 2 = 1 →
        2 * (roundDiv n d * d) < 2 * n + d ∧ 2 * n < 2 * (roundDiv n d * d) + d) := by
  have hdiv : d * (n / d) + n % d = n := Nat.div_add_mod n d
  have hmod : n % d < d := Nat.mod_lt n hd
  rw [Nat.mul_comm] at hdiv
  unfold roundDiv
  dsimp only
  split
  · rename_i hup
    rw [Nat.add_mul, Nat.one_mul]
    simp only [Bool.or_eq_true, decide_eq_true_eq, Bool.and_eq_true, beq_iff_eq] at hup
    refine ⟨by omega, by omega, fun hodd => ?_⟩
    omega
  · rename_i hdown
    simp only [Bool.or_eq_true, decide_eq_true_eq, Bool.and_eq_true, beq_iff_eq, not_or,
      not_and] at hdown
    refine ⟨by omega, by omega, fun hodd => ?_⟩
    have := hdown.2
    omega

/-- The naturals that a ratio rounds to: no other one is nearer, and a tie is even. -/
def Near (m : Nat) (y : ℚ) : Prop :=
  if m % 2 = 0 then m - 1 / 2 ≤ y ∧ y ≤ m + 1 / 2 else m - 1 / 2 < y ∧ y < m + 1 / 2

theorem near_roundDiv (n : Nat) {d : Nat} (hd : 0 < d) : Near (roundDiv n d) (n / d) := by
  have hpos : (0 : ℚ) < d := by exact_mod_cast hd
  obtain ⟨hlow, hhigh, hstrict⟩ := roundDiv_spec n hd
  unfold Near
  split
  · have hlow : (2 * (roundDiv n d * d) : ℚ) ≤ 2 * n + d := by exact_mod_cast hlow
    have hhigh : (2 * n : ℚ) ≤ 2 * (roundDiv n d * d) + d := by exact_mod_cast hhigh
    rw [le_div_iff₀ hpos, div_le_iff₀ hpos]
    constructor <;> linarith
  · rename_i hodd
    obtain ⟨hlow, hhigh⟩ := hstrict (by omega)
    have hlow : (2 * (roundDiv n d * d) : ℚ) < 2 * n + d := by exact_mod_cast hlow
    have hhigh : (2 * n : ℚ) < 2 * (roundDiv n d * d) + d := by exact_mod_cast hhigh
    rw [lt_div_iff₀ hpos, div_lt_iff₀ hpos]
    constructor <;> linarith

theorem Near.bounds {m : Nat} {y : ℚ} (h : Near m y) : (m : ℚ) - 1 / 2 ≤ y ∧ y ≤ m + 1 / 2 := by
  unfold Near at h
  split at h
  · exact h
  · exact ⟨h.1.le, h.2.le⟩

variable {num den : Nat}

theorem log2_ratio_bounds (hnum : 0 < num) (hden : 0 < den) {guess : Int}
    (hguess : guess = (num.log2 : Int) - (den.log2 : Int) - 52) :
    2 ^ 51 * 2 ^ guess ≤ (num / den : ℚ) ∧ (num / den : ℚ) < 2 ^ 53 * 2 ^ guess := by
  have hpos : (0 : ℚ) < den := by exact_mod_cast hden
  have hnumLow : (2 : ℚ) ^ num.log2 ≤ num := by exact_mod_cast Nat.log2_self_le hnum.ne'
  have hnumHigh : (num : ℚ) < 2 ^ (num.log2 + 1) := by exact_mod_cast Nat.lt_log2_self
  have hdenLow : (2 : ℚ) ^ den.log2 ≤ den := by exact_mod_cast Nat.log2_self_le hden.ne'
  have hdenHigh : (den : ℚ) < 2 ^ (den.log2 + 1) := by exact_mod_cast Nat.lt_log2_self
  have hunit : (0 : ℚ) < 2 ^ guess := zpow_pos two_pos _
  have hscale : (2 : ℚ) ^ 52 * 2 ^ guess * 2 ^ den.log2 = 2 ^ num.log2 := by
    rw [← zpow_natCast, ← zpow_natCast, ← zpow_natCast, ← zpow_add₀ two_ne_zero,
      ← zpow_add₀ two_ne_zero]
    congr 1
    push_cast
    omega
  rw [pow_succ] at hnumHigh hdenHigh
  constructor
  · rw [le_div_iff₀ hpos]
    have hden := mul_le_mul_of_nonneg_left hdenHigh.le (mul_pos (pow_pos two_pos 51) hunit).le
    linarith
  · rw [div_lt_iff₀ hpos]
    have hden := mul_le_mul_of_nonneg_left hdenLow (mul_pos (pow_pos two_pos 53) hunit).le
    linarith

theorem exists_exponent (hnum : 0 < num) (hden : 0 < den) :
    ∃ e, exponentFor num den = max leastExponent e ∧
      2 ^ 52 * 2 ^ e ≤ (num / den : ℚ) ∧ (num / den : ℚ) < 2 ^ 53 * 2 ^ e := by
  obtain ⟨guess, hguess⟩ : ∃ guess : Int, guess = (num.log2 : Int) - (den.log2 : Int) - 52 :=
    ⟨_, rfl⟩
  have hunit : (0 : ℚ) < 2 ^ guess := zpow_pos two_pos _
  -- The guess is right, or one too large.
  obtain ⟨hlow, hhigh⟩ := log2_ratio_bounds hnum hden hguess
  obtain ⟨hscaledPos, hscaled⟩ := scaled_ratio num hden guess
  have hscaledPos : (0 : ℚ) < (scaled num den guess).2 := by exact_mod_cast hscaledPos
  have htest : (scaled num den guess).1 < (scaled num den guess).2 * Nat.pow 2 52 ↔
      (num / den : ℚ) < 2 ^ 52 * 2 ^ guess := by
    rw [← div_lt_iff₀ hunit, ← hscaled, div_lt_iff₀ hscaledPos, mul_comm, Nat.pow_eq]
    exact_mod_cast Iff.rfl
  have hfor : exponentFor num den = max leastExponent
      (if (scaled num den guess).1 < (scaled num den guess).2 * Nat.pow 2 52 then guess - 1
        else guess) := by
    rw [hguess]
    rfl
  by_cases hless : (num / den : ℚ) < 2 ^ 52 * 2 ^ guess
  · rw [if_pos (htest.mpr hless)] at hfor
    refine ⟨guess - 1, hfor, ?_, ?_⟩ <;> rw [zpow_sub_one₀ two_ne_zero] <;> linarith
  · rw [if_neg (mt htest.mp hless)] at hfor
    exact ⟨guess, hfor, not_lt.mp hless, hhigh⟩

theorem half_unit (e : Int) : (2 : ℚ) ^ (e - 2) = 2 ^ e / 4 := by
  rw [zpow_sub₀ two_ne_zero]
  norm_num

/-- A ratio rounds to the mantissa that it is near, in units of the exponent. Below the least
mantissa of 53 bits the units are finer, so the ratio has to be above it. -/
theorem rounds_of_near {m : Nat} {e : Int} {x : ℚ} (hx : 0 ≤ x) (h : Near m (x / 2 ^ e))
    (hlow : m = 2 ^ 52 → leastExponent < e → 2 ^ 52 * 2 ^ e ≤ x) : Rounds m e x := by
  have hunit : (0 : ℚ) < 2 ^ e := zpow_pos two_pos _
  have hupper : upper m e = (m + 1 / 2) * 2 ^ e := by
    rw [upper_eq, half_unit]
    ring
  rcases Nat.eq_zero_or_pos m with rfl | hm
  · have hzero : lower 0 e = 0 := by simp [lower, roundingInterval]
    have hbounds := h.bounds
    rw [Rounds, if_pos rfl, hzero, hupper, ← div_le_iff₀ hunit]
    exact ⟨hx, hbounds.2⟩
  by_cases hfirst : m = 2 ^ 52 ∧ leastExponent < e
  · obtain ⟨rfl, he⟩ := hfirst
    have habove := hlow rfl he
    have hbounds := h.bounds
    rw [Rounds, if_pos (by decide), lower_eq hm, if_pos ⟨rfl, he⟩, half_unit, hupper,
      ← div_le_iff₀ hunit]
    refine ⟨?_, hbounds.2⟩
    push_cast
    linarith
  · have hlower : lower m e = (m - 1 / 2) * 2 ^ e := by
      rw [lower_eq hm, if_neg hfirst, half_unit]
      ring
    rw [Rounds, hlower, hupper]
    simpa only [Near, le_div_iff₀ hunit, div_le_iff₀ hunit, lt_div_iff₀ hunit,
      div_lt_iff₀ hunit] using h

def carry (m : Nat) (e : Int) : Nat × Int :=
  if m = Nat.pow 2 53 then (Nat.pow 2 52, e + 1) else (m, e)

variable (negative : Bool)

theorem ofRatio_eq (hnum : 0 < num) {m : Nat} {e : Int} (he : exponentFor num den = e)
    (hm : roundDiv (scaled num den e).1 (scaled num den e).2 = m) : ofRatio negative num den =
      if greatestExponent < (carry m e).2 then .infinite negative
      else .finite negative (carry m e).1 (carry m e).2 := by
  rw [ofRatio, if_neg hnum.ne', he]
  -- The pairs are taken apart by cases: evaluation would compare with a power of two in unary.
  extract_lets
  split
  rename_i n d hs
  rw [hs] at hm
  extract_lets m'
  split
  rename_i r e' hr
  have hcarry : carry m e = (r, e') := by
    rw [← hm]
    exact hr
  rw [hcarry]

theorem carry_spec {m : Nat} {e : Int} {x : ℚ} (hx : 0 ≤ x) (hleast : leastExponent ≤ e)
    (hnear : Near m (x / 2 ^ e)) (hbelow : x < 2 ^ 53 * 2 ^ e)
    (habove : leastExponent < e → 2 ^ 52 * 2 ^ e ≤ x) :
    Canonical (carry m e).1 (carry m e).2 ∧ Rounds (carry m e).1 (carry m e).2 x := by
  have hunit : (0 : ℚ) < 2 ^ e := zpow_pos two_pos _
  obtain ⟨hlow, hhigh⟩ := hnear.bounds
  rw [le_div_iff₀ hunit] at hlow
  rw [div_le_iff₀ hunit] at hhigh
  have hle : m ≤ 2 ^ 53 := by
    by_contra hgt
    have hgt : (2 : ℚ) ^ 53 + 1 ≤ m := by exact_mod_cast not_le.mp hgt
    have := mul_le_mul_of_nonneg_right hgt hunit.le
    linarith
  have hfull : leastExponent < e → 2 ^ 52 ≤ m := by
    intro he
    by_contra hlt
    have hlt : (m : ℚ) + 1 ≤ 2 ^ 52 := by exact_mod_cast not_le.mp hlt
    have := mul_le_mul_of_nonneg_right hlt hunit.le
    have := habove he
    linarith
  unfold carry
  split
  · rename_i hcarry
    rw [hcarry, Nat.pow_eq] at hlow
    push_cast at hlow
    have hfirst : 2 ^ 52 = 2 ^ 52 ∧ leastExponent < e + 1 := ⟨rfl, by omega⟩
    have hdouble : (2 : ℚ) ^ (e + 1) = 2 ^ e * 2 := zpow_add_one₀ two_ne_zero e
    refine ⟨⟨by norm_num, by omega, fun h => absurd h (by norm_num)⟩, ?_⟩
    rw [Nat.pow_eq, Rounds, if_pos (by norm_num), lower_eq (by norm_num), if_pos hfirst, upper_eq,
      half_unit, hdouble]
    push_cast
    constructor <;> linarith
  · rename_i hne
    rw [Nat.pow_eq] at hne
    refine ⟨⟨by omega, hleast, fun h => ?_⟩, rounds_of_near hx hnear fun _ => habove⟩
    by_contra he
    have := hfull (lt_of_le_of_ne hleast (Ne.symm he))
    omega

theorem ofRatio_spec (hnum : 0 < num) (hden : 0 < den) :
    ∃ m e, Canonical m e ∧ Rounds m e (num / den) ∧ ofRatio negative num den =
      if greatestExponent < e then .infinite negative else .finite negative m e := by
  obtain ⟨e₀, hfor, hlow, hhigh⟩ := exists_exponent hnum hden
  obtain ⟨hpos, hratio⟩ := scaled_ratio num hden (max leastExponent e₀)
  have hnear := near_roundDiv (scaled num den (max leastExponent e₀)).1 hpos
  rw [hratio] at hnear
  have hx : (0 : ℚ) ≤ num / den := by positivity
  have hmono : (2 : ℚ) ^ e₀ ≤ 2 ^ max leastExponent e₀ :=
    zpow_le_zpow_right₀ one_le_two (le_max_right _ _)
  obtain ⟨hcanonical, hrounds⟩ := carry_spec hx (le_max_left _ _) hnear (by linarith) fun he => by
    rwa [max_eq_right (by omega : leastExponent ≤ e₀)]
  exact ⟨_, _, hcanonical, hrounds, ofRatio_eq negative hnum hfor rfl⟩

theorem ofRatio_of_rounds {m : Nat} {e : Int} (h : Canonical m e) (hm : 0 < m)
    (he : e ≤ greatestExponent) (hden : 0 < den) (hx : Rounds m e (num / den)) :
    ofRatio negative num den = .finite negative m e := by
  have hnum : 0 < num := by
    rw [Nat.pos_iff_ne_zero]
    rintro rfl
    rw [Nat.cast_zero, zero_div] at hx
    exact not_rounds_zero hm e hx
  obtain ⟨m', e', h', hx', heq⟩ := ofRatio_spec negative hnum hden
  rcases Nat.eq_zero_or_pos m' with rfl | hm'
  · have hleast : e' = leastExponent := h'.full (by norm_num)
    have hlt : e' < e ∨ e' = e ∧ 0 < m := by
      have := h.least
      omega
    exact (not_rounds_both h' h hm hlt hx' hx).elim
  · obtain ⟨rfl, rfl⟩ := rounds_unique h h' hm hm' hx hx'
    rw [heq, if_neg (by omega)]

def HasValue (v : Double) (x : ℚ) : Prop :=
  ∃ m e, v = .finite false m e ∧ magnitude m e = x

theorem rounds_magnitude {m : Nat} (hm : 0 < m) (e : Int) : Rounds m e (magnitude m e) := by
  have hlow := lower_lt hm e
  have hhigh := lt_upper m e
  unfold Rounds
  split
  · exact ⟨hlow.le, hhigh.le⟩
  · exact ⟨hlow, hhigh⟩

theorem exists_canonical {a : Nat} (ha : 0 < a) (hlt : a < 2 ^ 53) (b : Nat) :
    ∃ m e, Canonical m e ∧ 0 < m ∧ magnitude m e = a * 2 ^ b ∧ e ≤ b := by
  have hlog : a.log2 ≤ 52 := Nat.lt_succ_iff.mp ((Nat.log2_lt ha.ne').mpr hlt)
  obtain ⟨j, hj⟩ := Nat.exists_eq_add_of_le hlog
  have hlow : 2 ^ a.log2 ≤ a := Nat.log2_self_le ha.ne'
  have hhigh : a < 2 ^ (a.log2 + 1) := Nat.lt_log2_self
  have hpos : 0 < 2 ^ j := Nat.two_pow_pos j
  have hmlow : 2 ^ 52 ≤ a * 2 ^ j := by
    rw [hj, pow_add]
    exact Nat.mul_le_mul_right _ hlow
  have hmhigh : a * 2 ^ j < 2 ^ 53 := by
    rw [show 53 = a.log2 + 1 + j by omega, pow_add]
    exact Nat.mul_lt_mul_of_pos_right hhigh hpos
  refine ⟨a * 2 ^ j, b - j, ⟨hmhigh, ?_, fun h => absurd hmlow (by omega)⟩,
    Nat.mul_pos ha hpos, ?_, by omega⟩
  · rw [leastExponent]
    omega
  · rw [magnitude, zpow_sub₀ two_ne_zero, zpow_natCast, zpow_natCast]
    push_cast
    field_simp

theorem hasValue_ofRatio {a b : Nat} (ha : 0 < a) (hlt : a < 2 ^ 53) (hb : b ≤ 900)
    (hden : 0 < den) (hx : (num / den : ℚ) = a * 2 ^ b) :
    HasValue (ofRatio false num den) (a * 2 ^ b) := by
  obtain ⟨m, e, hcanonical, hm, hvalue, he⟩ := exists_canonical ha hlt b
  have hgreatest : e ≤ greatestExponent := by
    rw [greatestExponent]
    omega
  have hrounds : Rounds m e (num / den) := by
    rw [hx, ← hvalue]
    exact rounds_magnitude hm e
  exact ⟨m, e, ofRatio_of_rounds false hcanonical hm hgreatest hden hrounds, hvalue⟩

theorem hasValue_ofNat {n : Nat} (hn : 0 < n) (hlt : n < 2 ^ 53) : HasValue (ofNat n) n := by
  have hx : (n / (1 : Nat) : ℚ) = n * 2 ^ 0 := by simp
  have h := hasValue_ofRatio hn hlt (Nat.zero_le 900) Nat.one_pos hx
  rwa [pow_zero, mul_one] at h

theorem hasValue_powerOfTen {k : Nat} (hk : k ≤ 22) :
    HasValue (ofDecimal false 1 k) (10 ^ k) := by
  have hfive : 5 ^ k < 2 ^ 53 :=
    lt_of_le_of_lt (Nat.pow_le_pow_right (by decide) hk) (by decide)
  have hten : (10 : ℚ) ^ k = (5 ^ k : Nat) * 2 ^ k := by
    push_cast
    rw [← mul_pow]
    norm_num
  have heq : ofDecimal false 1 k = ofRatio false (10 ^ k) 1 := by
    have hsmall : ¬ ((1 : Nat) = 0 || (k : Int) < -(((1 : Nat).log2 : Int) + 401)) := by
      simp only [Bool.or_eq_true, decide_eq_true_eq, not_or]
      omega
    rw [ofDecimal, if_neg hsmall, if_neg (by omega), if_pos (by omega), Int.toNat_natCast,
      Nat.pow_eq, Nat.one_mul]
  rw [heq, hten]
  refine hasValue_ofRatio (Nat.pow_pos (by decide)) hfive (by omega) Nat.one_pos ?_
  rw [← hten]
  simp

variable {v w : Double} {x y : ℚ} {m : Nat} {e : Int}

theorem HasValue.ratio? (h : HasValue v x) :
    ∃ n d, v.ratio? = some (n, d) ∧ v.isNegative = false ∧ 0 < d ∧ (n / d : ℚ) = x := by
  obtain ⟨m, e, rfl, rfl⟩ := h
  by_cases he : 0 ≤ e
  · refine ⟨m * 2 ^ e.toNat, 1, ?_, rfl, Nat.one_pos, ?_⟩
    · rw [Double.ratio?, if_pos he, Nat.pow_eq]
    · rw [magnitude, zpow_of_nonneg he]
      simp
  · refine ⟨m, 2 ^ (-e).toNat, ?_, rfl, Nat.pow_pos two_pos, ?_⟩
    · rw [Double.ratio?, if_neg he, Nat.pow_eq]
    · rw [magnitude, zpow_of_neg he]
      simp [div_eq_mul_inv]

section

variable (hv : HasValue v x) (hw : HasValue w y) (h : Canonical m e) (hm : 0 < m)
  (he : e ≤ greatestExponent)

include hv hw h hm he

theorem mul_of_rounds (hxy : Rounds m e (x * y)) : v.mul w = .finite false m e := by
  obtain ⟨n, d, hratio, hsign, hd, rfl⟩ := hv.ratio?
  obtain ⟨n', d', hratio', hsign', hd', rfl⟩ := hw.ratio?
  rw [mul, hratio, hratio', hsign, hsign']
  refine ofRatio_of_rounds false h hm he (Nat.mul_pos hd hd') ?_
  rw [div_mul_div_comm] at hxy
  exact_mod_cast hxy

theorem div_of_rounds (hy : 0 < y) (hxy : Rounds m e (x / y)) : v.div w = .finite false m e := by
  obtain ⟨n, d, hratio, hsign, hd, rfl⟩ := hv.ratio?
  obtain ⟨n', d', hratio', hsign', hd', rfl⟩ := hw.ratio?
  have hn' : 0 < n' := by
    rw [Nat.pos_iff_ne_zero]
    rintro rfl
    simp at hy
  rw [div, hratio, hratio', hsign, hsign']
  refine ofRatio_of_rounds false h hm he (Nat.mul_pos hd hn') ?_
  rw [div_div_div_eq] at hxy
  exact_mod_cast hxy

end

end PropContract.Double
