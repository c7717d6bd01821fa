import PropContract.Json.Printer
import PropContract.Json.Reader
import PropContract.Proofs.Number.Rounding
import PropContract.Proofs.Text.Marks

/-!
Numbers in JSON text. They are read in two rounded steps, the digits first and then the power of
ten; if the digits are few and the power is small, all but the last are exact.
-/

namespace PropContract.Json

open Decimal

theorem isDigit_iff (c : Char) : isDigit c = c.isDigit := by
  rw [Bool.eq_iff_iff]
  simp [isDigit, Char.isDigit, Char.le_def]

theorem digitsToNat_eq (ds : List Char) : digitsToNat ds = Nat.ofDigitChars 10 ds 0 := by
  rw [digitsToNat, Nat.ofDigitChars]
  congr 1
  funext n c
  rw [Nat.mul_comm]

theorem le_ofDigitChars (ds : List Char) (n : Nat) : n ≤ Nat.ofDigitChars 10 ds n := by
  induction ds generalizing n with
  | nil => exact le_refl n
  | cons d ds ih =>
    rw [Nat.ofDigitChars_cons]
    exact le_trans (by omega) (ih _)

theorem takeSignificand_eq {n : Nat} {ds : List Char} (h : Nat.ofDigitChars 10 ds n < 2 ^ 64) :
    takeSignificand n ds = (Nat.ofDigitChars 10 ds n, []) := by
  induction ds generalizing n with
  | nil => rfl
  | cons d ds ih =>
    rw [Nat.ofDigitChars_cons, Nat.mul_comm] at h
    have hnext := lt_of_le_of_lt (le_ofDigitChars ds _) h
    rw [takeSignificand, Nat.pow_eq, if_pos hnext, ih h, Nat.ofDigitChars_cons, Nat.mul_comm]

theorem realNumber?_eq (negative : Bool) {whole fraction : List Char} (exponent : Int)
    (h : Nat.ofDigitChars 10 (whole ++ fraction) 0 < 2 ^ 64) :
    realNumber? negative whole fraction exponent =
      realOfParts? negative (Nat.ofDigitChars 10 (whole ++ fraction) 0)
        (exponent - fraction.length) := by
  rw [Nat.ofDigitChars_append] at h
  have hwhole := takeSignificand_eq (lt_of_le_of_lt (le_ofDigitChars fraction _) h)
  simp only [realNumber?, hwhole, List.isEmpty_nil, if_true, takeSignificand_eq h,
    List.length_nil, Nat.sub_zero, Nat.ofDigitChars_append]
  congr 1
  push_cast
  omega

structure NumberText where
  negative : Bool
  whole : List Char
  fraction : Option (List Char)
  exponent : Option (Bool × List Char)

namespace NumberText

def fractionChars (t : NumberText) : List Char :=
  t.fraction.elim [] ('.' :: ·)

def exponentChars (t : NumberText) : List Char :=
  t.exponent.elim [] fun e => 'e' :: (if e.1 then '-' else '+') :: e.2

def chars (t : NumberText) : List Char :=
  Double.signText t.negative ++ (t.whole ++ (t.fractionChars ++ t.exponentChars))

structure IsReal (t : NumberText) : Prop where
  whole : isWhole t.whole
  digits : ∀ c ∈ t.whole, isDigit c
  fraction : ∀ ds ∈ t.fraction, ds ≠ [] ∧ ∀ c ∈ ds, isDigit c
  exponent : ∀ e ∈ t.exponent, e.2 ≠ [] ∧ ∀ c ∈ e.2, isDigit c
  real : t.fraction.isSome ∨ t.exponent.isSome

def exponentValue (t : NumberText) : Option Int :=
  t.exponent.map fun e => if e.1 then -(digitsToNat e.2 : Int) else digitsToNat e.2

def followers : List Char :=
  [',', '\n']

theorem signed_of_ne {c : Char} (hc : c ≠ '-') (cs : List Char) :
    signed (c :: cs) = (false, c :: cs) := by
  unfold signed
  split
  · rename_i heq
    exact absurd (List.cons.inj heq).1 hc
  · rfl

theorem fractionPart?_of_ne {cs : List Char} (h : cs.head? ≠ some '.') :
    fractionPart? cs = some (none, cs) := by
  unfold fractionPart?
  split
  · exact absurd rfl h
  · rfl

theorem exponentPart?_of_ne {cs : List Char} (h : cs.head? ≠ some 'e') (h' : cs.head? ≠ some 'E') :
    exponentPart? cs = some (none, cs) := by
  unfold exponentPart?
  split
  · exact absurd rfl h
  · exact absurd rfl h'
  · rfl

theorem exponent?_eq {ds r : List Char} (hds : ds ≠ []) (hdigits : ∀ c ∈ ds, isDigit c)
    (hr : ∀ c ∈ r.head?, isDigit c = false) (negative : Bool) :
    exponent? ((if negative then '-' else '+') :: (ds ++ r)) =
      some (if negative then -(digitsToNat ds : Int) else digitsToNat ds, r) := by
  have htake := takeWhile_append_of_all hdigits hr
  have hdrop := dropWhile_append_of_all hdigits hr
  obtain ⟨d, ds, rfl⟩ := List.exists_cons_of_ne_nil hds
  cases negative <;> simp only [exponent?, if_true, Bool.false_eq_true, if_false, htake, hdrop]

variable {t : NumberText} (ht : t.IsReal) {r : List Char} (hr : FollowedBy followers r)

theorem isDigit_followers : ∀ c ∈ followers, isDigit c = false :=
  forall_mem_of_all (by decide)

variable (t) in
include hr in
theorem head_exponentChars : ∀ c ∈ (t.exponentChars ++ r).head?, isDigit c = false ∧ c ≠ '.' := by
  unfold exponentChars
  intro c hc
  cases hexponent : t.exponent with
  | none =>
    rw [hexponent] at hc
    have hmarks : ∀ c ∈ followers, isDigit c = false ∧ c ≠ '.' := forall_mem_of_all (by decide)
    exact hmarks c (hr c hc)
  | some e =>
    rw [hexponent] at hc
    cases hc
    decide

variable (t) in
include hr in
theorem head_fractionChars :
    ∀ c ∈ (t.fractionChars ++ (t.exponentChars ++ r)).head?, isDigit c = false := by
  intro c hc
  unfold fractionChars at hc
  cases hfraction : t.fraction with
  | none =>
    rw [hfraction] at hc
    exact (t.head_exponentChars hr c hc).1
  | some ds =>
    rw [hfraction] at hc
    cases hc
    decide

include ht

theorem exists_whole : ∃ d ds, t.whole = d :: ds ∧ d ≠ '-' := by
  have hne : t.whole ≠ [] := by
    intro hnil
    have hwhole := ht.whole
    rw [hnil] at hwhole
    cases hwhole
  obtain ⟨d, ds, hds⟩ := List.exists_cons_of_ne_nil hne
  refine ⟨d, ds, hds, ?_⟩
  rintro rfl
  exact absurd (ht.digits '-' (hds ▸ List.mem_cons_self)) (by decide)

theorem exists_head : ∃ c cs, t.chars = c :: cs ∧ (isDigit c ∨ c = '-') := by
  obtain ⟨d, ds, hds, -⟩ := exists_whole ht
  rw [chars, hds]
  cases t.negative with
  | true => exact ⟨'-', _, rfl, .inr rfl⟩
  | false => exact ⟨d, _, rfl, .inl (ht.digits d (hds ▸ List.mem_cons_self))⟩

theorem signed_chars (r : List Char) : signed (t.chars ++ r) =
    (t.negative, t.whole ++ (t.fractionChars ++ (t.exponentChars ++ r))) := by
  obtain ⟨d, ds, hds, hd⟩ := exists_whole ht
  simp only [chars, hds, List.append_assoc]
  cases t.negative with
  | true => rfl
  | false => exact signed_of_ne hd _

theorem numberOf?_eq : numberOf? t.negative t.whole t.fraction t.exponentValue =
    realNumber? t.negative t.whole (t.fraction.getD []) (t.exponentValue.getD 0) := by
  have hreal := ht.real
  unfold exponentValue
  cases hfraction : t.fraction <;> cases hexponent : t.exponent
  · rw [hfraction, hexponent] at hreal
    exact absurd hreal (by decide)
  all_goals rfl

include hr

theorem exponentPart?_chars : exponentPart? (t.exponentChars ++ r) = some (t.exponentValue, r) := by
  unfold exponentChars exponentValue
  cases hexponent : t.exponent with
  | none =>
    have hne {c : Char} (hc : c ∉ followers) : r.head? ≠ some c := fun h => hc (hr c h)
    exact exponentPart?_of_ne (hne (by decide)) (hne (by decide))
  | some e =>
    obtain ⟨hne, hdigits⟩ := ht.exponent e hexponent
    have heq := exponent?_eq hne hdigits (fun c hc => isDigit_followers c (hr c hc)) e.1
    simp only [Option.elim_some, Option.map_some, List.cons_append, exponentPart?, heq]

theorem fractionPart?_chars : fractionPart? (t.fractionChars ++ (t.exponentChars ++ r)) =
    some (t.fraction, t.exponentChars ++ r) := by
  have hhead := t.head_exponentChars hr
  unfold fractionChars
  cases hfraction : t.fraction with
  | none => exact fractionPart?_of_ne fun h => (hhead '.' h).2 rfl
  | some ds =>
    obtain ⟨hne, hdigits⟩ := ht.fraction ds hfraction
    have hdigit : ∀ c ∈ (t.exponentChars ++ r).head?, isDigit c = false :=
      fun c hc => (hhead c hc).1
    simp only [Option.elim_some, List.cons_append, fractionPart?,
      takeWhile_append_of_all hdigits hdigit, dropWhile_append_of_all hdigits hdigit,
      List.isEmpty_iff, hne, if_false]

theorem number?_chars : number? (t.chars ++ r) =
    some ((numberOf? t.negative t.whole t.fraction t.exponentValue).getD unreadable, r) := by
  have hhead := t.head_fractionChars hr
  simp only [number?, signed_chars ht, takeWhile_append_of_all ht.digits hhead,
    dropWhile_append_of_all ht.digits hhead, ht.whole, guard, if_true, pure_bind,
    fractionPart?_chars ht hr, Option.bind_eq_bind, Option.bind_some, exponentPart?_chars ht hr]
  rfl

def significand (t : NumberText) : Nat :=
  Nat.ofDigitChars 10 (t.whole ++ t.fraction.getD []) 0

def scale (t : NumberText) : Int :=
  t.exponentValue.getD 0 - (t.fraction.getD []).length

def value (t : NumberText) : ℚ :=
  t.significand * 10 ^ t.scale

end NumberText

end PropContract.Json

namespace PropContract

open Json

theorem head_toDigits_ne_zero {n : Nat} (hn : 0 < n) : (Nat.toDigits 10 n).head? ≠ some '0' := by
  induction n using Nat.strong_induction_on with
  | _ n ih =>
    rw [Nat.toDigits_eq_if (by decide)]
    split
    · rename_i hlt
      have hdigit : ∀ n < 10, 0 < n → [n.digitChar].head? ≠ some '0' := by decide
      exact hdigit n hlt hn
    · rename_i hge
      have hhead := ih (n / 10) (by omega) (by omega)
      obtain ⟨d, ds, hds⟩ := List.exists_cons_of_ne_nil
        (List.ne_nil_of_length_pos (Nat.length_toDigits_pos (b := 10) (n := n / 10)))
      rw [hds] at hhead ⊢
      exact hhead

namespace Decimal

variable (d : Decimal) (negative : Bool)

def power : Int :=
  d.exponent + (d.digits.length : Int) - 1

def positionalText : NumberText :=
  if 0 ≤ d.exponent then
    ⟨negative, d.digits ++ List.replicate d.exponent.toNat '0', some ['0'], none⟩
  else if (-d.exponent).toNat < d.digits.length then
    ⟨negative, d.digits.take (d.digits.length - (-d.exponent).toNat),
      some (d.digits.drop (d.digits.length - (-d.exponent).toNat)), none⟩
  else
    ⟨negative, ['0'],
      some (List.replicate ((-d.exponent).toNat - d.digits.length) '0' ++ d.digits), none⟩

def exponentDigits : List Char :=
  if (Nat.toDigits 10 d.power.natAbs).length < 2 then '0' :: Nat.toDigits 10 d.power.natAbs
  else Nat.toDigits 10 d.power.natAbs

def scientificText : NumberText where
  negative := negative
  whole := d.digits.take 1
  fraction := if d.digits.length ≤ 1 then none else some (d.digits.drop 1)
  exponent := some (decide (d.power < 0), d.exponentDigits)

theorem positionalText_chars : (d.positionalText negative).chars =
    Double.signText negative ++ d.positional ++ (if 0 ≤ d.exponent then ".0".toList else []) := by
  unfold positionalText positional
  split_ifs <;> simp [NumberText.chars, NumberText.fractionChars, NumberText.exponentChars, *]

theorem scientific_eq : d.scientific =
    d.digits.take 1 ++ (if d.digits.length ≤ 1 then [] else '.' :: d.digits.drop 1) ++
      'e' :: (if d.power < 0 then '-' else '+') :: d.exponentDigits :=
  rfl

theorem scientificText_chars : (d.scientificText negative).chars =
    Double.signText negative ++ d.scientific := by
  rw [scientific_eq]
  by_cases hlength : d.digits.length ≤ 1 <;>
    simp [scientificText, hlength, NumberText.chars, NumberText.fractionChars,
      NumberText.exponentChars]

theorem isDigit_digits : ∀ c ∈ d.digits, isDigit c := by
  intro c hc
  rw [isDigit_iff]
  exact isDigit_of_mem_digits hc

theorem digits_ne_nil : d.digits ≠ [] :=
  List.ne_nil_of_length_pos Nat.length_toDigits_pos

theorem isWhole_take_append (hd : 0 < d.coefficient) {k : Nat} (hk : 0 < k) (ds : List Char) :
    isWhole (d.digits.take k ++ ds) := by
  have hhead := head_toDigits_ne_zero hd
  obtain ⟨c, cs, hcs⟩ := List.exists_cons_of_ne_nil d.digits_ne_nil
  obtain ⟨k, rfl⟩ := Nat.exists_eq_succ_of_ne_zero hk.ne'
  rw [show Nat.toDigits 10 d.coefficient = c :: cs from hcs, List.head?_cons, ne_eq,
    Option.some_inj] at hhead
  rw [hcs]
  simp [isWhole, hhead]

theorem positionalText_isReal (hd : 0 < d.coefficient) :
    (d.positionalText negative).IsReal := by
  have hzero (k : Nat) : ∀ c ∈ List.replicate k '0', isDigit c := by
    intro c hc
    rw [List.eq_of_mem_replicate hc]
    rfl
  have happend {ds es : List Char} (hds : ∀ c ∈ ds, isDigit c) (hes : ∀ c ∈ es, isDigit c) :
      ∀ c ∈ ds ++ es, isDigit c := fun c hc => (List.mem_append.mp hc).elim (hds c) (hes c)
  have hnone : ∀ e ∈ (none : Option (Bool × List Char)), e.2 ≠ [] ∧ ∀ c ∈ e.2, isDigit c :=
    fun e he => nomatch he
  unfold positionalText
  split_ifs with hexponent hplaces
  · refine ⟨?_, happend d.isDigit_digits (hzero _), ?_, hnone, .inl rfl⟩
    · have hwhole := d.isWhole_take_append hd (List.length_pos_iff.mpr d.digits_ne_nil)
        (List.replicate d.exponent.toNat '0')
      rwa [List.take_length] at hwhole
    · rintro ds ⟨⟩
      exact ⟨List.cons_ne_nil _ _, hzero 1⟩
  · refine ⟨?_, fun c hc => d.isDigit_digits c (List.mem_of_mem_take hc), ?_, hnone, .inl rfl⟩
    · have hwhole := d.isWhole_take_append hd
        (Nat.sub_pos_of_lt hplaces : 0 < d.digits.length - (-d.exponent).toNat) []
      rwa [List.append_nil] at hwhole
    · rintro ds ⟨⟩
      refine ⟨?_, fun c hc => d.isDigit_digits c (List.mem_of_mem_drop hc)⟩
      rw [ne_eq, List.drop_eq_nil_iff]
      omega
  · refine ⟨rfl, hzero 1, ?_, hnone, .inl rfl⟩
    rintro ds ⟨⟩
    exact ⟨List.append_ne_nil_of_right_ne_nil _ d.digits_ne_nil,
      happend (hzero _) d.isDigit_digits⟩

theorem scientificText_isReal (hd : 0 < d.coefficient) :
    (d.scientificText negative).IsReal := by
  refine ⟨?_, fun c hc => d.isDigit_digits c (List.mem_of_mem_take hc), ?_, ?_, .inr rfl⟩
  · have hwhole := d.isWhole_take_append hd Nat.one_pos []
    rwa [List.append_nil] at hwhole
  · intro ds hds
    unfold scientificText at hds
    split_ifs at hds with hlength
    · cases hds
    · cases hds
      refine ⟨?_, fun c hc => d.isDigit_digits c (List.mem_of_mem_drop hc)⟩
      rw [ne_eq, List.drop_eq_nil_iff]
      omega
  · rintro e ⟨⟩
    have hne : Nat.toDigits 10 d.power.natAbs ≠ [] :=
      List.ne_nil_of_length_pos Nat.length_toDigits_pos
    have hdigits : ∀ c ∈ Nat.toDigits 10 d.power.natAbs, isDigit c := by
      intro c hc
      rw [isDigit_iff]
      exact Nat.isDigit_of_mem_toDigits (by decide) (by decide) hc
    unfold exponentDigits
    split
    · exact ⟨List.cons_ne_nil _ _, List.forall_mem_cons.mpr ⟨rfl, hdigits⟩⟩
    · exact ⟨hne, hdigits⟩

theorem value_of_fraction (whole fraction : List Char) :
    (NumberText.mk negative whole (some fraction) none).value =
      Nat.ofDigitChars 10 (whole ++ fraction) 0 / 10 ^ fraction.length := by
  rw [div_eq_mul_inv, ← zpow_natCast, ← zpow_neg, ← zero_sub]
  rfl

theorem positionalText_value : (d.positionalText negative).value = d.value := by
  have hnumeral := numeral_positional d
  have hpoint : ∀ c ∈ d.digits, c != '.' :=
    fun c hc => ne_point_of_isDigit (isDigit_of_mem_digits hc)
  unfold positionalText
  unfold positional at hnumeral
  dsimp only at hnumeral
  split_ifs at hnumeral ⊢ with hexponent hplaces
  · have hwhole : ∀ c ∈ d.digits ++ List.replicate d.exponent.toNat '0', c != '.' := by
      intro c hc
      rcases List.mem_append.mp hc with hc | hc
      · exact hpoint c hc
      · rw [List.eq_of_mem_replicate hc]
        rfl
    rw [numeral_of_whole hwhole] at hnumeral
    rw [value_of_fraction, Nat.ofDigitChars_append, ← hnumeral]
    simp [Nat.ofDigitChars_cons]
  · rwa [numeral_of_point fun c hc => hpoint c (List.mem_of_mem_take hc),
      ← value_of_fraction negative] at hnumeral
  · rwa [List.cons_append, List.cons_append,
      show ∀ cs : List Char, '0' :: '.' :: cs = ['0'] ++ '.' :: cs from fun _ => rfl,
      numeral_of_point (forall_mem_of_all (by decide)), ← value_of_fraction negative] at hnumeral

theorem scientificText_value : (d.scientificText negative).value = d.value := by
  have hdigits : Nat.ofDigitChars 10 d.digits 0 = d.coefficient := Nat.ofDigitChars_ten_toDigits
  have hpos : 0 < d.digits.length := List.length_pos_iff.mpr d.digits_ne_nil
  have hpower : (digitsToNat d.exponentDigits : Int) = d.power.natAbs := by
    rw [digitsToNat_eq, exponentDigits]
    split
    · rw [Nat.ofDigitChars_cons]
      exact congrArg Nat.cast Nat.ofDigitChars_ten_toDigits
    · exact congrArg Nat.cast Nat.ofDigitChars_ten_toDigits
  have hexponent : (d.scientificText negative).exponentValue = some d.power := by
    simp only [NumberText.exponentValue, scientificText, Option.map_some, hpower,
      decide_eq_true_eq, Int.natCast_natAbs]
    split_ifs with hsign
    · rw [abs_of_neg hsign, neg_neg]
    · rw [abs_of_nonneg (not_lt.mp hsign)]
  have hfraction : (d.scientificText negative).fraction.getD [] = d.digits.drop 1 := by
    unfold scientificText
    split_ifs with hlength
    · exact (List.drop_eq_nil_iff.mpr hlength).symm
    · rfl
  have hscale : (d.scientificText negative).scale = d.exponent := by
    rw [NumberText.scale, hexponent, hfraction, List.length_drop, Option.getD_some, power]
    omega
  rw [NumberText.value, hscale, NumberText.significand, hfraction]
  rw [show (d.scientificText negative).whole = d.digits.take 1 from rfl, List.take_append_drop,
    hdigits, value]

end Decimal

namespace Double

def numberText (negative : Bool) (m : Nat) (e : Int) : NumberText :=
  if m = 0 then ⟨negative, ['0'], some ['0'], none⟩
  else if -5 ≤ (Decimal.shortest m e).power ∧ (Decimal.shortest m e).power < 16 then
    (Decimal.shortest m e).positionalText negative
  else (Decimal.shortest m e).scientificText negative

theorem toList_realText (negative : Bool) (m : Nat) (e : Int) :
    (realText (.finite negative m e)).toList = (numberText negative m e).chars := by
  unfold numberText
  split_ifs with hm hpower
  · simp [realText, NumberText.chars, NumberText.fractionChars, NumberText.exponentChars, hm]
  · unfold Decimal.power at hpower
    rw [Decimal.positionalText_chars, realText, if_neg hm]
    dsimp only
    rw [if_pos hpower, String.toList_ofList]
  · unfold Decimal.power at hpower
    rw [Decimal.scientificText_chars, realText, if_neg hm]
    dsimp only
    rw [if_neg hpower, String.toList_ofList]

variable {e : Int} {m : Nat}

theorem shortest_pos (h : Canonical m e) (hm : 0 < m) : 0 < (Decimal.shortest m e).coefficient := by
  rw [Nat.pos_iff_ne_zero]
  intro hzero
  have hrounds := Decimal.rounds_shortest h hm
  rw [Decimal.value, hzero, Nat.cast_zero, zero_mul] at hrounds
  exact Decimal.not_rounds_zero hm e hrounds

theorem numberText_isReal (negative : Bool) (h : Canonical m e) :
    (numberText negative m e).IsReal := by
  unfold numberText
  split_ifs with hm hpower
  · have hzero : ∀ c ∈ ['0'], isDigit c := forall_mem_of_all (by decide)
    refine ⟨rfl, hzero, ?_, fun e he => (nomatch he), .inl rfl⟩
    rintro ds ⟨⟩
    exact ⟨List.cons_ne_nil _ _, hzero⟩
  · exact Decimal.positionalText_isReal _ negative (shortest_pos h (Nat.pos_of_ne_zero hm))
  · exact Decimal.scientificText_isReal _ negative (shortest_pos h (Nat.pos_of_ne_zero hm))

theorem numberText_rounds (negative : Bool) (h : Canonical m e) (hm : 0 < m) :
    Decimal.Rounds m e (numberText negative m e).value := by
  have hrounds := Decimal.rounds_shortest h hm
  unfold numberText
  rw [if_neg hm.ne']
  split_ifs
  · rwa [Decimal.positionalText_value]
  · rwa [Decimal.scientificText_value]

def reread : Double → Json
  | .finite negative m e =>
    let t := numberText negative m e
    (realNumber? negative t.whole (t.fraction.getD []) (t.exponentValue.getD 0)).getD .unreadable
  | .infinite _ => .null

theorem numberText_negative (negative : Bool) (m : Nat) (e : Int) :
    (numberText negative m e).negative = negative := by
  unfold numberText Decimal.positionalText
  split_ifs <;> rfl

theorem number?_realText (negative : Bool) (h : Canonical m e) {r : List Char}
    (hr : FollowedBy NumberText.followers r) :
    number? ((realText (.finite negative m e)).toList ++ r) =
      some ((finite negative m e).reread, r) := by
  have hreal := numberText_isReal negative h
  have hnumber := NumberText.number?_chars hreal hr
  rw [NumberText.numberOf?_eq hreal, numberText_negative] at hnumber
  rwa [toList_realText]

theorem reread_cases (negative : Bool) (m : Nat) (e : Int) :
    (∃ w, (finite negative m e).reread = .real w) ∨
      (finite negative m e).reread = .unreadable := by
  unfold reread realNumber? realOfParts?
  dsimp only
  generalize scaleTen _ _ _ = x
  cases x with
  | none => exact .inr rfl
  | some x => exact .inl ⟨_, rfl⟩

/-- The digits of the text are a number of at most 53 bits, and the power of ten of the last one is
small. -/
def IsShort : Double → Prop
  | .finite negative m e =>
    (numberText negative m e).significand < 2 ^ 53 ∧ (numberText negative m e).scale.natAbs ≤ 22
  | .infinite _ => False

theorem realOfParts?_of_rounds (negative : Bool) {n : Nat} (hn : 0 < n) (hlt : n < 2 ^ 53) {p : Int}
    (hp : p.natAbs ≤ 22) (h : Canonical m e) (hm : 0 < m) (he : e ≤ greatestExponent)
    (hx : Decimal.Rounds m e (n * 10 ^ p)) :
    realOfParts? negative n p = some (.real (.finite negative m e)) := by
  have hdigits := hasValue_ofNat hn hlt
  have hpower := hasValue_powerOfTen hp
  have hscaled : scaleTen (p.natAbs / 308 + 2) (ofNat n) p = some (.finite false m e) := by
    rw [scaleTen, if_pos (by omega)]
    by_cases hsign : 0 ≤ p
    · have hten : (10 : ℚ) ^ p = 10 ^ p.natAbs := by
        rw [← zpow_natCast, Int.natCast_natAbs, abs_of_nonneg hsign]
      rw [hten] at hx
      rw [if_pos hsign, mul_of_rounds hdigits hpower h hm he hx]
      rfl
    · have hten : (10 : ℚ) ^ p = (10 ^ p.natAbs)⁻¹ := by
        rw [← zpow_natCast, Int.natCast_natAbs, abs_of_neg (not_le.mp hsign), zpow_neg, inv_inv]
      rw [hten, ← div_eq_mul_inv] at hx
      rw [if_neg hsign, div_of_rounds hdigits hpower h hm he (by positivity) hx]
  simp only [realOfParts?, hscaled]
  cases negative <;> rfl

theorem reread_zero (negative : Bool) :
    (finite negative 0 leastExponent).reread = .real (.finite negative 0 leastExponent) := by
  have hscaled : scaleTen 2 (ofNat 0) (-1) = some (zero false) := by decide +kernel
  have hparts : realOfParts? negative 0 (-1) = some (.real (.finite negative 0 leastExponent)) := by
    simp only [realOfParts?, show (-1 : Int).natAbs / 308 + 2 = 2 from rfl, hscaled]
    cases negative <;> rfl
  have hnumber : realNumber? negative ['0'] ['0'] 0 = realOfParts? negative 0 (-1) :=
    realNumber?_eq negative 0 (by decide)
  rw [reread, numberText, if_pos rfl]
  exact congrArg (Option.getD · Json.unreadable) (hnumber.trans hparts)

theorem reread_of_isShort {negative : Bool} (h : Canonical m e) (he : e ≤ greatestExponent)
    (hshort : (finite negative m e).IsShort) :
    (finite negative m e).reread = .real (.finite negative m e) := by
  obtain ⟨hdigits, hscale⟩ := hshort
  rcases Nat.eq_zero_or_pos m with rfl | hm
  · rw [h.full (by norm_num)]
    exact reread_zero negative
  · have hrounds := numberText_rounds negative h hm
    have hpos : 0 < (numberText negative m e).significand := by
      rw [Nat.pos_iff_ne_zero]
      intro hzero
      rw [NumberText.value, hzero, Nat.cast_zero, zero_mul] at hrounds
      exact Decimal.not_rounds_zero hm e hrounds
    have hparts := realOfParts?_of_rounds negative hpos hdigits hscale h hm he hrounds
    have hfits : (numberText negative m e).significand < 2 ^ 64 := lt_trans hdigits (by norm_num)
    rw [reread, realNumber?_eq negative _ hfits, ← NumberText.significand, ← NumberText.scale,
      hparts, Option.getD_some]

end Double

end PropContract
