import PropContract.Proofs.Json.Number
import PropContract.Syntax.Token

namespace PropContract.Syntax

variable {c : Char} {m : Nat}

theorem Cursor.skip_append (u r : List Char) (n : Nat) :
    ∃ m, Cursor.skip u.length ⟨u ++ r, n⟩ = ⟨r, m⟩ := by
  induction u generalizing n with
  | nil => exact ⟨n, rfl⟩
  | cons c u ih => exact ih (n + c.utf8Size)

theorem Cursor.span_append {p : Char → Bool} {u r : List Char} (hu : ∀ c ∈ u, p c)
    (hr : ∀ c ∈ r.head?, p c = false) (n : Nat) :
    ∃ m, Cursor.span p ⟨u ++ r, n⟩ = (u, ⟨r, m⟩) := by
  obtain ⟨m, hm⟩ := Cursor.skip_append u r n
  refine ⟨m, ?_⟩
  simp only [Cursor.span, takeWhile_append_of_all hu hr, hm]

namespace Lexer

theorem ne_backslash_of_isNamePart (hc : Text.isNamePart c) : c ≠ '\\' := by
  rintro rfl
  revert hc
  decide +kernel

theorem isNamePart_of_isNameStart (hc : Text.isNameStart c) : Text.isNamePart c := by
  by_cases hascii : c.toNat < 0x80
  · rw [Text.isNameStart, if_pos hascii] at hc
    rw [Text.isNamePart, if_pos hascii, Char.isAlphanum]
    revert hc
    simp only [Bool.or_eq_true]
    tauto
  · simp [Text.isNamePart, hascii, hc]

theorem isNamePart_of_mem {cs : List Char} (h : isName cs) (hc : c ∈ cs) :
    Text.isNamePart c := by
  cases cs with
  | nil => cases hc
  | cons d cs =>
    rw [isName, Bool.and_eq_true, List.all_eq_true] at h
    rcases List.mem_cons.mp hc with rfl | hc
    · exact isNamePart_of_isNameStart h.1
    · exact h.2 c hc

theorem nameBody_append {u r : List Char} (hu : ∀ c ∈ u, Text.isNamePart c)
    (hr : ∀ c ∈ r.head?, Text.isNamePart c = false ∧ c ≠ '\\') (fuel : Nat)
    (hfuel : u.length < fuel) (done : List Char) (n : Nat) :
    ∃ m, nameBody Text.isNamePart fuel false done ⟨u ++ r, n⟩ =
      some (u.reverse ++ done, false, ⟨r, m⟩) := by
  induction u generalizing fuel done n with
  | nil =>
    obtain ⟨fuel, rfl⟩ := Nat.exists_eq_succ_of_ne_zero (Nat.ne_zero_of_lt hfuel)
    refine ⟨n, ?_⟩
    cases r with
    | nil => rfl
    | cons c r =>
      obtain ⟨hc, hne⟩ := hr c rfl
      simp [nameBody, hc, hne]
  | cons c u ih =>
    obtain ⟨fuel, rfl⟩ := Nat.exists_eq_succ_of_ne_zero (Nat.ne_zero_of_lt hfuel)
    obtain ⟨hc, hu⟩ := List.forall_mem_cons.mp hu
    rw [List.length_cons] at hfuel
    obtain ⟨m, hm⟩ := ih hu fuel (by omega) (c :: done) (n + c.utf8Size)
    refine ⟨m, ?_⟩
    simp [nameBody, hc, ne_backslash_of_isNamePart hc, Cursor.next, hm]

theorem scan_name {cs r : List Char} (h : isName cs)
    (hr : ∀ c ∈ r.head?, Text.isNamePart c = false ∧ c ≠ '\\') (isFirst : Bool) (n : Nat) :
    ∃ m, scan isFirst ⟨cs ++ r, n⟩ = (.name (String.ofList cs) (String.ofList cs), ⟨r, m⟩) := by
  cases cs with
  | nil => cases h
  | cons c cs =>
    have hc := (Bool.and_eq_true_iff.mp h).1
    have hall : ∀ d ∈ c :: cs, Text.isNamePart d := fun d hd => isNamePart_of_mem h hd
    obtain ⟨m, hm⟩ := nameBody_append hall hr ((c :: cs ++ r).length + 1)
      (by rw [List.length_append]; omega) [] n
    refine ⟨m, ?_⟩
    rw [List.append_nil] at hm
    have hscan : scan isFirst ⟨c :: (cs ++ r), n⟩ = name isFirst ⟨c :: (cs ++ r), n⟩ := by
      simp only [scan, hc, Bool.true_or, if_true]
    rw [List.cons_append] at hm ⊢
    rw [hscan, name, hm]
    simp

theorem digitValue?_of_isDigit (hc : c.isDigit) :
    digitValue? c = some (c.toNat - '0'.toNat) := by
  rw [Char.isDigit_iff_toNat] at hc
  rw [digitValue?, if_pos]
  simpa [Char.le_def, UInt32.le_iff_toNat_le] using hc

theorem isRadixDigit_ten (c : Char) : isRadixDigit 10 c = c.isDigit := by
  by_cases hc : c.isDigit
  · rw [isRadixDigit, digitValue?_of_isDigit hc, hc]
    rw [Char.isDigit_iff_toNat] at hc
    simp only [decide_eq_true_eq, Char.reduceToNat] at hc ⊢
    omega
  · have hnot : ¬ ('0' ≤ c ∧ c ≤ '9') := by
      rw [Char.isDigit_iff_toNat] at hc
      simpa [Char.le_def, UInt32.le_iff_toNat_le] using hc
    rw [Bool.not_eq_true] at hc
    rw [isRadixDigit, digitValue?, if_neg hnot, hc]
    split_ifs <;> simp

theorem ne_of_isDigit {d : Char} (hc : c.isDigit) (hd : d.isDigit = false) : c ≠ d := by
  rintro rfl
  exact absurd hc (by simp [hd])

theorem isNameStart_of_isDigit (hc : c.isDigit) : Text.isNameStart c = false := by
  have hdigits : ∀ n ≤ '9'.toNat, '0'.toNat ≤ n → Text.isNameStart (Char.ofNat n) = false := by
    decide
  rw [Char.isDigit_iff_toNat] at hc
  rw [← Char.ofNat_toNat c]
  exact hdigits c.toNat hc.2 hc.1

theorem digitsValue_eq {ds : List Char} (h : ∀ c ∈ ds, c.isDigit) :
    digitsValue 10 ds = Nat.ofDigitChars 10 ds 0 := by
  rw [digitsValue, Nat.ofDigitChars]
  generalize 0 = n
  induction ds generalizing n with
  | nil => rfl
  | cons c ds ih =>
    obtain ⟨hc, hds⟩ := List.forall_mem_cons.mp h
    rw [List.foldl_cons, List.foldl_cons, digitValue?_of_isDigit hc, Nat.mul_comm]
    exact ih hds _

theorem separatesDigits_of_isDigit {ds : List Char} (h : ∀ c ∈ ds, c.isDigit) :
    separatesDigits ds := by
  have hnot : ¬ '_'.isDigit := by decide
  fun_induction separatesDigits ds with
  | case1 | case3 => rfl
  | case2 | case4 | case5 | case6 => exact absurd (h '_' (by simp)) hnot
  | case7 _ c ds _ _ _ _ ih => exact ih fun d hd => h d (List.mem_cons_of_mem _ hd)

theorem number_of_decimalNumber {rest r : List Char} {n : Nat} {kind : TokenKind}
    (hradix : c = '0' → ∀ d ∈ rest.head?, d ∉ ['x', 'X', 'o', 'O', 'b', 'B'])
    (h : decimalNumber ⟨c :: rest, n⟩ = (kind, ⟨r, m⟩))
    (hr : ∀ d ∈ r.head?, Text.isNameStart d = false) :
    number ⟨c :: rest, n⟩ = (kind, ⟨r, m⟩) := by
  unfold number
  by_cases hc : c = '0'
  · subst hc
    rcases rest with _ | ⟨d, rest⟩ <;> rcases r with _ | ⟨e, r⟩
    · simp [h]
    · simp [h, hr e rfl]
    all_goals
      have hd := hradix rfl d rfl
      simp only [List.mem_cons, List.not_mem_nil, or_false, not_or] at hd
    · simp [h, hd]
    · simp [h, hd, hr e rfl]
  · rcases r with _ | ⟨e, r⟩
    · simp [h, hc]
    · simp [h, hc, hr e rfl]

def pointed (fraction : List Char) : List Char :=
  if fraction = [] then [] else '.' :: fraction

section

variable {whole fraction r : List Char} (hwhole : ∀ c ∈ whole, c.isDigit)
  (hfraction : ∀ c ∈ fraction, c.isDigit) (hidle : hasIdleZero whole = false)
  (hr : FollowedBy [',', ']'] r)

include hwhole hfraction hidle hr

theorem decimalNumber_eq (n : Nat) :
    ∃ m, decimalNumber ⟨whole ++ (pointed fraction ++ r), n⟩ =
      (.number (.ofDecimal false (Nat.ofDigitChars 10 (whole ++ fraction) 0) (-fraction.length)),
        ⟨r, m⟩) := by
  have hpart : ∀ {ds : List Char}, (∀ c ∈ ds, c.isDigit) → ∀ c ∈ ds, isDecimalPart c := by
    intro ds h c hc
    rw [isDecimalPart, isRadixDigit_ten, h c hc, Bool.true_or]
  have hmarks : ∀ c ∈ [',', ']'], isDecimalPart c = false ∧ c ≠ '.' ∧ c ≠ 'n' ∧ c ≠ 'e' ∧ c ≠ 'E' :=
    forall_mem_of_all (by decide)
  have hend : ∀ c ∈ r.head?, isDecimalPart c = false := fun c hc => (hmarks c (hr c hc)).1
  have hcount : countDigits fraction = fraction.length := by
    rw [countDigits, List.filter_eq_self.mpr]
    intro c hc
    simpa using ne_of_isDigit (hfraction c hc) (by decide : '_'.isDigit = false)
  have hexponent (m : Nat) : exponentPart ⟨r, m⟩ = (0, ⟨r, m⟩) := by
    cases r with
    | nil => rfl
    | cons c r =>
      have := hmarks c (hr c rfl)
      simp [exponentPart, this]
  have hvalue : digitsValue 10 (whole ++ fraction) = _ :=
    digitsValue_eq (List.forall_mem_append.mpr ⟨hwhole, hfraction⟩)
  have hhead : r.head? ≠ some 'n' ∧ r.head? ≠ some '.' :=
    ⟨fun h => (hmarks _ (hr _ h)).2.2.1 rfl, fun h => (hmarks _ (hr _ h)).2.1 rfl⟩
  obtain ⟨point, k, hspan, hn, hrest⟩ : ∃ point k,
      Cursor.span isDecimalPart ⟨whole ++ (pointed fraction ++ r), n⟩ = (whole, point) ∧
      point.rest.head? ≠ some 'n' ∧
      (if point.rest.head? = some '.' then point.next.span isDecimalPart else ([], point)) =
        (fraction, ⟨r, k⟩) := by
    unfold pointed
    split
    · rename_i hnil
      obtain ⟨k, hk⟩ := Cursor.span_append (hpart hwhole) hend n
      exact ⟨_, k, hk, hhead.1, by rw [if_neg hhead.2, hnil]⟩
    · obtain ⟨m, hm⟩ := Cursor.span_append (hpart hwhole)
        (r := '.' :: (fraction ++ r)) (by simp; decide) n
      obtain ⟨k, hk⟩ := Cursor.span_append (hpart hfraction) hend (m + '.'.utf8Size)
      exact ⟨_, k, hm, by simp, hk⟩
  refine ⟨k, ?_⟩
  simp only [decimalNumber, hspan, hn, hrest, hexponent, hvalue, hcount, hidle, checkDigits,
    separatesDigits_of_isDigit hwhole, separatesDigits_of_isDigit hfraction, decide_false,
    Bool.false_and, Bool.false_eq_true, if_false, if_true, zero_sub]

theorem scan_number (hne : whole ≠ []) (isFirst : Bool) (n : Nat) :
    ∃ m, scan isFirst ⟨whole ++ (pointed fraction ++ r), n⟩ =
      (.number (.ofDecimal false (Nat.ofDigitChars 10 (whole ++ fraction) 0) (-fraction.length)),
        ⟨r, m⟩) := by
  obtain ⟨m, hm⟩ := decimalNumber_eq hwhole hfraction hidle hr n
  obtain ⟨c, cs, rfl⟩ := List.exists_cons_of_ne_nil hne
  have hradix : c = '0' → ∀ d ∈ (cs ++ (pointed fraction ++ r)).head?,
      d ∉ ['x', 'X', 'o', 'O', 'b', 'B'] := by
    rintro rfl d hd
    obtain rfl : cs = [] := by simpa [hasIdleZero] using hidle
    have hmarks : ∀ d ∈ ['.', ',', ']'], d ∉ ['x', 'X', 'o', 'O', 'b', 'B'] :=
      forall_mem_of_all (by decide)
    apply hmarks
    unfold pointed at hd
    split at hd
    · exact List.mem_cons_of_mem _ (hr d hd)
    · cases hd
      exact List.mem_cons_self
  have hend : ∀ d ∈ r.head?, Text.isNameStart d = false := by
    have hmarks : ∀ d ∈ [',', ']'], Text.isNameStart d = false := forall_mem_of_all (by decide)
    exact fun d hd => hmarks d (hr d hd)
  have hc := hwhole c List.mem_cons_self
  refine ⟨m, ?_⟩
  rw [List.cons_append] at hm ⊢
  rw [scan, ← number_of_decimalNumber hradix hm hend]
  simp only [isNameStart_of_isDigit hc, ne_of_isDigit hc (by decide : '\\'.isDigit = false),
    isRadixDigit_ten, hc, decide_false, Bool.or_self, Bool.false_eq_true, if_false, if_true]

end

section

variable (hc : 0x80 ≤ c.toNat) (cs : List Char) (n : Nat)

include hc

theorem ne_of_ascii {d : Char} (hd : d.toNat < 0x80) : c ≠ d := by
  rintro rfl
  omega

theorem markIn?_longMarks_eq_none : markIn? longMarks ⟨c :: cs, n⟩ = none := by
  have hascii : ∀ m ∈ longMarks, m.toList.head?.any (·.toNat < 0x80) :=
    forall_mem_of_all (by decide)
  have hnone : longMarks.find? (fun m => m.toList.isPrefixOf (c :: cs)) = none := by
    rw [List.find?_eq_none]
    intro m hm
    obtain ⟨d, hd, hlt⟩ := (Option.any_eq_true _ _).mp (hascii m hm)
    obtain ⟨ds, hds⟩ := List.head?_eq_some_iff.mp hd
    simp [hds, List.isPrefixOf, (ne_of_ascii hc (of_decide_eq_true hlt)).symm]
  rw [markIn?, hnone]
  rfl

theorem mark_eq_bad : mark ⟨c :: cs, n⟩ = (.bad n, ⟨c :: cs, n⟩) := by
  have hsingle : c ∉ singleMarks := by
    have hascii : ∀ d ∈ singleMarks, d.toNat < 0x80 := forall_mem_of_all (by decide)
    exact fun hmem => ne_of_ascii hc (hascii c hmem) rfl
  have hquestion : c ≠ '?' := ne_of_ascii hc (by decide)
  unfold mark
  split
  · rename_i heq
    exact absurd (List.cons.inj heq).1 hquestion
  · rename_i heq
    exact absurd (List.cons.inj heq).1 hquestion
  · rename_i heq
    cases heq
    simp [markIn?_longMarks_eq_none hc, hsingle]
  · rename_i heq
    cases heq

/-- A character beyond ASCII that no name starts with starts no token. -/
theorem scan_eq_bad (hstart : Text.isNameStart c = false) (isFirst : Bool) :
    scan isFirst ⟨c :: cs, n⟩ = (.bad n, ⟨c :: cs, n⟩) := by
  have hdigit : isRadixDigit 10 c = false := by
    rw [isRadixDigit_ten, Bool.eq_false_iff]
    intro hdigit
    simp only [Char.isDigit_iff_toNat, Char.reduceToNat] at hdigit
    omega
  have hmarks : ∀ d ∈ ['\\', '.', '"', '\'', '`', '#'], c ≠ d := by
    have hascii : ∀ d ∈ ['\\', '.', '"', '\'', '`', '#'], d.toNat < 0x80 :=
      forall_mem_of_all (by decide)
    exact fun d hd => ne_of_ascii hc (hascii d hd)
  simp_all [scan, mark_eq_bad hc]

end

end Lexer

end PropContract.Syntax

namespace PropContract

open Syntax.Lexer

theorem Decimal.exists_parts (d : Decimal) (hd : 0 < d.coefficient) :
    ∃ whole fraction, d.positional = whole ++ pointed fraction ∧ Json.isWhole whole ∧
      (∀ c ∈ whole, c.isDigit) ∧ (∀ c ∈ fraction, c.isDigit) ∧
      (Nat.ofDigitChars 10 (whole ++ fraction) 0 : ℚ) / 10 ^ fraction.length = d.value := by
  obtain ⟨hwhole, hdigits, hfraction, -, -⟩ := d.positionalText_isReal false hd
  have hvalue := d.numeral_positional
  simp only [Json.isDigit_iff] at hdigits hfraction
  unfold positional at hvalue ⊢
  dsimp only at hvalue ⊢
  unfold positionalText at hwhole hdigits hfraction
  split_ifs at hvalue hwhole hdigits hfraction ⊢ with hexponent hplaces
  · refine ⟨_, [], (List.append_nil _).symm, hwhole, hdigits, List.forall_mem_nil _, ?_⟩
    rw [numeral_of_whole fun c hc => ne_point_of_isDigit (hdigits c hc)] at hvalue
    simpa using hvalue
  all_goals
    obtain ⟨hne, hall⟩ := hfraction _ rfl
    refine ⟨_, _, ?_, hwhole, hdigits, hall, ?_⟩
    · simp [pointed, hne]
    rw [← hvalue]
    exact (numeral_of_point (fun c hc => ne_point_of_isDigit (hdigits c hc)) _).symm

theorem Decimal.Rounds.least_le {e : Int} {x : ℚ} (hx : Rounds m e x)
    (h : Double.Canonical m e) (hm : 0 < m) : (2 : ℚ) ^ (Double.leastExponent - 2) ≤ x := by
  have hlower : lower m e ≤ x := by
    unfold Rounds at hx
    split at hx
    · exact hx.1
    · exact hx.1.le
  have hpow : (2 : ℚ) ^ (Double.leastExponent - 2) ≤ 2 ^ (e - 2) :=
    zpow_le_zpow_right₀ one_le_two (by have := h.least; omega)
  have hone : 1 ≤ (roundingInterval m e).1 := by
    simp only [roundingInterval]
    split <;> omega
  calc (2 : ℚ) ^ (Double.leastExponent - 2) = 1 * 2 ^ (Double.leastExponent - 2) := (one_mul _).symm
    _ ≤ (roundingInterval m e).1 * 2 ^ (e - 2) := by
      gcongr
      exact_mod_cast hone
    _ ≤ x := hlower

theorem Double.ofDecimal_of_rounds {e : Int} (h : Canonical m e) (hm : 0 < m)
    (he : e ≤ greatestExponent) {k n : Nat} (hx : Decimal.Rounds m e (k / 10 ^ n)) :
    ofDecimal false k (-n) = .finite false m e := by
  have hk : k ≠ 0 := by
    rintro rfl
    rw [Nat.cast_zero, zero_div] at hx
    exact Decimal.not_rounds_zero hm e hx
  have hn : n ≤ k.log2 + 401 := by
    by_contra hlarge
    obtain ⟨p, hp, hleast⟩ : ∃ p : Nat, p = 1076 ∧ leastExponent - 2 = -(p : Int) :=
      ⟨1076, rfl, rfl⟩
    have hlow := hx.least_le h hm
    rw [hleast, zpow_neg, zpow_natCast, le_div_iff₀ (by positivity),
      inv_mul_le_iff₀ (by positivity)] at hlow
    have hle : 10 ^ n ≤ 2 ^ p * k := by exact_mod_cast hlow
    have hlt : 2 ^ p * k < 10 ^ n := by
      calc 2 ^ p * k < 2 ^ p * 2 ^ (k.log2 + 1) := by
            gcongr
            exact Nat.lt_log2_self
        _ = 2 ^ (p + (k.log2 + 1)) := (pow_add 2 _ _).symm
        _ ≤ 2 ^ (3 * n) := Nat.pow_le_pow_right two_pos (by omega)
        _ = 8 ^ n := by rw [pow_mul]; rfl
        _ ≤ 10 ^ n := Nat.pow_le_pow_left (by decide) n
    omega
  rw [ofDecimal, if_neg (by simp [hk]; omega), if_neg (by omega)]
  split
  · rename_i hzero
    obtain rfl : n = 0 := by omega
    exact ofRatio_of_rounds false h hm he one_pos (by simpa using hx)
  · rw [neg_neg, Int.toNat_natCast]
    exact ofRatio_of_rounds false h hm he (by simp) (by simpa using hx)

theorem Syntax.Lexer.scan_unsignedText (negative : Bool) {e : Int}
    (h : Double.Canonical m e) (he : e ≤ Double.greatestExponent) {r : List Char}
    (hr : FollowedBy [',', ']'] r) (isFirst : Bool) (n : Nat) :
    ∃ k, scan isFirst ⟨(Double.finite negative m e).unsignedText ++ r, n⟩ =
      (.number (.finite false m e), ⟨r, k⟩) := by
  rw [Double.unsignedText]
  split
  · rename_i hm
    subst hm
    have hzero : ∀ c ∈ ['0'], c.isDigit := forall_mem_of_all (by decide)
    obtain ⟨k, hk⟩ := scan_number hzero (List.forall_mem_nil _) rfl hr (by simp) isFirst n
    refine ⟨k, hk.trans ?_⟩
    rw [h.full (by decide)]
    rfl
  · rename_i hm
    have hm := Nat.pos_of_ne_zero hm
    obtain ⟨whole, fraction, htext, hwhole, hdigits, hfraction, hvalue⟩ :=
      (Decimal.shortest m e).exists_parts (Double.shortest_pos h hm)
    have hrounds := Decimal.rounds_shortest h hm
    rw [← hvalue] at hrounds
    have hidle : hasIdleZero whole = false := by
      unfold Json.isWhole at hwhole
      unfold hasIdleZero
      by_cases hzero : whole.head? = some '0'
      · simp_all
      · simp [hzero]
    obtain ⟨k, hk⟩ := scan_number hdigits hfraction hidle hr (by rintro rfl; cases hwhole) isFirst n
    refine ⟨k, ?_⟩
    rw [htext, List.append_assoc, hk, Double.ofDecimal_of_rounds h hm he hrounds]

end PropContract
