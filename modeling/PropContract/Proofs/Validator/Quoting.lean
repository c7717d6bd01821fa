import PropContract.Proofs.Text.Marks
import PropContract.Syntax.Token
import PropContract.Validator.Quoted

namespace PropContract.Quoted

open Syntax (Cursor)
open Syntax.Lexer List

variable {mark : Char}

variable (style : QuoteStyle)

theorem mark_cases : style.mark = '\'' ∨ style.mark = '"' := by
  cases style
  · exact .inl rfl
  · exact .inr rfl

theorem toList_encode (s : String) (r : List Char) : (encode style s).toList ++ r =
      style.mark :: (s.toList.flatMap (escape style.mark) ++ style.mark :: r) := by
  simp [encode]

theorem escape_cases (mark c : Char) :
    (∃ d, escape mark c = ['\\', d] ∧ d ≠ '\n' ∧ d ≠ '\r') ∨
      escape mark c = [c] ∧ c ≠ '\\' ∧ c ≠ mark ∧ c ≠ '\n' ∧ c ≠ '\r' := by
  unfold escape
  split_ifs with hslash hn hr ht hm
  · exact .inl ⟨_, rfl, by decide⟩
  · exact .inl ⟨_, rfl, by decide⟩
  · exact .inl ⟨_, rfl, by decide⟩
  · exact .inl ⟨_, rfl, by decide⟩
  · exact .inl ⟨_, rfl, hn, hr⟩
  · exact .inr ⟨rfl, hslash, hm, hn, hr⟩

theorem stringBody_escape (hmark : mark = '\'' ∨ mark = '"') (start fuel : Nat) (units : List Nat)
    (c : Char) (r : List Char) (n : Nat) :
    ∃ m, stringBody start mark (fuel + 1) none units ⟨escape mark c ++ r, n⟩ =
      stringBody start mark fuel none (c.toNat :: units) ⟨r, m⟩ := by
  unfold escape
  split_ifs with hslash hn hr ht hm
  case neg =>
    refine ⟨n + c.utf8Size, ?_⟩
    simp only [cons_append, nil_append, stringBody, hm, hslash, hn, hr, if_false,
      decide_false, Bool.or_self, Bool.false_eq_true, Cursor.next]
  all_goals
    subst_vars
    rcases hmark with rfl | rfl <;> exact ⟨_, rfl⟩

theorem stringBody_flatMap (hmark : mark = '\'' ∨ mark = '"') (start : Nat) (s : List Char)
    (fuel : Nat) (hfuel : s.length < fuel) (units : List Nat) (r : List Char) (n : Nat) :
    ∃ m, stringBody start mark fuel none units ⟨s.flatMap (escape mark) ++ mark :: r, n⟩ =
      (stringOf ((s.map Char.toNat).reverse ++ units), ⟨r, m⟩) := by
  induction s generalizing fuel units n with
  | nil =>
    obtain ⟨fuel, rfl⟩ := Nat.exists_eq_succ_of_ne_zero (Nat.ne_zero_of_lt hfuel)
    refine ⟨n + mark.utf8Size, ?_⟩
    simp [stringBody, withFlaw, Cursor.next]
  | cons c s ih =>
    rw [List.length_cons] at hfuel
    obtain ⟨fuel, rfl⟩ := Nat.exists_eq_succ_of_ne_zero (Nat.ne_zero_of_lt hfuel)
    rw [List.flatMap_cons, List.append_assoc]
    obtain ⟨m, hm⟩ := stringBody_escape hmark start fuel units c
      (s.flatMap (escape mark) ++ mark :: r) n
    obtain ⟨k, hk⟩ := ih fuel (Nat.lt_of_succ_lt_succ hfuel) (c.toNat :: units) m
    exact ⟨k, by rw [hm, hk]; simp⟩

theorem length_le_flatMap_escape (mark : Char) (s : List Char) :
    s.length ≤ (s.flatMap (escape mark)).length := by
  induction s with
  | nil => exact le_refl 0
  | cons c s ih =>
    have hpos : 0 < (escape mark c).length := by
      rcases escape_cases mark c with ⟨d, hd, -⟩ | ⟨hc, -⟩ <;> simp [*]
    rw [List.flatMap_cons, List.length_append, List.length_cons]
    omega

theorem decodeUnits_map_toNat (s : List Char) : decodeUnits (s.map Char.toNat) = s := by
  have hwhole (c : Char) : isHigh c.toNat = false ∧ isLow c.toNat = false := by
    have hvalid := c.valid
    simp only [UInt32.isValidChar, Nat.isValidChar] at hvalid
    simp only [isHigh, isLow, Char.toNat, Bool.and_eq_false_iff, decide_eq_false_iff_not]
    omega
  induction s with
  | nil => rfl
  | cons c s ih =>
    cases s with
    | nil => simp [decodeUnits, hwhole]
    | cons d s =>
      rw [List.map_cons] at ih
      simp [decodeUnits, hwhole, ih]

theorem scan_encode (s : String) (isFirst : Bool) (r : List Char) (n : Nat) :
    ∃ m, Syntax.Lexer.scan isFirst ⟨(encode style s).toList ++ r, n⟩ = (.string s, ⟨r, m⟩) := by
  have hlength := length_le_flatMap_escape style.mark s.toList
  obtain ⟨m, hm⟩ := stringBody_flatMap (mark_cases style) n s.toList
    ((s.toList.flatMap (escape style.mark) ++ style.mark :: r).length + 1)
    (by rw [List.length_append]; omega) [] r (n + style.mark.utf8Size)
  refine ⟨m, ?_⟩
  have hscan : Syntax.Lexer.scan isFirst ⟨(encode style s).toList ++ r, n⟩ =
      stringBody n style.mark ((s.toList.flatMap (escape style.mark) ++ style.mark :: r).length + 1)
        none [] ⟨s.toList.flatMap (escape style.mark) ++ style.mark :: r,
          n + style.mark.utf8Size⟩ := by
    rw [toList_encode]
    cases style <;> rfl
  rw [hscan, hm, List.append_nil, stringOf, List.reverse_reverse, decodeUnits_map_toNat,
    String.ofList_toList]

theorem encode_injective : Function.Injective (encode style) := by
  intro s t h
  obtain ⟨m, hs⟩ := scan_encode style s true [] 0
  obtain ⟨m', ht⟩ := scan_encode style t true [] 0
  rw [h, ht] at hs
  cases hs
  rfl

def backslashes (u : List Char) : Nat :=
  (u.reverse.takeWhile fun c => c = '\\').length

def Escapes (before : List Char) : Prop :=
  backslashes before % 2 = 1

theorem escapes_append (mark c : Char) (u : List Char) :
    Escapes (escape mark c ++ u) ↔ Escapes u := by
  have heven : backslashes (escape mark c) % 2 = 0 := by
    rcases escape_cases mark c with ⟨d, hd, -⟩ | ⟨hc, hslash, -⟩
    · rw [hd]
      by_cases h : d = '\\' <;> simp [backslashes, h]
    · simp [backslashes, hc, hslash]
  unfold Escapes
  unfold backslashes at heven ⊢
  rw [List.reverse_append, List.takeWhile_append]
  split_ifs with hall
  · rw [List.length_append, ← hall]
    omega
  · rfl

theorem eq_of_escape_eq_append (hmark : mark = '\'' ∨ mark = '"') {c : Char} {u v : List Char}
    (h : escape mark c = u ++ mark :: v) : u = ['\\'] := by
  rcases escape_cases mark c with ⟨d, hd, -⟩ | ⟨hc, -, hm, -⟩
  · rw [hd] at h
    match u, h with
    | [], h => rcases hmark with rfl | rfl <;> simp at h
    | [_], h => rw [(List.cons.inj h).1]
    | _ :: _ :: _, h => simp at h
  · have hmem : mark ∈ escape mark c := by simp [h]
    rw [hc] at hmem
    exact absurd (mem_singleton.mp hmem).symm hm

theorem escapes_of_flatMap_eq (hmark : mark = '\'' ∨ mark = '"') {s u v : List Char}
    (h : s.flatMap (escape mark) = u ++ mark :: v) : Escapes u := by
  induction s generalizing u with
  | nil => simp at h
  | cons c s ih =>
    rw [flatMap_cons] at h
    rcases append_eq_append_iff.mp h with ⟨w, rfl, hw⟩ | ⟨w, hu, hw⟩
    · exact (escapes_append mark c w).mpr (ih hw)
    · cases w with
      | nil => exact absurd (ih (u := []) hw.symm) (by simp [Escapes, backslashes])
      | cons d w =>
        obtain rfl : mark = d := (List.cons.inj hw).1
        rw [eq_of_escape_eq_append hmark hu]
        rfl

theorem not_mem_flatMap_escape (mark : Char) (s : List Char) :
    '\n' ∉ s.flatMap (escape mark) ∧ '\r' ∉ s.flatMap (escape mark) := by
  have hnot (c : Char) : '\n' ∉ escape mark c ∧ '\r' ∉ escape mark c := by
    rcases escape_cases mark c with ⟨d, hd, hn, hr⟩ | ⟨hc, -, -, hn, hr⟩
    · simp [hd, hn.symm, hr.symm]
    · simp [hc, hn.symm, hr.symm]
  simp only [mem_flatMap, not_exists, not_and]
  exact ⟨fun c _ => (hnot c).1, fun c _ => (hnot c).2⟩

def isNameChar (c : Char) : Bool :=
  Text.isAlphanumeric c || c = '_' || c = '$'

theorem isAlphanumeric_of_isAlphabetic {c : Char} (h : Text.isAlphabetic c) :
    Text.isAlphanumeric c := by
  by_cases hc : c.toNat < 0x80
  · rw [Text.isAlphabetic, if_pos hc] at h
    rw [Text.isAlphanumeric, if_pos hc, Char.isAlphanum, h, Bool.true_or]
  · rw [Text.isAlphanumeric, if_neg hc, h, Bool.true_or, Bool.true_or]

theorem isNameChar_of_isIdentifier {name : String} (h : isIdentifier name) :
    name.toList ≠ [] ∧ ∀ c ∈ name.toList, isNameChar c := by
  unfold isIdentifier at h
  split at h
  · cases h
  · rename_i first rest hlist
    rw [hlist]
    rw [Bool.and_eq_true, all_eq_true] at h
    refine ⟨cons_ne_nil _ _, fun c hc => ?_⟩
    rcases mem_cons.mp hc with rfl | hc
    · have hfirst := h.1
      simp only [Bool.or_eq_true] at hfirst
      rcases hfirst with (hfirst | hfirst) | hfirst
      · simp [isNameChar, isAlphanumeric_of_isAlphabetic hfirst]
      · simp [isNameChar, of_decide_eq_true hfirst]
      · simp [isNameChar, of_decide_eq_true hfirst]
    · exact h.2 c hc

theorem isNameChar_mark : isNameChar style.mark = false := by
  cases style <;> decide +kernel

theorem isIdentifier_encode (s : String) : isIdentifier (encode style s) = false := by
  by_contra hname
  obtain ⟨-, hall⟩ := isNameChar_of_isIdentifier (by simpa using hname)
  have hmark := hall style.mark (by simp [encode])
  rw [isNameChar_mark] at hmark
  cases hmark

theorem key_start (name : String) : ∃ c ∈ (key style name).toList.head?, c ∉ [' ', '\n'] := by
  unfold key
  split
  · rename_i hname
    obtain ⟨hne, hall⟩ := isNameChar_of_isIdentifier hname
    obtain ⟨c, cs, hcs⟩ := exists_cons_of_ne_nil hne
    have hblanks : ∀ b ∈ [' ', '\n'], ¬ isNameChar b := forall_mem_of_all (by decide +kernel)
    exact ⟨c, by rw [hcs]; rfl, fun hc => hblanks c hc (hall c (hcs ▸ mem_cons_self))⟩
  · refine ⟨style.mark, ?_, by cases style <;> decide⟩
    rw [← append_nil (encode style name).toList, toList_encode]
    rfl

theorem key_injective : Function.Injective (key style) := by
  intro name other h
  unfold key at h
  split at h <;> split at h
  · exact h
  · rename_i hname _
    rw [h, isIdentifier_encode] at hname
    cases hname
  · rename_i _ hother
    rw [← h, isIdentifier_encode] at hother
    cases hother
  · exact encode_injective style h

/-- Whether a name stands as a key without quotes although no program can read it there: the letters
and digits that a key may have are not those that a name may have. -/
def isMisread (name : String) : Bool :=
  isIdentifier name && !isName name.toList

/-- A quoted string is the string between two quotes, has no line break and no other quote that is
not escaped, and is read as the string; keys of properties with different names differ. -/
theorem encode_reads_back (style : QuoteStyle) :
    (∀ s : String, ∃ body, (encode style s).toList = style.mark :: (body ++ [style.mark]) ∧
      '\n' ∉ body ∧ '\r' ∉ body ∧ (∀ u v, body = u ++ style.mark :: v → Escapes u) ∧
      ∀ isFirst r n, ∃ m,
        scan isFirst ⟨(encode style s).toList ++ r, n⟩ = (.string s, ⟨r, m⟩)) ∧
    Function.Injective (key style) := by
  refine ⟨fun s => ?_, key_injective style⟩
  obtain ⟨hn, hr⟩ := not_mem_flatMap_escape style.mark s.toList
  refine ⟨s.toList.flatMap (escape style.mark), ?_, hn, hr, ?_, scan_encode style s⟩
  · rw [← append_nil (encode style s).toList, toList_encode]
  · intro u v h
    exact escapes_of_flatMap_eq (mark_cases style) h

end PropContract.Quoted
