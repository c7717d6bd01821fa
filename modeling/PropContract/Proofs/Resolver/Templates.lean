import PropContract.Proofs.Validator.Quoting
import PropContract.Extraction

namespace PropContract

open List Option
namespace Syntax

theorem Cursor.length_skip (k : Nat) (c : Cursor) :
    (c.skip k).rest.length = c.rest.length - k := by
  induction k generalizing c with
  | zero => rfl
  | succ k ih =>
    obtain ⟨_ | ⟨ch, rest⟩, offset⟩ := c
    · exact (ih _).trans (by simp [next])
    · exact (ih _).trans (by simp [next])

theorem Cursor.length_next (c : Cursor) : c.next.rest.length = c.rest.length - 1 :=
  c.length_skip 1

namespace Lexer

theorem length_escapeDigits (limit fuel count value : Nat) (c : Cursor) :
    (escapeDigits limit fuel count value c).2.2.rest.length ≤ c.rest.length := by
  fun_induction escapeDigits limit fuel count value c with
  | case1 | case3 | case6 => exact Nat.le_refl _
  | case2 _ _ _ c _ _ ih | case5 _ _ _ c _ _ _ _ _ _ _ ih =>
    rw [c.length_next] at ih
    omega
  | case4 _ _ _ c =>
    rw [c.length_next]
    omega

theorem length_hexEscape {limit n : Nat} {c after : Cursor}
    (h : hexEscape? limit c = some (n, after)) : after.rest.length ≤ c.rest.length := by
  unfold hexEscape? at h
  simp only [ite_none_right_eq_some, Option.some.injEq, Prod.mk.injEq] at h
  rw [← h.2.2]
  exact length_escapeDigits ..

theorem length_unicodeEscape {n : Nat} {c after : Cursor}
    (h : unicodeEscape? c = some (n, after)) : after.rest.length ≤ c.rest.length := by
  unfold unicodeEscape? at h
  split at h
  · simp only [ite_none_right_eq_some, Option.some.injEq, Prod.mk.injEq] at h
    have hdigits := length_escapeDigits 0 (c.rest.length + 1) 0 0 c.next
    rw [c.length_next] at hdigits
    rw [← h.2.2, Cursor.length_next]
    exact (Nat.sub_le _ _).trans (hdigits.trans (Nat.sub_le _ _))
  · exact length_hexEscape h

theorem length_unicodeUnits {c : Cursor} {e : Escape} (h : unicodeUnits? c = some e) :
    e.units.length + e.after.rest.length ≤ c.rest.length + 1 := by
  simp only [unicodeUnits?, bind_eq_bind, bind_eq_some_iff, Prod.exists] at h
  obtain ⟨n, after, hn, h⟩ := h
  have hafter := length_unicodeEscape hn
  split at h
  case h_2 hrest _ =>
    split_ifs at h
    · simp only [bind_eq_some_iff, Prod.exists] at h
      obtain ⟨m, last, hm, h⟩ := h
      have hlast := length_hexEscape hm
      rw [Cursor.length_skip, hrest, length_cons, length_cons] at hlast
      rw [hrest, length_cons, length_cons] at hafter
      split_ifs at h <;> cases h <;> simp [hrest] <;> omega
    · cases h
      simpa [Nat.add_comm] using hafter
  all_goals
    cases h
    simpa [Nat.add_comm] using hafter

theorem length_escape {c : Cursor} {e : Escape} (h : escape? c = some e) :
    e.units.length + e.after.rest.length ≤ c.rest.length := by
  have hnext := c.length_next
  have hskip := c.length_skip
  unfold escape? at h
  split at h
  case h_1 => cases h
  case h_9 hrest =>
    obtain ⟨⟨n, after⟩, hr, rfl⟩ := map_eq_some_iff.mp h
    have hle := length_hexEscape hr
    rw [hnext, hrest, length_cons] at hle
    simpa [hrest, Nat.add_comm] using hle
  case h_10 hrest =>
    have hle := length_unicodeUnits h
    rw [hnext, hrest, length_cons] at hle
    rw [hrest, length_cons]
    omega
  case h_11 ch rest _ _ _ _ _ _ _ _ _ hrest =>
    by_cases hline : isLineEnd ch
    · rw [if_pos hline] at h
      cases h
      simp [hnext]
    by_cases hoctal : isRadixDigit 8 ch
    · have hpos : 0 < ((c.rest.take (if ch ≤ '3' then 3 else 2)).takeWhile
          (isRadixDigit 8)).length := by
        rw [hrest]
        split_ifs <;> simp [hoctal]
      rw [if_neg hline, if_pos hoctal] at h
      cases h
      rw [hskip, length_singleton, hrest, length_cons]
      rw [hrest] at hpos
      omega
    · rw [if_neg hline, if_neg hoctal] at h
      cases h
      simp [hnext, hrest, Nat.add_comm]
  all_goals
    cases h
    simp [*, Nat.add_comm]

def lineFeed (ch : Char) : Char :=
  if ch = '\r' then '\n' else ch

theorem resolvedUnits_char {fuel : Nat} {ch : Char} {cs : List Char} (n : Nat)
    (hslash : ch ≠ '\\') (hfeed : ch = '\r' → cs.head? ≠ some '\n') :
    resolvedUnits (fuel + 1) ⟨ch :: cs, n⟩ =
      (lineFeed ch).toNat :: resolvedUnits fuel ⟨cs, n + ch.utf8Size⟩ := by
  rw [resolvedUnits]
  split <;> simp_all [lineFeed, Cursor.next]

theorem resolvedUnits_cases (fuel : Nat) (c : Cursor) (hfuel : c.rest.length < fuel) :
    ('\\' ∉ c.rest ∧ resolvedUnits fuel c = (c.rest.map lineFeed).map Char.toNat) ∨
      (('\\' ∈ c.rest ∨ '\r' ∈ c.rest) ∧ (resolvedUnits fuel c).length < c.rest.length) := by
  induction fuel generalizing c with
  | zero => omega
  | succ fuel ih =>
    have hle (c : Cursor) (hc : c.rest.length < fuel) :
        (resolvedUnits fuel c).length ≤ c.rest.length := by
      rcases ih c hc with ⟨-, h⟩ | ⟨-, h⟩
      · simp [h]
      · exact h.le
    obtain ⟨_ | ⟨ch, cs⟩, n⟩ := c
    · exact .inl ⟨not_mem_nil, rfl⟩
    rw [length_cons] at hfuel
    by_cases hslash : ch = '\\'
    · subst hslash
      refine .inr ⟨.inl mem_cons_self, Nat.lt_succ_of_le ?_⟩
      rw [resolvedUnits]
      simp only [Cursor.next]
      split
      · rename_i e he
        have hunits : e.units.length + e.after.rest.length ≤ cs.length := length_escape he
        have hrest := hle e.after (by omega)
        rw [length_append]
        omega
      · exact hle ⟨cs, n + '\\'.utf8Size⟩ (Nat.lt_of_succ_lt_succ hfuel)
    by_cases hfeed : ch = '\r' ∧ cs.head? = some '\n'
    · obtain ⟨rfl, hfeed⟩ := hfeed
      obtain ⟨cs, rfl⟩ := head?_eq_some_iff.mp hfeed
      have hrest := hle ⟨cs, n + '\r'.utf8Size + '\n'.utf8Size⟩ (by simp at hfuel ⊢; omega)
      exact .inr ⟨.inr mem_cons_self, Nat.succ_lt_succ (Nat.lt_succ_of_le hrest)⟩
    rw [resolvedUnits_char n hslash (not_and.mp hfeed)]
    rcases ih ⟨cs, n + ch.utf8Size⟩ (Nat.lt_of_succ_lt_succ hfuel) with ⟨hplain, h⟩ | ⟨hmem, h⟩
    · exact .inl ⟨not_mem_cons_of_ne_of_not_mem (Ne.symm hslash) hplain, by rw [h]; rfl⟩
    · exact .inr ⟨hmem.imp (mem_cons_of_mem ch) (mem_cons_of_mem ch),
        Nat.succ_lt_succ h⟩

theorem length_decodeUnits (units : List Nat) : (decodeUnits units).length ≤ units.length := by
  fun_induction decodeUnits units with
  | case1 | case2 => exact le_rfl
  | case3 n m rest _ ih => exact (Nat.succ_le_succ ih).trans (Nat.le_succ _)
  | case4 n m rest _ ih => exact Nat.succ_le_succ ih

theorem resolve_eq_self_iff (text : String) :
    resolve text = text ↔ '\\' ∉ text.toList ∧ '\r' ∉ text.toList := by
  rw [resolve, ← String.toList_inj, String.toList_ofList]
  rcases resolvedUnits_cases (text.length + 1) (Cursor.ofText text.toList) (Nat.lt_succ_self _) with
    ⟨hslash, hunits⟩ | ⟨hmem, hlength⟩
  · rw [hunits, Quoted.decodeUnits_map_toNat]
    refine ⟨fun h => ⟨hslash, fun hreturn => ?_⟩, fun h => ?_⟩
    · rw [← h] at hreturn
      obtain ⟨ch, -, hch⟩ := mem_map.mp hreturn
      unfold lineFeed at hch
      split_ifs at hch with hne
      · cases hch
      · exact hne hch
    · refine (map_congr_left fun ch hch => ?_).trans (map_id _)
      exact if_neg fun (hreturn : ch = '\r') => h.2 (hreturn ▸ hch)
  · refine iff_of_false (fun h => ?_) fun h => hmem.elim h.1 h.2
    have hle := length_decodeUnits (resolvedUnits (text.length + 1) (Cursor.ofText text.toList))
    rw [h] at hle
    exact absurd hlength hle.not_gt

theorem resolvedUnits_escape (style : QuoteStyle) (fuel : Nat) (c : Char) (r : List Char)
    (n : Nat) : ∃ m, resolvedUnits (fuel + 1) ⟨Quoted.escape style.mark c ++ r, n⟩ =
      c.toNat :: resolvedUnits fuel ⟨r, m⟩ := by
  unfold Quoted.escape
  split_ifs with hslash hn hr ht hmark
  case neg =>
    refine ⟨n + c.utf8Size, ?_⟩
    have hchar : lineFeed c = c := if_neg hr
    rw [singleton_append, resolvedUnits_char n hslash fun h => absurd h hr, hchar]
  all_goals
    subst_vars
    cases style <;> exact ⟨_, rfl⟩

theorem resolve_escape (style : QuoteStyle) (s : String) :
    resolve (String.ofList (s.toList.flatMap (Quoted.escape style.mark))) = s := by
  have hunits (fuel : Nat) (cs : List Char) (hfuel : cs.length < fuel) (n : Nat) :
      resolvedUnits fuel ⟨cs.flatMap (Quoted.escape style.mark), n⟩ = cs.map Char.toNat := by
    induction cs generalizing fuel n with
    | nil => cases fuel <;> rfl
    | cons c cs ih =>
      obtain ⟨fuel, rfl⟩ := Nat.exists_eq_succ_of_ne_zero (Nat.ne_zero_of_lt hfuel)
      obtain ⟨m, hm⟩ := resolvedUnits_escape style fuel c _ n
      rw [flatMap_cons, hm, ih fuel (Nat.lt_of_succ_lt_succ hfuel) m, map_cons]
  have hlength := Quoted.length_le_flatMap_escape style.mark s.toList
  rw [resolve, String.toList_ofList, String.length_ofList, Cursor.ofText,
    hunits _ _ (Nat.lt_succ_of_le hlength), Quoted.decodeUnits_map_toNat, String.ofList_toList]

end Lexer

open Resolver Extraction

theorem join_singleton (text : String) : String.join [text] = text := by
  simp [String.join]

theorem literal?_template (text : String) :
    (Expr.template [text] []).literal? = some (.string text) := by
  rw [Expr.literal?, join_singleton]

/-- A template without substitutions is recorded with the characters that are written in it, as a
type, as the value of a member of an enum and as a default. That is what it means only if it has
no escapes; a string literal with the same characters is read as what they mean. -/
theorem template_recorded_raw (text : String) :
    (∀ s n expanding env depth l,
      (shapeWithin s (n + 1) expanding (.written (.template [text] []) env) depth).run l =
        (.literal (.string text), l)) ∧
    (∀ next name isQuoted rest,
      enumEntries next (.mk name isQuoted (some (.template [text] [])) :: rest) =
        (name, .string text) :: enumEntries next rest) ∧
    (∀ name, patternDefault? (.shorthand name (some (.template [text] []))) =
      some (name, .string text)) ∧
    (∀ key target, patternDefault? (.keyed key (.assign target (.template [text] []))) =
      key.name?.map fun name => (name, .string text)) ∧
    (∀ span key start, propertyDefault? (.keyed span key start (.template [text] [])) =
      key.name?.map fun name => (name, .string text)) ∧
    (Lexer.resolve text = text ↔ '\\' ∉ text.toList ∧ '\r' ∉ text.toList) ∧
    ∀ (style : QuoteStyle) (s : String) isFirst r n,
      Lexer.resolve (String.ofList (s.toList.flatMap (Quoted.escape style.mark))) = s ∧
      ∃ m, Lexer.scan isFirst ⟨style.mark ::
        (s.toList.flatMap (Quoted.escape style.mark) ++ style.mark :: r), n⟩ =
          (.string s, ⟨r, m⟩) := by
  have hliteral := literal?_template text
  refine ⟨fun s n expanding env depth l => ?_, fun next name isQuoted rest => ?_, fun name => ?_,
    fun key target => ?_, fun span key start => ?_, Lexer.resolve_eq_self_iff text,
    fun style s isFirst r n => ⟨Lexer.resolve_escape style s, ?_⟩⟩
  · change (Shape.literal (.string (String.join [text])), l) = _
    rw [join_singleton]
  · rw [enumEntries, hliteral]
  · rw [patternDefault?, hliteral]
    rfl
  · rw [patternDefault?, hliteral]
    cases key.name? <;> rfl
  · rw [propertyDefault?, hliteral]
    cases key.name? <;> rfl
  · rw [← Quoted.toList_encode]
    exact Quoted.scan_encode style s isFirst r n

/-- A tabulator that is written as an escape. -/
theorem template_not_resolved :
    patternDefault? (.shorthand "a" (some (.template ["x\\ty"] []))) ≠
      some ("a", .string (Lexer.resolve "x\\ty")) := by
  have htext : Lexer.resolve "x\\ty" = "x\ty" := by decide
  rw [htext, patternDefault?, literal?_template]
  simp

end Syntax
end PropContract
