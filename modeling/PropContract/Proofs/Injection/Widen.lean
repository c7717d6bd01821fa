import PropContract.Injection.Basic
import PropContract.Proofs.Text.Cut
import PropContract.Proofs.Text.Marks

namespace PropContract.Injection

open Text List

def lineBreaks : List (List Char) :=
  [[], ['\n'], ['\r', '\n']]

/-- `wide` is `span` with blanks before it, and with blanks, semicolons and at most one line break
after it. -/
def Extends (source : String) (span wide : Span) : Prop :=
  (∃ indent, slice? source wide.start span.start = some indent ∧
    ∀ c ∈ indent.toList, isIndent c) ∧
  ∃ trail blanks ending, slice? source span.stop wide.stop = some trail ∧
    trail.toList = blanks ++ ending ∧ (∀ c ∈ blanks, isIndentOrEnd c) ∧ ending ∈ lineBreaks

def WholeLines (source : String) (span : Span) : Prop :=
  (span.start = 0 ∨ charBefore? source span.start = some '\n') ∧
    (span.stop = byteLength source.toList ∨ charBefore? source span.stop = some '\n')

theorem byteLength_of_isIndentOrEnd {cs : List Char} (h : ∀ c ∈ cs, isIndentOrEnd c) :
    byteLength cs = cs.length := by
  induction cs with
  | nil => rfl
  | cons c cs ih =>
    have hc : c.utf8Size = 1 := by
      have hcases := h c mem_cons_self
      simp only [isIndentOrEnd, isIndent, Bool.or_eq_true, decide_eq_true_eq] at hcases
      rcases hcases with (rfl | rfl) | rfl <;> rfl
    rw [byteLength, hc, ih fun c' hc' => h c' (mem_cons_of_mem c hc'), length_cons]
    omega

theorem isIndentOrEnd_of_isIndent {c : Char} (h : isIndent c) : isIndentOrEnd c := by
  simp [isIndentOrEnd, h]

theorem lineStart?_eq_some {before : List Char} {n : Nat}
    (h : lineStart? before.reverse = some n) :
    ∃ line indent, before = line ++ indent ∧ byteLength indent = n ∧ (∀ c ∈ indent, isIndent c) ∧
      (line = [] ∨ line.getLast? = some '\n') := by
  let indent := (before.reverse.takeWhile isIndent).reverse
  let line := (before.reverse.drop (before.reverse.takeWhile isIndent).length).reverse
  have hindent : ∀ c ∈ indent, isIndent c := fun c hc =>
    mem_takeWhile_imp (mem_reverse.mp hc)
  have hlength : byteLength indent = (before.reverse.takeWhile isIndent).length := by
    rw [byteLength_of_isIndentOrEnd fun c hc => isIndentOrEnd_of_isIndent (hindent c hc),
      length_reverse]
  have hsplit : before = line ++ indent := by
    rw [← reverse_append, prefix_iff_eq_append.mp (List.takeWhile_prefix _),
      reverse_reverse]
  have hdrop : before.reverse.drop (before.reverse.takeWhile isIndent).length = line.reverse :=
    (reverse_reverse _).symm
  refine ⟨line, indent, hsplit, ?_⟩
  rw [lineStart?, hdrop] at h
  split at h
  · rename_i hline
    exact ⟨by simpa [hlength] using h, hindent, .inl (by simpa using hline)⟩
  · rename_i cs hline
    refine ⟨by simpa [hlength] using h, hindent, .inr ?_⟩
    rw [← head?_reverse, hline, head?_cons]
  · simp at h

theorem lineEnd?_eq_some {after : List Char} {n : Nat} (h : lineEnd? after = some n) :
    ∃ blanks ending rest, after = blanks ++ ending ++ rest ∧ byteLength (blanks ++ ending) = n ∧
      (∀ c ∈ blanks, isIndentOrEnd c) ∧ ending ∈ lineBreaks ∧
      (rest = [] ∨ ending.getLast? = some '\n') := by
  let blanks := after.takeWhile isIndentOrEnd
  have hblanks : ∀ c ∈ blanks, isIndentOrEnd c := fun c hc => mem_takeWhile_imp hc
  have hlength : byteLength blanks = blanks.length := byteLength_of_isIndentOrEnd hblanks
  have hsplit : after = blanks ++ after.drop blanks.length :=
    (prefix_iff_eq_append.mp (List.takeWhile_prefix _)).symm
  unfold lineEnd? at h
  dsimp only at h
  split at h
  · rename_i hrest
    refine ⟨blanks, [], [], ?_, ?_, hblanks, by simp [lineBreaks], .inl rfl⟩
    · rw [hsplit, hrest]
      simp
    · simpa [hlength] using h
  · rename_i rest hrest
    refine ⟨blanks, ['\r', '\n'], rest, ?_, ?_, hblanks, by simp [lineBreaks], .inr rfl⟩
    · rw [hsplit, hrest]
      simp
    · rw [byteLength_append, hlength]
      exact Option.some.inj h
  · rename_i rest hrest
    refine ⟨blanks, ['\n'], rest, ?_, ?_, hblanks, by simp [lineBreaks], .inr rfl⟩
    · rw [hsplit, hrest]
      simp
    · rw [byteLength_append, hlength]
      exact Option.some.inj h
  · simp at h

theorem extends_refl {source : String} {span : Span} (hstart : isBoundary source span.start)
    (hstop : isBoundary source span.stop) : Extends source span span := by
  have hempty : ∀ n, isBoundary source n → slice? source n n = some "" := by
    intro n hn
    obtain ⟨left, right, htext, rfl⟩ := isBoundary_iff.mp hn
    exact slice?_eq_some_iff.mpr ⟨left, right, htext, rfl, rfl⟩
  exact ⟨⟨"", hempty _ hstart, by simp⟩, "", [], [], hempty _ hstop, rfl, by simp,
    by simp [lineBreaks]⟩

theorem widen_cases (source : String) (span : Span) :
    widen source span = span ∨
      Extends source span (widen source span) ∧ WholeLines source (widen source span) := by
  unfold widen
  split
  · rename_i before right left after hstart hstop
    split
    · rename_i n m hn hm
      obtain ⟨htext, hbefore⟩ := cut?_eq_some_iff.mp hstart
      obtain ⟨htext', hleft⟩ := cut?_eq_some_iff.mp hstop
      obtain ⟨line, indent, rfl, rfl, hindent, hline⟩ := lineStart?_eq_some hn
      obtain ⟨blanks, ending, rest, rfl, rfl, hblanks, hending, hrest⟩ := lineEnd?_eq_some hm
      rw [byteLength_append] at hbefore
      have hwide : span.start - byteLength indent = byteLength line := by omega
      have hstart' : slice? source (byteLength line) span.start = some (String.ofList indent) :=
        slice?_eq_some_iff.mpr ⟨line, right, by simp [htext], rfl, by simpa using hbefore⟩
      have hstop' : slice? source span.stop (span.stop + byteLength (blanks ++ ending)) =
          some (String.ofList (blanks ++ ending)) :=
        slice?_eq_some_iff.mpr ⟨left, rest, by simp [htext'], hleft, by simp [hleft]⟩
      rw [hwide]
      refine .inr ⟨⟨⟨_, hstart', by simpa using hindent⟩, _, blanks, ending, hstop', by simp,
        hblanks, hending⟩, ?_, ?_⟩
      · rcases hline with rfl | hline
        · exact .inl rfl
        · refine .inr ?_
          rw [charBefore?_eq (htext.trans (append_assoc line indent right)), hline]
      · rcases hrest with rfl | hrest
        · refine .inl ?_
          rw [htext', append_nil, byteLength_append left, hleft]
        · refine .inr ?_
          have htext'' : source.toList = (left ++ (blanks ++ ending)) ++ rest := by
            rw [htext', append_assoc left]
          rw [← hleft, ← byteLength_append, charBefore?_eq htext'']
          simp [getLast?_append, hrest]
    · exact .inl rfl
  · exact .inl rfl

theorem widen_extends {source : String} {span : Span} (hstart : isBoundary source span.start)
    (hstop : isBoundary source span.stop) : Extends source span (widen source span) := by
  rcases widen_cases source span with h | h
  · rw [h]
    exact extends_refl hstart hstop
  · exact h.1

def isTrailing (c : Char) : Bool :=
  isIndentOrEnd c || c = '\r' || c = '\n'

namespace Extends

variable {source : String} {span wide : Span}

section

variable (h : Extends source span wide)

include h

theorem start_le : wide.start ≤ span.start := by
  obtain ⟨⟨indent, hslice, -⟩, -⟩ := h
  obtain ⟨left, right, -, hleft, hstart⟩ := slice?_eq_some_iff.mp hslice
  omega

theorem le_stop : span.stop ≤ wide.stop := by
  obtain ⟨-, trail, blanks, ending, hslice, -⟩ := h
  obtain ⟨left, right, -, hleft, hstop⟩ := slice?_eq_some_iff.mp hslice
  omega

theorem isBoundary_start : isBoundary source wide.start := by
  obtain ⟨⟨indent, hslice, -⟩, -⟩ := h
  obtain ⟨left, right, htext, hleft, -⟩ := slice?_eq_some_iff.mp hslice
  exact isBoundary_iff.mpr ⟨left, _, htext, hleft⟩

theorem isBoundary_stop : isBoundary source wide.stop := by
  obtain ⟨-, trail, blanks, ending, hslice, -⟩ := h
  obtain ⟨left, right, htext, hleft, hstop⟩ := slice?_eq_some_iff.mp hslice
  exact isBoundary_iff.mpr ⟨left ++ trail.toList, right, by simp [htext], by
    rw [byteLength_append, hstop]⟩

theorem charBefore {n : Nat} {c : Char} (hstart : wide.start < n) (hn : n ≤ span.start)
    (hc : charBefore? source n = some c) : isIndent c := by
  obtain ⟨⟨indent, hslice, hindent⟩, -⟩ := h
  obtain ⟨c', hmem, hc'⟩ := charBefore?_mem hslice (isBoundary_of_charBefore? hc) hstart hn
  obtain rfl : c' = c := Option.some.inj (hc'.symm.trans hc)
  exact hindent c' hmem

theorem charAfter {n : Nat} {c : Char} (hn : span.stop ≤ n) (hstop : n < wide.stop)
    (hc : charAfter? source n = some c) : isTrailing c := by
  obtain ⟨-, trail, blanks, ending, hslice, htrail, hblanks, hending⟩ := h
  obtain ⟨c', hmem, hc'⟩ := charAfter?_mem hslice (isBoundary_of_charAfter? hc) hn hstop
  obtain rfl : c' = c := Option.some.inj (hc'.symm.trans hc)
  rw [htrail, mem_append] at hmem
  rcases hmem with hmem | hmem
  · simp [isTrailing, hblanks c' hmem]
  · simp only [lineBreaks, mem_cons, not_mem_nil, or_false] at hending
    have hbreak : c' = '\r' ∨ c' = '\n' := by
      rcases hending with rfl | rfl | rfl
      · simp at hmem
      · exact .inr (by simpa using hmem)
      · simpa using hmem
    rcases hbreak with rfl | rfl <;> rfl

end

end Extends

theorem lineStart?_append {line indent : List Char} (hindent : ∀ c ∈ indent, isIndent c)
    (hline : line = [] ∨ line.getLast? = some '\n') :
    lineStart? (line ++ indent).reverse = some (byteLength indent) := by
  have hother : ∀ c ∈ line.reverse.head?, isIndent c = false := by
    rcases hline with rfl | hline
    · simp
    · simp [hline, isIndent]
  have hblanks : ∀ c ∈ indent.reverse, isIndent c := fun c hc => hindent c (mem_reverse.mp hc)
  rw [byteLength_of_isIndentOrEnd fun c hc => isIndentOrEnd_of_isIndent (hindent c hc), lineStart?,
    reverse_append, takeWhile_append_of_all hblanks hother, drop_left,
    length_reverse]
  rcases hline with rfl | hline
  · rfl
  · rw [← head?_reverse] at hline
    obtain ⟨rest, hrest⟩ := head?_eq_some_iff.mp hline
    rw [hrest]
    rfl

theorem lineEnd?_append {blanks ending rest : List Char} (hblanks : ∀ c ∈ blanks, isIndentOrEnd c)
    (hending : ending ∈ lineBreaks) (hrest : rest = [] ∨ ending ≠ []) :
    lineEnd? (blanks ++ ending ++ rest) = some (byteLength (blanks ++ ending)) := by
  have hother : ∀ c ∈ (ending ++ rest).head?, isIndentOrEnd c = false := by
    simp only [lineBreaks, mem_cons, not_mem_nil, or_false] at hending
    rcases hending with rfl | rfl | rfl
    · simp_all
    · simp [isIndentOrEnd, isIndent]
    · simp [isIndentOrEnd, isIndent]
  rw [byteLength_append, byteLength_of_isIndentOrEnd hblanks, append_assoc]
  unfold lineEnd?
  dsimp only
  rw [takeWhile_append_of_all hblanks hother, drop_left]
  simp only [lineBreaks, mem_cons, not_mem_nil, or_false] at hending
  rcases hending with rfl | rfl | rfl
  · obtain rfl : rest = [] := by simpa using hrest
    rfl
  · rfl
  · rfl

theorem widen_eq_of_extends {source : String} {span wide : Span} (h : Extends source span wide)
    (hlines : WholeLines source wide) (hstop : charBefore? source span.stop ≠ some '\n') :
    widen source span = wide := by
  obtain ⟨⟨indent, hindent, hblank⟩, trail, blanks, ending, htrail, hsplit, hblanks, hending⟩ := h
  obtain ⟨line, right, htext, hline, hstart⟩ := slice?_eq_some_iff.mp hindent
  obtain ⟨left, rest, htext', hleft, hend⟩ := slice?_eq_some_iff.mp htrail
  obtain ⟨hopen, hclose⟩ := hlines
  have hopens : line = [] ∨ line.getLast? = some '\n' := by
    rw [← hline] at hopen
    refine hopen.imp byteLength_eq_zero fun hbreak => ?_
    rwa [charBefore?_eq htext] at hbreak
  have hcloses : rest = [] ∨ ending ≠ [] := by
    rw [or_iff_not_imp_right, not_not]
    rintro rfl
    rw [append_nil] at hsplit
    rw [← hend, ← byteLength_append] at hclose
    rcases hclose with hclose | hclose
    · rw [htext', ← append_assoc, byteLength_append (left ++ trail.toList)] at hclose
      exact byteLength_eq_zero (by omega)
    · -- Neither the blanks nor the span end in a line break.
      rw [charBefore?_eq (htext'.trans (append_assoc _ _ _).symm), hsplit,
        getLast?_append, Option.or_eq_some_iff] at hclose
      rcases hclose with hbreak | ⟨-, hbreak⟩
      · exact absurd (hblanks _ (mem_of_getLast? hbreak)) (by decide)
      · rw [← charBefore?_eq htext', hleft] at hbreak
        exact absurd hbreak hstop
  have hcut : cut? span.start source.toList = some (line ++ indent.toList, right) :=
    cut?_eq_some_iff.mpr ⟨by simp [htext], by rw [byteLength_append, hstart]⟩
  have hcut' : cut? span.stop source.toList = some (left, trail.toList ++ rest) :=
    cut?_eq_some_iff.mpr ⟨htext', hleft⟩
  rw [widen, hcut, hcut', hsplit]
  simp only [lineStart?_append hblank hopens, lineEnd?_append hblanks hending hcloses]
  rw [← hsplit, ← hleft, hend, ← hstart, Nat.add_sub_cancel, hline]

/-- Widening takes whole lines or nothing extra. A span is left as it is, or extended by blanks
before it and by blanks, semicolons and at most one line break after it, from the start of a line
to the end of one; and it is extended wherever it can be, unless it ends in a line break itself. -/
theorem widen_whole_lines (source : String) (span : Span) (hspan : span.start ≤ span.stop)
    (hin : span.stop ≤ byteLength source.toList) :
    ∃ wide, widen source span = wide ∧
      (wide = span ∨ Extends source span wide ∧ WholeLines source wide) ∧
      (wide.start ≤ span.start ∧ span.stop ≤ wide.stop ∧ wide.stop ≤ byteLength source.toList) ∧
      (∀ other, Extends source span other → WholeLines source other →
        charBefore? source span.stop ≠ some '\n' → wide = other) ∧
      (isBoundary source span.start → isBoundary source wide.start) ∧
      (isBoundary source span.stop → isBoundary source wide.stop) ∧
      (byteLength source.toList < Span.offsetLimit →
        Span.ofOffsets wide.start wide.stop = wide) := by
  obtain ⟨wide, hwide⟩ : ∃ wide, widen source span = wide := ⟨_, rfl⟩
  have hcases := widen_cases source span
  rw [hwide] at hcases
  have hbounds : wide.start ≤ span.start ∧ span.stop ≤ wide.stop ∧
      wide.stop ≤ byteLength source.toList := by
    rcases hcases with rfl | ⟨h, -⟩
    · exact ⟨le_rfl, le_rfl, hin⟩
    · exact ⟨h.start_le, h.le_stop, le_of_isBoundary h.isBoundary_stop⟩
  refine ⟨wide, hwide, hcases, hbounds, fun other h hlines hstop => ?_, fun hb => ?_, fun hb => ?_,
    fun hshort => ?_⟩
  · exact hwide.symm.trans (widen_eq_of_extends h hlines hstop)
  · exact hcases.elim (fun h => h ▸ hb) fun h => h.1.isBoundary_start
  · exact hcases.elim (fun h => h ▸ hb) fun h => h.1.isBoundary_stop
  · rw [Span.ofOffsets, Nat.mod_eq_of_lt (by omega), Nat.mod_eq_of_lt (by omega)]

theorem widen_call_on_line :
    widen "f();\n  g() ;\r\nh();\n" ⟨7, 10⟩ = ⟨5, 14⟩ ∧
      WholeLines "f();\n  g() ;\r\nh();\n" ⟨5, 14⟩ := by
  have hvalue : widen "f();\n  g() ;\r\nh();\n" ⟨7, 10⟩ = ⟨5, 14⟩ := by decide +kernel
  obtain ⟨_, rfl, hcases, -⟩ :=
    widen_whole_lines "f();\n  g() ;\r\nh();\n" ⟨7, 10⟩ (by decide) (by decide +kernel)
  rw [hvalue] at hcases
  exact ⟨hvalue, (hcases.resolve_left (by decide)).2⟩

end PropContract.Injection
