import PropContract.Proofs.Sorting
import PropContract.Proofs.Text.Splice

/-!
One pass over a text: which order of registration it notices, and how often it copies a byte.
-/

namespace PropContract.Edit

open Text List

structure Reordered (edits edits' : List Edit) : Prop where
  perm : edits.Perm edits'
  kept : ∀ span, edits.filter (·.span = span) = edits'.filter (·.span = span)

theorem span_eq_of_before (a b : Edit) (hab : before a b) (hba : before b a) : a.span = b.span := by
  rw [before_iff] at hab hba
  have hstart : a.span.start = b.span.start := by omega
  have hstop : a.span.stop = b.span.stop := by omega
  calc a.span = ⟨a.span.start, a.span.stop⟩ := rfl
    _ = b.span := by rw [hstart, hstop]

theorem filter_sorted (edits : List Edit) (span : Span) :
    (sorted edits).filter (·.span = span) = edits.filter (·.span = span) := by
  refine filter_mergeSort before_trans before_total (fun a b ha hb => ?_) edits
  rw [decide_eq_true_eq] at ha hb
  simp [before, ha, hb]

theorem Reordered.sorted_eq {edits edits' : List Edit} (h : Reordered edits edits') :
    sorted edits = sorted edits' := by
  refine eq_of_filter_eq span_eq_of_before
    (pairwise_mergeSort before_trans before_total edits)
    (pairwise_mergeSort before_trans before_total edits') fun span => ?_
  exact (filter_sorted edits span).trans ((h.kept span).trans (filter_sorted edits' span).symm)

/-- Registration matters only for edits of one span: in any other order that keeps theirs, edits
give the same text or fail with the same error. -/
theorem apply_eq_of_reordered (source : String) {edits edits' : List Edit}
    (h : Reordered edits edits') : apply edits source = apply edits' source := by
  rw [apply, apply, h.sorted_eq]

/-- Two insertions at one place between a replacement and a reversed span that overlap. -/
theorem apply_eq_of_reordered_overlapping :
    Reordered [insert 3 "b", ⟨⟨4, 2⟩, "a"⟩, insert 3 "c", ⟨⟨3, 5⟩, "y"⟩]
        [⟨⟨3, 5⟩, "y"⟩, insert 3 "b", insert 3 "c", ⟨⟨4, 2⟩, "a"⟩] ∧
      apply [insert 3 "b", ⟨⟨4, 2⟩, "a"⟩, insert 3 "c", ⟨⟨3, 5⟩, "y"⟩] "012345" =
        apply [⟨⟨3, 5⟩, "y"⟩, insert 3 "b", insert 3 "c", ⟨⟨4, 2⟩, "a"⟩] "012345" := by
  have h : Reordered [insert 3 "b", ⟨⟨4, 2⟩, "a"⟩, insert 3 "c", ⟨⟨3, 5⟩, "y"⟩]
      [⟨⟨3, 5⟩, "y"⟩, insert 3 "b", insert 3 "c", ⟨⟨4, 2⟩, "a"⟩] := by
    refine ⟨by decide, fun span => ?_⟩
    simp only [filter_cons]
    grind [Edit.insert, Span.ofOffsets, Span.offsetLimit]
  exact ⟨h, apply_eq_of_reordered "012345" h⟩

def copied (source : List UInt8) (start stop : Nat) : List (Option Nat × UInt8) :=
  ((source.zipIdx.take stop).drop start).map fun b => (some b.2, b.1)

/-- The bytes that a pass writes from `last` on. Those that it copies have their offset in the
source, and those that it inserts have none. -/
def tracedFrom (source : List UInt8) : Nat → List Edit → List (Option Nat × UInt8)
  | last, [] => copied source last source.length
  | last, e :: es => copied source last e.span.start ++
      ((bytes e.text.toList).map fun b => (none, b)) ++ tracedFrom source e.span.stop es

def traced (source : String) (edits : List Edit) : List (Option Nat × UInt8) :=
  tracedFrom (bytes source.toList) 0 (sorted edits)

def copiedOffsets (source : String) (edits : List Edit) : List Nat :=
  (traced source edits).filterMap Prod.fst

theorem map_snd_copied (source : List UInt8) (start stop : Nat) :
    (copied source start stop).map Prod.snd = (source.take stop).drop start := by
  have hsnd : (Prod.snd ∘ fun b : UInt8 × Nat => (some b.2, b.1)) = Prod.fst := rfl
  rw [copied, map_map, hsnd, map_drop, map_take, zipIdx_map_fst]

theorem map_snd_copied_of_split {source left middle right : List Char}
    (h : source = left ++ (middle ++ right)) :
    (copied (bytes source) (byteLength left) (byteLength left + byteLength middle)).map Prod.snd =
      bytes middle := by
  rw [map_snd_copied, h, bytes_append, bytes_append, ← append_assoc, ← length_bytes,
    ← length_bytes, ← length_append, take_left, drop_left]

theorem filterMap_fst_copied (source : List UInt8) (start stop : Nat) :
    (copied source start stop).filterMap Prod.fst =
      List.range' start (min stop source.length - start) := by
  have hfst : (Prod.fst ∘ fun b : UInt8 × Nat => (some b.2, b.1)) = fun b => some b.2 := rfl
  rw [copied, filterMap_map, hfst, filterMap_eq_map', map_drop, map_take,
    zipIdx_map_snd, ← range_eq_range', take_range, range_eq_range',
    drop_range']
  simp

variable {source text : String}

theorem map_snd_tracedFrom {left right : List Char} (hs : source.toList = left ++ right)
    {es : List Edit} (h : applyFrom source (byteLength left) es = .ok text) :
    (tracedFrom (bytes source.toList) (byteLength left) es).map Prod.snd = bytes text.toList := by
  induction es generalizing left right text with
  | nil =>
    simp only [applyFrom, dropBytes_eq hs, Except.ok.injEq] at h
    have hsplit : source.toList = left ++ (right ++ []) := by rw [append_nil, hs]
    have hcopied := map_snd_copied_of_split hsplit
    rw [← byteLength_append, ← hs] at hcopied
    rw [tracedFrom, length_bytes, hcopied, ← h, String.toList_ofList]
  | cons e es ih =>
    obtain ⟨⟨hstart, hstop⟩, hl, rest, hr, rfl⟩ := (applyFrom_cons source _ e es text).mp h
    obtain ⟨l₁, r₁, h₁, hn₁⟩ := isBoundary_iff.mp hstart
    obtain ⟨l₂, r₂, h₂, hn₂⟩ := isBoundary_iff.mp hstop
    obtain ⟨kept, rfl, rfl⟩ := split_of_le (hs.symm.trans h₁) (by omega)
    rw [byteLength_append] at hn₁
    have hrest := ih h₂ (hn₂ ▸ hr)
    rw [tracedFrom, ← hn₁, ← hn₂, map_append, map_append, hrest, slice?_eq hs,
      map_snd_copied_of_split hs]
    simp [bytes_append, Function.comp_def]

theorem mem_tracedFrom {source : List UInt8} {last i : Nat} {es : List Edit} {b : UInt8}
    (h : (some i, b) ∈ tracedFrom source last es) : source[i]? = some b := by
  have hcopied {start stop : Nat} (h : (some i, b) ∈ copied source start stop) :
      source[i]? = some b := by
    obtain ⟨x, hx, heq⟩ := mem_map.mp h
    obtain ⟨rfl, rfl⟩ : x.2 = i ∧ x.1 = b := by simpa using heq
    exact mem_zipIdx_iff_getElem?.mp (mem_of_mem_take (mem_of_mem_drop hx))
  induction es generalizing last with
  | nil => exact hcopied h
  | cons e es ih =>
    simp only [tracedFrom, mem_append, mem_map, Prod.mk.injEq, reduceCtorEq, false_and,
      and_false, exists_false, or_false] at h
    exact h.elim hcopied ih

theorem InTurn.le_start {last : Nat} {es : List Edit} (h : InTurn last es)
    (hspans : ∀ e ∈ es, e.span.start ≤ e.span.stop) : ∀ e ∈ es, last ≤ e.span.start := by
  induction es generalizing last with
  | nil => simp
  | cons e es ih =>
    obtain ⟨hspan, hspans⟩ := forall_mem_cons.mp hspans
    refine forall_mem_cons.mpr ⟨h.1, fun e' he' => ?_⟩
    have := ih h.2 hspans e' he'
    have := h.1
    omega

theorem filterMap_fst_tracedFrom (source : List UInt8) (last : Nat) (e : Edit) (es : List Edit) :
    (tracedFrom source last (e :: es)).filterMap Prod.fst =
      List.range' last (min e.span.start source.length - last) ++
        (tracedFrom source e.span.stop es).filterMap Prod.fst := by
  rw [tracedFrom, filterMap_append, filterMap_append, filterMap_fst_copied,
    filterMap_map]
  simp

section Offsets

variable (source : List UInt8) {last : Nat} {es : List Edit}

theorem mem_filterMap_fst_tracedFrom (h : InTurn last es)
    (hspans : ∀ e ∈ es, e.span.start ≤ e.span.stop) (i : Nat) :
    i ∈ (tracedFrom source last es).filterMap Prod.fst ↔
      last ≤ i ∧ i < source.length ∧ ∀ e ∈ es, ¬ (e.span.start ≤ i ∧ i < e.span.stop) := by
  induction es generalizing last with
  | nil =>
    rw [tracedFrom, filterMap_fst_copied, mem_range'_1]
    simp
    omega
  | cons e es ih =>
    obtain ⟨hspan, hspans⟩ := forall_mem_cons.mp hspans
    have hafter := h.2.le_start hspans
    have hlast := h.1
    rw [filterMap_fst_tracedFrom, mem_append, mem_range'_1, ih h.2 hspans,
      forall_mem_cons]
    constructor
    · rintro (hi | ⟨hstop, hi⟩)
      · refine ⟨by omega, by omega, by omega, fun e' he' => ?_⟩
        have := hafter e' he'
        omega
      · exact ⟨by omega, hi.1, by omega, hi.2⟩
    · rintro ⟨hi, hlength, hout, hrest⟩
      by_cases hstart : i < e.span.start
      · left
        omega
      · exact .inr ⟨by omega, hlength, hrest⟩

theorem pairwise_filterMap_fst_tracedFrom (h : InTurn last es)
    (hspans : ∀ e ∈ es, e.span.start ≤ e.span.stop) :
    ((tracedFrom source last es).filterMap Prod.fst).Pairwise (· < ·) := by
  induction es generalizing last with
  | nil =>
    rw [tracedFrom, filterMap_fst_copied]
    exact pairwise_lt_range'
  | cons e es ih =>
    obtain ⟨hspan, hspans⟩ := forall_mem_cons.mp hspans
    rw [filterMap_fst_tracedFrom, pairwise_append]
    refine ⟨pairwise_lt_range', ih h.2 hspans, fun i hi j hj => ?_⟩
    rw [mem_range'_1] at hi
    rw [mem_filterMap_fst_tracedFrom source h.2 hspans] at hj
    omega

end Offsets

/-- Every byte that a pass writes is inserted or is copied from the source. If no span is reversed,
the bytes that no span covers are copied, in their order and each of them once. -/
theorem copied_at_most_once {edits : List Edit} (h : apply edits source = .ok text) :
    (traced source edits).map Prod.snd = bytes text.toList ∧
      (∀ i b, (some i, b) ∈ traced source edits → (bytes source.toList)[i]? = some b) ∧
      ((∀ e ∈ edits, e.span.start ≤ e.span.stop) →
        (copiedOffsets source edits).Pairwise (· < ·) ∧
          ∀ i, i ∈ copiedOffsets source edits ↔ i < (bytes source.toList).length ∧
            ∀ e ∈ edits, ¬ (e.span.start ≤ i ∧ i < e.span.stop)) := by
  refine ⟨map_snd_tracedFrom (nil_append _).symm h, fun i b => mem_tracedFrom, fun hspans => ?_⟩
  have hturn := ((applyFrom_isOk_iff source 0 (sorted edits)).mp ⟨text, h⟩).2
  have hsorted : ∀ e ∈ sorted edits, e.span.start ≤ e.span.stop :=
    fun e he => hspans e (mem_sorted.mp he)
  refine ⟨pairwise_filterMap_fst_tracedFrom _ hturn hsorted, fun i => ?_⟩
  rw [copiedOffsets, traced, mem_filterMap_fst_tracedFrom _ hturn hsorted]
  simp only [mem_sorted, Nat.zero_le, true_and]

/-- A replacement with an insertion before it, over a character of two bytes. -/
theorem copied_at_most_once_touching :
    apply [⟨⟨1, 3⟩, "x"⟩, insert 1 ">"] "aéb" = .ok "a>xb" ∧
      (∀ e ∈ [⟨⟨1, 3⟩, "x"⟩, insert 1 ">"], e.span.start ≤ e.span.stop) ∧
      (copiedOffsets "aéb" [⟨⟨1, 3⟩, "x"⟩, insert 1 ">"]).Pairwise (· < ·) := by
  have hsorted : sorted [⟨⟨1, 3⟩, "x"⟩, insert 1 ">"] = [insert 1 ">", ⟨⟨1, 3⟩, "x"⟩] := by
    simp [sorted, List.mergeSort, before, Edit.insert, Span.ofOffsets, Span.offsetLimit]
  have happly : apply [⟨⟨1, 3⟩, "x"⟩, insert 1 ">"] "aéb" = .ok "a>xb" := by
    rw [apply, hsorted]
    decide
  have hspans : ∀ e ∈ [⟨⟨1, 3⟩, "x"⟩, insert 1 ">"], e.span.start ≤ e.span.stop := by decide
  exact ⟨happly, hspans, ((copied_at_most_once happly).2.2 hspans).1⟩

/-- A reversed span is not refused, and what lies inside it is copied before it and again after. -/
theorem reversed_span_copies_twice :
    apply [⟨⟨4, 2⟩, "R"⟩] "abcdef" = .ok "abcdRcdef" ∧
      copiedOffsets "abcdef" [⟨⟨4, 2⟩, "R"⟩] = [0, 1, 2, 3, 2, 3, 4, 5] := by
  have hsorted : sorted [⟨⟨4, 2⟩, "R"⟩] = [⟨⟨4, 2⟩, "R"⟩] := mergeSort_singleton _
  rw [apply, copiedOffsets, traced, hsorted]
  decide

end PropContract.Edit
