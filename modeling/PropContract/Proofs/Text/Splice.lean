import Mathlib.Data.List.Chain
import PropContract.Proofs.Text.Cut
import PropContract.Text.Edit

namespace PropContract

open Text List

def Span.Apart (a b : Span) : Prop :=
  a.stop ≤ b.start ∨ b.stop ≤ a.start

instance : Std.Symm Span.Apart :=
  ⟨fun _ _ h => Or.symm h⟩

instance (a b : Span) : Decidable (a.Apart b) :=
  inferInstanceAs (Decidable (_ ∨ _))

structure Piece where
  kept : List Char
  removed : List Char
  inserted : List Char

structure Patch where
  pieces : List Piece
  rest : List Char

namespace Patch

def before (p : Patch) : List Char :=
  p.pieces.flatMap (fun q => q.kept ++ q.removed) ++ p.rest

def after (p : Patch) : List Char :=
  p.pieces.flatMap (fun q => q.kept ++ q.inserted) ++ p.rest

def kept (p : Patch) : List Char :=
  p.pieces.flatMap Piece.kept ++ p.rest

def editsFrom : Nat → List Piece → List Edit
  | _, [] => []
  | offset, q :: qs =>
    let start := offset + byteLength q.kept
    let stop := start + byteLength q.removed
    ⟨⟨start, stop⟩, String.ofList q.inserted⟩ :: editsFrom stop qs

def edits (p : Patch) : List Edit :=
  editsFrom 0 p.pieces

theorem removed_of_editsFrom {offset : Nat} {pieces : List Piece}
    (h : ∀ e ∈ editsFrom offset pieces, e.span.start = e.span.stop) :
    ∀ q ∈ pieces, q.removed = [] := by
  induction pieces generalizing offset with
  | nil => simp
  | cons q qs ih =>
    obtain ⟨hq, hqs⟩ := forall_mem_cons.mp h
    refine forall_mem_cons.mpr ⟨byteLength_eq_zero ?_, ih hqs⟩
    dsimp only at hq
    omega

theorem kept_eq_before {p : Patch} (h : ∀ e ∈ p.edits, e.span.start = e.span.stop) :
    p.kept = p.before := by
  have hremoved := removed_of_editsFrom h
  rw [kept, before]
  congr 1
  refine flatMap_congr fun q hq => ?_
  rw [hremoved q hq, append_nil]

end Patch

namespace Edit

def Fits (source : String) (e : Edit) : Prop :=
  isBoundary source e.span.start ∧ isBoundary source e.span.stop

def InTurn : Nat → List Edit → Prop
  | _, [] => True
  | last, e :: es => last ≤ e.span.start ∧ InTurn e.span.stop es

theorem applyFrom_cons (source : String) (last : Nat) (e : Edit) (es : List Edit) (text : String) :
    applyFrom source last (e :: es) = .ok text ↔
      Fits source e ∧ last ≤ e.span.start ∧ ∃ rest, applyFrom source e.span.stop es = .ok rest ∧
        (slice? source last e.span.start).getD "" ++ e.text ++ rest = text := by
  rw [applyFrom]
  by_cases hf : Fits source e
  · have hb : (!isBoundary source e.span.start || !isBoundary source e.span.stop) = false := by
      simp [hf.1, hf.2]
    rw [hb]
    by_cases hl : e.span.start < last
    · have hn : ¬ last ≤ e.span.start := by omega
      simp [hl, hn]
    · have hle : last ≤ e.span.start := by omega
      cases applyFrom source e.span.stop es with
      | error err => simp [hl, bind, Except.bind]
      | ok rest => simp [hl, hf, hle, bind, Except.bind]
  · have hb : (!isBoundary source e.span.start || !isBoundary source e.span.stop) = true := by
      have hn := hf
      simp only [Fits] at hn
      grind
    simp [hb, hf]

theorem applyFrom_isOk_iff (source : String) (last : Nat) (es : List Edit) :
    (∃ text, applyFrom source last es = .ok text) ↔ (∀ e ∈ es, Fits source e) ∧ InTurn last es := by
  induction es generalizing last with
  | nil => simp [applyFrom, InTurn]
  | cons e es ih =>
    simp only [applyFrom_cons, InTurn, mem_cons, forall_eq_or_imp]
    constructor
    · rintro ⟨text, hf, hl, rest, hr, -⟩
      obtain ⟨hfs, ht⟩ := (ih e.span.stop).mp ⟨rest, hr⟩
      exact ⟨⟨hf, hfs⟩, hl, ht⟩
    · rintro ⟨⟨hf, hfs⟩, hl, ht⟩
      obtain ⟨rest, hr⟩ := (ih e.span.stop).mpr ⟨hfs, ht⟩
      exact ⟨_, hf, hl, rest, hr, rfl⟩

variable {source text lead : String} {edits : List Edit}

theorem applyFrom_patch {left right : List Char} {es : List Edit}
    (hs : source.toList = left ++ right) (hspans : ∀ e ∈ es, e.span.start ≤ e.span.stop)
    (h : applyFrom source (byteLength left) es = .ok text) :
    ∃ p : Patch, Patch.editsFrom (byteLength left) p.pieces = es ∧ p.before = right ∧
      p.after = text.toList := by
  induction es generalizing left right text with
  | nil =>
    simp only [applyFrom, dropBytes_eq hs, Except.ok.injEq] at h
    subst h
    exact ⟨⟨[], right⟩, rfl, by simp [Patch.before], by simp [Patch.after]⟩
  | cons e es ih =>
    obtain ⟨⟨hstart, hstop⟩, hl, rest, hr, rfl⟩ := (applyFrom_cons source _ e es text).mp h
    obtain ⟨l₁, r₁, h₁, hn₁⟩ := isBoundary_iff.mp hstart
    obtain ⟨l₂, r₂, h₂, hn₂⟩ := isBoundary_iff.mp hstop
    have hss := hspans e mem_cons_self
    obtain ⟨kept, rfl, rfl⟩ := split_of_le (hs.symm.trans h₁) (by omega)
    obtain ⟨removed, rfl, rfl⟩ := split_of_le (h₁.symm.trans h₂) (by omega)
    obtain ⟨p, hp, hb, ha⟩ := ih h₂ (fun e' he' => hspans e' (mem_cons_of_mem e he'))
      (by rw [hn₂]; exact hr)
    refine ⟨⟨⟨kept, removed, e.text.toList⟩ :: p.pieces, p.rest⟩, ?_, ?_, ?_⟩
    · simp only [byteLength_append] at hn₁ hn₂ hp
      simp only [Patch.editsFrom, hp, String.ofList_toList]
      rw [hn₂, hn₁]
    · rw [← hb]
      simp [Patch.before]
    · rw [← hn₁, byteLength_append, slice?_eq hs]
      simp [Patch.after, ← ha]

def splice (e : Edit) (text : String) : Option String :=
  match cut? e.span.start text.toList, cut? e.span.stop text.toList with
  | some (left, _), some (_, right) => some (String.ofList left ++ e.text ++ String.ofList right)
  | _, _ => none

def spliceAll (es : List Edit) (text : String) : Option String :=
  es.foldrM splice text

theorem splice_eq (left removed inserted right : List Char) :
    splice ⟨⟨byteLength left, byteLength left + byteLength removed⟩, String.ofList inserted⟩
        (String.ofList (left ++ removed ++ right)) =
      some (String.ofList (left ++ inserted ++ right)) := by
  have hstart : cut? (byteLength left) (left ++ removed ++ right) = some (left, removed ++ right) :=
    cut?_eq_some_iff.mpr ⟨append_assoc left removed right, rfl⟩
  have hstop : cut? (byteLength left + byteLength removed) (left ++ removed ++ right) =
      some (left ++ removed, right) :=
    cut?_eq_some_iff.mpr ⟨rfl, byteLength_append left removed⟩
  simp only [splice, String.toList_ofList, hstart, hstop]
  simp only [String.ofList_append]

theorem spliceAll_patch (left : List Char) (p : Patch) :
    spliceAll (Patch.editsFrom (byteLength left) p.pieces) (String.ofList (left ++ p.before)) =
      some (String.ofList (left ++ p.after)) := by
  obtain ⟨pieces, rest⟩ := p
  induction pieces generalizing left with
  | nil => simp [spliceAll, Patch.editsFrom, Patch.before, Patch.after]
  | cons q qs ih =>
    have hrest := ih (left ++ q.kept ++ q.removed)
    have hq := splice_eq (left ++ q.kept) q.removed q.inserted (Patch.after ⟨qs, rest⟩)
    simp only [byteLength_append] at hrest hq
    have hb : left ++ Patch.before ⟨q :: qs, rest⟩ =
        left ++ q.kept ++ q.removed ++ Patch.before ⟨qs, rest⟩ := by simp [Patch.before]
    have ha : left ++ Patch.after ⟨q :: qs, rest⟩ =
        left ++ q.kept ++ q.inserted ++ Patch.after ⟨qs, rest⟩ := by simp [Patch.after]
    rw [spliceAll] at hrest
    rw [spliceAll, Patch.editsFrom, foldrM_cons, hb, hrest, ha]
    exact hq

def Earlier (a b : Edit × Nat) : Prop :=
  a.1.span.start < b.1.span.start ∨ a.1.span.start = b.1.span.start ∧
    (a.1.span.stop < b.1.span.stop ∨ a.1.span.stop = b.1.span.stop ∧ a.2 < b.2)

def InOrder (edits order : List Edit) : Prop :=
  ∃ numbered : List (Edit × Nat), numbered.Perm edits.zipIdx ∧ numbered.Pairwise Earlier ∧
    numbered.map Prod.fst = order

theorem before_iff {a b : Edit} : before a b ↔ a.span.start < b.span.start ∨
    a.span.start = b.span.start ∧ a.span.stop ≤ b.span.stop := by
  simp [before]

theorem before_trans (a b c : Edit) (hab : before a b) (hbc : before b c) : before a c := by
  rw [before_iff] at *
  omega

theorem before_total (a b : Edit) : before a b || before b a := by
  rw [Bool.or_eq_true, before_iff, before_iff]
  omega

theorem sorted_inOrder (edits : List Edit) : InOrder edits (sorted edits) := by
  let numbered := edits.zipIdx.mergeSort (List.zipIdxLE before)
  have hperm : numbered.Perm edits.zipIdx := mergeSort_perm _ _
  have hle : numbered.Pairwise fun a b => List.zipIdxLE before a b :=
    pairwise_mergeSort (zipIdxLE_trans before_trans) (zipIdxLE_total before_total) _
  have hne : numbered.Pairwise fun a b => a.2 ≠ b.2 := by
    rw [← pairwise_map, ← nodup_iff_pairwise_ne]
    refine (hperm.map Prod.snd).nodup_iff.mpr ?_
    rw [zipIdx_map_snd]
    exact nodup_range'
  refine ⟨numbered, hperm, (hle.and hne).imp ?_, mergeSort_zipIdx⟩
  rintro a b ⟨hab, hn⟩
  simp only [List.zipIdxLE, before] at hab
  simp only [Earlier]
  grind

theorem mem_sorted {e : Edit} : e ∈ sorted edits ↔ e ∈ edits :=
  (mergeSort_perm edits before).mem_iff

def Apart (a b : Edit) : Prop :=
  a.span.Apart b.span

theorem Apart.symm {a b : Edit} (h : Apart a b) : Apart b a :=
  Or.symm h

theorem inTurn_iff_isChain (es : List Edit) :
    InTurn 0 es ↔ es.IsChain fun a b => a.span.stop ≤ b.span.start := by
  cases es with
  | nil => simp [InTurn]
  | cons e es =>
    suffices h : InTurn e.span.stop es ↔
        (e :: es).IsChain fun a b => a.span.stop ≤ b.span.start by simp [InTurn, h]
    induction es generalizing e with
    | nil => simp [InTurn]
    | cons e' es ih => simp [InTurn, ih e']

/-- In the order of application, edits that follow each other are those that do not overlap; where
two of them begin together, the first is empty. -/
theorem inTurn_iff_pairwise {es : List Edit} {last : Nat}
    (hsort : es.Pairwise fun a b => before a b) (hspans : ∀ e ∈ es, e.span.start ≤ e.span.stop) :
    InTurn last es ↔ (∀ e ∈ es, last ≤ e.span.start) ∧ es.Pairwise Apart := by
  induction es generalizing last with
  | nil => simp [InTurn]
  | cons e es ih =>
    obtain ⟨hfirst, hrest⟩ := pairwise_cons.mp hsort
    have hspan := hspans e mem_cons_self
    have hapart : ∀ e' ∈ es, Apart e e' ↔ e.span.stop ≤ e'.span.start := by
      intro e' he'
      have hb := hfirst e' he'
      have hs := hspans e' (mem_cons_of_mem e he')
      rw [before_iff] at hb
      simp only [Apart, Span.Apart]
      omega
    have hstart : ∀ e' ∈ es, e.span.start ≤ e'.span.start := by
      intro e' he'
      have hb := hfirst e' he'
      rw [before_iff] at hb
      omega
    rw [InTurn, ih hrest fun e' he' => hspans e' (mem_cons_of_mem e he'),
      forall_mem_cons, pairwise_cons]
    constructor
    · rintro ⟨hl, ht, hp⟩
      exact ⟨⟨hl, fun e' he' => Nat.le_trans hl (hstart e' he')⟩,
        fun e' he' => (hapart e' he').mpr (ht e' he'), hp⟩
    · rintro ⟨⟨hl, -⟩, ht, hp⟩
      exact ⟨hl, fun e' he' => (hapart e' he').mp (ht e' he'), hp⟩

theorem inTurn_sorted_iff (hspans : ∀ e ∈ edits, e.span.start ≤ e.span.stop) :
    InTurn 0 (sorted edits) ↔ edits.Pairwise Apart := by
  have hsort := pairwise_mergeSort before_trans before_total edits
  rw [sorted, inTurn_iff_pairwise hsort fun e he => hspans e (mem_sorted.mp he),
    (mergeSort_perm edits before).pairwise_iff Apart.symm]
  simp

theorem apply_isOk_iff (source : String) (hspans : ∀ e ∈ edits, e.span.start ≤ e.span.stop) :
    (∃ text, apply edits source = .ok text) ↔
      (∀ e ∈ edits, Fits source e) ∧ edits.Pairwise Apart := by
  simp only [apply, applyFrom_isOk_iff, mem_sorted, inTurn_sorted_iff hspans]

theorem apply_patch (hspans : ∀ e ∈ edits, e.span.start ≤ e.span.stop)
    (h : apply edits source = .ok text) :
    ∃ p : Patch, p.edits = sorted edits ∧ p.before = source.toList ∧ p.after = text.toList :=
  applyFrom_patch (nil_append source.toList).symm
    (fun e he => hspans e (mem_sorted.mp he)) h

/-- An edit that keeps what it covers and writes a text before it. -/
def Leads (lead source : String) (e : Edit) : Prop :=
  ∃ part, e.span.slice? source = some part ∧ e.text = lead ++ part

theorem Leads.start_le_stop {e : Edit} (h : Leads lead source e) : e.span.start ≤ e.span.stop := by
  obtain ⟨part, hpart, -⟩ := h
  obtain ⟨left, right, -, hstart, hstop⟩ := slice?_eq_some_iff.mp hpart
  omega

theorem inserted_of_leads (left : List Char) {p : Patch}
    (hsource : source.toList = left ++ p.before)
    (h : ∀ e ∈ Patch.editsFrom (byteLength left) p.pieces, Leads lead source e) :
    ∀ q ∈ p.pieces, q.inserted = lead.toList ++ q.removed := by
  obtain ⟨pieces, rest⟩ := p
  induction pieces generalizing left with
  | nil => simp
  | cons q qs ih =>
    have hcut : source.toList =
        (left ++ q.kept) ++ (q.removed ++ Patch.before ⟨qs, rest⟩) := by
      simp [hsource, Patch.before]
    have hslice := slice?_eq hcut
    rw [byteLength_append] at hslice
    obtain ⟨hq, hqs⟩ := forall_mem_cons.mp h
    refine forall_mem_cons.mpr ⟨?_, ih (left ++ q.kept ++ q.removed) ?_ ?_⟩
    · obtain ⟨part, hpart, htext⟩ := hq
      obtain rfl : String.ofList q.removed = part := Option.some.inj (hslice.symm.trans hpart)
      simpa using congrArg String.toList htext
    · simp [hcut]
    · simpa only [byteLength_append] using hqs

theorem length_editsFrom (offset : Nat) (pieces : List Piece) :
    (Patch.editsFrom offset pieces).length = pieces.length := by
  induction pieces generalizing offset with
  | nil => rfl
  | cons q qs ih => simp [Patch.editsFrom, ih]

theorem length_of_leads (h : ∀ e ∈ edits, Leads lead source e)
    (happly : apply edits source = .ok text) :
    text.length = source.length + edits.length * lead.length ∧ (lead = "" → text = source) := by
  obtain ⟨p, hedits, hbefore, hafter⟩ := apply_patch (fun e he => (h e he).start_le_stop) happly
  have hinserted : ∀ q ∈ p.pieces, q.inserted = lead.toList ++ q.removed := by
    refine inserted_of_leads [] hbefore.symm fun e he => h e ?_
    rw [← mem_sorted, ← hedits]
    exact he
  have hlength : p.pieces.length = edits.length := by
    rw [← length_editsFrom 0, ← (mergeSort_perm edits before).length_eq]
    exact congrArg List.length hedits
  constructor
  · rw [← String.length_toList, ← String.length_toList, ← hafter, ← hbefore, ← hlength]
    clear hedits hbefore hafter hlength
    obtain ⟨pieces, rest⟩ := p
    simp only [Patch.after, Patch.before]
    induction pieces with
    | nil => simp
    | cons q qs ih =>
      obtain ⟨hq, hqs⟩ := forall_mem_cons.mp hinserted
      have hrest := ih hqs
      simp only [length_append, String.length_toList, flatMap_cons, hq, length_cons,
        Nat.add_mul] at hrest ⊢
      omega
  · rintro rfl
    rw [← String.toList_inj, ← hafter, ← hbefore, Patch.after, Patch.before]
    refine congrArg (· ++ p.rest) (flatMap_congr fun q hq => ?_)
    rw [hinserted q hq]
    rfl

/-- Edits whose spans are not reversed are spliced all at once. They can be applied exactly when
they fit into the text and no two overlap. The text is then the one that comes out when they are
spliced one at a time from the last to the first: all that no span covers is kept. -/
theorem apply_eq_spliceAll (source : String) (edits : List Edit)
    (hspans : ∀ e ∈ edits, e.span.start ≤ e.span.stop) :
    ∃ order, InOrder edits order ∧
      ((∃ text, apply edits source = .ok text) ↔
        (∀ e ∈ edits, Fits source e) ∧
          order.IsChain fun a b => a.span.stop ≤ b.span.start) ∧
      ((order.IsChain fun a b => a.span.stop ≤ b.span.start) ↔ edits.Pairwise Apart) ∧
      ∀ text, apply edits source = .ok text →
        spliceAll order source = some text ∧
          ∃ p : Patch, p.edits = order ∧ p.before = source.toList ∧ p.after = text.toList := by
  have hchain := inTurn_iff_isChain (sorted edits)
  refine ⟨sorted edits, sorted_inOrder edits, ?_, ?_, ?_⟩
  · rw [apply_isOk_iff source hspans, ← hchain, inTurn_sorted_iff hspans]
  · rw [← hchain, inTurn_sorted_iff hspans]
  · intro text h
    obtain ⟨p, he, hb, ha⟩ := apply_patch hspans h
    have hsplice := spliceAll_patch [] p
    simp only [nil_append, hb, ha, String.ofList_toList] at hsplice
    exact ⟨he ▸ hsplice, p, he, hb, ha⟩

/-- A replacement with insertions at both of its ends, two of them at the same place. -/
theorem apply_eq_spliceAll_touching :
    (∀ e ∈ [⟨⟨0, 3⟩, "xyz"⟩, insert 0 ">", insert 3 "<", insert 3 "."],
      e.span.start ≤ e.span.stop) ∧
      ∃ order, InOrder [⟨⟨0, 3⟩, "xyz"⟩, insert 0 ">", insert 3 "<", insert 3 "."] order ∧
        spliceAll order "aé!" = some ">xyz<.!" := by
  have hspans : ∀ e ∈ [⟨⟨0, 3⟩, "xyz"⟩, insert 0 ">", insert 3 "<", insert 3 "."],
      e.span.start ≤ e.span.stop := by decide
  have hsorted : sorted [⟨⟨0, 3⟩, "xyz"⟩, insert 0 ">", insert 3 "<", insert 3 "."] =
      [insert 0 ">", ⟨⟨0, 3⟩, "xyz"⟩, insert 3 "<", insert 3 "."] := by
    simp [sorted, List.mergeSort, before, Edit.insert, Span.ofOffsets, Span.offsetLimit]
  have happly : apply [⟨⟨0, 3⟩, "xyz"⟩, insert 0 ">", insert 3 "<", insert 3 "."] "aé!" =
      .ok ">xyz<.!" := by
    rw [apply, hsorted]
    decide
  obtain ⟨order, horder, -, -, htext⟩ := apply_eq_spliceAll "aé!" _ hspans
  exact ⟨hspans, order, horder, (htext _ happly).1⟩

end Edit

end PropContract
