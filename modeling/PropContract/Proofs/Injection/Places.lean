import Mathlib.Data.List.Pairwise
import PropContract.Proofs.Injection.Survey
import PropContract.Proofs.Injection.Widen
import PropContract.Proofs.Text.Splice

/-!
Places in a module that was read. The validators that are removed do not overlap, and nothing is
written inside of them.
-/

namespace PropContract.Injection

open Syntax Survey Text List

def Solid (source : String) (span : Span) : Prop :=
  span.start ≤ span.stop ∧
    (charAfter? source span.start).any (fun c => !c.isWhitespace) = true ∧
    (charBefore? source span.stop).any (fun c => !c.isWhitespace) = true

instance (source : String) (span : Span) : Decidable (Solid source span) :=
  inferInstanceAs (Decidable (_ ∧ _ ∧ _))

def isCompound (item : Item) : Bool :=
  match item.kind with
  | .statement (.group _) => true
  | _ => false

def InClass (source : String) (item : Item) (span : Span) : Prop :=
  item.span.start ≤ span.start ∧
    ∃ close < item.span.stop, span.stop ≤ close ∧ charAfter? source close = some '\x7d'

instance (source : String) (item : Item) (span : Span) : Decidable (InClass source item span) :=
  inferInstanceAs (Decidable (_ ∧ _))

/-- Where a grammar puts items. They follow each other, and neither they nor the properties of
classes begin or end with a blank; properties lie in their class, beside each other. A semicolon
can only begin an empty statement. -/
structure WellPlaced (source : String) (items : List Item) : Prop where
  short : byteLength source.toList < Span.offsetLimit
  ascending : items.Pairwise fun a b => a.span.stop ≤ b.span.start
  solid : ∀ item ∈ items, Solid source item.span
  semicolon : ∀ item ∈ items, charAfter? source item.span.start = some ';' → isCompound item
  member : ∀ item ∈ items, ∀ span ∈ memberSpans item,
    Solid source span ∧ charAfter? source span.start ≠ some ';' ∧ InClass source item span
  disjoint : ∀ item ∈ items, (memberSpans item).Pairwise Span.Apart

instance (source : String) (items : List Item) : Decidable (WellPlaced source items) :=
  decidable_of_iff
    (byteLength source.toList < Span.offsetLimit ∧
      (items.Pairwise fun a b => a.span.stop ≤ b.span.start) ∧
      (∀ item ∈ items, Solid source item.span) ∧
      (∀ item ∈ items, charAfter? source item.span.start = some ';' → isCompound item) ∧
      (∀ item ∈ items, ∀ span ∈ memberSpans item,
        Solid source span ∧ charAfter? source span.start ≠ some ';' ∧ InClass source item span) ∧
      ∀ item ∈ items, (memberSpans item).Pairwise Span.Apart)
    ⟨fun ⟨h₁, h₂, h₃, h₄, h₅, h₆⟩ => ⟨h₁, h₂, h₃, h₄, h₅, h₆⟩,
      fun ⟨h₁, h₂, h₃, h₄, h₅, h₆⟩ => ⟨h₁, h₂, h₃, h₄, h₅, h₆⟩⟩

theorem isWhitespace_of_isIndent {c : Char} (h : isIndent c) : c.isWhitespace := by
  simp only [isIndent, Bool.or_eq_true, decide_eq_true_eq] at h
  rcases h with rfl | rfl <;> rfl

theorem isWhitespace_of_isTrailing {c : Char} (h : isTrailing c) : c.isWhitespace ∨ c = ';' := by
  simp only [isTrailing, isIndentOrEnd, Bool.or_eq_true, decide_eq_true_eq] at h
  rcases h with ((h | rfl) | rfl) | rfl
  · exact .inl (isWhitespace_of_isIndent h)
  · exact .inr rfl
  · exact .inl rfl
  · exact .inl rfl

namespace Solid

variable {source : String} {span : Span}

section

variable (h : Solid source span)

include h

theorem exists_first : ∃ c, charAfter? source span.start = some c ∧ c.isWhitespace = false := by
  obtain ⟨-, hfirst, -⟩ := h
  simpa [Option.any_eq_true] using hfirst

theorem exists_last : ∃ c, charBefore? source span.stop = some c ∧ c.isWhitespace = false := by
  obtain ⟨-, -, hlast⟩ := h
  simpa [Option.any_eq_true] using hlast

theorem extends_widen : Extends source span (widen source span) := by
  obtain ⟨c, hc, -⟩ := h.exists_first
  obtain ⟨c', hc', -⟩ := h.exists_last
  exact widen_extends (isBoundary_of_charAfter? hc) (isBoundary_of_charBefore? hc')

theorem le_widen_start {n : Nat} {c : Char} (hc : charBefore? source n = some c)
    (hblank : c.isWhitespace = false) (hn : n ≤ span.start) : n ≤ (widen source span).start := by
  by_contra hlt
  have hindent := h.extends_widen.charBefore (by omega) hn hc
  simp [isWhitespace_of_isIndent hindent] at hblank

theorem widen_stop_le {n : Nat} {c : Char} (hc : charAfter? source n = some c)
    (hblank : c.isWhitespace = false) (hend : c ≠ ';') (hn : span.stop ≤ n) :
    (widen source span).stop ≤ n := by
  by_contra hlt
  have htrailing := h.extends_widen.charAfter hn (by omega) hc
  rcases isWhitespace_of_isTrailing htrailing with hspace | rfl
  · simp [hspace] at hblank
  · exact hend rfl

end

end Solid

/-- Spans that follow each other still do so with all that goes with them. What both could claim is
the blanks between them; but when the first one takes them, it takes a line break too, and the
second one stops there. -/
theorem widen_ascending {source : String} {a b : Span} (ha : Solid source a) (hb : Solid source b)
    (hend : charAfter? source b.start ≠ some ';') (hab : a.stop ≤ b.start) :
    (widen source a).stop ≤ (widen source b).start := by
  obtain ⟨c, hc, hcblank⟩ := hb.exists_first
  obtain ⟨c', hc', hc'blank⟩ := ha.exists_last
  have hlate : (widen source a).stop ≤ b.start :=
    ha.widen_stop_le hc hcblank (fun h => hend (h ▸ hc)) hab
  have hearly : a.stop ≤ (widen source b).start := hb.le_widen_start hc' hc'blank hab
  rcases widen_cases source a with hsame | ⟨-, -, hlines⟩
  · rwa [hsame]
  · rcases hlines with hlast | hbreak
    · have := lt_of_charAfter? hc
      omega
    · by_contra hlt
      have hindent := hb.extends_widen.charBefore (by omega) hlate hbreak
      simp [isIndent] at hindent

theorem isCompound_of_isAnchor {item : Item} (h : isAnchor item) : isCompound item = false := by
  unfold isCompound
  split
  · rename_i parts hkind
    simp [isAnchor, declaration?, hkind] at h
  · rfl

def RemovedApart (source : String) (x y : Existing) : Prop :=
  (widen source x.span).Apart (widen source y.span)

instance (source : String) : Std.Symm (RemovedApart source) :=
  ⟨fun _ _ h => Or.symm h⟩

namespace WellPlaced

variable {source : String} {items : List Item} {item : Item} {x : Existing}

section

variable (h : WellPlaced source items)

include h

theorem apart {item' : Item} (hitem : item ∈ items) (hitem' : item' ∈ items) (hne : item ≠ item') :
    item.span.Apart item'.span := by
  have hsymm : Std.Symm fun a b : Item => a.span.Apart b.span := ⟨fun _ _ hab => symm hab⟩
  have hapart : items.Pairwise fun a b => a.span.Apart b.span := h.ascending.imp Or.inl
  exact hapart.forall hitem hitem' hne

theorem validator (hitem : item ∈ items) (hx : x ∈ validators source item) :
    Solid source x.span ∧ charAfter? source x.span.start ≠ some ';' ∧
      item.span.start ≤ x.span.start ∧ x.span.stop ≤ item.span.stop := by
  rcases validators_cases source item with ⟨y, value, hy, -, hspan, hkind⟩ | ⟨hmembers, -⟩
  · obtain rfl : x = y := by simpa [hy] using hx
    rw [hspan]
    refine ⟨h.solid item hitem, ?_, Nat.le_refl _, Nat.le_refl _⟩
    intro hend
    have hcompound := h.semicolon item hitem hend
    simp [isCompound, hkind] at hcompound
  · have hmem : x.span ∈ memberSpans item := hmembers.subset (mem_map_of_mem hx)
    obtain ⟨hsolid, hend, hstart, close, hclose, hstop, -⟩ := h.member item hitem x.span hmem
    exact ⟨hsolid, hend, hstart, by omega⟩

theorem removedApart_of_le {item' : Item} {y : Existing} (hitem : item ∈ items)
    (hitem' : item' ∈ items) (hx : x ∈ validators source item) (hy : y ∈ validators source item')
    (hle : x.span.stop ≤ y.span.start) : RemovedApart source x y := by
  obtain ⟨hsolid, -, -, -⟩ := h.validator hitem hx
  obtain ⟨hsolid', hend, -, -⟩ := h.validator hitem' hy
  exact .inl (widen_ascending hsolid hsolid' hend hle)

theorem validators_apart (hitem : item ∈ items) :
    (validators source item).Pairwise (RemovedApart source) := by
  rcases validators_cases source item with ⟨y, value, hy, -⟩ | ⟨hmembers, -⟩
  · rw [hy]
    exact pairwise_singleton _ _
  · have hdisjoint := pairwise_map.mp ((h.disjoint item hitem).sublist hmembers)
    refine hdisjoint.imp_of_mem ?_
    rintro x y hx hy (hle | hle)
    · exact h.removedApart_of_le hitem hitem hx hy hle
    · exact symm (h.removedApart_of_le hitem hitem hy hx hle)

theorem existing_apart : (ofItems source items).existing.Pairwise (RemovedApart source) := by
  rw [ofItems_existing, pairwise_flatMap]
  refine ⟨fun item hitem => h.validators_apart hitem, h.ascending.imp_of_mem ?_⟩
  intro a b ha hb hab x hx y hy
  obtain ⟨-, -, -, hstop⟩ := h.validator ha hx
  obtain ⟨-, -, hstart, -⟩ := h.validator hb hy
  exact h.removedApart_of_le ha hb hx hy (by omega)

theorem existing_solid (hx : x ∈ (ofItems source items).existing) : Solid source x.span := by
  rw [ofItems_existing, mem_flatMap] at hx
  obtain ⟨item, hitem, hx⟩ := hx
  exact (h.validator hitem hx).1

/-- The end of an item that something can be written after lies outside of all that is removed:
an item before it ends there, an item after it begins there, and in the item itself there is the
brace that closes the class. -/
theorem anchor_outside (hitem : item ∈ items) (hanchor : isAnchor item)
    (hx : x ∈ (ofItems source items).existing) : item.span.stop ≤ (widen source x.span).start ∨
      (widen source x.span).stop ≤ item.span.stop := by
  rw [ofItems_existing, mem_flatMap] at hx
  obtain ⟨item', hitem', hx⟩ := hx
  obtain ⟨hsolid, -, hstart, hstop⟩ := h.validator hitem' hx
  by_cases hsame : item = item'
  · subst hsame
    rcases validators_cases source item with ⟨y, value, -, -, -, hkind⟩ | ⟨hmembers, -⟩
    · simp [isAnchor, declaration?, hkind] at hanchor
    · have hmem : x.span ∈ memberSpans item := hmembers.subset (mem_map_of_mem hx)
      obtain ⟨-, -, -, close, hclose, hle, hbrace⟩ := h.member item hitem x.span hmem
      have := hsolid.widen_stop_le hbrace (by decide) (by decide) hle
      exact .inr (by omega)
  · rcases h.apart hitem hitem' hsame with hle | hle
    · obtain ⟨c, hc, hblank⟩ := (h.solid item hitem).exists_last
      exact .inl (hsolid.le_widen_start hc hblank (by omega))
    · obtain ⟨c, hc, hblank⟩ := (h.solid item hitem).exists_first
      have hend : c ≠ ';' := by
        rintro rfl
        have hcompound := h.semicolon item hitem hc
        simp [isCompound_of_isAnchor hanchor] at hcompound
      have := hsolid.widen_stop_le hc hblank hend (by omega)
      have := (h.solid item hitem).1
      exact .inr (by omega)

end

end WellPlaced

end PropContract.Injection
