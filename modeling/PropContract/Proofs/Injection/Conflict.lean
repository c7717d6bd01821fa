import PropContract.Proofs.Injection.Places
import PropContract.Proofs.Injection.Plan
import PropContract.Proofs.Project.Reading

/-!
The changes of an injection never get in each other's way, so it fails only when it is refused.
-/

namespace PropContract.Injection

open Syntax Survey Text List Nat

theorem isAnchor_of_declares {item : Item} {name : String} (h : Declares item name) :
    isAnchor item := by
  obtain ⟨d, hd, -⟩ := h
  unfold isAnchor
  split
  · rfl
  · rfl
  · simp [hd]

theorem exists_declares {source : String} {items : List Item} {c : Component} {k : Candidate}
    (h : k ∈ matching (ofItems source items) c) :
    ∃ item ∈ items, Declares item c.name ∧ k.stop = item.span.stop := by
  obtain ⟨hk, hmatches⟩ := mem_filter.mp h
  simp only [Bool.and_eq_true, beq_iff_eq] at hmatches
  obtain ⟨item, hitem, hk⟩ := exists_mem_candidatesOf hk
  exact ⟨item, hitem, hmatches.1 ▸ of_mem_candidatesOf hk⟩

theorem mem_importEdits {o : InjectOptions} {found : Findings} {e : Edit}
    (h : e ∈ importEdits o found) :
    ∃ offset text, e = Edit.insert offset text ∧
      (text = "\n" ++ importLine o.validators found ∨
        text = importLine o.validators found ++ "\n") ∧
      (offset = 0 ∨ found.lastImport = some offset ∨ found.prologue = some offset) := by
  unfold importEdits at h
  split at h
  · dsimp only at h
    split at h
    · rename_i offset hoffset
      refine ⟨offset, _, mem_singleton.mp h, .inl rfl, .inr ?_⟩
      cases himport : found.lastImport with
      | none => exact .inr (by simpa [himport] using hoffset)
      | some n => exact .inl (by simpa [himport] using hoffset)
    · exact ⟨0, _, mem_singleton.mp h, .inr rfl, .inl rfl⟩
  · simp at h

def IsPoint (items : List Item) (n : Nat) : Prop :=
  n = 0 ∨ ∃ item ∈ items, isAnchor item ∧ n = item.span.stop

theorem isPoint_of_planned {o : InjectOptions} {d : Document} {source : String} {items : List Item}
    {change : Change} (h : Planned o (ofItems source items) d change)
    (htaken : change.taken? = none) :
    ∃ n text, change.edit o source (ofItems source items) = Edit.insert n text ∧
      IsPoint items n := by
  cases change with
  | append c k =>
    obtain ⟨item, hitem, hdeclares, hstop⟩ := exists_declares h.2
    exact ⟨k.stop, _, rfl, .inr ⟨item, hitem, isAnchor_of_declares hdeclares, hstop⟩⟩
  | imports e =>
    obtain ⟨n, text, rfl, -, hn⟩ := mem_importEdits h
    exact ⟨n, text, rfl, hn.imp id ofItems_anchored⟩
  | replace | remove => simp [Change.taken?] at htaken

theorem mem_existing_of_planned {o : InjectOptions} {found : Findings} {d : Document}
    {change : Change} {x : Existing} (h : Planned o found d change)
    (htaken : change.taken? = some x) : x ∈ found.existing := by
  cases change with
  | replace c k y =>
    obtain rfl : y = x := Option.some.inj htaken
    exact mem_of_mem_filter (mem_of_find?_eq_some h.2.2)
  | remove c y =>
    obtain rfl : y = x := Option.some.inj htaken
    exact mem_of_mem_filter h.2
  | append | imports => simp [Change.taken?] at htaken

/-- Where an edit lies: at a place outside of all that is removed, or inside of what goes with the
validators that it takes away. -/
inductive Lies (source : String) (found : Findings) : Option Existing → Edit → Prop
  | point {e : Edit} {n : Nat} (hspan : e.span = ⟨n, n⟩)
      (houtside : ∀ x ∈ found.existing, Span.Apart ⟨n, n⟩ (widen source x.span)) :
      Lies source found none e
  | within {e : Edit} {x : Existing} (hx : x ∈ found.existing)
      (hstart : (widen source x.span).start ≤ e.span.start) (hspan : e.span.start ≤ e.span.stop)
      (hstop : e.span.stop ≤ (widen source x.span).stop) : Lies source found (some x) e

namespace Lies

variable {source : String} {found : Findings} {taken taken' : Option Existing} {e e' : Edit}

theorem start_le_stop (h : Lies source found taken e) : e.span.start ≤ e.span.stop := by
  cases h with
  | point hspan => rw [hspan]
  | within _ _ hspan _ => exact hspan

theorem apart (h : Lies source found taken e) (h' : Lies source found taken' e')
    (hremoved : ∀ x, taken = some x → ∀ y, taken' = some y → RemovedApart source x y) :
    Edit.Apart e e' := by
  unfold Edit.Apart Span.Apart
  cases h with
  | point hspan houtside =>
    cases h' with
    | point hspan' _ =>
      rw [hspan, hspan']
      exact le_total _ _
    | within hx hstart _ hstop =>
      rw [hspan]
      exact (houtside _ hx).imp (le_trans · hstart) (le_trans hstop ·)
  | within hx hstart _ hstop =>
    cases h' with
    | point hspan' houtside =>
      rw [hspan']
      exact (houtside _ hx).symm.imp (le_trans hstop ·) (le_trans · hstart)
    | within _ hstart' _ hstop' =>
      rcases hremoved _ rfl _ rfl with hle | hle
      · exact .inl (by omega)
      · exact .inr (by omega)

end Lies

section Placed

variable {source : String} {items : List Item} (hplaced : WellPlaced source items)

include hplaced

theorem point_outside {n : Nat} (hn : IsPoint items n) :
    n < Span.offsetLimit ∧ isBoundary source n ∧
      ∀ x ∈ (ofItems source items).existing, Span.Apart ⟨n, n⟩ (widen source x.span) := by
  rcases hn with rfl | ⟨item, hitem, hanchor, rfl⟩
  · exact ⟨by decide, isBoundary_iff.mpr ⟨[], _, rfl, rfl⟩, fun x _ => .inl (zero_le _)⟩
  · obtain ⟨c, hc, -⟩ := (hplaced.solid item hitem).exists_last
    have hboundary := isBoundary_of_charBefore? hc
    exact ⟨lt_of_le_of_lt (le_of_isBoundary hboundary) hplaced.short, hboundary,
      fun x hx => hplaced.anchor_outside hitem hanchor hx⟩

variable {o : InjectOptions} {d : Document}

theorem edit_lies {change : Change} (h : Planned o (ofItems source items) d change) :
    (change.edit o source (ofItems source items)).Fits source ∧
      Lies source (ofItems source items) change.taken?
        (change.edit o source (ofItems source items)) := by
  cases htaken : change.taken? with
  | none =>
    obtain ⟨n, text, hedit, hn⟩ := isPoint_of_planned h htaken
    obtain ⟨hlimit, hboundary, houtside⟩ := point_outside hplaced hn
    have hspan : (Edit.insert n text).span = ⟨n, n⟩ := by
      simp [Edit.insert, Span.ofOffsets, mod_eq_of_lt hlimit]
    rw [hedit]
    exact ⟨by rw [Edit.Fits, hspan]; exact ⟨hboundary, hboundary⟩, .point hspan houtside⟩
  | some x =>
    have hx := mem_existing_of_planned h htaken
    have hsolid := hplaced.existing_solid hx
    have hextends := hsolid.extends_widen
    have hstart := hextends.start_le
    have hstop := hextends.le_stop
    have hspan := hsolid.1
    cases change with
    | replace c k y =>
      obtain rfl : y = x := Option.some.inj htaken
      obtain ⟨c, hc, -⟩ := hsolid.exists_first
      obtain ⟨c', hc', -⟩ := hsolid.exists_last
      exact ⟨⟨isBoundary_of_charAfter? hc, isBoundary_of_charBefore? hc'⟩,
        .within hx hstart hspan hstop⟩
    | remove c y =>
      obtain rfl : y = x := Option.some.inj htaken
      refine ⟨⟨hextends.isBoundary_start, hextends.isBoundary_stop⟩,
        .within hx (le_refl _) ?_ (le_refl _)⟩
      change (widen source y.span).start ≤ (widen source y.span).stop
      omega
    | append | imports => simp [Change.taken?] at htaken

theorem taken_apart (h : Injectable o (ofItems source items) d) :
    ((changes o (ofItems source items) d).filterMap Change.taken?).Pairwise
      (RemovedApart source) := by
  have hexisting := hplaced.existing_apart
  rw [changes_taken? h.matched, pairwise_flatMap]
  refine ⟨fun c _ => hexisting.filter _, (pairwise_map.mp h.distinct).imp ?_⟩
  intro c c' hne x hx y hy
  have hcomponent : x.component = c.name := by simpa using of_mem_filter hx
  have hcomponent' : y.component = c'.name := by simpa using of_mem_filter hy
  refine hexisting.forall (mem_of_mem_filter hx) (mem_of_mem_filter hy) ?_
  rintro rfl
  exact hne (hcomponent.symm.trans hcomponent')

theorem apply_changes (h : Injectable o (ofItems source items) d) :
    ∃ text, Edit.apply ((changes o (ofItems source items) d).map
      (Change.edit o source (ofItems source items))) source = .ok text := by
  have hlies := fun change (hc : change ∈ changes o (ofItems source items) d) =>
    edit_lies hplaced (planned_of_mem hc)
  rw [Edit.apply_isOk_iff]
  · refine ⟨forall_mem_map.mpr fun change hc => (hlies change hc).1, ?_⟩
    rw [pairwise_map]
    refine (pairwise_filterMap.mp (taken_apart hplaced h)).imp_of_mem ?_
    intro a b ha hb hab
    exact (hlies a ha).2.apart (hlies b hb).2 hab
  · exact forall_mem_map.mpr fun change hc => (hlies change hc).2.start_le_stop

theorem exists_inject_eq (hd : d.components ≠ [])
    (hparse : Grammar.parseModule (dialect o) source = .ok items)
    (h : Injectable o (ofItems source items) d) : ∃ text, inject o d source = .ok text := by
  obtain ⟨text, happly⟩ := apply_changes hplaced h
  exact ⟨text, (inject_eq_ok_iff hd hparse).mpr ⟨h, happly⟩⟩

end Placed

theorem existingOf_eq_nil_iff (source : String) (items : List Item) (c : Component) :
    existingOf (ofItems source items) c = [] ↔
      ∀ item ∈ items, ∀ span, ¬ Holds item c.name span := by
  rw [existingOf, ofItems_existing, filter_eq_nil_iff]
  simp only [mem_flatMap, beq_iff_eq]
  constructor
  · intro h item hitem span hholds
    obtain ⟨x, hx, hcomponent⟩ := exists_mem_validators source hholds
    exact h x ⟨item, hitem, hx⟩ hcomponent
  · rintro h x ⟨item, hitem, hx⟩ hcomponent
    exact h item hitem x.span (hcomponent ▸ holds_of_mem_validators hx)

theorem injectable_iff_conditions (o : InjectOptions) (d : Document) (source : String)
    (items : List Item) :
    Injectable o (ofItems source items) d ↔
      (d.components.map Component.name).Nodup ∧
      (∀ c ∈ d.components, ((ofItems source items).candidates.countP fun k =>
        k.name == c.name && k.fingerprint.accepts c.kind) = 1) ∧
      (o.conflict ≠ .fail ∨
        ∀ c ∈ d.components, ∀ item ∈ items, ∀ span, ¬ Holds item c.name span) := by
  simp only [← existingOf_eq_nil_iff source items, countP_eq_length_filter]
  exact ⟨fun ⟨hdistinct, hmatched, hallowed⟩ => ⟨hdistinct, hmatched, hallowed⟩,
    fun ⟨hdistinct, hmatched, hallowed⟩ => ⟨hdistinct, hmatched, hallowed⟩⟩

/-- A document can be written into a module that was read exactly when its components have
different names, each of them has one candidate of its kind at the top level, and validators that
are there already may be rewritten. The edits of an injection are never at fault. -/
theorem inject_isOk_iff (o : InjectOptions) (d : Document) (source : String) (items : List Item)
    (hd : d.components ≠ []) (hparse : Grammar.parseModule (dialect o) source = .ok items)
    (hplaced : WellPlaced source items) :
    ((∃ text, inject o d source = .ok text) ↔
      (d.components.map Component.name).Nodup ∧
      (∀ c ∈ d.components, ((ofItems source items).candidates.countP fun k =>
        k.name == c.name && k.fingerprint.accepts c.kind) = 1) ∧
      (o.conflict ≠ .fail ∨
        ∀ c ∈ d.components, ∀ item ∈ items, ∀ span, ¬ Holds item c.name span)) ∧
    ∀ components cause, inject o d source ≠ .error (.edit components cause) := by
  rw [← injectable_iff_conditions]
  by_cases h : Injectable o (ofItems source items) d
  · obtain ⟨text, hinject⟩ := exists_inject_eq hplaced hd hparse h
    exact ⟨⟨fun _ => h, fun _ => ⟨text, hinject⟩⟩, by simp [hinject]⟩
  · obtain ⟨e, hinject, hrefusal⟩ := inject_of_not_injectable hd hparse h
    refine ⟨⟨?_, fun h' => absurd h' h⟩, ?_⟩
    · rintro ⟨text, htext⟩
      simp [hinject] at htext
    · intro components cause hcause
      rw [hinject] at hcause
      exact hrefusal components cause (Except.error.inj hcause)

def crowdedModule : String :=
  "class A \x7b\n  static propTypes = \x7b\x7d;\n\x7d\nA.propTypes = \x7b x: 1 \x7d;\n" ++
    "const B = () => null;  B.propTypes = \x7b\x7d;\n"

def crowdedDocument : Document :=
  ⟨[{ name := "A", origin := default, kind := .classBased, props := [] },
    { name := "B", origin := default, kind := .function, props := [] }]⟩

theorem crowdedModule_read :
    ∃ items, Grammar.parseModule (dialect { conflict := .merge }) crowdedModule = .ok items ∧
      WellPlaced crowdedModule items ∧
      (∀ c ∈ crowdedDocument.components, ((ofItems crowdedModule items).candidates.countP fun k =>
        k.name == c.name && k.fingerprint.accepts c.kind) = 1) ∧
      ∃ item ∈ items, ∃ x ∈ validators crowdedModule item, x.component = "A" :=
  Project.exists_ok_of_any (by decide +kernel)

theorem inject_isOk_iff_crowded :
    ∃ items, Grammar.parseModule (dialect { conflict := .merge }) crowdedModule = .ok items ∧
      WellPlaced crowdedModule items ∧
      (∃ text, inject { conflict := .merge } crowdedDocument crowdedModule = .ok text) ∧
      ¬ ∃ text, inject { conflict := .fail } crowdedDocument crowdedModule = .ok text := by
  obtain ⟨items, hparse, hplaced, hmatched, item, hitem, x, hx, hcomponent⟩ := crowdedModule_read
  have hne : crowdedDocument.components ≠ [] := by simp [crowdedDocument]
  refine ⟨items, hparse, hplaced, ?_, ?_⟩
  · exact (inject_isOk_iff { conflict := .merge } crowdedDocument crowdedModule items hne hparse
      hplaced).1.mpr ⟨by decide, hmatched, .inl (by decide)⟩
  · have hsame : dialect { conflict := .fail } = dialect { conflict := .merge } := rfl
    rw [(inject_isOk_iff { conflict := .fail } crowdedDocument crowdedModule items hne
      (hsame ▸ hparse) hplaced).1]
    rintro ⟨-, -, hallowed⟩
    rcases hallowed with hallowed | hallowed
    · exact hallowed rfl
    · exact hallowed _ mem_cons_self item hitem x.span
        (hcomponent ▸ holds_of_mem_validators hx)

end PropContract.Injection
