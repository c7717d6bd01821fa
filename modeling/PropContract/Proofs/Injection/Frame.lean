import PropContract.Proofs.Injection.Conflict

/-!
What an injection leaves alone: all but the blocks, at most one line of import, and the validators
that were there.
-/

namespace PropContract.Injection

open Syntax Survey Text List

inductive Purpose where
  | block (c : Component)
  | removal (c : Component)
  | imports

namespace Purpose

def block? : Purpose → Option Component
  | block c => some c
  | _ => none

def isImport : Purpose → Bool
  | imports => true
  | _ => false

end Purpose

/-- The edits that an injection may make, by what they are for. -/
inductive Serves (o : InjectOptions) (d : Document) (source : String) (items : List Item) :
    Purpose → Edit → Prop
  | append {c : Component} {k : Candidate} {item : Item} (hc : c ∈ d.components)
      (hk : k ∈ matching (ofItems source items) c) (hitem : item ∈ items)
      (hdeclares : Declares item c.name) (hstop : k.stop = item.span.stop) :
      Serves o d source items (.block c)
        ⟨⟨item.span.stop, item.span.stop⟩, "\n\n" ++ blockFor o (ofItems source items) k c⟩
  | replace {c : Component} {k : Candidate} {item : Item} (hc : c ∈ d.components)
      (hk : k ∈ matching (ofItems source items) c)
      (hitem : items.find? (assigns c.name) = some item) :
      Serves o d source items (.block c)
        ⟨item.span, blockFor o (ofItems source items) k c⟩
  | remove {c : Component} {item : Item} {span wide : Span} (hc : c ∈ d.components)
      (hitem : item ∈ items) (hholds : Holds item c.name span) (hwide : Extends source span wide) :
      Serves o d source items (.removal c) ⟨wide, ""⟩
  | imports {n : Nat} {text : String}
      (htext : text = "\n" ++ importLine o.validators (ofItems source items) ∨
        text = importLine o.validators (ofItems source items) ++ "\n") :
      Serves o d source items .imports ⟨⟨n, n⟩, text⟩

def Change.purpose : Change → Purpose
  | append c _ | replace c _ _ => .block c
  | remove c _ => .removal c
  | imports _ => .imports

theorem Change.block?_purpose (change : Change) : change.purpose.block? = change.block? := by
  cases change <;> rfl

structure Oriented (items : List Item) : Prop where
  item : ∀ item ∈ items, item.span.start ≤ item.span.stop ∧ item.span.stop < Span.offsetLimit
  member : ∀ item ∈ items, ∀ span ∈ memberSpans item, span.start ≤ span.stop

variable {source : String} {items : List Item}

theorem WellPlaced.oriented (h : WellPlaced source items) : Oriented items := by
  refine ⟨fun item hitem => ?_, fun item hitem span hspan => (h.member item hitem span hspan).1.1⟩
  obtain ⟨c, hc, -⟩ := (h.solid item hitem).exists_last
  exact ⟨(h.solid item hitem).1,
    Nat.lt_of_le_of_lt (le_of_isBoundary (isBoundary_of_charBefore? hc)) h.short⟩

theorem validators_find? (source name : String) (item : Item) :
    (assigns name item = false ∧
        ((validators source item).filter (·.component == name)).find? isStatement = none) ∨
      assigns name item = true ∧ ∃ x,
        ((validators source item).filter (·.component == name)).find? isStatement = some x ∧
          x.span = item.span := by
  rcases validators_cases source item with ⟨x, value, hx, hplace, hspan, hkind⟩ | ⟨-, hmembers, hno⟩
  · rw [hx]
    by_cases hname : x.component = name
    · exact .inr ⟨by simp [assigns, hkind, hname], x, by simp [hname, isStatement, hplace], hspan⟩
    · exact .inl ⟨by simp [assigns, hkind, hname], by simp [hname]⟩
  · refine .inl ⟨hno name, find?_eq_none.mpr fun x hx => ?_⟩
    simp [isStatement, (hmembers x (mem_of_mem_filter hx)).1]

theorem find?_assigns {c : Component} {x : Existing}
    (h : (existingOf (ofItems source items) c).find? isStatement = some x) :
    ∃ item, items.find? (assigns c.name) = some item ∧ x.span = item.span := by
  rw [existingOf, ofItems_existing] at h
  induction items with
  | nil => simp at h
  | cons item items ih =>
    rw [flatMap_cons, filter_append, find?_append] at h
    rcases validators_find? source c.name item with ⟨hno, hnone⟩ | ⟨hyes, y, hy, hspan⟩
    · rw [hnone, Option.none_or] at h
      rw [find?_cons_of_neg (by simp [hno])]
      exact ih h
    · rw [hy, Option.some_or] at h
      obtain rfl := Option.some.inj h
      exact ⟨item, find?_cons_of_pos hyes, hspan⟩

theorem mem_existingOf {c : Component} {x : Existing} (h : x ∈ existingOf (ofItems source items) c)
    : ∃ item ∈ items, Holds item c.name x.span := by
  have hname : x.component = c.name := by simpa using of_mem_filter h
  have hmem := mem_of_mem_filter h
  rw [ofItems_existing, mem_flatMap] at hmem
  obtain ⟨item, hitem, hx⟩ := hmem
  exact ⟨item, hitem, hname ▸ holds_of_mem_validators hx⟩

theorem Oriented.holds (h : Oriented items) {item : Item} {name : String} {span : Span}
    (hitem : item ∈ items) (hholds : Holds item name span) : span.start ≤ span.stop := by
  cases hholds with
  | statement => exact (h.item item hitem).1
  | member hc hm =>
    exact h.member item hitem span
      (mem_flatMap.mpr ⟨_, hc, mem_filterMap.mpr ⟨_, hm, rfl⟩⟩)

section Changes

variable {o : InjectOptions} {d : Document} {source : String} {items : List Item}
  (horiented : Oriented items)

include horiented

theorem edit_oriented {change : Change} (h : Planned o (ofItems source items) d change) :
    (change.edit o source (ofItems source items)).span.start ≤
      (change.edit o source (ofItems source items)).span.stop := by
  cases change with
  | append c k => exact Nat.le_refl _
  | replace c k x =>
    obtain ⟨item, hitem, hspan⟩ := find?_assigns h.2.2
    change x.span.start ≤ x.span.stop
    rw [hspan]
    exact (horiented.item item (mem_of_find?_eq_some hitem)).1
  | remove c x =>
    obtain ⟨item, hitem, hholds⟩ := mem_existingOf h.2
    have hspan := horiented.holds hitem hholds
    change (widen source x.span).start ≤ (widen source x.span).stop
    rcases widen_cases source x.span with hsame | ⟨hextends, -⟩
    · rw [hsame]
      exact hspan
    · have hstart := hextends.start_le
      have hstop := hextends.le_stop
      omega
  | imports e =>
    obtain ⟨n, text, rfl, -, -⟩ := mem_importEdits h
    exact Nat.le_refl _

theorem append_edit (o : InjectOptions) (source : String) (found : Findings) (c : Component)
    {k : Candidate} {item : Item} (hitem : item ∈ items) (hstop : k.stop = item.span.stop) :
    Change.edit o source found (.append c k) =
      ⟨⟨item.span.stop, item.span.stop⟩, "\n\n" ++ blockFor o found k c⟩ := by
  have hlimit := (horiented.item item hitem).2
  simp [Change.edit, Edit.insert, Span.ofOffsets, hstop, Nat.mod_eq_of_lt hlimit]

theorem edit_serves {change : Change} (h : Planned o (ofItems source items) d change)
    (hfits : (change.edit o source (ofItems source items)).Fits source) :
    Serves o d source items change.purpose (change.edit o source (ofItems source items)) := by
  cases change with
  | append c k =>
    obtain ⟨item, hitem, hdeclares, hstop⟩ := exists_declares h.2
    rw [append_edit horiented o source _ c hitem hstop]
    exact .append h.1 h.2 hitem hdeclares hstop
  | replace c k x =>
    obtain ⟨item, hitem, hspan⟩ := find?_assigns h.2.2
    rw [Change.edit, hspan]
    exact .replace h.1 h.2.1 hitem
  | remove c x =>
    obtain ⟨item, hitem, hholds⟩ := mem_existingOf h.2
    have hextends : Extends source x.span (widen source x.span) := by
      rcases widen_cases source x.span with hsame | ⟨hextends, -⟩
      · have hends : isBoundary source (widen source x.span).start ∧
            isBoundary source (widen source x.span).stop := hfits
        rw [hsame] at hends ⊢
        exact extends_refl hends.1 hends.2
      · exact hextends
    exact .remove h.1 hitem hholds hextends
  | imports e =>
    obtain ⟨n, text, rfl, htext, -⟩ := mem_importEdits h
    exact .imports htext

theorem exists_patch_of_apply {text : String} {edits : List Edit}
    (hedits : edits = (changes o (ofItems source items) d).map
      (Change.edit o source (ofItems source items)))
    (happly : Edit.apply edits source = .ok text) :
    (∃ p : Patch, p.edits = Edit.sorted edits ∧ p.before = source.toList ∧
      p.after = text.toList) ∧
    ∀ change ∈ changes o (ofItems source items) d,
      Serves o d source items change.purpose (change.edit o source (ofItems source items)) := by
  subst hedits
  have hspans : ∀ e ∈ (changes o (ofItems source items) d).map
      (Change.edit o source (ofItems source items)), e.span.start ≤ e.span.stop :=
    forall_mem_map.mpr fun change hc => edit_oriented horiented (planned_of_mem hc)
  have hfits := ((Edit.apply_isOk_iff source hspans).mp ⟨text, happly⟩).1
  exact ⟨Edit.apply_patch hspans happly, fun change hc =>
    edit_serves horiented (planned_of_mem hc) (hfits _ (mem_map_of_mem hc))⟩

end Changes

theorem length_importEdits_le (o : InjectOptions) (found : Findings) :
    (importEdits o found).length ≤ 1 := by
  unfold importEdits
  split
  · dsimp only
    split <;> simp
  · simp

theorem not_isImport_of_mem {found : Findings} {d : Document} {change : Change}
    (h : change ∈ d.components.flatMap (componentChanges found)) :
    change.purpose.isImport = false := by
  obtain ⟨c, -, h⟩ := mem_flatMap.mp h
  obtain ⟨k, -, h⟩ := mem_flatMap.mp h
  rcases mem_plan h with ⟨x, -, rfl⟩ | rfl | ⟨x, -, rfl⟩ <;> rfl

theorem countP_isImport_le (o : InjectOptions) (found : Findings) (d : Document) :
    (changes o found d).countP (fun change => change.purpose.isImport) ≤ 1 := by
  have hnone : (d.components.flatMap (componentChanges found)).countP
      (fun change => change.purpose.isImport) = 0 :=
    countP_eq_zero.mpr fun change hchange => by simp [not_isImport_of_mem hchange]
  rw [changes, countP_append, hnone, Nat.zero_add]
  refine Nat.le_trans countP_le_length ?_
  rw [length_map]
  exact length_importEdits_le o found

theorem edit_inserts {o : InjectOptions} {d : Document} {change : Change}
    (hmatched : ∀ c ∈ d.components, (matching (ofItems source items) c).length = 1)
    (hnone : ∀ c ∈ d.components, ∀ item ∈ items, ∀ span, ¬ Holds item c.name span)
    (h : change ∈ changes o (ofItems source items) d) :
    (change.edit o source (ofItems source items)).span.start =
      (change.edit o source (ofItems source items)).span.stop := by
  have htaken : ∀ change ∈ changes o (ofItems source items) d, change.taken? = none := by
    rw [← filterMap_eq_nil_iff, changes_taken? hmatched, flatMap_eq_nil_iff]
    exact fun c hc => (existingOf_eq_nil_iff source items c).mpr (hnone c hc)
  obtain ⟨n, inserted, hedit, -⟩ := isPoint_of_planned (planned_of_mem h) (htaken change h)
  rw [hedit]
  rfl

/-- The module that an injection gives is the old one with pieces taken out and pieces put in. Each
piece serves a purpose: there is one block for each component, in order of the document, and at most
one line of import; taken out are only validators of the components, with the blanks, semicolons and
the line break around them. Where the components had none, nothing is taken out. -/
theorem inject_eq_patch (o : InjectOptions) (d : Document) (source text : String)
    (hinject : inject o d source = .ok text)
    (horiented : ∀ items, Grammar.parseModule (dialect o) source = .ok items → Oriented items) :
    ∃ (items : List Item) (edits : List (Purpose × Edit)) (p : Patch),
      (d.components ≠ [] → Grammar.parseModule (dialect o) source = .ok items) ∧
      p.before = source.toList ∧ p.after = text.toList ∧ p.edits.Perm (edits.map Prod.snd) ∧
      (∀ e ∈ edits, Serves o d source items e.1 e.2) ∧
      edits.filterMap (fun e => e.1.block?) = d.components ∧
      edits.countP (fun e => e.1.isImport) ≤ 1 ∧
      ((∀ c ∈ d.components, ∀ item ∈ items, ∀ span, ¬ Holds item c.name span) →
        p.kept = source.toList) := by
  by_cases hd : d.components = []
  · have htext : source = text := by
      simpa [inject, hd] using hinject
    subst htext
    exact ⟨[], [], ⟨[], source.toList⟩, by simp [hd], rfl, rfl, .nil, by simp, by simp [hd],
      by simp, fun _ => rfl⟩
  · obtain ⟨items, hparse⟩ := parseModule_of_inject hd hinject
    obtain ⟨h, happly⟩ := (inject_eq_ok_iff hd hparse).mp hinject
    obtain ⟨⟨p, hedits, hbefore, hafter⟩, hserves⟩ :=
      exists_patch_of_apply (horiented items hparse) rfl happly
    refine ⟨items, (changes o (ofItems source items) d).map fun change =>
      (change.purpose, change.edit o source (ofItems source items)), p, fun _ => hparse, hbefore,
      hafter, ?_, forall_mem_map.mpr hserves, ?_, ?_, ?_⟩
    · rw [hedits, map_map]
      exact mergeSort_perm _ _
    · rw [filterMap_map, ← changes_block? (o := o) h.matched]
      exact filterMap_congr fun change _ => change.block?_purpose
    · rw [countP_map]
      exact countP_isImport_le o (ofItems source items) d
    · intro hnone
      rw [Patch.kept_eq_before, hbefore]
      intro e he
      rw [hedits, Edit.mem_sorted] at he
      obtain ⟨change, hc, rfl⟩ := mem_map.mp he
      exact edit_inserts h.matched hnone hc

theorem inject_eq_patch_crowded :
    ∃ text, inject { conflict := .merge } crowdedDocument crowdedModule = .ok text ∧
      (∀ items, Grammar.parseModule (dialect { conflict := .merge }) crowdedModule = .ok items →
        Oriented items) ∧
      ∃ (edits : List (Purpose × Edit)) (p : Patch), p.before = crowdedModule.toList ∧
        p.after = text.toList ∧ p.edits.Perm (edits.map Prod.snd) ∧
        edits.filterMap (fun e => e.1.block?) = crowdedDocument.components := by
  obtain ⟨items, hparse, hplaced, hmatched, -⟩ := crowdedModule_read
  have hinjectable : Injectable { conflict := .merge } (ofItems crowdedModule items)
      crowdedDocument :=
    (injectable_iff_conditions _ _ _ _).mpr ⟨by decide, hmatched, .inl (by decide)⟩
  obtain ⟨text, hinject⟩ :=
    exists_inject_eq hplaced (by simp [crowdedDocument]) hparse hinjectable
  have horiented : ∀ items', Grammar.parseModule (dialect { conflict := .merge }) crowdedModule =
      .ok items' → Oriented items' := by
    intro items' hparse'
    obtain rfl : items = items' := Except.ok.inj (hparse.symm.trans hparse')
    exact hplaced.oriented
  obtain ⟨-, edits, p, -, hbefore, hafter, hedits, -, hblocks, -⟩ :=
    inject_eq_patch { conflict := .merge } crowdedDocument crowdedModule text hinject horiented
  exact ⟨text, hinject, horiented, edits, p, hbefore, hafter, hedits, hblocks⟩

end PropContract.Injection
