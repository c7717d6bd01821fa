import PropContract.Proofs.Validator.Acceptance

namespace PropContract.Validator

open List

variable {o : ValidatorOptions} {α : Type}

/-- A notion of what validators accept, told by how they are written. A choice of literals accepts
those in it, and a choice of validators what one of them accepts. The notion may be about some
validators only, since odd names make texts that can be read in two ways. -/
structure Notion (o : ValidatorOptions) (α : Type) where
  knows : Validator → Prop
  accepts : String → α → Prop
  holds : Literal → α → Prop
  knows_oneOf : ∀ ls, (∀ l ∈ ls, knows (oneOf [l])) → knows (oneOf ls)
  oneOf_iff : ∀ ls, knows (oneOf ls) → ∀ a,
    accepts ((oneOf ls).text o) a ↔ ∃ l ∈ ls, holds l a
  oneOfType_iff : ∀ vs, (∀ v ∈ vs, knows v) → ∀ a,
    accepts ((oneOfType vs).text o) a ↔ ∃ v ∈ vs, accepts (v.text o) a

theorem Gathered.exists_text_iff {literals : List Literal} {branches : List Branch}
    {kept : List Validator} (h : Gathered o literals branches kept) (p : String → Prop) :
    (∃ v ∈ kept, p (v.text o)) ↔ ∃ b ∈ branches, p ((b.check literals).text o) := by
  constructor
  · rintro ⟨v, hv, hp⟩
    obtain ⟨b, hb, rfl⟩ := h.sound v hv
    exact ⟨b, hb, hp⟩
  · rintro ⟨b, hb, hp⟩
    obtain ⟨v, hv, htext⟩ := h.complete b hb
    exact ⟨v, hv, by rwa [htext]⟩

section

variable (N : Notion o α) {refer : String → Validator} {members : List Shape}
  (h : ∀ s ∈ members, N.knows (ofShape o refer s)) (a : α)

include h

theorem Notion.knows_group : N.knows (oneOf (literalsOf (branchesOf o refer members))) := by
  apply N.knows_oneOf
  intro l hl
  exact h _ ((mem_literalsOf refer).mp hl)

theorem Notion.accepts_literal {l : Literal} (hl : .literal l ∈ members) :
    N.accepts ((oneOf [l]).text o) a ↔ N.holds l a := by
  rw [N.oneOf_iff [l] (h _ hl)]
  simp

theorem Notion.exists_branch_iff :
    (∃ b ∈ branchesOf o refer members,
      N.accepts ((b.check (literalsOf (branchesOf o refer members))).text o) a) ↔
      ∃ s ∈ members, N.accepts ((ofShape o refer s).text o) a := by
  constructor
  · rintro ⟨b, hb, ha⟩
    rw [branchesOf_eq] at hb
    obtain ⟨s, hs, rfl⟩ := mem_map.mp hb
    cases s with
    | literal l =>
      obtain ⟨k, hk, ha⟩ := (N.oneOf_iff _ (N.knows_group h) a).mp ha
      have hk := (mem_literalsOf refer).mp hk
      exact ⟨_, hk, (N.accepts_literal h a hk).mpr ha⟩
    | _ => exact ⟨_, hs, ha⟩
  · rintro ⟨s, hs, ha⟩
    refine ⟨branchOf refer o s, ?_, ?_⟩
    · rw [branchesOf_eq]
      exact mem_map_of_mem hs
    cases s with
    | literal l =>
      apply (N.oneOf_iff _ (N.knows_group h) a).mpr
      exact ⟨l, (mem_literalsOf refer).mpr hs, (N.accepts_literal h a hs).mp ha⟩
    | _ => exact ha

/-- The validator of a union accepts a value exactly if the validator of a member by itself does,
whatever the members are and in whatever order they come. -/
theorem union_accepts_iff :
    N.accepts ((ofShape o refer (.union members)).text o) a ↔
      ∃ s ∈ members, N.accepts ((ofShape o refer s).text o) a := by
  obtain ⟨kept, hkept, hunion⟩ := exists_gathered o (branchesOf o refer members)
  have hkept_iff := hkept.exists_text_iff fun text => N.accepts text a
  rw [← N.exists_branch_iff h a, ← hkept_iff, ofShape]
  rcases hunion with hunion | rfl
  · rw [hunion]
    apply N.oneOfType_iff
    intro v hv
    obtain ⟨b, hb, rfl⟩ := hkept.sound v hv
    exact forall_check refer (N.knows_group h) h b hb
  · simp

end

theorem exists_check?_iff (W : World) (ho : IsReference o.importedName) {v : Validator}
    (hv : v.IsReadable) (a : Value) :
    (∃ w, Check.check? o.importedName ((v.text o).length + 1) (v.text o).toList = some (w, []) ∧
      w.accepts W a) ↔ v.accepts W a := by
  simp [check?_text ho hv]

def checkNotion (W : World) (ho : IsReference o.importedName) : Notion o Value where
  knows := IsReadable
  accepts text a := ∃ v, Check.check? o.importedName (text.length + 1) text.toList = some (v, []) ∧
    v.accepts W a
  holds l a := l.holds a
  knows_oneOf ls h l hl := h l hl l mem_cons_self
  oneOf_iff ls hls a := by
    rw [exists_check?_iff W ho hls, accepts, any_eq_true]
  oneOfType_iff vs hvs a := by
    have hall : (oneOfType vs).IsReadable := (areReadable_iff vs).mpr hvs
    rw [exists_check?_iff W ho hall, accepts, acceptsSome_iff]
    exact exists_congr fun v => and_congr_right fun hv => (exists_check?_iff W ho (hvs v hv) a).symm

def modes : List Shape :=
  [.reference "Mode", .literal (.string "on"), .primitive .number, .literal .null,
    .reference "Missing", .primitive .number]

def modeReference : String → Validator :=
  ofReference {} [("Mode", .oneOf [.string "on", .null])] 2 []

theorem union_accepts_iff_modes :
    let N := checkNotion (o := {}) Block.bareWorld (by decide +kernel)
    (∀ s ∈ modes, N.knows (ofShape {} modeReference s)) ∧
      (N.accepts ((ofShape {} modeReference (.union modes)).text {}) (.string "on") ↔
        ∃ s ∈ modes, N.accepts ((ofShape {} modeReference s).text {}) (.string "on")) := by
  intro N
  have hknows : ∀ s ∈ modes, N.knows (ofShape {} modeReference s) := by
    apply readableRule.ofMembers
    · apply readableRule.ofReference
      simp [Table.values, Shape.IsCheckable, Literal.IsWritable]
    · simp [modes, Shape.IsCheckable, Literal.IsWritable]
  exact ⟨hknows, union_accepts_iff N hknows _⟩

end PropContract.Validator
