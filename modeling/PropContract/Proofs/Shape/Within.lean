import PropContract.Shape.Library
import PropContract.Shape.Classify

namespace PropContract.Shape

open List

inductive Within : Shape → Shape → Prop where
  | refl (s : Shape) : Within s s
  | arrayOf {s element : Shape} : Within s element → Within s (.arrayOf element)
  | object {s : Shape} {p : PropInfo} {ps : List PropInfo} :
      p ∈ ps → Within s p.shape → Within s (.object ps)
  | union {s member : Shape} {members : List Shape} :
      member ∈ members → Within s member → Within s (.union members)

def Mentions (s : Shape) (name : String) : Prop :=
  Within (.reference name) s

variable {shapes : List Shape} {s part : Shape} {type : String}

theorem mem_foldl_distinct {kept : List Shape}
    (h : s ∈ shapes.foldl (fun kept s => if s.isIn kept then kept else kept ++ [s]) kept) :
    s ∈ kept ∨ s ∈ shapes := by
  induction shapes generalizing kept with
  | nil => exact .inl h
  | cons t shapes ih =>
    rw [foldl_cons] at h
    rcases ih h with h | h
    · split at h
      · exact .inl h
      · rcases mem_append.mp h with h | h
        · exact .inl h
        · exact .inr (mem_cons.mpr (.inl (mem_singleton.mp h)))
    · exact .inr (mem_cons_of_mem t h)

theorem mem_distinct (h : s ∈ distinct shapes) : s ∈ shapes :=
  (mem_foldl_distinct h).resolve_left not_mem_nil

theorem mem_joinBooleans (h : s ∈ joinBooleans shapes) : s ∈ shapes ∨ s = .primitive .boolean := by
  unfold joinBooleans at h
  dsimp only at h
  have hrest : ∀ t ∈ shapes.filter (fun s => !s.isBooleanLiteral), t ∈ shapes :=
    fun t ht => (mem_filter.mp ht).1
  split at h
  · split at h
    · exact .inl (hrest s h)
    · rcases mem_append.mp h with h | h
      · exact .inl (hrest s (mem_of_mem_take h))
      · rcases mem_cons.mp h with rfl | h
        · exact .inr rfl
        · exact .inl (hrest s (mem_of_mem_drop h))
  · exact .inl h

theorem mem_absorb (h : s ∈ absorb shapes) : s ∈ shapes :=
  (mem_filter.mp h).1

inductive Lasting : Shape → Prop where
  | reference (name : String) : Lasting (.reference name)
  | object (ps : List PropInfo) : Lasting (.object ps)

namespace Lasting

variable {part : Shape} (h : Lasting part)

include h

theorem not_within_primitive (k : Primitive) : ¬ Within part (primitive k) := by
  cases h <;> nofun

theorem not_within_literal (v : Literal) : ¬ Within part (literal v) := by
  cases h <;> nofun

theorem not_within_oneOf (values : List Literal) : ¬ Within part (oneOf values) := by
  cases h <;> nofun

theorem not_within_function : ¬ Within part function := by
  cases h <;> nofun

theorem not_within_element (k : ElementKind) : ¬ Within part (element k) := by
  cases h <;> nofun

theorem not_within_instance (name : String) : ¬ Within part («instance» name) := by
  cases h <;> nofun

theorem within_union {members : List Shape} :
    Within part (union members) ↔ ∃ s ∈ members, Within part s := by
  constructor
  · intro hw
    cases hw with
    | refl => exact nomatch h
    | union hs hw => exact ⟨_, hs, hw⟩
  · rintro ⟨s, hs, hw⟩
    exact .union hs hw

end Lasting

theorem within_of_combine (hl : Lasting part) (h : Within part (combine shapes)) :
    ∃ s ∈ shapes, Within part s := by
  unfold combine at h
  split at h
  · exact absurd h (hl.not_within_primitive .any)
  · exact ⟨_, mem_singleton_self _, h⟩
  · split at h
    · split at h
      · exact absurd h (hl.not_within_oneOf _)
      · exact hl.within_union.mp h
    · exact hl.within_union.mp h

theorem within_of_classify (hl : Lasting part) (h : Within part (classify shapes)) :
    ∃ s ∈ shapes, Within part s := by
  unfold classify at h
  dsimp only at h
  split at h
  · exact absurd h (hl.not_within_primitive .any)
  · obtain ⟨s, hs, hw⟩ := within_of_combine hl h
    rcases mem_joinBooleans (mem_absorb hs) with hs | rfl
    · exact ⟨s, mem_distinct hs, hw⟩
    · exact absurd hw (hl.not_within_primitive .boolean)

theorem within_of_branches (hl : Lasting part) {branch : Shape} (hb : branch ∈ s.branches)
    (h : Within part branch) : Within part s := by
  unfold branches at hb
  split at hb
  · exact .union hb h
  · obtain ⟨v, _, rfl⟩ := mem_map.mp hb
    exact absurd h (hl.not_within_literal v)
  · exact mem_singleton.mp hb ▸ h

variable {name : String}

theorem mentions_reference {other : String} : (reference other).Mentions name ↔ name = other := by
  constructor
  · intro h
    cases h
    rfl
  · rintro rfl
    exact .refl _

theorem mentions_arrayOf : (arrayOf s).Mentions name ↔ s.Mentions name := by
  constructor
  · intro h
    cases h with
    | arrayOf h => exact h
  · exact .arrayOf

theorem mentions_object {ps : List PropInfo} :
    (object ps).Mentions name ↔ ∃ p ∈ ps, p.shape.Mentions name := by
  constructor
  · intro h
    cases h with
    | object hp h => exact ⟨_, hp, h⟩
  · rintro ⟨p, hp, h⟩
    exact .object hp h

theorem mentions_union : (union shapes).Mentions name ↔ ∃ s ∈ shapes, s.Mentions name :=
  (Lasting.reference name).within_union

theorem mentions_of_classify (h : (classify shapes).Mentions name) :
    ∃ s ∈ shapes, s.Mentions name :=
  within_of_classify (.reference name) h

theorem mentions_of_branches {branch : Shape} (hb : branch ∈ s.branches) (h : branch.Mentions name)
    : s.Mentions name :=
  within_of_branches (.reference name) hb h

def NamesDistinct (s : Shape) : Prop :=
  ∀ ps, Within (object ps) s → (ps.map PropInfo.name).Nodup

theorem namesDistinct_arrayOf : NamesDistinct (arrayOf s) ↔ NamesDistinct s := by
  constructor
  · exact fun h ps hw => h ps (.arrayOf hw)
  · intro h ps hw
    cases hw with
    | arrayOf hw => exact h ps hw

theorem namesDistinct_object {ps : List PropInfo} :
    NamesDistinct (object ps) ↔
      (ps.map PropInfo.name).Nodup ∧ ∀ p ∈ ps, NamesDistinct p.shape := by
  constructor
  · exact fun h => ⟨h ps (.refl _), fun p hp qs hw => h qs (.object hp hw)⟩
  · rintro ⟨hn, hp⟩ qs hw
    cases hw with
    | refl => exact hn
    | object hmem hw => exact hp _ hmem qs hw

theorem namesDistinct_classify (h : ∀ s ∈ shapes, NamesDistinct s) :
    NamesDistinct (classify (shapes.flatMap branches)) := by
  intro ps hw
  obtain ⟨branch, hb, hw⟩ := within_of_classify (.object ps) hw
  obtain ⟨s, hs, hb⟩ := mem_flatMap.mp hb
  exact h s hs ps (within_of_branches (.object ps) hb hw)

theorem namesDistinct_literals (values : List Literal) :
    NamesDistinct (classify (values.map literal)) := by
  intro ps hw
  obtain ⟨s, hs, hw⟩ := within_of_classify (.object ps) hw
  obtain ⟨v, _, rfl⟩ := mem_map.mp hs
  exact absurd hw ((Lasting.object ps).not_within_literal v)

theorem reactShape?_cases (h : Library.reactShape? type = some s) :
    (∃ k, s = element k) ∨ s = union [primitive .string, primitive .number] ∨
      s = primitive .object ∨ s = function := by
  grind [Library.reactShape?]

theorem globalShape?_cases (h : Library.globalShape? type = some s) :
    s = «instance» type ∨ s = function ∨ ∃ k, s = primitive k := by
  grind [Library.globalShape?]

theorem not_within_reactShape? (hl : Lasting part) (h : Library.reactShape? type = some s) :
    ¬ Within part s := by
  rcases reactShape?_cases h with ⟨k, rfl⟩ | rfl | rfl | rfl
  · exact hl.not_within_element k
  · intro hw
    obtain ⟨t, ht, hw⟩ := hl.within_union.mp hw
    rcases mem_cons.mp ht with rfl | ht
    · exact hl.not_within_primitive .string hw
    · exact hl.not_within_primitive .number (mem_singleton.mp ht ▸ hw)
  · exact hl.not_within_primitive .object
  · exact hl.not_within_function

theorem not_within_globalShape? (hl : Lasting part) (h : Library.globalShape? type = some s) :
    ¬ Within part s := by
  rcases globalShape?_cases h with rfl | rfl | ⟨k, rfl⟩
  · exact hl.not_within_instance type
  · exact hl.not_within_function
  · exact hl.not_within_primitive k

end PropContract.Shape
