import Mathlib.Data.List.Nodup
import PropContract.Table

namespace PropContract.Table

open List

variable {α : Type}

theorem keys_put (name : String) (value : α) (table : Table α) :
    (table.put name value).keys =
      if name ∈ table.keys then table.keys else table.keys ++ [name] := by
  induction table with
  | nil => simp [put, keys]
  | cons entry rest ih =>
    obtain ⟨key, old⟩ := entry
    by_cases hk : key = name
    · simp [put, keys, hk]
    · have hn : ¬ name = key := fun h => hk h.symm
      simp only [keys] at ih
      by_cases hr : name ∈ rest.map (·.1) <;> simp [put, keys, hk, hn, ih, hr]

variable {table : Table α} {name : String}

theorem nodup_put (h : table.keys.Nodup) (name : String) (value : α) :
    (table.put name value).keys.Nodup := by
  rw [keys_put]
  split
  · exact h
  · rename_i hn
    exact nodup_append.mpr ⟨h, nodup_singleton _,
      fun a ha b hb he => hn (mem_singleton.mp hb ▸ he ▸ ha)⟩

theorem mem_of_mem_put {value : α} {entry : String × α} (h : entry ∈ table.put name value) :
    entry ∈ table ∨ entry = (name, value) := by
  induction table with
  | nil => exact .inr (mem_singleton.mp h)
  | cons first rest ih =>
    obtain ⟨key, old⟩ := first
    rw [put] at h
    split at h
    · rename_i hk
      rcases mem_cons.mp h with rfl | h
      · exact .inr (by rw [hk])
      · exact .inl (mem_cons_of_mem _ h)
    · rcases mem_cons.mp h with rfl | h
      · exact .inl mem_cons_self
      · exact (ih h).imp (mem_cons_of_mem _) id

theorem mem_of_get? {value : α} (h : table.get? name = some value) : (name, value) ∈ table := by
  induction table with
  | nil => simp [get?] at h
  | cons first rest ih =>
    obtain ⟨key, old⟩ := first
    rw [get?] at h
    split at h
    · rename_i hk
      rw [← hk, ← Option.some.inj h]
      exact mem_cons_self
    · exact mem_cons_of_mem _ (ih h)

theorem get?_of_mem (h : table.keys.Nodup) {entry : String × α} (he : entry ∈ table) :
    table.get? entry.1 = some entry.2 := by
  induction table with
  | nil => cases he
  | cons first rest ih =>
    obtain ⟨hfirst, hrest⟩ := nodup_cons.mp h
    rw [get?]
    rcases mem_cons.mp he with rfl | he
    · rw [if_pos rfl]
    · have hne : first.1 ≠ entry.1 := fun heq => hfirst (mem_map.mpr ⟨entry, he, heq.symm⟩)
      rw [if_neg hne, ih hrest he]

theorem get?_erase (name other : String) (table : Table α) :
    (table.erase name).get? other = if name = other then none else table.get? other := by
  induction table with
  | nil => simp [erase, get?]
  | cons entry rest ih =>
    obtain ⟨key, value⟩ := entry
    simp only [erase] at ih
    by_cases hk : key = name
    · subst hk
      by_cases ho : key = other
      · subst ho
        simpa [erase] using ih
      · simp [erase, get?, ih, ho]
    · by_cases ho : key = other
      · subst ho
        have hn : ¬ name = key := fun h => hk h.symm
        simp [erase, get?, hk, hn]
      · simp [erase, get?, ih, hk, ho]

theorem get?_eq_none_of_not_mem (h : name ∉ table.keys) : table.get? name = none := by
  rw [← contains_iff_mem_keys, contains, Option.not_isSome_iff_eq_none] at h
  exact h

theorem put_of_not_mem (value : α) (h : name ∉ table.keys) :
    table.put name value = table ++ [(name, value)] := by
  induction table with
  | nil => rfl
  | cons entry rest ih =>
    rw [keys, map_cons, mem_cons, not_or] at h
    rw [put, if_neg (Ne.symm h.1), ih h.2, cons_append]

theorem putAll_of_nodup {entries : Table α} (h : (table ++ entries).keys.Nodup) :
    table.putAll entries = table ++ entries := by
  induction entries generalizing table with
  | nil => exact (append_nil table).symm
  | cons entry entries ih =>
    obtain ⟨name, value⟩ := entry
    have hsplit : table ++ (name, value) :: entries = (table ++ [(name, value)]) ++ entries := by
      simp
    rw [hsplit] at h ⊢
    have hname : name ∉ table.keys := by
      intro hmem
      rw [keys, map_append, map_append] at h
      have hdisjoint := (nodup_append.mp (nodup_append.mp h).1).2.2
      exact hdisjoint name hmem name (mem_singleton_self _) rfl
    rw [← ih h, ← put_of_not_mem value hname]
    rfl

theorem ofEntries_of_nodup {entries : Table α} (h : entries.keys.Nodup) :
    ofEntries entries = entries :=
  putAll_of_nodup h

theorem nodup_eraseDups [BEq α] [LawfulBEq α] (xs : List α) : xs.eraseDups.Nodup := by
  cases xs with
  | nil => simp
  | cons x xs =>
    rw [eraseDups_cons, nodup_cons]
    exact ⟨by simp, nodup_eraseDups _⟩
termination_by xs.length
decreasing_by exact Nat.lt_succ_of_le (length_filter_le ..)

def adjust (name : String) (f : α → α) (table : Table α) : Table α :=
  table.map fun entry => (entry.1, if entry.1 = name then f entry.2 else entry.2)

section Adjust

variable (name : String) (f : α → α) (table : Table α)

theorem keys_adjust : (adjust name f table).keys = table.keys := by
  rw [keys, adjust, map_map]
  rfl

theorem contains_adjust (other : String) :
    (adjust name f table).contains other = table.contains other := by
  rw [Bool.eq_iff_iff, contains_iff_mem_keys, contains_iff_mem_keys, keys_adjust]

theorem get?_adjust (other : String) : (adjust name f table).get? other =
    (table.get? other).map fun old => if other = name then f old else old := by
  induction table with
  | nil => rfl
  | cons entry rest ih =>
    obtain ⟨key, old⟩ := entry
    rw [adjust, map_cons, ← adjust, get?, get?]
    by_cases hkey : key = other
    · rw [if_pos hkey, if_pos hkey, hkey]
      rfl
    · rw [if_neg hkey, if_neg hkey, ih]

theorem put_adjust (other : String) (old : α) :
    (adjust name f table).put other (if other = name then f old else old) =
      adjust name f (table.put other old) := by
  induction table with
  | nil => rfl
  | cons entry rest ih =>
    obtain ⟨key, value⟩ := entry
    rw [adjust, map_cons, ← adjust, put, put]
    by_cases hkey : key = other
    · rw [if_pos hkey, if_pos hkey, hkey]
      rfl
    · rw [if_neg hkey, if_neg hkey, ih]
      rfl

end Adjust

def mapValues {β : Type} (f : α → β) (table : Table α) : Table β :=
  table.map fun entry => (entry.1, f entry.2)

structure Keyed (nameOf : α → String) (table : Table α) : Prop where
  distinct : table.keys.Nodup
  told : ∀ entry ∈ table, nameOf entry.2 = entry.1

namespace Keyed

variable {nameOf : α → String} {table : Table α}

theorem nil (nameOf : α → String) : Keyed nameOf ([] : Table α) :=
  ⟨nodup_nil, forall_mem_nil _⟩

theorem put (h : Keyed nameOf table) (value : α) :
    Keyed nameOf (table.put (nameOf value) value) := by
  constructor
  · exact nodup_put h.distinct _ _
  · intro entry he
    rcases mem_of_mem_put he with he | rfl
    · exact h.told entry he
    · rfl

theorem nodup_values (h : Keyed nameOf table) : (table.values.map nameOf).Nodup := by
  have hk : table.values.map nameOf = table.keys := by
    simp only [values, keys, map_map]
    exact map_congr_left h.told
  exact hk ▸ h.distinct

end Keyed

end PropContract.Table
