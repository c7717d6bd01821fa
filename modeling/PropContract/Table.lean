namespace PropContract

abbrev Table (α : Type) := List (String × α)

namespace Table

variable {α : Type}

def get? (name : String) : Table α → Option α
  | [] => none
  | (key, value) :: rest => if key = name then some value else get? name rest

def contains (name : String) (table : Table α) : Bool :=
  (table.get? name).isSome

def put (name : String) (value : α) : Table α → Table α
  | [] => [(name, value)]
  | (key, old) :: rest =>
    if key = name then (key, value) :: rest else (key, old) :: put name value rest

def putNew (name : String) (value : α) (table : Table α) : Table α :=
  if table.contains name then table else table ++ [(name, value)]

def putAll (entries : List (String × α)) (table : Table α) : Table α :=
  entries.foldl (fun t (name, value) => t.put name value) table

def ofEntries (entries : List (String × α)) : Table α :=
  putAll entries []

def erase (name : String) (table : Table α) : Table α :=
  table.filter fun (key, _) => key != name

def keys (table : Table α) : List String :=
  table.map (·.1)

def values (table : Table α) : List α :=
  table.map (·.2)

theorem get?_put (name other : String) (value : α) (table : Table α) :
    (table.put name value).get? other = if name = other then some value else table.get? other := by
  induction table with
  | nil => simp [put, get?]
  | cons entry rest ih =>
    obtain ⟨key, old⟩ := entry
    by_cases hk : key = name
    · subst hk
      by_cases ho : key = other <;> simp [put, get?, ho]
    · by_cases ho : key = other
      · subst ho
        have hn : ¬ name = key := fun h => hk h.symm
        simp [put, get?, hk, hn]
      · simp [put, get?, hk, ho, ih]

theorem contains_iff_mem_keys (name : String) (table : Table α) :
    table.contains name ↔ name ∈ table.keys := by
  induction table with
  | nil => simp [contains, get?, keys]
  | cons entry rest ih =>
    obtain ⟨key, value⟩ := entry
    by_cases hk : key = name
    · simp [contains, get?, keys, hk]
    · have hn : ¬ name = key := fun h => hk h.symm
      simpa [contains, get?, keys, hk, hn] using ih

theorem mem_keys_putNew (name other : String) (value : α) (table : Table α) :
    other ∈ (table.putNew name value).keys ↔ other ∈ table.keys ∨ other = name := by
  unfold putNew
  split
  · rename_i hc
    have hk := (contains_iff_mem_keys name table).mp hc
    exact ⟨.inl, fun h => h.elim id fun he => he ▸ hk⟩
  · simp [keys]

theorem mem_of_mem_putNew {name : String} {value : α} {table : Table α} {entry : String × α}
    (h : entry ∈ table.putNew name value) : entry ∈ table ∨ entry = (name, value) := by
  unfold putNew at h
  split at h
  · exact .inl h
  · simpa using h

end Table

end PropContract
