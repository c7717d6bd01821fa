import Mathlib.Data.List.Nodup
import PropContract.Resolver.Props

/-!
The names of references: no two declarations share one, and a name that was given stays.
-/

namespace PropContract.Resolver.Ledger

open List StateT

def candidateName (base : String) (suffix : Nat) : String :=
  if suffix = 1 then base else s!"{base}#{suffix}"

theorem candidateName_injective {base : String} {i j : Nat}
    (h : candidateName base i = candidateName base j) : i = j := by
  have hne (n : Nat) : base ≠ s!"{base}#{n}" := by
    intro he
    have hl := congrArg String.length he
    simp only [String.length_append, toString] at hl
    have hm : ("#" : String).length = 1 := rfl
    omega
  unfold candidateName at h
  split at h
  · split at h
    · omega
    · exact absurd h (hne j)
  · split at h
    · exact absurd h.symm (hne i)
    · have hdigits : Nat.toDigits 10 i = Nat.toDigits 10 j := by
        rw [← Nat.toList_repr, ← Nat.toList_repr, show i.repr = j.repr by simpa using h]
      simpa using congrArg (Nat.ofDigitChars 10 · 0) hdigits

section

variable (taken : List String) (base : String) (fuel suffix : Nat)

theorem freshName_succ : freshName taken base (fuel + 1) suffix =
      if taken.contains (candidateName base suffix) then freshName taken base fuel (suffix + 1)
      else candidateName base suffix :=
  rfl

theorem freshName_cases : freshName taken base fuel suffix ∉ taken ∨
      ∀ k, suffix ≤ k → k < suffix + fuel → candidateName base k ∈ taken := by
  induction fuel generalizing suffix with
  | zero => exact .inr fun k hk hk' => by omega
  | succ fuel ih =>
    rw [freshName_succ]
    by_cases hc : candidateName base suffix ∈ taken
    · rw [if_pos (by simpa using hc)]
      refine (ih (suffix + 1)).imp id fun h k hk hk' => ?_
      by_cases he : k = suffix
      · exact he ▸ hc
      · exact h k (by omega) (by omega)
    · rw [if_neg (by simpa using hc)]
      exact .inl hc

theorem freshName_eq_candidateName (hs : 0 < suffix) (h : 1 < fuel + suffix) :
    ∃ k, 0 < k ∧ freshName taken base fuel suffix = candidateName base k := by
  induction fuel generalizing suffix with
  | zero => exact ⟨suffix, hs, by rw [candidateName, if_neg (by omega)]; rfl⟩
  | succ fuel ih =>
    rw [freshName_succ]
    split
    · exact ih (suffix + 1) (by omega) (by omega)
    · exact ⟨suffix, hs, rfl⟩

end

theorem freshName_not_mem (taken : List String) (base : String) :
    freshName taken base (taken.length + 1) 1 ∉ taken := by
  rcases freshName_cases taken base (taken.length + 1) 1 with h | h
  · exact h
  · have hnodup : ((List.range' 1 (taken.length + 1)).map (candidateName base)).Nodup :=
      Nodup.map (fun _ _ he => candidateName_injective he) nodup_range'
    have hsub : (List.range' 1 (taken.length + 1)).map (candidateName base) ⊆ taken := by
      intro name hname
      obtain ⟨k, hk, rfl⟩ := mem_map.mp hname
      obtain ⟨hk₁, hk₂⟩ := mem_range'_1.mp hk
      exact h k hk₁ hk₂
    have hlen := hnodup.length_le_of_subset hsub
    simp only [length_map, length_range'] at hlen
    omega

def NamesGrow (l l' : Ledger) : Prop :=
  l.names <+: l'.names

/-- No two declarations have the same name, and each has its own one, maybe with a number. -/
structure WellNamed (l : Ledger) : Prop where
  differ : (l.names.map Prod.snd).Nodup
  told : ∀ entry ∈ l.names, ∃ k, 0 < k ∧ entry.2 = candidateName entry.1.name k

variable {l l' : Ledger} {d : DeclRef} {name : String}

theorem WellNamed.of_names_eq (h : WellNamed l) (he : l'.names = l.names) : WellNamed l' :=
  ⟨he ▸ h.differ, he ▸ h.told⟩

theorem wellNamed_empty : WellNamed {} :=
  ⟨nodup_nil, forall_mem_nil _⟩

theorem nameOf?_of_namesGrow (hg : NamesGrow l l') (h : l.nameOf? d = some name) :
    l'.nameOf? d = some name := by
  obtain ⟨more, hm⟩ := hg
  obtain ⟨entry, he, rfl⟩ := Option.map_eq_some_iff.mp h
  simp [nameOf?, ← hm, find?_append, he]

theorem mem_names_of_nameOf? (h : l.nameOf? d = some name) : (d, name) ∈ l.names := by
  obtain ⟨⟨e, n⟩, he, rfl⟩ := Option.map_eq_some_iff.mp h
  have hd : e = d := by simpa using find?_some he
  exact hd ▸ mem_of_find?_eq_some he

theorem WellNamed.of_namesGrow (h : WellNamed l') (hg : NamesGrow l l') : WellNamed l :=
  ⟨h.differ.sublist (hg.sublist.map Prod.snd), fun entry he => h.told entry (hg.subset he)⟩

theorem WellNamed.told_nameOf? (h : WellNamed l) (hn : l.nameOf? d = some name) :
    ∃ k, 0 < k ∧ name = candidateName d.name k :=
  h.told (d, name) (mem_names_of_nameOf? hn)

theorem eq_of_nameOf? (hl : WellNamed l) {e : DeclRef} (hd : l.nameOf? d = some name)
    (he : l.nameOf? e = some name) : d = e := by
  have hp := inj_on_of_nodup_map hl.differ (mem_names_of_nameOf? hd)
    (mem_names_of_nameOf? he) rfl
  exact congrArg Prod.fst hp

theorem referenceName_cases (d : DeclRef) (l : Ledger) :
    (∃ name, l.nameOf? d = some name ∧ (referenceName d).run l = (name, l)) ∨
      ∃ name, l.nameOf? d = none ∧ name ∉ l.names.map Prod.snd ∧
        (∃ k, 0 < k ∧ name = candidateName d.name k) ∧
        (referenceName d).run l = (name, { l with names := l.names ++ [(d, name)] }) := by
  cases h : l.nameOf? d with
  | some name =>
    refine .inl ⟨name, rfl, ?_⟩
    simp only [referenceName, run_bind, run_get, pure_bind, h]
    rfl
  | none =>
    refine .inr ⟨freshName (l.names.map Prod.snd) d.name (l.names.length + 1) 1, rfl, ?_, ?_, ?_⟩
    · simpa using freshName_not_mem (l.names.map Prod.snd) d.name
    · exact freshName_eq_candidateName _ _ _ 1 (by omega) (by omega)
    · simp only [referenceName, run_bind, run_get, pure_bind, h]
      rfl

end PropContract.Resolver.Ledger
