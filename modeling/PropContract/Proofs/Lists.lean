import Mathlib.Data.List.Induction
import Mathlib.Data.List.Perm.Basic

namespace PropContract

open List

variable {α β ε : Type} {xs : List α} {ys : List β}

section

variable {f : α → Option β}

theorem mapM_eq_some_iff : xs.mapM f = some ys ↔ xs.map f = ys.map some := by
  induction xs generalizing ys with
  | nil => cases ys <;> simp
  | cons x xs ih =>
    rw [mapM_cons]
    cases ys with
    | nil => simp [Option.bind_eq_some_iff]
    | cons y ys => simp [Option.bind_eq_some_iff, ← ih]

theorem mapM_eq_none_iff : xs.mapM f = none ↔ ∃ x ∈ xs, f x = none := by
  induction xs with
  | nil => simp
  | cons x xs ih =>
    rw [mapM_cons]
    cases hx : f x with
    | none => simp [hx]
    | some y => cases hxs : xs.mapM f <;> simp_all

theorem mem_iff_of_mapM (h : xs.mapM f = some ys) {y : β} : y ∈ ys ↔ ∃ x ∈ xs, f x = some y := by
  rw [← mem_map, mapM_eq_some_iff.mp h]
  simp

theorem mapM_congr_until_none {g : α → Option β}
    (h : ∀ before x after, xs = before ++ x :: after → (∀ b ∈ before, (f b).isSome = true) →
      f x = g x) : xs.mapM f = xs.mapM g := by
  induction xs with
  | nil => rfl
  | cons x xs ih =>
    rw [mapM_cons, mapM_cons, ← h [] x xs rfl nofun]
    cases hx : f x with
    | none => rfl
    | some y =>
      rw [ih fun before x' after hxs hbefore => ?_]
      refine h (x :: before) x' after (congrArg (x :: ·) hxs) ?_
      exact forall_mem_cons.mpr ⟨by rw [hx]; rfl, hbefore⟩

end

section

variable {f : α → Except ε β}

theorem of_bind_eq_ok {γ : Type} {x : Except ε β} {g : β → Except ε γ} {c : γ}
    (h : x >>= g = .ok c) : ∃ b, x = .ok b ∧ g b = .ok c := by
  cases x with
  | error e => cases h
  | ok b => exact ⟨b, rfl, h⟩

theorem mapM_eq_ok_iff : xs.mapM f = .ok ys ↔ Forall₂ (fun x y => f x = .ok y) xs ys := by
  constructor
  · intro h
    induction xs generalizing ys with
    | nil =>
      cases h
      exact .nil
    | cons x xs ih =>
      rw [mapM_cons] at h
      obtain ⟨y, hy, h⟩ := of_bind_eq_ok h
      obtain ⟨ys, hys, h⟩ := of_bind_eq_ok h
      cases h
      exact .cons hy (ih hys)
  · intro h
    induction h with
    | nil => rfl
    | cons hy _ ih =>
      rw [mapM_cons, hy, ih]
      rfl

theorem mapM_eq_ok {g : α → β} (h : ∀ x ∈ xs, f x = .ok (g x)) : xs.mapM f = .ok (xs.map g) :=
  mapM_eq_ok_iff.mpr (forall₂_map_right_iff.mpr (forall₂_same.mpr h))

theorem exists_mapM_eq_ok (h : ∀ x ∈ xs, ∃ y, f x = .ok y) : ∃ ys, xs.mapM f = .ok ys := by
  induction xs with
  | nil => exact ⟨[], rfl⟩
  | cons x xs ih =>
    obtain ⟨⟨y, hy⟩, hxs⟩ := forall_mem_cons.mp h
    obtain ⟨ys, hys⟩ := ih hxs
    exact ⟨y :: ys, mapM_eq_ok_iff.mpr (.cons hy (mapM_eq_ok_iff.mp hys))⟩

theorem mapM_eq_error {p : ε → Prop} {x : α}
    (hf : ∀ y, (∃ z, f y = .ok z) ∨ ∃ e, f y = .error e ∧ p e) (hx : x ∈ xs)
    (hfails : ∃ e, f x = .error e) : ∃ e, xs.mapM f = .error e ∧ p e := by
  induction xs with
  | nil => simp at hx
  | cons y ys ih =>
    rw [mapM_cons]
    rcases hf y with ⟨z, hz⟩ | ⟨e, he, hpe⟩
    · have hne : x ≠ y := by
        rintro rfl
        obtain ⟨e, he⟩ := hfails
        simp [hz] at he
      obtain ⟨e, he, hpe⟩ := ih ((mem_cons.mp hx).resolve_left hne)
      exact ⟨e, by rw [hz, he]; rfl, hpe⟩
    · exact ⟨e, by rw [he]; rfl, hpe⟩

theorem mapM_perm {xs' : List α} (hperm : xs.Perm xs') (h : xs.mapM f = .ok ys) :
    ∃ ys', xs'.mapM f = .ok ys' ∧ ys'.Perm ys := by
  obtain ⟨ys', hys', hperm'⟩ := perm_comp_forall₂ hperm.symm (mapM_eq_ok_iff.mp h)
  exact ⟨ys', mapM_eq_ok_iff.mpr hys', hperm'⟩

end

theorem exists_of_mem_right {R : α → β → Prop} (h : Forall₂ R xs ys) {y : β} (hy : y ∈ ys) :
    ∃ x ∈ xs, R x y := by
  induction h with
  | nil => cases hy
  | cons hR _ ih =>
    rcases mem_cons.mp hy with rfl | hy
    · exact ⟨_, mem_cons_self, hR⟩
    · obtain ⟨x, hx, hR⟩ := ih hy
      exact ⟨x, mem_cons_of_mem _ hx, hR⟩

theorem eraseDups_concat (xs : List String) (x : String) :
    (xs ++ [x]).eraseDups = if x ∈ xs then xs.eraseDups else xs.eraseDups ++ [x] := by
  rw [eraseDups_append]
  split <;> simp_all [List.removeAll, eraseDups_cons]

theorem eraseDups_append_eraseDups (xs ys : List String) :
    (xs ++ ys.eraseDups).eraseDups = (xs ++ ys).eraseDups := by
  induction ys using List.reverseRecOn with
  | nil => rfl
  | append_singleton ys y ih =>
    rw [eraseDups_concat, ← append_assoc, eraseDups_concat (xs ++ ys)]
    by_cases hy : y ∈ ys
    · rw [if_pos hy, if_pos (mem_append_right xs hy), ih]
    · rw [if_neg hy, ← append_assoc, eraseDups_concat, ih]
      simp only [mem_append, mem_eraseDups]

theorem countP_or_le (p q : α → Bool) (xs : List α) :
    xs.countP (fun x => p x || q x) ≤ xs.countP p + xs.countP q := by
  induction xs with
  | nil => simp
  | cons x xs ih =>
    simp only [countP_cons]
    cases p x <;> cases q x <;> simp <;> omega

theorem pair_sublist_of_not {R : α → α → Prop} (h : xs.Pairwise R) {a b : α} (ha : a ∈ xs)
    (hb : b ∈ xs) (hne : a ≠ b) (hab : ¬ R a b) : [b, a].Sublist xs := by
  induction xs with
  | nil => cases ha
  | cons x xs ih =>
    obtain ⟨hx, hxs⟩ := pairwise_cons.mp h
    rcases mem_cons.mp hb with rfl | hb'
    · exact (singleton_sublist.mpr ((mem_cons.mp ha).resolve_left hne)).cons_cons b
    · rcases mem_cons.mp ha with rfl | ha'
      · exact absurd (hx b hb') hab
      · exact (ih hxs ha' hb').cons x

end PropContract
