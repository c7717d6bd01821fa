import Mathlib.Data.List.Basic

namespace PropContract

open List

variable {α : Type} {le : α → α → Bool}

theorem filter_mergeSort (htrans : ∀ a b c, le a b → le b c → le a c)
    (htotal : ∀ a b, le a b || le b a) {p : α → Bool} (hp : ∀ a b, p a → p b → le a b)
    (xs : List α) : (xs.mergeSort le).filter p = xs.filter p := by
  have hsame : (xs.filter p).Pairwise fun a b => le a b :=
    pairwise_of_forall_mem_list fun a ha b hb =>
      hp a b (of_mem_filter ha) (of_mem_filter hb)
  have hsublist := (sublist_mergeSort htrans htotal hsame filter_sublist).filter p
  -- One list is part of the other and no shorter.
  simp only [filter_filter, Bool.and_self] at hsublist
  exact (hsublist.eq_of_length ((mergeSort_perm xs le).filter p).length_eq.symm).symm

theorem eq_of_filter_eq {κ : Type} [DecidableEq κ] {key : α → κ}
    (hkey : ∀ a b, le a b → le b a → key a = key b) {xs ys : List α}
    (hx : xs.Pairwise fun a b => le a b) (hy : ys.Pairwise fun a b => le a b)
    (h : ∀ k, xs.filter (key · = k) = ys.filter (key · = k)) : xs = ys := by
  induction xs generalizing ys with
  | nil =>
    cases ys with
    | nil => rfl
    | cons y ys => simpa using h (key y)
  | cons x xs ih =>
    cases ys with
    | nil => simpa using h (key x)
    | cons y ys =>
      have hmem (a : α) : a ∈ x :: xs ↔ a ∈ y :: ys := by
        simpa using congrArg (a ∈ ·) (h (key a))
      obtain ⟨hfirst, hxs⟩ := pairwise_cons.mp hx
      obtain ⟨hfirst', hys⟩ := pairwise_cons.mp hy
      -- Each head comes before the other one, so both are the first of one key.
      have hsame : key x = key y := by
        rcases mem_cons.mp ((hmem x).mp mem_cons_self) with rfl | hxy
        · rfl
        · rcases mem_cons.mp ((hmem y).mpr mem_cons_self) with rfl | hyx
          · rfl
          · exact hkey x y (hfirst y hyx) (hfirst' x hxy)
      have hclass := h (key x)
      simp only [filter_cons, hsame, decide_true, if_true, List.cons.injEq] at hclass
      obtain ⟨rfl, -⟩ := hclass
      refine congrArg _ (ih hxs hys fun k => ?_)
      have hk := h k
      simp only [filter_cons] at hk
      split at hk
      · exact (List.cons.inj hk).2
      · exact hk

end PropContract
