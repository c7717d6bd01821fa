import Mathlib.Data.List.TakeWhile

namespace PropContract

open List

def FollowedBy (marks : List Char) (r : List Char) : Prop :=
  ∀ c ∈ r.head?, c ∈ marks

theorem followedBy_nil (marks : List Char) : FollowedBy marks [] := by
  intro c hc
  cases hc

theorem followedBy_cons {marks : List Char} {c : Char} (h : c ∈ marks) (r : List Char) :
    FollowedBy marks (c :: r) := by
  intro d hd
  cases hd
  exact h

theorem FollowedBy.of_subset {marks marks' : List Char} (h : marks ⊆ marks') {r : List Char}
    (hr : FollowedBy marks r) : FollowedBy marks' r :=
  fun c hc => h (hr c hc)

-- A `decide` on the statement itself may go through all characters there are.
theorem forall_mem_of_all {α : Type} {p : α → Prop} [DecidablePred p] {cs : List α} (h : cs.all p) :
    ∀ c ∈ cs, p c := by
  intro c hc
  exact of_decide_eq_true (all_eq_true.mp h c hc)

section

variable {p : Char → Bool} {u r : List Char}

theorem takeWhile_append_of_all (hu : ∀ c ∈ u, p c) (hr : ∀ c ∈ r.head?, p c = false) :
    (u ++ r).takeWhile p = u := by
  have hnot : r.takeWhile p = [] := by
    cases r with
    | nil => rfl
    | cons c r => rw [takeWhile_cons, if_neg (by simp [hr c rfl])]
  rw [takeWhile_append_of_pos hu, hnot, append_nil]

theorem dropWhile_append_of_all (hu : ∀ c ∈ u, p c) (hr : ∀ c ∈ r.head?, p c = false) :
    (u ++ r).dropWhile p = r := by
  have hsplit := takeWhile_append_dropWhile (p := p) (l := u ++ r)
  rw [takeWhile_append_of_all hu hr] at hsplit
  exact append_cancel_left hsplit

end

def listed (texts : List (List Char)) (r : List Char) : List Char :=
  [',', ' '].intercalate texts ++ r

theorem listed_cons (t : List Char) (ts : List (List Char)) (r : List Char) :
    listed (t :: ts) r = t ++ if ts = [] then r else ',' :: ' ' :: listed ts r := by
  cases ts with
  | nil => simp [listed]
  | cons u us => simp [listed, intercalate_cons_cons]

end PropContract
