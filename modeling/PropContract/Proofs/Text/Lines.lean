import Mathlib.Data.List.Chain
import PropContract.Proofs.Path
import PropContract.Proofs.Text.Marks

namespace PropContract.Text

open List

variable {sep : Char} {cs u r : List Char} {pieces : List (List Char)}

theorem intercalate_splitOn (cs : List Char) : [sep].intercalate (splitOn sep cs) = cs := by
  induction cs with
  | nil => simp [splitOn]
  | cons c cs ih =>
    have hne : splitOn sep cs ≠ [] := splitOn_ne_nil cs
    obtain ⟨first, rest, hs⟩ := exists_cons_of_ne_nil hne
    by_cases hc : c = sep
    · rw [splitOn, if_pos hc, hs, intercalate_cons_cons, ← hs, ih, hc]
      rfl
    · rw [hs] at ih
      rw [splitOn_cons_of_ne hc hs, ← ih]
      cases rest <;> simp [intercalate_cons_cons]

theorem dropCarriageReturn_eq {line : List Char} (h : line.getLast? ≠ some '\r') :
    dropCarriageReturn line = line := by
  unfold dropCarriageReturn
  rw [← head?_reverse] at h
  split
  · rename_i hrev
    exact absurd (by rw [hrev]; rfl) h
  · rfl

theorem exists_piece_of_mem_lines {line : List Char} (h : line ∈ lines cs) :
    ∃ piece ∈ splitOn '\n' cs, line <+: piece := by
  have hshort (piece : List Char) : dropCarriageReturn piece <+: piece := by
    unfold dropCarriageReturn
    split
    · rename_i rest hrev
      exact ⟨['\r'], by rw [← reverse_cons, ← hrev, reverse_reverse]⟩
    · exact prefix_refl piece
  have hended : line ∈ (splitOn '\n' cs).dropLast.map dropCarriageReturn →
      ∃ piece ∈ splitOn '\n' cs, line <+: piece := by
    intro h
    obtain ⟨piece, hp, rfl⟩ := mem_map.mp h
    exact ⟨piece, dropLast_subset _ hp, hshort piece⟩
  unfold lines at h
  dsimp only at h
  split at h
  · exact hended h
  · exact hended h
  · rename_i last _ hlast
    rcases mem_append.mp h with h | h
    · exact hended h
    · exact ⟨last, mem_of_getLast? hlast, mem_singleton.mp h ▸ prefix_refl last⟩

theorem lines_intercalate {last : List Char} (h : ∀ piece ∈ pieces ++ [last], '\n' ∉ piece)
    (hend : ∀ piece ∈ pieces, piece.getLast? ≠ some '\r') (hlast : last ≠ []) :
    lines (['\n'].intercalate (pieces ++ [last])) = pieces ++ [last] := by
  have hmap : pieces.map dropCarriageReturn = pieces :=
    (map_congr_left fun piece hp => dropCarriageReturn_eq (hend piece hp)).trans
      (map_id _)
  rw [lines, splitOn_intercalate (by simp) h, dropLast_concat, getLast?_concat, hmap]
  cases last with
  | nil => exact absurd rfl hlast
  | cons c last => rfl

/-- A relation that a line feed has to every character holds all along a text if it does in each
line and from the end of each line to its line feed. -/
theorem isChain_intercalate_iff {R : Char → Char → Prop} (hfeed : ∀ c, R '\n' c) :
    (['\n'].intercalate pieces).IsChain R ↔ (∀ piece ∈ pieces, piece.IsChain R) ∧
      ∀ piece ∈ pieces.dropLast, ∀ c ∈ piece.getLast?, R c '\n' := by
  induction pieces with
  | nil => simp
  | cons piece pieces ih =>
    cases pieces with
    | nil => simp
    | cons next rest =>
      have hstep : (piece ++ '\n' :: ['\n'].intercalate (next :: rest)).IsChain R ↔
          piece.IsChain R ∧ (['\n'].intercalate (next :: rest)).IsChain R ∧
            ∀ c ∈ piece.getLast?, R c '\n' := by
        simp [isChain_append, List.isChain_cons, hfeed]
      rw [intercalate_cons_cons, append_assoc, singleton_append, hstep, ih,
        dropLast_cons_cons]
      simp only [forall_mem_cons]
      tauto

theorem trimEnd_isPrefix (cs : List Char) : trimEnd cs <+: cs := by
  rw [trimEnd, dropEndWhile, ← reverse_suffix, reverse_reverse]
  exact dropWhile_suffix isBlank

theorem trim_isInfix (cs : List Char) : trim cs <:+: cs :=
  (trimEnd_isPrefix _).isInfix.trans (dropWhile_suffix isBlank).isInfix

theorem not_blank_of_head?_dropWhile {c : Char} (h : c ∈ (cs.dropWhile isBlank).head?) :
    isBlank c = false := by
  have hhead := head?_dropWhile_not isBlank cs
  rwa [Option.mem_def.mp h] at hhead

theorem not_blank_of_getLast?_trimEnd {c : Char} (h : c ∈ (trimEnd cs).getLast?) :
    isBlank c = false := by
  rw [trimEnd, dropEndWhile, getLast?_reverse] at h
  exact not_blank_of_head?_dropWhile h

theorem not_blank_of_head?_trim {c : Char} (h : c ∈ (trim cs).head?) : isBlank c = false := by
  obtain ⟨rest, hrest⟩ := trimEnd_isPrefix (trimStart cs)
  apply not_blank_of_head?_dropWhile
  rw [← trimStart, ← hrest, head?_append, ← trim, Option.mem_def.mp h]
  rfl

theorem trimEnd_append_blanks (hu : ∀ c ∈ u.getLast?, isBlank c = false)
    (hr : ∀ c ∈ r, isBlank c) : trimEnd (u ++ r) = u := by
  rw [trimEnd, dropEndWhile, reverse_append, dropWhile_append_of_all, reverse_reverse]
  · simpa using hr
  · simpa using hu

theorem trimEnd_eq_self (hu : ∀ c ∈ u.getLast?, isBlank c = false) : trimEnd u = u := by
  have h := trimEnd_append_blanks hu (forall_mem_nil _)
  rwa [append_nil] at h

end PropContract.Text
