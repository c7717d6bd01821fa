import Mathlib.Data.List.Perm.Basic
import PropContract.Proofs.Extraction.Candidates
import PropContract.Proofs.Project.Renumbering

namespace PropContract.Renumbering

open Syntax Resolver Extraction

variable {p q : Project} (ρ : Renumbering p q)

theorem sameText_number (file : Nat) (s : Span) : SameText p q file (ρ.number file) s s := by
  rw [SameText, textOf, textOf, ρ.file?_number]

def likeness : Likeness p q where
  toCorrespondence := ρ.correspondence
  exportsAgreed := fun _ _ => trivial
  declaredCount_eq := (ρ.sameFiles.flatMap_right _).length_eq
  declarations := fun d => by
    have hsame : q.declarations (d.renumber ρ.correspondence.number) = p.declarations d :=
      ρ.declarations_decl d
    rw [hsame]
    refine List.forall₂_same.mpr fun found _ => ?_
    exact Declared.Like.refl (ρ.sameText_number d.file) (fun _ => trivial) found

theorem extract_eq {s s' : Setting} (ρ : Renumbering s.project s'.project)
    (hd : s'.maxDepth = s.maxDepth) (path : Path) : extract s' path = extract s path := by
  refine ρ.likeness.extract_eq hd (fun id => ?_) path
  have hfile : s'.project.file? (ρ.likeness.number id) = s.project.file? id := ρ.file?_number id
  rw [hfile]
  cases s.project.file? id with
  | none => exact .none
  | some file =>
    refine .some (List.forall₂_same.mpr fun c _ => ?_)
    exact Candidate.Like.refl (ρ.sameText_number id) (fun _ => trivial) c

end PropContract.Renumbering
