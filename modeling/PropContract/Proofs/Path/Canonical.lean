import PropContract.Proofs.Project.ConfigChain

namespace PropContract

open List

namespace Path

variable {p q : Path}

theorem normalize_of_isAbsolute (hp : p.isAbsolute) : p.normalize = ofNames true p.walked := by
  rw [normalize, hp, walked]

theorem walked_join (hp : p.isAbsolute) (hq : q.isAbsolute = false) :
    (p.join q).walked = (q.segments.filterMap componentOf?).foldl walk p.walked := by
  rw [walked, components_join_relative p q hq (text_ne_of_isAbsolute hp), foldl_append, walked]

theorem normalize_join (hp : p.isAbsolute) (q : Path) :
    (p.normalize.join q).normalize = (p.join q).normalize := by
  cases hq : q.isAbsolute with
  | true => rw [join, join, if_pos hq, if_pos hq]
  | false =>
    have hnormal : p.normalize.isAbsolute := (isAbsolute_normalize p).trans hp
    rw [normalize_of_isAbsolute ((isAbsolute_join_relative _ hq).trans hnormal),
      normalize_of_isAbsolute ((isAbsolute_join_relative _ hq).trans hp), walked_join hnormal hq,
      walked_join hp hq, walked_normalize]

theorem NamesFile.exists_directory (hp : p.NamesFile) :
    ∃ dir last, p.parent? = some dir ∧ dir.isAbsolute ∧ p.walked = dir.walked ++ [last] := by
  obtain ⟨front, last, hends⟩ := hp.ends
  obtain ⟨dir, hdir, habs, hcomponents⟩ := exists_parent? hp.absolute hends
  refine ⟨dir, last, hdir, habs, ?_⟩
  rw [walked, walked, hends, hcomponents, ← cons_append, foldl_append]
  rfl

theorem NamesFile.join_directory (hp : p.NamesFile) (hq : q.NamesFile)
    (h : q.normalize = p.normalize) (s base : Path) :
    ((q.parent?.getD base).join s).normalize = ((p.parent?.getD base).join s).normalize := by
  obtain ⟨dir, last, hdir, habs, hwalk⟩ := hp.exists_directory
  obtain ⟨dir', last', hdir', habs', hwalk'⟩ := hq.exists_directory
  have hsame : dir'.walked = dir.walked := by
    have hwalked := congrArg walked h
    rw [walked_normalize, walked_normalize, hwalk, hwalk'] at hwalked
    exact (append_inj' hwalked rfl).1
  have hnormal : dir'.normalize = dir.normalize := by
    rw [normalize_of_isAbsolute habs', normalize_of_isAbsolute habs, hsame]
  rw [hdir, hdir', Option.getD_some, Option.getD_some, ← normalize_join habs', hnormal,
    normalize_join habs]

/-- The normal form of an absolute path is absolute, without dots, its own normal form, and the
place where the path leads in any tree. It joins as the path does; so what a file imports or
extends is found the same however the path of the file is spelled. -/
theorem normalize_canonical (hp : p.isAbsolute) :
    p.normalize.isAbsolute ∧ (∀ c ∈ p.normalize.components, c ≠ .here ∧ c ≠ .up) ∧
      p.normalize.normalize = p.normalize ∧
      (∀ (tree : FileTree) place, tree.resolve? p = some place → p.normalize.text = place) ∧
      (∀ s, (p.normalize.join s).normalize = (p.join s).normalize) ∧
      ∀ q, p.NamesFile → q.NamesFile → q.normalize = p.normalize →
        (∀ options exists? specifier, Modules.find? options exists? q specifier =
          Modules.find? options exists? p specifier) ∧
        ∀ file : ConfigFile, file.parentPath? q = file.parentPath? p := by
  refine ⟨(isAbsolute_normalize p).trans hp, ?_, p.isNormal_normalize.normalize_eq,
    fun tree place h => (FileTree.resolve?_normalize hp h).1, normalize_join hp, ?_⟩
  · intro c hc
    rw [normalize_of_isAbsolute hp, components_ofNames true p.isName_walked] at hc
    rcases mem_cons.mp hc with rfl | hc
    · simp
    · obtain ⟨n, -, rfl⟩ := mem_map.mp hc
      simp
  · intro q hfile hfile' h
    have hjoin := hfile.join_directory hfile' h
    refine ⟨fun options exists? specifier => ?_, fun file => ?_⟩
    · rw [Modules.find?, Modules.find?, Modules.bases, Modules.bases, hjoin]
    · rw [ConfigFile.parentPath?, ConfigFile.parentPath?, ConfigFile.directory,
        ConfigFile.directory]
      refine Option.bind_congr fun parent _ => ?_
      rw [hjoin]

theorem normalize_canonical_dotted :
    (Path.mk "/../a//../c/./d.ts").normalize = ⟨"/c/d.ts"⟩ ∧
      Modules.find? {} (fun _ => true) ⟨"/c/d.ts"⟩ "../e" =
        Modules.find? {} (fun _ => true) ⟨"/../a//../c/./d.ts"⟩ "../e" := by
  have hp : (Path.mk "/../a//../c/./d.ts").NamesFile :=
    ⟨by decide, [.up, .name "a", .up, .name "c"], "d.ts", by decide +kernel⟩
  have hq : (Path.mk "/c/d.ts").NamesFile := ⟨by decide, [.name "c"], "d.ts", by decide +kernel⟩
  have hnormal : (Path.mk "/../a//../c/./d.ts").normalize = ⟨"/c/d.ts"⟩ := by decide +kernel
  obtain ⟨-, -, hfixed, -, -, hfiles⟩ := normalize_canonical hp.absolute
  rw [hnormal] at hfixed
  exact ⟨hnormal, (hfiles _ hp hq (hfixed.trans hnormal.symm)).1 _ _ _⟩

end Path

end PropContract
