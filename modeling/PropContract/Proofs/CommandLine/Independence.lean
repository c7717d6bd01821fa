import PropContract.Proofs.CommandLine.Order

/-!
Where no two sources with components lie in one directory and differ in their ending alone, the
order of the work does not show in the files or in the reports.
-/

namespace PropContract

open List Project FileTree

namespace Path

theorem isAbsolute_absoluteIn (p : Path) {base : Path} (h : base.isAbsolute) :
    (p.absoluteIn base).isAbsolute := by
  rw [absoluteIn]
  split
  · assumption
  · rename_i hp
    rw [isAbsolute_join base p (by simpa using hp) (text_ne_of_isAbsolute h), h]

theorem NamesFile.join {p : Path} (h : p.isAbsolute) {names : List String} {last : String}
    (hnames : ∀ n ∈ names, IsName n) (hlast : IsName last) :
    ((p.join (ofNames false names)).join (ofNames false [last])).NamesFile := by
  have hone : ∀ n ∈ [last], IsName n := forall_mem_singleton.mpr hlast
  have hp : (p.join (ofNames false names)).isAbsolute := by
    rw [isAbsolute_join p _ (isAbsolute_ofNames false hnames) (text_ne_of_isAbsolute h), h]
  refine ⟨?_, ?_⟩
  · rw [isAbsolute_join _ _ (isAbsolute_ofNames false hone) (text_ne_of_isAbsolute hp), hp]
  · refine ⟨p.segments.filterMap componentOf? ++ names.map .name, last, ?_⟩
    rw [components_join _ hone, components_join _ hnames, components, if_pos h]
    simp

end Path

namespace FileTree

theorem resolve?_join (tree : FileTree) (p : Path) {names : List String}
    (hnames : ∀ n ∈ names, Path.IsName n) :
    (tree.resolve? (p.join (Path.ofNames false names))).isSome = (tree.resolve? p).isSome := by
  rw [resolve?, resolve?, Option.isSome_map, Option.isSome_map, Path.components_join p hnames,
    resolveFrom_append]
  cases tree.resolveFrom [] p.components with
  | none => rfl
  | some between => rw [Option.bind_some, resolveFrom_names]; rfl

end FileTree

namespace Job

theorem outputEnding_unique {mode : RunMode} {stem stem' ending ending' : String}
    (he : ending ∈ outputEndings mode) (he' : ending' ∈ outputEndings mode)
    (h : stem ++ ending = stem' ++ ending') : stem = stem' ∧ ending = ending' := by
  have hlist : stem.toList ++ ending.toList = stem'.toList ++ ending'.toList := by
    rw [← String.toList_append, h, String.toList_append]
  have hends : ∀ e ∈ outputEndings mode, ∀ e' ∈ outputEndings mode,
      e.toList <:+ e'.toList → e = e' := by
    cases mode <;> decide
  have hsame : ending = ending' := by
    rcases suffix_or_suffix_of_suffix (suffix_append stem.toList ending.toList)
      (hlist ▸ suffix_append stem'.toList ending'.toList) with hsuffix | hsuffix
    · exact hends _ he _ he' hsuffix
    · exact (hends _ he' _ he hsuffix).symm
  subst hsame
  exact ⟨String.toList_inj.mp (append_cancel_right hlist), rfl⟩

end Job

namespace Groundwork

open Path

variable {cwd : Path} {a : Arguments} {tree : FileTree} (g : Groundwork cwd a tree)

theorem isAbsolute_outDir (hcwd : cwd.isAbsolute) : (g.job.outDir.getD ⟨"/"⟩).isAbsolute := by
  rw [job, Arguments.outDirIn]
  cases a.outDir with
  | none => simp [isAbsolute]
  | some dir => exact isAbsolute_absoluteIn dir (isAbsolute_absoluteIn _ hcwd)

variable {dir : List String} {root t : Path} {mode : RunMode}

theorem hasFile_of_mem_roots (h : root ∈ g.roots) {name : String} (hin : root.LiesIn dir name) :
    tree.hasFile (dir ++ [name]) := by
  obtain ⟨file, hfile, hroot, -⟩ := g.mem_roots h
  obtain ⟨sources, hsources, -⟩ := of_bind_eq_ok g.project_eq
  obtain ⟨hpaths, hread⟩ := of_mapM_read hsources
  rw [← hpaths] at hfile
  obtain ⟨source, hsource, rfl⟩ := mem_map.mp hfile
  have habs : source.1.isAbsolute :=
    isAbsolute_of_load g.project_eq source.1 (hpaths ▸ mem_map_of_mem hsource)
  have hthere := isFile_normalize habs (isFile_of_read (hread source hsource))
  rw [← hroot, isFile_iff] at hthere
  have hwalked : root.walked = dir ++ [name] := by
    rw [walked, hin.eq, components_ofNames true hin.isName]
    simp [walk, foldl_walk_of_names]
  exact hwalked ▸ hthere.2

theorem exists_base (htree : tree.IsSound) (h : root ∈ g.roots) :
    ∃ base, (∀ n ∈ base, IsName n) ∧ g.job.sourceRoot = ofNames true base ∧
      ∀ root ∈ g.roots, ∀ dir name, root.LiesIn dir name → base <+: dir := by
  obtain ⟨base, hbase, hroot, ⟨first, hfirst, dir, name, hin, hdir⟩, habove⟩ :=
    g.exists_sourceRoot (ne_nil_of_mem h)
  refine ⟨base, hbase, hroot, fun root' h' dir' name' hin' => ?_⟩
  rcases prefix_concat_iff.mp (habove root' h' dir' name' hin') with rfl | hbelow
  · have hfile := g.hasFile_of_mem_roots h' hin'
    have hthere : tree.hasDirectory (dir' ++ [name']) := by
      apply Job.hasDirectory_of_below hin.isName (g.hasFile_of_mem_roots hfirst hin)
      · exact hdir.trans (prefix_append dir [name])
      · intro he
        have hlength := hdir.length_le
        rw [he] at hlength
        simp at hlength
    exact absurd ((htree.apart hin'.isName hfile).symm.trans hthere) Bool.false_ne_true
  · exact hbelow

theorem keptNames_inj {base dir' : List String} (h : base <+: dir) (h' : base <+: dir')
    (heq : g.job.keptNames base dir = g.job.keptNames base dir') : dir = dir' := by
  rw [Job.keptNames, Job.keptNames] at heq
  by_cases hout : g.job.outDir = none
  · rwa [if_pos hout, if_pos hout] at heq
  · rw [if_neg hout, if_neg hout, if_pos h, if_pos h'] at heq
    obtain ⟨rest, rfl⟩ := h
    obtain ⟨rest', rfl⟩ := h'
    simpa using heq

theorem outputs_meet_iff (htree : tree.IsSound) (mode : RunMode) {root' : Path} (h : root ∈ g.roots)
    (h' : root' ∈ g.roots) :
    (∃ t ∈ g.job.outputs mode root, t ∈ g.job.outputs mode root') ↔
      root.parent? = root'.parent? ∧ Workspace.stem root = Workspace.stem root' := by
  obtain ⟨base, hbase, hroot, hbelow⟩ := g.exists_base htree h
  obtain ⟨dir, name, hin⟩ := g.liesIn_of_mem_roots root h
  obtain ⟨dir', name', hin'⟩ := g.liesIn_of_mem_roots root' h'
  constructor
  · rintro ⟨t, ht, ht'⟩
    obtain ⟨ending, he, rfl⟩ := mem_map.mp ht
    obtain ⟨ending', he', heq⟩ := mem_map.mp ht'
    have hwalked := congrArg walked heq
    rw [Job.walked_outputAt hroot hbase hin he, Job.walked_outputAt hroot hbase hin' he',
      Job.outputNames, Job.outputNames] at hwalked
    obtain ⟨hdirs, hlast⟩ := append_inj' hwalked (by simp)
    have hkept := g.keptNames_inj (hbelow root' h' dir' name' hin') (hbelow root h dir name hin)
      (append_cancel_left hdirs)
    rw [hin.parent?, hin'.parent?, hkept]
    exact ⟨rfl, (Job.outputEnding_unique he' he (singleton_inj.mp hlast)).1.symm⟩
  · rintro ⟨hparent, hstem⟩
    have hone : ∃ ending, ending ∈ Job.outputEndings mode := by
      cases mode <;> exact ⟨_, mem_cons_self⟩
    obtain ⟨ending, he⟩ := hone
    refine ⟨g.job.outputAt root ending, mem_map_of_mem he, mem_map.mpr ⟨ending, he, ?_⟩⟩
    rw [Job.outputAt, Job.outputAt, Job.targetDir, Job.targetDir, hparent, hstem]

theorem namesFile_of_mem_outputs (hcwd : cwd.isAbsolute) (h : root ∈ g.roots)
    (ht : t ∈ g.job.outputs mode root) : t.NamesFile := by
  obtain ⟨base, hbase, hroot, -, -⟩ := g.exists_sourceRoot (ne_nil_of_mem h)
  obtain ⟨dir, name, hin⟩ := g.liesIn_of_mem_roots root h
  obtain ⟨ending, he, rfl⟩ := mem_map.mp ht
  rw [Job.outputAt_eq hroot hbase hin he]
  exact NamesFile.join (g.isAbsolute_outDir hcwd) (Job.isName_keptNames hin.dirs)
    (Job.isName_output hin he)

/-- Work that writes new files into a given directory: the directory can be reached, and no output
is on the way to that of another source. -/
def OutDirClear (mode : RunMode) : Prop :=
  mode ≠ .inject → ∀ out, a.outDirIn cwd = some out → (tree.resolve? out).isSome ∧
    ∀ root root', g.job.Rivals g.roots root root' → ∀ t ∈ g.job.outputs mode root,
      ∀ t' ∈ g.job.outputs mode root', ¬ t'.startsWith t

theorem resolve?_output (mode : RunMode) (hclear : g.OutDirClear mode) (hmode : mode ≠ .inject)
    (h : root ∈ g.roots) (ht : t ∈ g.job.outputs mode root) : (tree.resolve? t).isSome := by
  obtain ⟨base, hbase, hroot, -, -⟩ := g.exists_sourceRoot (ne_nil_of_mem h)
  obtain ⟨dir, name, hin⟩ := g.liesIn_of_mem_roots root h
  obtain ⟨ending, he, rfl⟩ := mem_map.mp ht
  rw [Job.outputAt_eq hroot hbase hin he,
    resolve?_join _ _ (forall_mem_singleton.mpr (Job.isName_output hin he)),
    resolve?_join _ _ (Job.isName_keptNames hin.dirs)]
  cases hout : g.job.outDir with
  | none => rfl
  | some out => exact (hclear hmode out hout).1

theorem components_output {base : List String} {name : String}
    (hroot : g.job.sourceRoot = ofNames true base) (hbase : ∀ n ∈ base, IsName n)
    (hin : root.LiesIn dir name) {ending : String} (he : ending ∈ Job.outputEndings mode) :
    (g.job.outputAt root ending).components = (g.job.outDir.getD ⟨"/"⟩).components ++
      (g.job.keptNames base dir ++ [Workspace.stem root ++ ending]).map .name := by
  rw [Job.outputAt_eq hroot hbase hin he,
    components_join _ (forall_mem_singleton.mpr (Job.isName_output hin he)),
    components_join _ (Job.isName_keptNames hin.dirs), map_append, append_assoc]

theorem hasDirectory_of_output (hclear : g.OutDirClear mode) (hmode : mode ≠ .inject) {root' : Path}
    (hr : g.job.Rivals g.roots root root') {t' : Path} (ht : t ∈ g.job.outputs mode root)
    (ht' : t' ∈ g.job.outputs mode root') (hne : t.walked ≠ t'.walked)
    (hbelow : t.walked <+: t'.walked) : tree.hasDirectory t.walked := by
  obtain ⟨base, hbase, hroot, -, -⟩ := g.exists_sourceRoot (ne_nil_of_mem hr.left)
  obtain ⟨dir, name, hin⟩ := g.liesIn_of_mem_roots root hr.left
  obtain ⟨dir', name', hin'⟩ := g.liesIn_of_mem_roots root' hr.right
  obtain ⟨ending, he, rfl⟩ := mem_map.mp ht
  obtain ⟨ending', he', rfl⟩ := mem_map.mp ht'
  have hwalked := Job.walked_outputAt hroot hbase hin he
  have hwalked' := Job.walked_outputAt hroot hbase hin' he'
  rw [Job.outputNames, append_assoc] at hwalked hwalked'
  cases hout : g.job.outDir with
  | some out =>
    rw [hwalked, hwalked', prefix_append_right_inj] at hbelow
    refine absurd ?_ ((hclear hmode out hout).2 root root' hr _ ht _ ht')
    rw [startsWith, isPrefixOf_iff_prefix, g.components_output hroot hbase hin he,
      g.components_output hroot hbase hin' he', prefix_append_right_inj]
    exact hbelow.map _
  | none =>
    have hkept (d : List String) : g.job.keptNames base d = d := by rw [Job.keptNames, if_pos hout]
    have hstart : (g.job.outDir.getD ⟨"/"⟩).walked = [] := by rw [hout]; rfl
    rw [hstart, hkept, nil_append] at hwalked hwalked'
    rw [hwalked, hwalked'] at hbelow hne
    have hinside := (prefix_concat_iff.mp hbelow).resolve_left hne
    rw [hwalked]
    apply Job.hasDirectory_of_below hin'.isName (g.hasFile_of_mem_roots hr.right hin')
    · exact hinside.trans (prefix_append dir' [name'])
    · intro heq
      have hlength := hinside.length_le
      rw [heq] at hlength
      simp at hlength

theorem ready (hcwd : cwd.isAbsolute) (htree : tree.IsSound) (hclear : g.OutDirClear mode)
    (happart : ∀ root root', g.job.Rivals g.roots root root' →
      ¬ ∃ t ∈ g.job.outputs mode root, t ∈ g.job.outputs mode root') :
    g.job.Ready mode g.roots tree := by
  have hdistinct : ∀ {root root'}, g.job.Rivals g.roots root root' →
      ∀ t ∈ g.job.outputs mode root, ∀ t' ∈ g.job.outputs mode root', t.walked ≠ t'.walked := by
    intro root root' hr t ht t' ht' hwalked
    have hplace : t.place = t'.place := by rw [place, place, hwalked]
    obtain rfl := g.output_eq_of_place_eq hr.left hr.right ht ht' hplace
    exact happart root root' hr ⟨t, ht, ht'⟩
  exact {
    sound := htree
    namesFile := fun root h t ht => g.namesFile_of_mem_outputs hcwd h ht
    distinct := hdistinct
    reach := fun hmode root h t ht => g.resolve?_output mode hclear hmode h ht
    clear := fun hmode _ _ hr t ht t' ht' hbelow =>
      g.hasDirectory_of_output hclear hmode hr ht ht' (hdistinct hr t ht t' ht') hbelow }

/-- Two roots have an output in common exactly if they are beside each other under one name, but
for their endings. Where no two with components do, the roots can be worked on in any order: each
is worked on as if it were the only one, and files and reports are the same. -/
theorem processAll_any_order (hcwd : cwd.isAbsolute) (htree : tree.IsSound) (mode : RunMode) :
    (∀ root ∈ g.roots, ∀ root' ∈ g.roots,
      (∃ t ∈ g.job.outputs mode root, t ∈ g.job.outputs mode root') ↔
        root.parent? = root'.parent? ∧ Workspace.stem root = Workspace.stem root') ∧
    ((∀ root root', g.job.Rivals g.roots root root' →
        ¬ (root.parent? = root'.parent? ∧ Workspace.stem root = Workspace.stem root')) →
      g.OutDirClear mode → ∀ order, order.Perm g.roots →
        g.job.Alone mode tree order (g.job.processAll mode tree order) ∧
        (∀ place, (g.job.processAll mode tree order).1.files.get? place =
          (g.job.processAll mode tree g.roots).1.files.get? place) ∧
        (g.job.processAll mode tree order).2.Perm (g.job.processAll mode tree g.roots).2) := by
  refine ⟨fun root h root' h' => g.outputs_meet_iff htree mode h h', ?_⟩
  intro hstems hclear order hperm
  have hready : g.job.Ready mode g.roots tree := g.ready hcwd htree hclear fun root root' hr =>
    mt (g.outputs_meet_iff htree mode hr.left hr.right).mp (hstems root root' hr)
  have hnodup : g.roots.Nodup := Table.nodup_eraseDups _
  have horder := hready.alone (hperm.nodup_iff.mpr hnodup) fun s hs => hperm.mem_iff.mp hs
  have hroots := hready.alone hnodup fun s hs => hs
  refine ⟨horder, horder.get?_eq hroots fun s => hperm.mem_iff, ?_⟩
  rw [horder.reports, hroots.reports]
  exact hperm.filterMap _

end Groundwork

def tabTree : FileTree where
  files := [
    ("/app/a/Tab.ts", .text "class Tab extends Component {}"),
    ("/app/b/Tab.tsx", .text "class Tab extends Component {}")]

def tabArguments : Arguments where
  files := [⟨"a/Tab.ts"⟩, ⟨"b/Tab.tsx"⟩]
  workspace := some ⟨"/app"⟩
  outDir := some ⟨"out"⟩
  write := true

def tabRoots : List Path := [⟨"/app/a/Tab.ts"⟩, ⟨"/app/b/Tab.tsx"⟩]

def tabFiles : List Path :=
  tabArguments.files.map fun file => file.absoluteIn (tabArguments.workspaceIn ⟨"/"⟩)

theorem tab_read : ∃ p, Project.load tabTree {} tabFiles = .ok p ∧
    Run.rootsOf p tabFiles = tabRoots ∧
    (Extraction.document { project := p } tabRoots).toOption.isSome :=
  exists_ok_of_any (by decide +kernel)

theorem tab_groundwork : ∃ g : Groundwork ⟨"/"⟩ tabArguments tabTree, g.roots = tabRoots := by
  obtain ⟨p, hp, hroots, hdocument⟩ := tab_read
  cases hd : Extraction.document { project := p } tabRoots with
  | error e =>
    rw [hd] at hdocument
    cases hdocument
  | ok d =>
    have htsconfig :
        tabTree.isFile ((tabArguments.workspaceIn ⟨"/"⟩).join ⟨"tsconfig.json"⟩) = false := by
      decide +kernel
    exact ⟨{
      settings := ({} : Settings).override tabArguments
      options := {}
      files := tabFiles
      project := p
      document := d
      settings_eq := rfl
      options_eq := by
        rw [Run.compilerOptions]
        simp only [htsconfig]
        rfl
      files_eq := rfl
      project_eq := hp
      document_eq := by rw [hroots, hd] }, hroots⟩

theorem tab_isSound : tabTree.IsSound :=
  isSound_of_files rfl (by decide) (by decide +kernel)

theorem processAll_any_order_tab : ∃ g : Groundwork ⟨"/"⟩ tabArguments tabTree,
    g.roots = tabRoots ∧ g.OutDirClear .generate ∧
    (g.job.processAll .generate tabTree tabRoots.reverse).2.Perm
      (g.job.processAll .generate tabTree tabRoots).2 := by
  obtain ⟨g, hroots⟩ := tab_groundwork
  have hrivals : ∀ root root', g.job.Rivals g.roots root root' →
      root = ⟨"/app/a/Tab.ts"⟩ ∧ root' = ⟨"/app/b/Tab.tsx"⟩ ∨
        root = ⟨"/app/b/Tab.tsx"⟩ ∧ root' = ⟨"/app/a/Tab.ts"⟩ := by
    rintro root root' ⟨hleft, hright, hne, -, -⟩
    rw [hroots, tabRoots, mem_pair] at hleft hright
    rcases hleft with rfl | rfl <;> rcases hright with rfl | rfl
    · exact absurd rfl hne
    · exact .inl ⟨rfl, rfl⟩
    · exact .inr ⟨rfl, rfl⟩
    · exact absurd rfl hne
  have hout : tabArguments.outDirIn ⟨"/"⟩ = some ⟨"/app/out"⟩ := by decide +kernel
  have hsource : (Workspace.commonRoot? tabRoots).getD (tabArguments.workspaceIn ⟨"/"⟩) =
      ⟨"/app"⟩ := by decide +kernel
  have houtputs (root : Path) : g.job.outputs .generate root =
      Job.outputs ⟨true, {}, ⟨"/app"⟩, some ⟨"/app/out"⟩, ⟨[]⟩⟩ .generate root := by
    simp only [Job.outputs, Groundwork.job, hroots, hout, hsource]
    rfl
  have hclear : g.OutDirClear .generate := by
    intro _ out hsome
    obtain rfl := Option.some.inj (hout.symm.trans hsome)
    refine ⟨by decide +kernel, fun root root' hr => ?_⟩
    rw [houtputs, houtputs]
    rcases hrivals root root' hr with ⟨rfl, rfl⟩ | ⟨rfl, rfl⟩ <;> decide +kernel
  have hstems : ∀ root root', g.job.Rivals g.roots root root' →
      ¬ (root.parent? = root'.parent? ∧ Workspace.stem root = Workspace.stem root') := by
    intro root root' hr
    rcases hrivals root root' hr with ⟨rfl, rfl⟩ | ⟨rfl, rfl⟩ <;> decide +kernel
  have horder := (g.processAll_any_order (by decide +kernel) tab_isSound .generate).2 hstems hclear
    tabRoots.reverse (hroots ▸ tabRoots.reverse_perm)
  exact ⟨g, hroots, hclear, hroots ▸ horder.2.2⟩

def endingsTree : FileTree where
  files := [
    ("/A.ts", .text "class A extends Component {}"),
    ("/A.tsx", .text "class B extends Component {}")]

def endingsArguments (files : List Path) : Arguments where
  files := files
  write := true

/-- The file that is worked on last is the one whose output is left. -/
theorem shared_output_keeps_last :
    (∃ o, Run.run ⟨"/"⟩ (endingsArguments [⟨"/A.ts"⟩, ⟨"/A.tsx"⟩]) endingsTree = .ok o ∧
      o.reports.map Report.target = [some ⟨"/A.propTypes.js"⟩, some ⟨"/A.propTypes.js"⟩] ∧
      o.tree.files.get? "/A.propTypes.js" = some (.text "B.propTypes = {};\n")) ∧
    ∃ o, Run.run ⟨"/"⟩ (endingsArguments [⟨"/A.tsx"⟩, ⟨"/A.ts"⟩]) endingsTree = .ok o ∧
      o.reports.map Report.target = [some ⟨"/A.propTypes.js"⟩, some ⟨"/A.propTypes.js"⟩] ∧
      o.tree.files.get? "/A.propTypes.js" = some (.text "A.propTypes = {};\n") :=
  ⟨exists_ok_of_any (by decide +kernel), exists_ok_of_any (by decide +kernel)⟩

end PropContract
