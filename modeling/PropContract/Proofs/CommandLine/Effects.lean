import PropContract.Proofs.CommandLine.Reports
import PropContract.Proofs.CommandLine.Targets

namespace PropContract

open List Project

namespace Job

variable {job : Job} {mode : RunMode} {source : Path}

theorem writeText_of_unmade {tree made : FileTree} {target parent : Path} (text : String)
    (hparent : target.parent?.getD ⟨""⟩ = parent) {fault : WriteFault}
    (h : tree.makeDirectories parent = (made, some fault)) :
    writeText tree target text =
      (made, some s!"failed to create {parent.text}: {fault.message}") := by
  unfold writeText
  simp only [hparent, h]

theorem writeText_of_made {tree made : FileTree} {target : Path} (text : String)
    (h : tree.makeDirectories (target.parent?.getD ⟨""⟩) = (made, none)) :
    writeText tree target text = ((made.write target text).1,
      (made.write target text).2.map fun fault =>
        s!"failed to write {target.text}: {fault.message}") := by
  unfold writeText
  simp only [h]
  rcases made.write target text with ⟨after, _ | fault⟩ <;> rfl

theorem writeText_cases (tree : FileTree) (target : Path) (text : String) :
    ((writeText tree target text).2 ≠ none ∧
        (writeText tree target text).1.files = tree.files) ∨
      ((writeText tree target text).2 = none ∧
        (writeText tree target text).1.files = tree.files.put target.place (.text text)) := by
  have hfiles := tree.makeDirectoriesFrom_files false [] (target.parent?.getD ⟨""⟩).components
  rw [← FileTree.makeDirectories] at hfiles
  rcases hmade : tree.makeDirectories (target.parent?.getD ⟨""⟩) with ⟨made, _ | fault⟩
  · rw [hmade] at hfiles
    rw [writeText_of_made text hmade]
    rcases made.write_cases target text with ⟨hsame, hfault⟩ | hwritten
    · refine .inl ⟨?_, (congrArg FileTree.files hsame).trans hfiles⟩
      simpa using hfault
    · rw [hwritten, ← hfiles]
      exact .inr ⟨rfl, rfl⟩
  · rw [hmade] at hfiles
    rw [writeText_of_unmade text rfl hmade]
    exact .inl ⟨Option.some_ne_none _, hfiles⟩

def Accounts (reports : List Report) (before after : FileTree) : Prop :=
  ∀ place, after.files.get? place ≠ before.files.get? place →
    ∃ r ∈ reports, r.status = .written ∧ ∃ t, r.target = some t ∧ t.place = place

theorem Accounts.of_files_eq (reports : List Report) {before after : FileTree}
    (h : after.files = before.files) : Accounts reports before after :=
  fun place hne => absurd (by rw [h]) hne

theorem Accounts.trans {reports reports' : List Report} {before between after : FileTree}
    (h : Accounts reports before between) (h' : Accounts reports' between after) :
    Accounts (reports ++ reports') before after := by
  intro place hne
  by_cases hfirst : between.files.get? place = before.files.get? place
  · obtain ⟨r, hr, hwritten⟩ := h' place (hfirst ▸ hne)
    exact ⟨r, mem_append_right _ hr, hwritten⟩
  · obtain ⟨r, hr, hwritten⟩ := h place hfirst
    exact ⟨r, mem_append_left _ hr, hwritten⟩

section

variable {plan : Plan} {tree : FileTree} (h : job.Fits mode tree source plan)

include h

theorem Fits.accounts : Accounts (plan.perform tree).2.toList tree (plan.perform tree).1 := by
  cases h with
  | silent | tell => exact .of_files_eq _ rfl
  | @put r target text =>
    rcases writeText_cases tree target text with ⟨-, hfiles⟩ | ⟨hnone, hfiles⟩
    · exact .of_files_eq _ hfiles
    · intro place hne
      refine ⟨_, mem_singleton_self _, by rw [hnone]; rfl, target, by rw [hnone]; rfl, ?_⟩
      by_contra hplace
      rw [Plan.perform, hfiles, Table.get?_put, if_neg hplace] at hne
      exact hne rfl

theorem Fits.perform_of_not_write (hwrite : job.write = false) : (plan.perform tree).1 = tree := by
  cases h with
  | silent => rfl
  | tell => rfl
  | put _ hput => exact absurd (hwrite.symm.trans hput) Bool.false_ne_true

theorem Fits.target_mem {r : Report} (hr : r ∈ (plan.perform tree).2.toList) {t : Path}
    (ht : r.target = some t) : t ∈ job.outputs mode source := by
  cases h with
  | silent => cases hr
  | tell _ _ _ _ htarget =>
    obtain rfl := mem_singleton.mp hr
    exact htarget t ht
  | @put r' target text _ _ _ _ htarget =>
    obtain rfl := mem_singleton.mp hr
    have hboth : (writtenReport r' target (writeText tree target text).2).target = some target := by
      cases (writeText tree target text).2 <;> rfl
    exact Option.some.inj (hboth.symm.trans ht) ▸ htarget

end

structure Effect (job : Job) (mode : RunMode) (sources : List Path) (before : FileTree)
    (done : FileTree × List Report) : Prop where
  accounts : Accounts done.2 before done.1
  kept : job.write = false → done.1 = before
  targets : ∀ r ∈ done.2, ∀ t, r.target = some t → ∃ source ∈ sources, t ∈ job.outputs mode source

theorem processAll_effect (job : Job) (mode : RunMode) (tree : FileTree) (sources : List Path) :
    job.Effect mode sources tree (job.processAll mode tree sources) := by
  induction sources generalizing tree with
  | nil => exact ⟨.of_files_eq _ rfl, fun _ => rfl, forall_mem_nil _⟩
  | cons source sources ih =>
    obtain ⟨plan, hfits, hplan⟩ := job.exists_plan mode source tree
    rw [processAll, hplan tree (.refl job mode source tree)]
    obtain ⟨haccounts, hkept, htargets⟩ := ih (plan.perform tree).1
    refine ⟨hfits.accounts.trans haccounts, fun hwrite => ?_, fun r hr t ht => ?_⟩
    · exact (hkept hwrite).trans (hfits.perform_of_not_write hwrite)
    · rcases mem_append.mp hr with hr | hr
      · exact ⟨source, mem_cons_self, hfits.target_mem hr ht⟩
      · obtain ⟨other, hother, hmem⟩ := htargets r hr t ht
        exact ⟨other, mem_cons_of_mem _ hother, hmem⟩

end Job

namespace Groundwork

variable {cwd : Path} {a : Arguments} {tree : FileTree}

section

variable {options : CompilerOptions} {paths : List Path} {p : Project}
  (h : Project.load tree options paths = .ok p)

include h

theorem isAbsolute_of_load : ∀ path ∈ paths, path.isAbsolute := by
  obtain ⟨sources, hsources, h⟩ := of_bind_eq_ok h
  obtain ⟨texts, htexts, -⟩ := of_bind_eq_ok h
  intro path hpath
  rw [← (of_mapM_read hsources).1] at hpath
  obtain ⟨source, hsource, rfl⟩ := mem_map.mp hpath
  exact (keys_of_placed htexts).1 source hsource

theorem kind_of_load : ∀ f ∈ p.files, SourceKind.ofPath? f.path = some f.kind := by
  obtain ⟨sources, -, h⟩ := of_bind_eq_ok h
  exact ofSources_kind h

end

variable (g : Groundwork cwd a tree)

theorem liesIn_of_mem_roots : ∀ root ∈ g.roots, ∃ dir name, root.LiesIn dir name := by
  intro root h
  obtain ⟨file, hfile, hroot, f, hf, hpath⟩ := g.mem_roots h
  obtain ⟨absolute, names, hnames, hnormal⟩ := g.isNormal_of_mem_roots root h
  have habs : absolute = true := by
    rw [← Path.isAbsolute_ofNames absolute hnames, ← hnormal, hroot, Path.normalize,
      Path.isAbsolute_ofNames]
    · exact isAbsolute_of_load g.project_eq file hfile
    · exact Path.foldl_walk_names (fun _ => Path.isName_of_mem_components) (by simp)
  subst habs
  rcases eq_nil_or_concat names with rfl | ⟨dir, name, rfl⟩
  · have hkind := kind_of_load g.project_eq f hf
    rw [hpath, hnormal] at hkind
    cases hkind
  · rw [concat_eq_append] at hnames hnormal
    exact ⟨dir, name, hnames, hnormal⟩

theorem exists_sourceRoot (hne : g.roots ≠ []) :
    ∃ base, (∀ n ∈ base, Path.IsName n) ∧ g.job.sourceRoot = Path.ofNames true base ∧
      (∃ root ∈ g.roots, ∃ dir name, root.LiesIn dir name ∧ base <+: dir) ∧
      ∀ root ∈ g.roots, ∀ dir name, root.LiesIn dir name → base <+: dir ++ [name] := by
  obtain ⟨base, hbase, hroot, hone, habove, -⟩ :=
    Workspace.exists_commonRoot hne g.liesIn_of_mem_roots
  refine ⟨base, hbase, ?_, hone, habove⟩
  rw [job, hroot]
  rfl

theorem output_eq_of_place_eq {mode : RunMode} {root root' : Path} (h : root ∈ g.roots)
    (h' : root' ∈ g.roots) {target target' : Path} (ht : target ∈ g.job.outputs mode root)
    (ht' : target' ∈ g.job.outputs mode root') (hplace : target.place = target'.place) :
    target = target' := by
  obtain ⟨base, hbase, hroot, -, -⟩ := g.exists_sourceRoot (ne_nil_of_mem h)
  obtain ⟨dir, name, hin⟩ := g.liesIn_of_mem_roots root h
  obtain ⟨dir', name', hin'⟩ := g.liesIn_of_mem_roots root' h'
  exact Job.eq_of_place_eq hroot hbase hin hin' ht ht' hplace

end Groundwork

/-- The files that are different are targets of reports that say so, and a report that nothing was
written names a file that is as it was, unless another one says that the file was written. -/
structure ChangesOnlyWritten (before after : FileTree) (reports : List Report) : Prop where
  accounts : Job.Accounts reports before after
  kept : ∀ r ∈ reports, r.status = .failed ∨ r.status = .skipped → ∀ t, r.target = some t →
    (∀ w ∈ reports, w.status = .written → w.target ≠ some t) →
      after.files.get? t.place = before.files.get? t.place

theorem Groundwork.changesOnlyWritten {cwd : Path} {a : Arguments} {tree : FileTree}
    (g : Groundwork cwd a tree) (mode : RunMode) {order : List Path} (h : order.Perm g.roots) :
    ChangesOnlyWritten tree (g.job.processAll mode tree order).1
      (g.job.processAll mode tree order).2 := by
  have heffect := g.job.processAll_effect mode tree order
  refine ⟨heffect.accounts, fun r hr _ t ht hother => ?_⟩
  by_contra hne
  obtain ⟨w, hw, hwritten, t', ht', hplace⟩ := heffect.accounts _ hne
  obtain ⟨root, hroot, hmem⟩ := heffect.targets r hr t ht
  obtain ⟨root', hroot', hmem'⟩ := heffect.targets w hw t' ht'
  obtain rfl := g.output_eq_of_place_eq (h.mem_iff.mp hroot') (h.mem_iff.mp hroot) hmem' hmem hplace
  exact hother w hw hwritten ht'

/-- A run that fails, shows the document or does not write leaves the tree as it is. Any other
changes only targets that it reports as written, and would do so in whatever order it worked on
the files. -/
theorem run_changes_only_written (cwd : Path) (a : Arguments) (tree : FileTree) :
    ((∃ e, Run.run cwd a tree = .error e) ∨ a.mode = some .ast ∨ a.write = false →
      Run.treeAfter cwd a tree = tree) ∧
    (∀ o, Run.run cwd a tree = .ok o →
      ChangesOnlyWritten tree (Run.treeAfter cwd a tree) o.reports) ∧
    ∀ (g : Groundwork cwd a tree) (mode : RunMode) (order : List Path), order.Perm g.roots →
      let done := g.job.processAll mode tree order
      (a.write = false → done.1 = tree) ∧ ChangesOnlyWritten tree done.1 done.2 := by
  rw [← and_assoc]
  refine ⟨?_, fun g mode order horder =>
    ⟨(g.job.processAll_effect mode tree order).kept, g.changesOnlyWritten mode horder⟩⟩
  rcases work_cases cwd a tree with ⟨e, hwork⟩ | ⟨g, hwork⟩
  · rw [Run.run, Run.treeAfter, hwork]
    exact ⟨fun _ => rfl, by simp⟩
  rw [Run.run, Run.treeAfter, hwork, Groundwork.outcome]
  by_cases hmode : a.mode = some .ast
  · rw [if_pos hmode]
    refine ⟨fun _ => rfl, ?_⟩
    rintro o ⟨⟩
    exact ⟨.of_files_eq _ rfl, forall_mem_nil _⟩
  · rw [if_neg hmode]
    constructor
    · rintro (⟨e, ⟨⟩⟩ | h | h)
      · exact absurd h hmode
      · exact (g.job.processAll_effect _ tree g.roots).kept h
    · rintro o ⟨⟩
      exact g.changesOnlyWritten _ (.refl _)

def blockedTree : FileTree where
  files := [
    ("/app/a/A.ts", .text "class A extends Component {}"),
    ("/app/b/B.ts", .text "class B extends Component {}"),
    ("/out/a", .text "")]

def blockedArguments : Arguments where
  files := [⟨"a/A.ts"⟩, ⟨"b/B.ts"⟩]
  workspace := some ⟨"/app"⟩
  outDir := some ⟨"../out"⟩
  write := true

theorem blocked_run : ∃ o, Run.run ⟨"/"⟩ blockedArguments blockedTree = .ok o ∧
    o.reports.map (fun r => (r.status, r.target.map Path.place)) =
      [(.failed, some "/out/a/A.propTypes.js"), (.written, some "/out/b/B.propTypes.js")] ∧
    o.tree.files.contains "/out/b/B.propTypes.js" :=
  exists_ok_of_any (by decide +kernel)

theorem run_changes_only_written_blocked :
    ∃ o, Run.run ⟨"/"⟩ blockedArguments blockedTree = .ok o ∧
      o.tree.files.contains "/out/b/B.propTypes.js" ∧
      ∀ place, place ≠ "/out/b/B.propTypes.js" →
        o.tree.files.get? place = blockedTree.files.get? place := by
  obtain ⟨o, hrun, hreports, hwritten⟩ := blocked_run
  obtain ⟨-, -, hafter⟩ := exists_groundwork hrun
  refine ⟨o, hrun, hwritten, fun place hplace => ?_⟩
  by_contra hne
  obtain ⟨r, hr, hstatus, t, ht, rfl⟩ :=
    ((run_changes_only_written ⟨"/"⟩ blockedArguments blockedTree).2.1 o hrun).1 place (hafter ▸ hne)
  have hmem : (r.status, r.target.map Path.place) ∈
      [(ReportStatus.failed, some "/out/a/A.propTypes.js"),
        (.written, some "/out/b/B.propTypes.js")] :=
    hreports ▸ mem_map_of_mem hr
  simp_all

end PropContract
