import PropContract.Proofs.CommandLine.Plan
import PropContract.Proofs.Extraction.Assembly
import PropContract.Proofs.Path.Join

/-!
What a run reports. Since the paths of roots are normal and distinct, each component comes back to
the root that it was found in.
-/

namespace PropContract

open List

namespace Job

variable {job : Job} {mode : RunMode}

theorem writtenReport_source (r : Report) (target : Path) (fault : Option String) :
    (writtenReport r target fault).source = r.source := by
  cases fault <;> rfl

theorem writtenReport_components (r : Report) (target : Path) (fault : Option String) :
    (writtenReport r target fault).components = r.components := by
  cases fault <;> rfl

theorem Fits.told {source : Path} {plan : Plan} {tree : FileTree}
    (h : job.Fits mode tree source plan) :
    (plan.perform tree).2.toList.flatMap Report.components = job.componentNames source ∧
      ((plan.perform tree).2.toList.map Report.source).Sublist [source] := by
  cases h with
  | silent hnone => exact ⟨hnone.symm, nil_sublist _⟩
  | tell _ hsource hnames => simp [Plan.perform, hsource, hnames]
  | put _ _ hsource hnames =>
    simp [Plan.perform, writtenReport_source, writtenReport_components, hsource, hnames]

theorem processAll_told (job : Job) (mode : RunMode) (tree : FileTree) (sources : List Path) :
    (job.processAll mode tree sources).2.flatMap Report.components =
        sources.flatMap job.componentNames ∧
      ((job.processAll mode tree sources).2.map Report.source).Sublist sources := by
  induction sources generalizing tree with
  | nil => exact ⟨rfl, Sublist.refl _⟩
  | cons source sources ih =>
    obtain ⟨plan, hfits, hplan⟩ := job.exists_plan mode source tree
    obtain ⟨hnames, hsource⟩ := hfits.told
    obtain ⟨hrest, hsources⟩ := ih (plan.perform tree).1
    have hall : (job.processAll mode tree (source :: sources)).2 =
        (plan.perform tree).2.toList ++ (job.processAll mode (plan.perform tree).1 sources).2 := by
      rw [processAll, hplan tree (.refl job mode source tree)]
    rw [hall]
    constructor
    · rw [flatMap_append, hnames, hrest, flatMap_cons]
    · rw [map_append]
      exact hsource.append hsources

end Job

namespace Extraction

theorem origin_of_extract {s : Resolver.Setting} {path : Path} (hpath : path.IsNormal)
    {cs : List Component} (h : extract s path = .ok cs) : ∀ c ∈ cs, c.origin = path := by
  unfold extract at h
  rw [Project.idOf?, hpath.normalize_eq] at h
  split at h
  · cases h
  · rename_i id hid
    obtain ⟨file, hfile, rfl⟩ := Project.idAt?_eq_some hid
    rw [hfile] at h
    intro c hc
    obtain ⟨k, -, hk⟩ := exists_of_mem_right (mapM_eq_ok_iff.mp h) hc
    exact origin_of_component hk

theorem flatMap_filter_origin {roots : List Path} (hdistinct : roots.Nodup)
    {parts : List (List Component)}
    (h : Forall₂ (fun root cs => ∀ c ∈ cs, c.origin = root) roots parts) :
    roots.flatMap (fun root => parts.flatten.filter fun c => c.origin = root) = parts.flatten := by
  induction h with
  | nil => rfl
  | @cons root cs roots parts hcs hparts ih =>
    rw [nodup_cons] at hdistinct
    have hothers : ∀ c ∈ parts.flatten, c.origin ∈ roots := by
      intro c hc
      obtain ⟨part, hpart, hc⟩ := mem_flatten.mp hc
      obtain ⟨root', hroot', hall⟩ := exists_of_mem_right hparts hpart
      exact hall c hc ▸ hroot'
    have hown : (cs ++ parts.flatten).filter (fun c => c.origin = root) = cs := by
      rw [filter_append, filter_eq_self.mpr (by simpa using hcs),
        filter_eq_nil_iff.mpr, append_nil]
      intro c hc he
      exact hdistinct.1 (of_decide_eq_true he ▸ hothers c hc)
    have hrest : ∀ root' ∈ roots, (cs ++ parts.flatten).filter (fun c => c.origin = root') =
        parts.flatten.filter fun c => c.origin = root' := by
      intro root' hroot'
      rw [filter_append, filter_eq_nil_iff.mpr, nil_append]
      intro c hc he
      exact hdistinct.1 ((hcs c hc).symm.trans (of_decide_eq_true he) ▸ hroot')
    rw [flatten_cons, flatMap_cons, hown, flatMap_congr hrest, ih hdistinct.2]

theorem flatMap_componentsAt {s : Resolver.Setting} {roots : List Path} {d : Document}
    (hnormal : ∀ root ∈ roots, root.IsNormal) (hdistinct : roots.Nodup)
    (h : document s roots = .ok d) : roots.flatMap d.componentsAt = d.components := by
  obtain ⟨parts, hparts, h⟩ := of_bind_eq_ok h
  cases h
  have hall : Forall₂ (fun root cs => ∀ c ∈ cs, c.origin = root) roots parts := by
    have hboth := (forall₂_and_left _ _).mpr ⟨hnormal, mapM_eq_ok_iff.mp hparts⟩
    exact hboth.imp fun root cs h => origin_of_extract h.1 h.2
  have horigin : ∀ c ∈ parts.flatten, c.origin.IsNormal := by
    intro c hc
    obtain ⟨part, hpart, hc⟩ := mem_flatten.mp hc
    obtain ⟨root, hroot, hcs⟩ := exists_of_mem_right hall hpart
    exact hcs c hc ▸ hnormal root hroot
  have hplace : ∀ root ∈ roots, Document.componentsAt ⟨parts.flatten⟩ root =
      parts.flatten.filter fun c => c.origin = root := by
    refine fun root hroot => filter_congr fun c hc => ?_
    rw [Bool.eq_iff_iff, (horigin c hc).samePlace_iff (hnormal root hroot), decide_eq_true_iff]
  rw [flatMap_congr hplace]
  exact flatMap_filter_origin hdistinct hall

end Extraction

theorem mapError_eq_ok_iff {ε ε' α : Type} {f : ε → ε'} {x : Except ε α} {b : α} :
    x.mapError f = .ok b ↔ x = .ok b := by
  cases x <;> simp [Except.mapError]

def Arguments.workspaceIn (a : Arguments) (cwd : Path) : Path :=
  (a.workspace.getD ⟨"."⟩).absoluteIn cwd

def Arguments.outDirIn (a : Arguments) (cwd : Path) : Option Path :=
  a.outDir.map fun dir => dir.absoluteIn (a.workspaceIn cwd)

structure Groundwork (cwd : Path) (a : Arguments) (tree : FileTree) where
  settings : Settings
  options : CompilerOptions
  files : List Path
  project : Project
  document : Document
  settings_eq : Run.settings tree (a.workspaceIn cwd) a = .ok settings
  options_eq : Run.compilerOptions tree (a.workspaceIn cwd) a = .ok options
  files_eq : Run.files tree (a.workspaceIn cwd) (a.outDirIn cwd) a = .ok files
  project_eq : Project.load tree options files = .ok project
  document_eq : Extraction.document { project } (Run.rootsOf project files) = .ok document

namespace Groundwork

variable {cwd : Path} {a : Arguments} {tree : FileTree}

def roots (g : Groundwork cwd a tree) : List Path :=
  Run.rootsOf g.project g.files

def job (g : Groundwork cwd a tree) : Job where
  write := a.write
  settings := g.settings
  sourceRoot := (Workspace.commonRoot? g.roots).getD (a.workspaceIn cwd)
  outDir := a.outDirIn cwd
  document := g.document

def shown (g : Groundwork cwd a tree) : Outcome where
  tree := tree
  summary := { fileCount := g.roots.length, componentCount := g.document.components.length }
  stdout := g.document.toJson.render ++ "\n"

def worked (g : Groundwork cwd a tree) (mode : RunMode) : Outcome :=
  let done := g.job.processAll mode tree g.roots
  let summary := Summary.ofReports done.2
  { tree := done.1
    reports := done.2
    summary
    stdout := Report.printed (a.output.getD .human) (a.workspaceIn cwd) done.2
    stderr := if a.output.getD .human = .human then summary.line ++ "\n" else "" }

def outcome (g : Groundwork cwd a tree) : Outcome :=
  if a.mode = some .ast then g.shown else g.worked (a.mode.getD .generate)

end Groundwork

namespace Run

variable {α β : Type} {find : FileTree → Except RunError α} {tree : FileTree}

theorem look_bind_ok {x : α} (h : find tree = .ok x) (next : α → Work β) :
    (look find >>= next).run.run tree = (next x).run.run tree := by
  have hlook : (look find).run.run tree = (.ok x, tree) := congrArg (·, tree) h
  rw [ExceptT.run_bind, StateT.run_bind, hlook]
  rfl

theorem of_look_bind {next : α → Work β} {result : Except RunError β × FileTree}
    (h : (look find >>= next).run.run tree = result) :
    (∃ e, result = (.error e, tree)) ∨
      ∃ x, find tree = .ok x ∧ (next x).run.run tree = result := by
  cases hfind : find tree with
  | ok x =>
    rw [look_bind_ok hfind] at h
    exact .inr ⟨x, rfl, h⟩
  | error e =>
    have hlook : (look find).run.run tree = (.error e, tree) := congrArg (·, tree) hfind
    rw [ExceptT.run_bind, StateT.run_bind, hlook] at h
    exact .inl ⟨e, h.symm⟩

end Run

theorem Groundwork.work_eq {cwd : Path} {a : Arguments} {tree : FileTree}
    (g : Groundwork cwd a tree) :
    (Run.work cwd a).run.run tree = (.ok g.outcome, g.outcome.tree) := by
  have hproject := mapError_eq_ok_iff (f := RunError.project) |>.mpr g.project_eq
  have hdocument := mapError_eq_ok_iff (f := RunError.extraction) |>.mpr g.document_eq
  unfold Run.work
  rw [Run.look_bind_ok g.settings_eq, Run.look_bind_ok g.options_eq, Run.look_bind_ok g.files_eq,
    Run.look_bind_ok hproject, Run.look_bind_ok hdocument, outcome]
  cases hmode : a.mode with
  | none =>
    rw [if_neg nofun]
    rfl
  | some mode =>
    cases mode with
    | ast =>
      rw [if_pos rfl]
      rfl
    | generate | inject =>
      rw [if_neg nofun]
      rfl

theorem work_cases (cwd : Path) (a : Arguments) (tree : FileTree) :
    (∃ e, (Run.work cwd a).run.run tree = (.error e, tree)) ∨
      ∃ g : Groundwork cwd a tree,
        (Run.work cwd a).run.run tree = (.ok g.outcome, g.outcome.tree) := by
  generalize hwork : (Run.work cwd a).run.run tree = result
  have hrun := hwork
  unfold Run.work at hrun
  rcases Run.of_look_bind hrun with herror | ⟨settings, hsettings, hrun⟩
  · exact .inl herror
  rcases Run.of_look_bind hrun with herror | ⟨options, hoptions, hrun⟩
  · exact .inl herror
  rcases Run.of_look_bind hrun with herror | ⟨files, hfiles, hrun⟩
  · exact .inl herror
  rcases Run.of_look_bind hrun with herror | ⟨project, hproject, hrun⟩
  · exact .inl herror
  rcases Run.of_look_bind hrun with herror | ⟨document, hdocument, -⟩
  · exact .inl herror
  let g : Groundwork cwd a tree :=
    { settings, options, files, project, document
      settings_eq := hsettings
      options_eq := hoptions
      files_eq := hfiles
      project_eq := mapError_eq_ok_iff.mp hproject
      document_eq := mapError_eq_ok_iff.mp hdocument }
  exact .inr ⟨g, hwork.symm.trans g.work_eq⟩

theorem exists_groundwork {cwd : Path} {a : Arguments} {tree : FileTree} {o : Outcome}
    (h : Run.run cwd a tree = .ok o) :
    ∃ g : Groundwork cwd a tree, o = g.outcome ∧ Run.treeAfter cwd a tree = o.tree := by
  rw [Run.run] at h
  rw [Run.treeAfter]
  rcases work_cases cwd a tree with ⟨e, hwork⟩ | ⟨g, hwork⟩
  · rw [hwork] at h
    cases h
  · rw [hwork] at h ⊢
    cases h
    exact ⟨g, rfl, rfl⟩

namespace Groundwork

variable {cwd : Path} {a : Arguments} {tree : FileTree}

variable (g : Groundwork cwd a tree)

theorem mem_roots {root : Path} (h : root ∈ g.roots) :
    ∃ file ∈ g.files, root = file.normalize ∧ ∃ f ∈ g.project.files, f.path = root := by
  obtain ⟨file, hfile, hroot⟩ := mem_filterMap.mp (mem_eraseDups.mp h)
  obtain ⟨f, hf, rfl⟩ := Option.map_eq_some_iff.mp hroot
  obtain ⟨id, hid, hf⟩ := Option.bind_eq_some_iff.mp hf
  obtain ⟨f', hf', hpath⟩ := Project.idAt?_eq_some hid
  obtain rfl : f' = f := Option.some.inj (hf'.symm.trans hf)
  exact ⟨file, hfile, hpath, f', mem_of_getElem? hf, rfl⟩

theorem isNormal_of_mem_roots : ∀ root ∈ g.roots, root.IsNormal := by
  intro root h
  obtain ⟨file, -, rfl, -⟩ := g.mem_roots h
  exact Path.isNormal_normalize file

theorem flatMap_componentNames :
    g.roots.flatMap g.job.componentNames = g.document.components.map Component.name := by
  have hparts := Extraction.flatMap_componentsAt g.isNormal_of_mem_roots
    (Table.nodup_eraseDups _) g.document_eq
  have hmap : g.roots.flatMap g.job.componentNames =
      (g.roots.flatMap g.document.componentsAt).map Component.name := by
    rw [map_flatMap]
    rfl
  rw [hmap]
  exact congrArg (List.map Component.name) hparts

end Groundwork

/-- A run that works on files reports the components of the document that it would show, all of
them in their order, and no source twice. -/
theorem reports_partition_document {cwd : Path} {a : Arguments} {tree : FileTree} {o : Outcome}
    (hmode : a.mode ≠ some .ast) (h : Run.run cwd a tree = .ok o) :
    ∃ g : Groundwork cwd a tree,
      o.reports.flatMap Report.components = g.document.components.map Component.name ∧
      (o.reports.map Report.source).Nodup ∧
      o.summary.componentCount = g.document.components.length ∧
      (Run.run cwd { a with mode := some .ast } tree).map Outcome.stdout =
        .ok (g.document.toJson.render ++ "\n") := by
  obtain ⟨g, rfl, -⟩ := exists_groundwork h
  obtain ⟨hnames, hsources⟩ := g.job.processAll_told (a.mode.getD .generate) tree g.roots
  have hreports :
      g.outcome.reports = (g.job.processAll (a.mode.getD .generate) tree g.roots).2 := by
    rw [Groundwork.outcome, if_neg hmode]
    rfl
  have hcount : g.outcome.summary = Summary.ofReports g.outcome.reports := by
    rw [Groundwork.outcome, if_neg hmode]
    rfl
  rw [g.flatMap_componentNames] at hnames
  refine ⟨g, hreports ▸ hnames, hreports ▸ hsources.nodup (Table.nodup_eraseDups _), ?_, ?_⟩
  · rw [hcount, hreports, Summary.ofReports, hnames, length_map]
  · let g' : Groundwork cwd { a with mode := some .ast } tree := { g with }
    rw [Run.run, g'.work_eq]
    rfl

def spelledTree : FileTree where
  files := [
    ("/app/lib/Card.tsx", .text "class Card extends Component {}"),
    ("/app/Panel.ts", .text "class Panel extends Component {}"),
    ("/app/notes.md", .text "# Notes\n")]

def spelledArguments : Arguments where
  files := [⟨"lib/Card.tsx"⟩, ⟨"notes.md"⟩, ⟨"./lib/../Panel.ts"⟩, ⟨"/app//lib/./Card.tsx"⟩]
  workspace := some ⟨"app"⟩

theorem spelled_run : ∃ o, Run.run ⟨"/"⟩ spelledArguments spelledTree = .ok o ∧
    o.reports.map Report.components = [["Card"], ["Panel"]] :=
  Project.exists_ok_of_any (by decide +kernel)

theorem reports_partition_document_spelled :
    ∃ o, Run.run ⟨"/"⟩ spelledArguments spelledTree = .ok o ∧
      o.reports.map Report.components = [["Card"], ["Panel"]] ∧
      ∃ g : Groundwork ⟨"/"⟩ spelledArguments spelledTree,
        g.document.components.map Component.name = ["Card", "Panel"] := by
  obtain ⟨o, hrun, hreports⟩ := spelled_run
  obtain ⟨g, hnames, -⟩ := reports_partition_document (by decide) hrun
  refine ⟨o, hrun, hreports, g, ?_⟩
  rw [← hnames, flatMap_def, hreports]
  rfl

end PropContract
