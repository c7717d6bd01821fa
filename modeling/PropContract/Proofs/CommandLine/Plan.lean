import Mathlib.Data.List.Basic
import PropContract.CommandLine.Run

namespace PropContract.Job

open List

inductive Plan where
  | silent
  | tell (report : Report)
  | put (report : Report) (target : Path) (text : String)

namespace Plan

def perform (tree : FileTree) : Plan → FileTree × Option Report
  | silent => (tree, none)
  | tell report => (tree, some report)
  | put report target text =>
    ((writeText tree target text).1,
      some (writtenReport report target (writeText tree target text).2))

end Plan

variable {job : Job} {mode : RunMode} {source : Path}

def outputAt (job : Job) (source : Path) (ending : String) : Path :=
  (job.targetDir source).join ⟨Workspace.stem source ++ ending⟩

def outputEndings (mode : RunMode) : List String :=
  if mode = .inject then Workspace.builtEndings else [".propTypes.js"]

def outputs (job : Job) (mode : RunMode) (source : Path) : List Path :=
  (outputEndings mode).map (job.outputAt source)

def componentNames (job : Job) (source : Path) : List String :=
  (job.document.componentsAt source).map Component.name

inductive Fits (job : Job) (mode : RunMode) (tree : FileTree) (source : Path) : Plan → Prop
  | silent (hnone : job.componentNames source = []) : Fits job mode tree source .silent
  | tell {r : Report} (hsome : job.componentNames source ≠ []) (hsource : r.source = source)
      (hnames : r.components = job.componentNames source) (hstatus : r.status ≠ .written)
      (htarget : ∀ t, r.target = some t → t ∈ job.outputs mode source) :
      Fits job mode tree source (.tell r)
  | put {r : Report} {target : Path} {text : String} (hsome : job.componentNames source ≠ [])
      (hwrite : job.write) (hsource : r.source = source)
      (hnames : r.components = job.componentNames source)
      (htarget : target ∈ job.outputs mode source) (hfile : mode = .inject → tree.isFile target) :
      Fits job mode tree source (.put r target text)

def Alike (job : Job) (mode : RunMode) (source : Path) (tree tree' : FileTree) : Prop :=
  mode = .inject → job.builtFile? tree' source = job.builtFile? tree source ∧
    ∀ target, job.builtFile? tree source = some target → tree'.read target = tree.read target

theorem Alike.refl (job : Job) (mode : RunMode) (source : Path) (tree : FileTree) :
    job.Alike mode source tree tree :=
  fun _ => ⟨rfl, fun _ _ => rfl⟩

theorem process_of_silent (h : job.componentNames source = []) (tree : FileTree) :
    job.process mode tree source = (tree, none) := by
  have hempty : job.document.componentsAt source = [] := map_eq_nil_iff.mp h
  simp [process, documentAt, hempty]

section Components

def opening (job : Job) (source : Path) : Report :=
  { source, components := job.componentNames source, status := .generated }

theorem process_inject (h : job.componentNames source ≠ []) (tree : FileTree) :
    job.process .inject tree source =
      ((job.inject tree (job.opening source) (job.documentAt source)).1,
        some (job.inject tree (job.opening source) (job.documentAt source)).2) := by
  have hsome : (job.documentAt source).components.isEmpty = false := by
    simpa [documentAt, componentNames, isEmpty_eq_false_iff] using h
  simp only [process, hsome]
  rfl

theorem process_generate (hmode : mode ≠ .inject) (h : job.componentNames source ≠ [])
    (tree : FileTree) :
    job.process mode tree source =
      ((job.generate tree (job.opening source) (job.documentAt source)).1,
        some (job.generate tree (job.opening source) (job.documentAt source)).2) := by
  have hsome : (job.documentAt source).components.isEmpty = false := by
    simpa [documentAt, componentNames, isEmpty_eq_false_iff] using h
  cases mode with
  | inject => exact absurd rfl hmode
  | generate | ast => simp only [process, hsome]; rfl

theorem exists_plan_generate (hmode : mode ≠ .inject) (h : job.componentNames source ≠ [])
    (tree : FileTree) :
    ∃ plan, job.Fits mode tree source plan ∧
      ∀ tree', job.process mode tree' source = plan.perform tree' := by
  have htarget : job.generatedTarget source ∈ job.outputs mode source := by
    simp [outputs, outputEndings, hmode, outputAt, generatedTarget]
  by_cases hwrite : job.write
  · refine ⟨.put (job.opening source) (job.generatedTarget source)
      (Block.ofDocument job.settings.validators (job.documentAt source)),
      .put h hwrite rfl rfl htarget fun he => absurd he hmode, fun tree' => ?_⟩
    rw [process_generate hmode h, generate]
    simp only [if_pos hwrite, Plan.perform, opening]
  · refine ⟨.tell { job.opening source with
        output := some (Block.ofDocument job.settings.validators (job.documentAt source)) },
      .tell h rfl rfl ReportStatus.noConfusion nofun, fun tree' => ?_⟩
    rw [process_generate hmode h, generate, if_neg hwrite]
    rfl

theorem mem_outputs_of_builtFile? {tree : FileTree} {target : Path}
    (h : job.builtFile? tree source = some target) : target ∈ job.outputs .inject source := by
  simpa [outputs, outputEndings, outputAt] using mem_of_find?_eq_some h

theorem inject_of_not_built {tree : FileTree} (r : Report) (d : Document)
    (hbuilt : job.builtFile? tree r.source = none) :
    job.inject tree r d = (tree, { r with
      status := .skipped
      message := some s!"no transpiled output found in {(job.targetDir r.source).text}" }) := by
  unfold Job.inject
  rw [hbuilt]

section Built

variable {tree : FileTree} (r : Report) (d : Document) {target : Path}

theorem inject_of_not_read (hbuilt : job.builtFile? tree r.source = some target)
    {fault : ReadFault} (hread : tree.read target = .error fault) :
    job.inject tree r d = (tree, { r with
      target := some target, status := .failed
      message := some s!"failed to read {target.text}: {fault.message}" }) := by
  unfold Job.inject
  rw [hbuilt]
  dsimp only
  rw [hread]

variable (hbuilt : job.builtFile? tree r.source = some target) {text : String}
  (hread : tree.read target = .ok text)

include hbuilt hread

theorem inject_of_refused {e : InjectError}
    (hinject : Injection.inject job.settings.injectOptions d text = .error e) :
    job.inject tree r d = (tree, { r with
      target := some target, status := .failed, message := some e.message }) := by
  unfold Job.inject
  rw [hbuilt]
  dsimp only
  rw [hread]
  dsimp only
  rw [hinject]

theorem inject_of_injected {injected : String}
    (hinject : Injection.inject job.settings.injectOptions d text = .ok injected) :
    job.inject tree r d =
      if job.write then
        ((writeText tree target injected).1,
          writtenReport r target (writeText tree target injected).2)
      else
        (tree, { r with target := some target, status := .injected, output := some injected }) := by
  unfold Job.inject
  rw [hbuilt]
  dsimp only
  rw [hread]
  dsimp only
  rw [hinject]

end Built

theorem exists_plan_inject (h : job.componentNames source ≠ []) (tree : FileTree) :
    ∃ plan, job.Fits .inject tree source plan ∧
      ∀ tree', job.Alike .inject source tree tree' →
        job.process .inject tree' source = plan.perform tree' := by
  cases hbuilt : job.builtFile? tree source with
  | none =>
    refine ⟨.tell { job.opening source with
        status := .skipped
        message := some s!"no transpiled output found in {(job.targetDir source).text}" },
      .tell h rfl rfl ReportStatus.noConfusion nofun, fun tree' halike => ?_⟩
    rw [process_inject h, inject_of_not_built (job.opening source) _ ((halike rfl).1.trans hbuilt)]
    rfl
  | some target =>
    have htarget := mem_outputs_of_builtFile? hbuilt
    have hfile : tree.isFile target := find?_some hbuilt
    have hfailed (message : String) : job.Fits .inject tree source (.tell { job.opening source with
        target := some target, status := .failed, message := some message }) :=
      .tell h rfl rfl ReportStatus.noConfusion fun t ht => Option.some.inj ht ▸ htarget
    have hbuilt' {tree' : FileTree} (halike : job.Alike .inject source tree tree') :
        job.builtFile? tree' source = some target := (halike rfl).1.trans hbuilt
    have hread' {tree' : FileTree} (halike : job.Alike .inject source tree tree') :
        tree'.read target = tree.read target := (halike rfl).2 target hbuilt
    cases hread : tree.read target with
    | error fault =>
      refine ⟨_, hfailed s!"failed to read {target.text}: {fault.message}", fun tree' halike => ?_⟩
      rw [process_inject h, inject_of_not_read (job.opening source) _ (hbuilt' halike)
        ((hread' halike).trans hread)]
      rfl
    | ok text =>
      cases hinject : Injection.inject job.settings.injectOptions (job.documentAt source) text with
      | error e =>
        refine ⟨_, hfailed e.message, fun tree' halike => ?_⟩
        rw [process_inject h,
          inject_of_refused (job.opening source) _ (hbuilt' halike)
            ((hread' halike).trans hread) hinject]
        rfl
      | ok injected =>
        by_cases hwrite : job.write
        · refine ⟨.put (job.opening source) target injected,
            .put h hwrite rfl rfl htarget fun _ => hfile, fun tree' halike => ?_⟩
          rw [process_inject h,
            inject_of_injected (job.opening source) _ (hbuilt' halike)
            ((hread' halike).trans hread) hinject,
            if_pos hwrite]
          rfl
        · refine ⟨.tell { job.opening source with
              target := some target, status := .injected, output := some injected },
            .tell h rfl rfl ReportStatus.noConfusion fun t ht => Option.some.inj ht ▸ htarget,
            fun tree' halike => ?_⟩
          rw [process_inject h,
            inject_of_injected (job.opening source) _ (hbuilt' halike)
            ((hread' halike).trans hread) hinject,
            if_neg hwrite]
          rfl

end Components

/-- The work on a source is a plan made in the tree as it is, and carried out there. The same plan
is made in every tree that shows the same. -/
theorem exists_plan (job : Job) (mode : RunMode) (source : Path) (tree : FileTree) :
    ∃ plan, job.Fits mode tree source plan ∧
      ∀ tree', job.Alike mode source tree tree' →
        job.process mode tree' source = plan.perform tree' := by
  by_cases hnone : job.componentNames source = []
  · exact ⟨.silent, .silent hnone, fun tree' _ => process_of_silent hnone tree'⟩
  · by_cases hmode : mode = .inject
    · exact hmode ▸ exists_plan_inject hnone tree
    · obtain ⟨plan, hfits, hplan⟩ := exists_plan_generate hmode hnone tree
      exact ⟨plan, hfits, fun tree' _ => hplan tree'⟩

end PropContract.Job
