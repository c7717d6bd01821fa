import PropContract.Proofs.CommandLine.Effects

/-!
Work whose targets are apart: in a sound tree, each source is worked on as if it were the only one.
-/

namespace PropContract.Job

open Path List FileTree

variable {tree tree' : FileTree} {target : Path}

theorem walked_eq (hp : target.NamesFile) :
    ∃ last, target.walked = target.walked.dropLast ++ [last] :=
  ⟨_, (dropLast_append_getLast (walked_ne_nil hp)).symm⟩

theorem below_walked_iff (hp : target.NamesFile) (q : List String) :
    (q <+: target.walked ∧ q ≠ target.walked) ↔ q <+: target.walked.dropLast := by
  obtain ⟨last, hlast⟩ := walked_eq hp
  constructor
  · rintro ⟨hq, hne⟩
    rw [hlast] at hq hne
    exact (prefix_concat_iff.mp hq).resolve_left hne
  · intro hq
    rw [hlast]
    refine ⟨hq.trans (prefix_append _ _), fun he => ?_⟩
    have hlength := hq.length_le
    rw [he] at hlength
    simp at hlength

theorem writeText_of_free (h : tree.IsSound) (hp : target.NamesFile)
    (hreach : (tree.resolve? target).isSome) (text : String)
    (hfree : ∀ q, q ≠ [] → q <+: target.walked.dropLast → tree.hasFile q = false) :
    (writeText tree target text).2 =
        (if !tree.hasFile target.walked && tree.hasDirectory target.walked then
          some s!"failed to write {target.text}: {WriteFault.directory.message}" else none) ∧
      ∀ q, (∀ n ∈ q, IsName n) → ((writeText tree target text).1.hasDirectory q ↔
        tree.hasDirectory q ∨ q <+: target.walked.dropLast) := by
  obtain ⟨made, hmade, hfiles, hdirs⟩ := makeDirectories_of_free h hp hreach hfree
  have hreach' := resolve?_mono (fun q hq hdir => (hdirs q hq).mpr (.inl hdir)) hreach
  have hfile : made.hasFile target.walked = tree.hasFile target.walked := by
    rw [FileTree.hasFile, hfiles, FileTree.hasFile]
  have hdir : made.hasDirectory target.walked = tree.hasDirectory target.walked := by
    rw [Bool.eq_iff_iff, hdirs _ target.isName_walked, or_iff_left]
    exact fun hbelow => ((below_walked_iff hp _).mpr hbelow).2 rfl
  rw [writeText_of_made text hmade, made.write_eq hreach', hfile, hdir]
  split
  · exact ⟨rfl, hdirs⟩
  · refine ⟨rfl, fun q hq => ?_⟩
    rw [place, made.hasDirectory_put target.isName_walked hq, below_walked_iff hp, hdirs q hq,
      or_assoc, or_self]

theorem writeText_step (h : tree.IsSound) (hp : target.NamesFile)
    (hreach : (tree.resolve? target).isSome) (text : String) :
    ((writeText tree target text).2 ≠ none ∧ tree.Keeps (writeText tree target text).1) ∨
      ((writeText tree target text).2 = none ∧
        tree.Puts target.walked text (writeText tree target text).1) := by
  by_cases hfree : ∀ q, q ≠ [] → q <+: target.walked.dropLast → tree.hasFile q = false
  · obtain ⟨hfault, hdirs⟩ := writeText_of_free h hp hreach text hfree
    rcases writeText_cases tree target text with ⟨hne, hfiles⟩ | ⟨hnone, hfiles⟩
    · refine .inl ⟨hne, hfiles, fun q hq => ?_⟩
      have hthere : tree.hasDirectory target.walked := by
        by_contra hno
        rw [if_neg (by simp [hno])] at hfault
        exact hne hfault
      rw [Bool.eq_iff_iff, hdirs q hq, or_iff_left_iff_imp]
      intro hbelow
      exact h.of_below ((below_walked_iff hp q).mpr hbelow).1 target.isName_walked hthere
    · refine .inr ⟨hnone, ?_, ?_, hfiles, fun q hq => ?_⟩
      · exact fun q hne hq hproper => hfree q hne ((below_walked_iff hp q).mp ⟨hq, hproper⟩)
      · by_contra hboth
        rw [not_or, Bool.not_eq_true, Bool.not_eq_false] at hboth
        rw [hnone, if_pos (by simp [hboth])] at hfault
        cases hfault
      · rw [hdirs q hq, below_walked_iff hp]
  · obtain ⟨q, hq⟩ := not_forall.mp hfree
    simp only [Classical.not_imp, Bool.not_eq_false] at hq
    obtain ⟨hne, hbelow, hfile⟩ := hq
    rw [writeText_of_unmade text rfl
      (makeDirectories_of_hasFile h hp hreach hne hbelow hfile)]
    exact .inl ⟨nofun, rfl, fun _ _ => rfl⟩

structure SameWay (target : Path) (tree tree' : FileTree) : Prop where
  files : ∀ q, q ≠ [] → q <+: target.walked → tree'.hasFile q = tree.hasFile q
  dir : tree'.hasDirectory target.walked = tree.hasDirectory target.walked

theorem SameWay.writeText_eq (hsame : SameWay target tree tree') (h : tree.IsSound)
    (h' : tree'.IsSound) (hp : target.NamesFile) (hreach : (tree.resolve? target).isSome)
    (hreach' : (tree'.resolve? target).isSome) (text : String) :
    (writeText tree' target text).2 = (writeText tree target text).2 := by
  have hfiles : ∀ q, q ≠ [] → q <+: target.walked.dropLast → tree'.hasFile q = tree.hasFile q :=
    fun q hne hq => hsame.files q hne ((below_walked_iff hp q).mpr hq).1
  by_cases hfree : ∀ q, q ≠ [] → q <+: target.walked.dropLast → tree.hasFile q = false
  · have hfree' : ∀ q, q ≠ [] → q <+: target.walked.dropLast → tree'.hasFile q = false :=
      fun q hne hq => (hfiles q hne hq).trans (hfree q hne hq)
    rw [(writeText_of_free h hp hreach text hfree).1,
      (writeText_of_free h' hp hreach' text hfree').1,
      hsame.files _ (walked_ne_nil hp) prefix_rfl, hsame.dir]
  · obtain ⟨q, hq⟩ := not_forall.mp hfree
    simp only [Classical.not_imp, Bool.not_eq_false] at hq
    obtain ⟨hne, hbelow, hfile⟩ := hq
    have hfile' : tree'.hasFile q := (hfiles q hne hbelow).trans hfile
    rw [writeText_of_unmade text rfl
        (makeDirectories_of_hasFile h hp hreach hne hbelow hfile),
      writeText_of_unmade text rfl
        (makeDirectories_of_hasFile h' hp hreach' hne hbelow hfile')]

structure Rivals (job : Job) (sources : List Path) (s s' : Path) : Prop where
  left : s ∈ sources
  right : s' ∈ sources
  ne : s ≠ s'
  some : job.componentNames s ≠ []
  some' : job.componentNames s' ≠ []

theorem Rivals.symm {job : Job} {sources : List Path} {s s' : Path} (h : job.Rivals sources s s') :
    job.Rivals sources s' s :=
  ⟨h.right, h.left, h.ne.symm, h.some', h.some⟩

/-- A tree in which sources do not get in each other's way: no two have an output in common, and
where new files are written no output is on the way to another, unless it is a directory. -/
structure Ready (job : Job) (mode : RunMode) (sources : List Path) (tree : FileTree) : Prop where
  sound : tree.IsSound
  namesFile : ∀ s ∈ sources, ∀ t ∈ job.outputs mode s, t.NamesFile
  distinct : ∀ {s s'}, job.Rivals sources s s' → ∀ t ∈ job.outputs mode s,
    ∀ t' ∈ job.outputs mode s', t.walked ≠ t'.walked
  reach : mode ≠ .inject → ∀ s ∈ sources, ∀ t ∈ job.outputs mode s, (tree.resolve? t).isSome
  clear : mode ≠ .inject → ∀ {s s'}, job.Rivals sources s s' → ∀ t ∈ job.outputs mode s,
    ∀ t' ∈ job.outputs mode s', t.walked <+: t'.walked → tree.hasDirectory t.walked

inductive Step (job : Job) (mode : RunMode) (s : Path) (tree after : FileTree) : Prop
  | keeps (h : tree.Keeps after)
  | puts {t : Path} {text : String} (ht : t ∈ job.outputs mode s)
      (hsome : job.componentNames s ≠ []) (hfile : mode = .inject → tree.hasFile t.walked)
      (h : tree.Puts t.walked text after)

variable {job : Job} {mode : RunMode} {sources : List Path} {s s' : Path} {after : FileTree}

theorem Ready.resolve?_isSome (hready : job.Ready mode sources tree) (hs : s ∈ sources) {t : Path}
    (ht : t ∈ job.outputs mode s) (hfile : mode = .inject → tree.isFile t) :
    (tree.resolve? t).isSome := by
  by_cases hmode : mode = .inject
  · exact ((tree.isFile_iff t).mp (hfile hmode)).1
  · exact hready.reach hmode s hs t ht

theorem Ready.step (hready : job.Ready mode sources tree) (hs : s ∈ sources) :
    job.Step mode s tree (job.process mode tree s).1 := by
  obtain ⟨plan, hfits, hplan⟩ := job.exists_plan mode s tree
  rw [hplan tree (.refl job mode s tree)]
  cases hfits with
  | silent | tell => exact .keeps ⟨rfl, fun _ _ => rfl⟩
  | @put r t text hsome _ _ _ ht hfile =>
    have hreach := hready.resolve?_isSome hs ht hfile
    rcases writeText_step hready.sound (hready.namesFile s hs t ht) hreach text with
      ⟨-, hkeeps⟩ | ⟨-, hputs⟩
    · exact .keeps hkeeps
    · exact .puts ht hsome (fun hmode => ((tree.isFile_iff t).mp (hfile hmode)).2) hputs

theorem Step.grows (h : job.Step mode s tree after) {q : List String} (hq : ∀ n ∈ q, IsName n)
    (hdir : tree.hasDirectory q) : after.hasDirectory q := by
  cases h with
  | keeps h => exact (h.dirs q hq).trans hdir
  | puts _ _ _ h => exact (h.dirs q hq).mpr (.inl hdir)

theorem Ready.of_step (hready : job.Ready mode sources tree) (h : job.Step mode s tree after) :
    job.Ready mode sources after where
  sound := by
    cases h with
    | keeps h => exact h.sound hready.sound
    | puts _ _ _ h => exact h.sound (isName_walked _) hready.sound
  namesFile := hready.namesFile
  distinct := hready.distinct
  reach hmode s hs t ht :=
    resolve?_mono (fun _ hq => h.grows hq) (hready.reach hmode s hs t ht)
  clear hmode _ _ hr t ht t' ht' hbelow :=
    h.grows t.isName_walked (hready.clear hmode hr t ht t' ht' hbelow)

structure Unmoved (job : Job) (mode : RunMode) (s : Path) (tree after : FileTree) : Prop where
  way : ∀ t ∈ job.outputs mode s, SameWay t tree after
  content : ∀ t ∈ job.outputs mode s, after.files.get? t.place = tree.files.get? t.place
  resolve : ∀ t ∈ job.outputs mode s, after.resolve? t = tree.resolve? t

theorem hasFile_of_puts {names : List String} {text : String} (h : tree.Puts names text after)
    (hdir : tree.hasDirectory names) : tree.hasFile names :=
  h.vacant.resolve_right fun hno => absurd (hno.symm.trans hdir) Bool.false_ne_true

theorem hasDirectory_of_below {names q : List String} (hn : ∀ n ∈ names, IsName n)
    (hfile : tree.hasFile names) (hq : q <+: names) (hne : q ≠ names) : tree.hasDirectory q := by
  obtain ⟨rest, rfl⟩ := hq
  cases rest with
  | nil => exact absurd (append_nil q).symm hne
  | cons n rest => exact hasDirectory_of_hasFile hn hfile

theorem Step.unmoved (h : job.Step mode s tree after) (hready : job.Ready mode sources tree)
    (hs : s ∈ sources) (hs' : s' ∈ sources) (hne : s ≠ s') (hsome' : job.componentNames s' ≠ []) :
    job.Unmoved mode s' tree after := by
  cases h with
  | keeps h =>
    refine ⟨fun t _ => ⟨fun q _ _ => h.hasFile q, h.dirs _ t.isName_walked⟩, fun t _ => ?_,
      fun t _ => resolve?_congr h.dirs t⟩
    rw [h.files]
  | @puts t text ht hsome hfile h =>
    have hr : job.Rivals sources s s' := ⟨hs, hs', hne, hsome, hsome'⟩
    have hon : ∀ t' ∈ job.outputs mode s', t.walked <+: t'.walked → tree.hasFile t.walked := by
      intro t' ht' hbelow
      by_cases hmode : mode = .inject
      · exact hfile hmode
      · exact hasFile_of_puts h (hready.clear hmode hr t ht t' ht' hbelow)
    have habove : ∀ t' ∈ job.outputs mode s', t'.walked <+: t.walked →
        tree.hasDirectory t'.walked := by
      intro t' ht' hbelow
      by_cases hmode : mode = .inject
      · exact hasDirectory_of_below t.isName_walked (hfile hmode) hbelow
          (hready.distinct hr t ht t' ht').symm
      · exact hready.clear hmode hr.symm t' ht' t ht hbelow
    refine ⟨fun t' ht' => ⟨fun q hne hq => ?_, ?_⟩, fun t' ht' => ?_, fun t' ht' => ?_⟩
    · have hnames : ∀ n ∈ q, IsName n := fun n hn => t'.isName_walked n (hq.subset hn)
      rw [Bool.eq_iff_iff, h.hasFile t.isName_walked hnames, or_iff_left_iff_imp]
      rintro rfl
      exact hon t' ht' hq
    · rw [Bool.eq_iff_iff, h.dirs _ t'.isName_walked, or_iff_left_iff_imp]
      exact fun hbelow => habove t' ht' hbelow.1
    · have hplace : (ofNames true t.walked).text ≠ t'.place := fun he =>
        hready.distinct hr t ht t' ht'
          ((ofNames_inj t.isName_walked t'.isName_walked).mp (congrArg Path.mk he))
      rw [h.files, Table.get?_put, if_neg hplace]
    · by_cases hmode : mode = .inject
      · apply resolve?_congr
        intro q hq
        rw [Bool.eq_iff_iff, h.dirs q hq, or_iff_left_iff_imp]
        exact fun hbelow =>
          hasDirectory_of_below t.isName_walked (hfile hmode) hbelow.1 hbelow.2
      · have hreach := hready.reach hmode s' hr.right t' ht'
        have hreach' := (hready.of_step (.puts ht hsome hfile h)).reach hmode s' hr.right t' ht'
        rw [resolve?_of_isSome hreach, resolve?_of_isSome hreach']

theorem Unmoved.isFile (h : job.Unmoved mode s tree after) {t : Path}
    (ht : t ∈ job.outputs mode s) : after.isFile t = tree.isFile t := by
  have hfile : after.hasFile t.walked = tree.hasFile t.walked :=
    congrArg Option.isSome (h.content t ht)
  rw [Bool.eq_iff_iff, isFile_iff, isFile_iff, h.resolve t ht, hfile]

theorem find?_eq_of_forall {q r : Path → Bool} {paths : List Path} (h : ∀ p ∈ paths, q p = r p) :
    paths.find? q = paths.find? r := by
  induction paths with
  | nil => rfl
  | cons p rest ih =>
    rw [find?_cons, find?_cons, h p mem_cons_self,
      ih fun p' hp' => h p' (mem_cons_of_mem p hp')]

theorem builtFile?_eq (job : Job) (tree : FileTree) (s : Path) :
    job.builtFile? tree s = (job.outputs .inject s).find? tree.isFile := by
  rw [outputs, outputEndings, if_pos rfl]
  rfl

theorem Unmoved.alike (h : job.Unmoved mode s tree after) : job.Alike mode s tree after := by
  rintro rfl
  refine ⟨?_, fun t ht => ?_⟩
  · rw [builtFile?_eq, builtFile?_eq]
    exact find?_eq_of_forall fun t ht => h.isFile ht
  · have hmem := mem_outputs_of_builtFile? ht
    exact read_congr (h.resolve t hmem) (h.content t hmem) (h.way t hmem).dir

def changed (files : Table FileContent) (change : Option (Path × FileContent)) :
    Table FileContent :=
  change.elim files fun c => files.put c.1.place c.2

theorem get?_changed (files : Table FileContent) (change : Option (Path × FileContent))
    (place : String) :
    (changed files change).get? place =
      if change.any (fun c => c.1.place = place) then change.map Prod.snd
      else files.get? place := by
  cases change with
  | none => rfl
  | some c => simp [changed, Table.get?_put]

theorem Unmoved.process (h : job.Unmoved mode s tree after) (hready : job.Ready mode sources tree)
    (hafter : job.Ready mode sources after) (hs : s ∈ sources) :
    (job.process mode after s).2 = (job.process mode tree s).2 ∧
      ∃ change, (∀ c ∈ change, Prod.fst c ∈ job.outputs mode s) ∧
        (job.process mode tree s).1.files = changed tree.files change ∧
        (job.process mode after s).1.files = changed after.files change := by
  obtain ⟨plan, hfits, hplan⟩ := job.exists_plan mode s tree
  rw [hplan tree (.refl job mode s tree), hplan after h.alike]
  cases hfits with
  | silent | tell => exact ⟨rfl, none, nofun, rfl, rfl⟩
  | @put r t text hsome _ _ _ ht hfile =>
    have hreach := hready.resolve?_isSome hs ht hfile
    have hreach' : (after.resolve? t).isSome := by rwa [h.resolve t ht]
    have hfault := (h.way t ht).writeText_eq hready.sound hafter.sound (hready.namesFile s hs t ht)
      hreach hreach' text
    simp only [Plan.perform, hfault, true_and]
    rcases writeText_cases tree t text with ⟨hne, hfiles⟩ | ⟨hnone, hfiles⟩
    · rcases writeText_cases after t text with ⟨-, hfiles'⟩ | ⟨hnone, -⟩
      · exact ⟨none, nofun, hfiles, hfiles'⟩
      · exact absurd (hfault.symm.trans hnone) hne
    · rcases writeText_cases after t text with ⟨hne, -⟩ | ⟨-, hfiles'⟩
      · exact absurd (hfault.trans hnone) hne
      · refine ⟨some (t, .text text), ?_, hfiles, hfiles'⟩
        rintro c ⟨⟩
        exact ht

structure Alone (job : Job) (mode : RunMode) (tree : FileTree) (order : List Path)
    (done : FileTree × List Report) : Prop where
  reports : done.2 = order.filterMap fun s => (job.process mode tree s).2
  written : ∀ s ∈ order, ∀ place,
    (job.process mode tree s).1.files.get? place ≠ tree.files.get? place →
      done.1.files.get? place = (job.process mode tree s).1.files.get? place
  kept : ∀ place,
    (∀ s ∈ order, (job.process mode tree s).1.files.get? place = tree.files.get? place) →
      done.1.files.get? place = tree.files.get? place

/-- After the work on one source, that on another ends as it would have without it: the report is
the same, and so is what it leaves at the places that it changes, where the first changes
nothing. -/
theorem Ready.beside (hready : job.Ready mode sources tree) (hs : s ∈ sources) (hs' : s' ∈ sources)
    (hne : s ≠ s') (hafter : (job.process mode tree s).1 = after) :
    (job.process mode after s').2 = (job.process mode tree s').2 ∧ ∀ place,
      ((job.process mode after s').1.files.get? place =
          (job.process mode tree s').1.files.get? place ∧
        after.files.get? place = tree.files.get? place) ∨
      ((job.process mode after s').1.files.get? place = after.files.get? place ∧
        (job.process mode tree s').1.files.get? place = tree.files.get? place) := by
  by_cases hsome : job.componentNames s' = []
  · rw [process_of_silent hsome, process_of_silent hsome]
    exact ⟨rfl, fun _ => .inr ⟨rfl, rfl⟩⟩
  · have hstep := hafter ▸ hready.step hs
    have hunmoved := hstep.unmoved hready hs hs' hne hsome
    obtain ⟨hreport, change, hmem, hfiles, hfiles'⟩ :=
      hunmoved.process hready (hready.of_step hstep) hs'
    refine ⟨hreport, fun place => ?_⟩
    rw [hfiles, hfiles', get?_changed, get?_changed]
    by_cases hplace : change.any fun c => c.1.place = place
    · rw [if_pos hplace, if_pos hplace]
      cases change with
      | none => cases hplace
      | some c =>
        obtain rfl : c.1.place = place := of_decide_eq_true hplace
        exact .inl ⟨rfl, hunmoved.content c.1 (hmem c rfl)⟩
    · rw [if_neg hplace, if_neg hplace]
      exact .inr ⟨rfl, rfl⟩

theorem Ready.alone (hready : job.Ready mode sources tree) {order : List Path}
    (hnodup : order.Nodup) (horder : ∀ s ∈ order, s ∈ sources) :
    job.Alone mode tree order (job.processAll mode tree order) := by
  induction order generalizing tree with
  | nil => exact ⟨rfl, forall_mem_nil _, fun _ _ => rfl⟩
  | cons s order ih =>
    obtain ⟨after, hafter⟩ : ∃ after, (job.process mode tree s).1 = after := ⟨_, rfl⟩
    rw [nodup_cons] at hnodup
    have hs := horder s mem_cons_self
    have hrest := ih (hready.of_step (hafter ▸ hready.step hs)) hnodup.2
      fun s' hs' => horder s' (mem_cons_of_mem s hs')
    have hbeside := fun s' (hs' : s' ∈ order) => hready.beside hs
      (horder s' (mem_cons_of_mem s hs')) (fun he => hnodup.1 (he ▸ hs')) hafter
    have hall : job.processAll mode tree (s :: order) = ((job.processAll mode after order).1,
        (job.process mode tree s).2.toList ++ (job.processAll mode after order).2) := by
      rw [processAll, ← hafter]
    rw [hall]
    refine ⟨?_, ?_, ?_⟩
    · rw [hrest.reports, filterMap_congr fun s' hs' => (hbeside s' hs').1]
      cases hreport : (job.process mode tree s).2 <;> simp [hreport]
    · intro s₁ hs₁ place hne
      rcases mem_cons.mp hs₁ with rfl | hs₁
      · rw [hafter] at hne ⊢
        apply hrest.kept
        intro s' hs'
        rcases (hbeside s' hs').2 place with ⟨-, hsame⟩ | ⟨hsame, -⟩
        · exact absurd hsame hne
        · exact hsame
      · rcases (hbeside s₁ hs₁).2 place with ⟨hsame, hbefore⟩ | ⟨-, hsame⟩
        · rw [← hsame] at hne ⊢
          exact hrest.written s₁ hs₁ place (hbefore ▸ hne)
        · exact absurd hsame hne
    · intro place hkept
      have hfirst : after.files.get? place = tree.files.get? place :=
        hafter ▸ hkept s mem_cons_self
      rw [← hfirst]
      apply hrest.kept
      intro s' hs'
      rcases (hbeside s' hs').2 place with ⟨hsame, -⟩ | ⟨hsame, -⟩
      · rw [hsame, hkept s' (mem_cons_of_mem s hs'), hfirst]
      · exact hsame

theorem Alone.get?_eq {order order' : List Path} {done done' : FileTree × List Report}
    (h : job.Alone mode tree order done) (h' : job.Alone mode tree order' done')
    (hsame : ∀ s, s ∈ order ↔ s ∈ order') (place : String) :
    done.1.files.get? place = done'.1.files.get? place := by
  by_cases hkept :
      ∀ s ∈ order, (job.process mode tree s).1.files.get? place = tree.files.get? place
  · rw [h.kept place hkept, h'.kept place fun s hs => hkept s ((hsame s).mpr hs)]
  · obtain ⟨s, hs, hne⟩ : ∃ s ∈ order,
        (job.process mode tree s).1.files.get? place ≠ tree.files.get? place := by simpa using hkept
    rw [h.written s hs place hne, h'.written s ((hsame s).mp hs) place hne]

end PropContract.Job
