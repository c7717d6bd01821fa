import PropContract.Proofs.CommandLine.Plan
import PropContract.Proofs.FileTree
import PropContract.Proofs.Project.Modules

namespace PropContract

open List

namespace Path

structure LiesIn (p : Path) (dir : List String) (name : String) : Prop where
  isName : ∀ n ∈ dir ++ [name], IsName n
  eq : p = ofNames true (dir ++ [name])

namespace LiesIn

variable {p : Path} {dir : List String} {name : String}

section

variable (h : p.LiesIn dir name)

include h

theorem dirs : ∀ n ∈ dir, IsName n :=
  fun n hn => h.isName n (mem_append_left _ hn)

theorem last : IsName name :=
  h.isName name (by simp)

theorem parent? : p.parent? = some (ofNames true dir) := by
  rw [h.eq]
  exact parent?_ofNames true h.dirs h.last

theorem fileName? : p.fileName? = some name := by
  rw [h.eq]
  exact fileName?_ofNames true h.isName (by simp)

theorem names : p.names = dir ++ [name] := by
  rw [h.eq]
  exact names_ofNames h.isName

theorem unique {dir' : List String} {name' : String} (h' : p.LiesIn dir' name') :
    dir = dir' ∧ name = name' := by
  have he := (ofNames_inj h.isName h'.isName).mp (h.eq.symm.trans h'.eq)
  exact ⟨(append_inj' he rfl).1, singleton_inj.mp (append_inj' he rfl).2⟩

end

end LiesIn

theorem exists_liesIn {p : Path} (habs : p.isAbsolute) (hnormal : p.normalize = p)
    (hfile : p.fileName?.isSome) : ∃ dir name, p.LiesIn dir name := by
  obtain ⟨absolute, names, hnames, hp⟩ := p.isNormal_normalize
  obtain rfl : absolute = true := by
    rw [← isAbsolute_ofNames absolute hnames, ← hp, hnormal, habs]
  rcases eq_nil_or_concat names with rfl | ⟨dir, name, rfl⟩
  · rw [← hnormal, hp] at hfile
    cases hfile
  · rw [concat_eq_append] at hnames hp
    exact ⟨dir, name, hnames, hnormal.symm.trans hp⟩

def Encloses (dir p : Path) : Prop :=
  p.startsWith dir ∧ ¬ dir.startsWith p

theorem LiesIn.encloses_iff {p q : Path} {dir : List String} {name : String}
    (h : p.LiesIn dir name) : q.Encloses p ↔ (ofNames true dir).startsWith q := by
  have hp : p.components = (ofNames true dir).components ++ [.name name] := by
    rw [h.eq, components_ofNames true h.isName, components_ofNames true h.dirs]
    simp
  simp only [Encloses, startsWith, isPrefixOf_iff_prefix, hp, prefix_concat_iff]
  constructor
  · rintro ⟨hq | hq, hproper⟩
    · exact absurd (hq ▸ prefix_rfl) hproper
    · exact hq
  · intro hq
    refine ⟨.inr hq, fun hlong => ?_⟩
    have hle := hlong.length_le.trans hq.length_le
    rw [length_append, length_singleton] at hle
    omega

theorem components_of_startsWith {names : List String} (h : ∀ n ∈ names, IsName n) {q : Path}
    (hq : (ofNames true names).startsWith q) :
    q.components = [] ∨ ∃ base, base <+: names ∧ q.components = (ofNames true base).components := by
  rw [startsWith, isPrefixOf_iff_prefix, components_ofNames true h] at hq
  cases hc : q.components with
  | nil => exact .inl rfl
  | cons c cs =>
    rw [hc] at hq
    obtain ⟨rfl, hcs⟩ := cons_prefix_cons.mp hq
    obtain ⟨base, hbase, rfl⟩ := prefix_map_iff.mp hcs
    refine .inr ⟨base, hbase, ?_⟩
    rw [components_ofNames true fun n hn => h n (hbase.subset hn)]
    rfl

theorem ofNames_singleton (name : String) : ofNames false [name] = ⟨name⟩ := by
  simp [ofNames, joinSegments]

theorem ofNames_true_eq_join (names : List String) (h : ∀ n ∈ names, IsName n) :
    ofNames true names = (Path.mk "/").join (ofNames false names) := by
  rw [join, isAbsolute_ofNames false h]
  simp [ofNames]

theorem join_ofNames_nil_join (p : Path) {q : Path} (hq : q.isAbsolute = false) :
    (p.join (ofNames false [])).join q = p.join q := by
  by_cases hp : p.text = "" ∨ p.text.toList.getLast? = some '/'
  · have hjoin : p.join (ofNames false []) = p := by
      rw [join, if_neg (by decide), if_pos (by simpa using hp)]
      simp [ofNames, joinSegments]
    rw [hjoin]
  · have hjoin : p.join (ofNames false []) = ⟨p.text ++ "/"⟩ := by
      rw [join, if_neg (by decide), if_neg (by simpa using hp)]
      simp [ofNames, joinSegments]
    rw [hjoin, join, hq, if_neg Bool.false_ne_true, if_pos (by simp), join, hq,
      if_neg Bool.false_ne_true, if_neg (by simpa using hp)]

end Path

namespace Workspace

open Path

theorem exists_common {others : List Path} {base : List String} (hbase : ∀ n ∈ base, IsName n)
    (h : ∀ p ∈ others, ∃ dir name, p.LiesIn dir name) :
    ∃ shared, (∀ other, other <+: shared ↔ other <+: base ∧ ∀ p ∈ others, other <+: p.names) ∧
      others.foldlM (fun root p => root.ancestors.find? p.startsWith) (ofNames true base) =
        some (ofNames true shared) := by
  induction others generalizing base with
  | nil => exact ⟨base, fun _ => by simp, rfl⟩
  | cons p others ih =>
    obtain ⟨dir, name, hp⟩ := h p mem_cons_self
    obtain ⟨next, hnext, hfind⟩ := find?_ancestors hp.isName hbase
    have hnames : ∀ n ∈ next, IsName n :=
      fun n hn => hbase n (((hnext next).mp prefix_rfl).1.subset hn)
    obtain ⟨shared, hshared, hfold⟩ := ih hnames fun q hq => h q (mem_cons_of_mem p hq)
    refine ⟨shared, fun other => ?_, ?_⟩
    · rw [hshared, hnext, forall_mem_cons, hp.names, and_assoc]
    · rw [foldlM_cons, hp.eq, hfind]
      exact hfold

theorem exists_commonRoot {roots : List Path} (hne : roots ≠ [])
    (h : ∀ p ∈ roots, ∃ dir name, p.LiesIn dir name) :
    ∃ base, (∀ n ∈ base, IsName n) ∧ commonRoot? roots = some (ofNames true base) ∧
      (∃ p ∈ roots, ∃ dir name, p.LiesIn dir name ∧ base <+: dir) ∧
      (∀ p ∈ roots, ∀ dir name, p.LiesIn dir name → base <+: dir ++ [name]) ∧
      ∀ other, (∀ p ∈ roots, ∀ dir name, p.LiesIn dir name → other <+: dir) → other <+: base := by
  obtain ⟨first, others, rfl⟩ := exists_cons_of_ne_nil hne
  obtain ⟨dir, name, hfirst⟩ := h first mem_cons_self
  have hrest := fun q hq => h q (mem_cons_of_mem first hq)
  obtain ⟨base, hshared, hfold⟩ := exists_common hfirst.dirs hrest
  obtain ⟨hbase, hothers⟩ := (hshared base).mp prefix_rfl
  refine ⟨base, fun n hn => hfirst.dirs n (hbase.subset hn), ?_,
    ⟨first, mem_cons_self, dir, name, hfirst, hbase⟩, ?_, fun other hother => ?_⟩
  · rw [commonRoot?, hfirst.parent?]
    exact hfold
  · intro q hq dir' name' hq'
    rcases mem_cons.mp hq with rfl | hq
    · obtain ⟨rfl, rfl⟩ := hfirst.unique hq'
      exact hbase.trans (prefix_append dir [name])
    · exact hq'.names ▸ hothers q hq
  · refine (hshared other).mpr ⟨hother first mem_cons_self dir name hfirst, fun q hq => ?_⟩
    obtain ⟨dir', name', hq'⟩ := hrest q hq
    rw [hq'.names]
    exact (hother q (mem_cons_of_mem first hq) dir' name' hq').trans (prefix_append ..)

/-- Where no source is a directory of another one, the common root is the deepest directory that all
of them lie in. -/
theorem exists_deepest {roots : List Path} (hne : roots ≠ [])
    (h : ∀ p ∈ roots, ∃ dir name, p.LiesIn dir name)
    (happart : ∀ p ∈ roots, ∀ q ∈ roots, ¬ q.Encloses p) :
    ∃ base, (∀ n ∈ base, IsName n) ∧ commonRoot? roots = some (ofNames true base) ∧
      (∀ p ∈ roots, ∀ dir name, p.LiesIn dir name → base <+: dir) ∧
      ∀ q, (ofNames true base).startsWith q ↔ ∀ p ∈ roots, q.Encloses p := by
  obtain ⟨base, hbase, hcommon, ⟨first, hfirst, dir, name, hin, hdir⟩, habove, hdeepest⟩ :=
    exists_commonRoot hne h
  have hbelow : ∀ p ∈ roots, ∀ dir name, p.LiesIn dir name → base <+: dir := by
    intro p hp dir' name' hin'
    refine (prefix_concat_iff.mp (habove p hp dir' name' hin')).resolve_left ?_
    rintro rfl
    refine happart first hfirst p hp (hin.encloses_iff.mpr ?_)
    rw [hin'.eq]
    exact (startsWith_ofNames hin.dirs hin'.isName).mpr hdir
  refine ⟨base, hbase, hcommon, hbelow, fun q => ⟨fun hq p hp => ?_, fun hq => ?_⟩⟩
  · obtain ⟨dir', name', hin'⟩ := h p hp
    have hstarts := (startsWith_ofNames hin'.dirs hbase).mpr (hbelow p hp dir' name' hin')
    rw [hin'.encloses_iff]
    rw [startsWith, isPrefixOf_iff_prefix] at hq hstarts ⊢
    exact hq.trans hstarts
  · rcases components_of_startsWith hin.dirs (hin.encloses_iff.mp (hq first hfirst)) with
      hnone | ⟨other, hother, hcomponents⟩
    · simp [startsWith, hnone]
    · have hnames : ∀ n ∈ other, IsName n := fun n hn => hin.dirs n (hother.subset hn)
      have hsame (p : Path) : p.startsWith q = p.startsWith (ofNames true other) := by
        rw [startsWith, startsWith, hcomponents]
      rw [hsame, startsWith_ofNames hbase hnames]
      refine hdeepest other fun p hp dir' name' hin' => ?_
      rw [← startsWith_ofNames hin'.dirs hnames, ← hsame]
      exact hin'.encloses_iff.mp (hq p hp)

theorem mem_toList_of_strip? {ending text stem : String}
    (h : Modules.strip? ending text = some stem) {c : Char} (hc : c ∈ stem.toList) :
    c ∈ text.toList := by
  rw [Modules.strip?_eq_some h]
  exact mem_append_left _ hc

theorem noSlash_stem {p : Path} {dir : List String} {name : String} (h : p.LiesIn dir name) :
    '/' ∉ (stem p).toList := by
  rw [stem, h.fileName?]
  intro hmem
  cases hfound : sourceEndings.findSome? fun ending => Modules.strip? ending name with
  | none => exact h.last.noSlash (by simpa [hfound] using hmem)
  | some stem =>
    obtain ⟨ending, -, hstrip⟩ := exists_of_findSome?_eq_some hfound
    exact h.last.noSlash (mem_toList_of_strip? hstrip (by simpa [hfound] using hmem))

end Workspace

namespace Job

open Path

variable {job : Job} {mode : RunMode} {source source' : Path} {base dir dir' : List String}
  {name name' : String}

def keptNames (job : Job) (base dir : List String) : List String :=
  if job.outDir = none then dir else if base <+: dir then dir.drop base.length else []

theorem isName_keptNames (hdir : ∀ n ∈ dir, IsName n) : ∀ n ∈ job.keptNames base dir, IsName n := by
  intro n hn
  unfold keptNames at hn
  split at hn
  · exact hdir n hn
  · split at hn
    · exact hdir n (mem_of_mem_drop hn)
    · cases hn

theorem isName_output {ending : String} (h : source.LiesIn dir name)
    (he : ending ∈ outputEndings mode) : IsName (Workspace.stem source ++ ending) := by
  have hending : '/' ∉ ending.toList ∧ 3 ≤ ending.toList.length := by
    revert ending
    cases mode <;> decide
  exact isName_append_of_long (Workspace.noSlash_stem h) hending.1 hending.2

theorem outputAt_eq (hroot : job.sourceRoot = ofNames true base) (hbase : ∀ n ∈ base, IsName n)
    (h : source.LiesIn dir name) {ending : String} (he : ending ∈ outputEndings mode) :
    job.outputAt source ending =
      ((job.outDir.getD ⟨"/"⟩).join (ofNames false (job.keptNames base dir))).join
        (ofNames false [Workspace.stem source ++ ending]) := by
  have hrelative : (ofNames false [Workspace.stem source ++ ending]).isAbsolute = false :=
    isAbsolute_ofNames false (forall_mem_singleton.mpr (isName_output h he))
  rw [outputAt, targetDir, h.parent?, ofNames_singleton, Option.getD_some]
  cases hout : job.outDir with
  | none => simp [keptNames, hout, ← ofNames_true_eq_join dir h.dirs]
  | some out =>
    by_cases hpre : base <+: dir
    · obtain ⟨rest, rfl⟩ := hpre
      simp [keptNames, hout, hroot, relativeTo?_ofNames h.dirs]
    · have hnone : (ofNames true dir).relativeTo? job.sourceRoot = none := by
        rw [relativeTo?, hroot, if_neg]
        exact fun hs => hpre ((startsWith_ofNames h.dirs hbase).mp hs)
      rw [ofNames_singleton] at hrelative
      simp [keptNames, hout, hpre, hnone, join_ofNames_nil_join out hrelative]

def outputNames (job : Job) (base dir : List String) (last : String) : List String :=
  (job.outDir.getD ⟨"/"⟩).walked ++ job.keptNames base dir ++ [last]

section

variable (hroot : job.sourceRoot = ofNames true base) (hbase : ∀ n ∈ base, IsName n)
  (h : source.LiesIn dir name)

include hroot hbase h

theorem walked_outputAt {ending : String} (he : ending ∈ outputEndings mode) :
    (job.outputAt source ending).walked =
      job.outputNames base dir (Workspace.stem source ++ ending) := by
  have hlast := isName_output h he
  rw [walked, outputAt_eq hroot hbase h he,
    components_join _ (forall_mem_singleton.mpr hlast),
    components_join _ (isName_keptNames h.dirs), foldl_append, foldl_append,
    foldl_walk_of_names, foldl_walk_of_names, outputNames, walked]

theorem eq_of_place_eq (h' : source'.LiesIn dir' name') {target target' : Path}
    (ht : target ∈ job.outputs mode source) (ht' : target' ∈ job.outputs mode source')
    (hplace : target.place = target'.place) : target = target' := by
  obtain ⟨ending, he, rfl⟩ := mem_map.mp ht
  obtain ⟨ending', he', rfl⟩ := mem_map.mp ht'
  have hnames := (ofNames_inj (isName_walked _) (isName_walked _)).mp (congrArg Path.mk hplace)
  rw [walked_outputAt hroot hbase h he, walked_outputAt hroot hbase h' he', outputNames,
    outputNames] at hnames
  obtain ⟨hdir, hlast⟩ := append_inj' hnames (by simp)
  rw [outputAt_eq hroot hbase h he, outputAt_eq hroot hbase h' he', append_cancel_left hdir,
    singleton_inj.mp hlast]

end

section

variable {out : Path} {rest : List String} (hroot : job.sourceRoot = ofNames true base)
  (hout : job.outDir = some out) (h : source.LiesIn (base ++ rest) name)

include hroot hout h

theorem targetDir_of_below : job.targetDir source = out.join (ofNames false rest) := by
  rw [targetDir, h.parent?, hout, hroot]
  simp [relativeTo?_ofNames h.dirs]

theorem components_targetDir :
    (job.targetDir source).components = out.components ++ rest.map .name := by
  rw [targetDir_of_below hroot hout h]
  exact components_join out fun n hn => h.dirs n (mem_append_right base hn)

theorem walked_targetDir : (job.targetDir source).walked = out.walked ++ rest := by
  rw [walked, components_targetDir hroot hout h, foldl_append, foldl_walk_of_names, walked]

end

/-- Outputs mirror sources. The common root of sources, none of which is a directory of another
one, is the deepest directory that they all lie in. So each has its outputs in the same place below
the output directory as it is below the root, and different directories stay different. -/
theorem targetDir_mirrors {sources : List Path} {workspace out : Path} (hne : sources ≠ [])
    (hsources : ∀ p ∈ sources, p.isAbsolute ∧ p.normalize = p ∧ p.fileName?.isSome)
    (happart : ∀ p ∈ sources, ∀ q ∈ sources, ¬ q.Encloses p)
    (hroot : job.sourceRoot = (Workspace.commonRoot? sources).getD workspace)
    (hout : job.outDir = some out) :
    ∃ root, Workspace.commonRoot? sources = some root ∧ root.normalize = root ∧
      (∀ dir, root.startsWith dir ↔ ∀ p ∈ sources, dir.Encloses p) ∧
      (∀ p ∈ sources, ∃ dir relative rest, p.parent? = some dir ∧
        dir.relativeTo? job.sourceRoot = some relative ∧ job.targetDir p = out.join relative ∧
        dir.components = root.components ++ rest ∧
        (job.targetDir p).components = out.components ++ rest) ∧
      ∀ p ∈ sources, ∀ q ∈ sources, p.parent? ≠ q.parent? →
        (job.targetDir p).normalize ≠ (job.targetDir q).normalize := by
  have hlies : ∀ p ∈ sources, ∃ dir name, p.LiesIn dir name := fun p hp =>
    exists_liesIn (hsources p hp).1 (hsources p hp).2.1 (hsources p hp).2.2
  obtain ⟨base, hbase, hcommon, hbelow, hdeepest⟩ := Workspace.exists_deepest hne hlies happart
  rw [hcommon, Option.getD_some] at hroot
  refine ⟨_, hcommon, normalize_ofNames true hbase, hdeepest, fun p hp => ?_,
    fun p hp q hq hne' heq => ?_⟩
  · obtain ⟨dir, name, hin⟩ := hlies p hp
    obtain ⟨rest, rfl⟩ := hbelow p hp dir name hin
    refine ⟨_, _, _, hin.parent?, ?_, targetDir_of_below hroot hout hin, ?_,
      components_targetDir hroot hout hin⟩
    · rw [hroot, relativeTo?_ofNames hin.dirs]
    · rw [components_ofNames true hin.dirs, components_ofNames true hbase, map_append,
        append_assoc]
  · obtain ⟨dir, name, hin⟩ := hlies p hp
    obtain ⟨dir', name', hin'⟩ := hlies q hq
    obtain ⟨rest, rfl⟩ := hbelow p hp dir name hin
    obtain ⟨rest', rfl⟩ := hbelow q hq dir' name' hin'
    have hwalked := congrArg walked heq
    rw [walked_normalize, walked_normalize, walked_targetDir hroot hout hin,
      walked_targetDir hroot hout hin'] at hwalked
    rw [hin.parent?, hin'.parent?, append_cancel_left hwalked] at hne'
    exact hne' rfl

def mirroringJob : Job where
  write := false
  settings := {}
  sourceRoot := ⟨"/a"⟩
  outDir := some ⟨"../out"⟩
  document := ⟨[]⟩

theorem targetDir_mirrors_siblings :
    Workspace.commonRoot? [⟨"/a/b/c.ts"⟩, ⟨"/a/bc/d.ts"⟩] = some ⟨"/a"⟩ ∧
      (mirroringJob.targetDir ⟨"/a/b/c.ts"⟩).normalize ≠
        (mirroringJob.targetDir ⟨"/a/bc/d.ts"⟩).normalize := by
  have hcommon : Workspace.commonRoot? [⟨"/a/b/c.ts"⟩, ⟨"/a/bc/d.ts"⟩] = some ⟨"/a"⟩ := by
    decide +kernel
  have happart : ∀ p ∈ [Path.mk "/a/b/c.ts", ⟨"/a/bc/d.ts"⟩],
      ∀ q ∈ [Path.mk "/a/b/c.ts", ⟨"/a/bc/d.ts"⟩], ¬ q.Encloses p := by
    unfold Encloses
    decide +kernel
  have hroot : mirroringJob.sourceRoot =
      (Workspace.commonRoot? [⟨"/a/b/c.ts"⟩, ⟨"/a/bc/d.ts"⟩]).getD ⟨"/"⟩ := by
    rw [hcommon]
    rfl
  obtain ⟨root, -, -, -, -, hdiffer⟩ :=
    targetDir_mirrors (cons_ne_nil _ _) (by decide +kernel) happart hroot rfl
  exact ⟨hcommon, hdiffer _ mem_cons_self _ (by simp) (by decide +kernel)⟩

end Job

end PropContract
