import PropContract.Extraction
import PropContract.Proofs.Project.Loading
import PropContract.Proofs.Relator
import PropContract.Proofs.Resolver.Questions

namespace PropContract.Extraction

open Syntax Resolver List

variable {α β : Type} {xs : List α} {k : Candidate} {s : Setting} {l : Ledger} {id : Nat}
  {path : Path}

theorem firstOfEach_append (ks : List Candidate) (k : Candidate) :
    firstOfEach (ks ++ [k]) =
      if (firstOfEach ks).any fun other => other.name == k.name then firstOfEach ks
      else firstOfEach ks ++ [k] := by
  rw [firstOfEach, foldl_concat]
  rfl

theorem names_firstOfEach (ks : List Candidate) :
    (firstOfEach ks).map Candidate.name = (ks.map Candidate.name).eraseDups := by
  induction ks using List.reverseRecOn with
  | nil => rfl
  | append_singleton ks k ih =>
    have hmem : ((firstOfEach ks).any fun other => other.name == k.name) = true ↔
        k.name ∈ ks.map Candidate.name := by
      rw [← mem_eraseDups, ← ih, any_eq_true, mem_map]
      simp
    rw [firstOfEach_append, map_append, eraseDups_append, ← ih]
    by_cases hold : k.name ∈ ks.map Candidate.name
    · rw [if_pos (hmem.mpr hold)]
      simp [List.removeAll, mem_map.mp hold]
    · rw [if_neg (mt hmem.mp hold)]
      have hnew : ([k].map Candidate.name).removeAll (ks.map Candidate.name) = [k.name] := by
        simpa [List.removeAll] using hold
      rw [hnew, map_append]
      rfl

theorem find?_of_mem_firstOfEach {ks : List Candidate} (h : k ∈ firstOfEach ks) :
    (ks.find? fun other => other.name == k.name) = some k := by
  induction ks using List.reverseRecOn with
  | nil => exact absurd h not_mem_nil
  | append_singleton ks last ih =>
    rw [firstOfEach_append] at h
    rw [find?_append]
    by_cases hold : ((firstOfEach ks).any fun other => other.name == last.name) = true
    · rw [if_pos hold] at h
      rw [ih h, Option.some_or]
    · rw [if_neg hold] at h
      rcases mem_append.mp h with h | h
      · rw [ih h, Option.some_or]
      · obtain rfl := mem_singleton.mp h
        have hnone : (ks.find? fun other => other.name == k.name) = none := by
          rw [find?_eq_none]
          intro other hother hname
          have hin : k.name ∈ (firstOfEach ks).map Candidate.name := by
            rw [names_firstOfEach, mem_eraseDups]
            exact mem_map.mpr ⟨other, hother, beq_iff_eq.mp hname⟩
          obtain ⟨kept, hkept, hname⟩ := mem_map.mp hin
          exact hold (any_eq_true.mpr ⟨kept, hkept, beq_iff_eq.mpr hname⟩)
        rw [hnone, Option.none_or]
        simp

def Candidate.allDefaults (file : SourceFile) (k : Candidate) : Table Literal :=
  Table.putAll (((statementDefaults file.items).get? k.name).getD []) k.defaults

inductive Answered (s : Setting) (id : Nat) : Option TypeExpr → List PropInfo → Ledger → Prop where
  | untyped : Answered s id none [] {}
  | typed {type : TypeExpr} {props : List PropInfo} {l : Ledger} :
      (resolveProps s (.inline id type)).run.run {} = (.ok props, l) →
      Answered s id (some type) props l

/-- A property of a component: it is what the resolver found, but for the default value, which
makes it optional. -/
structure Completes (defaults : Table Literal) (found p : PropInfo) : Prop where
  name : p.name = found.name
  shape : p.shape = found.shape
  doc : p.doc = found.doc
  typeText : p.typeText = found.typeText
  default : p.default = defaults.get? found.name
  optional : p.default.isSome = true → p.required = false
  required : p.default = none → p.required = found.required

structure IsComponent (s : Setting) (id : Nat) (file : SourceFile) (c : Component) : Prop where
  origin : c.origin = file.path
  candidate : ∃ k found l,
    ((file.items.flatMap itemCandidates).find? fun other => other.name == c.name) = some k ∧
    c.kind = k.kind ∧ Answered s id k.props found l ∧ c.definitions = l.definitions ∧
    Forall₂ (Completes (k.allDefaults file)) found c.props

theorem Answered.default_eq_none {type : Option TypeExpr} {props : List PropInfo}
    (h : Answered s id type props l) : ∀ p ∈ props, p.default = none := by
  cases h with
  | untyped => exact forall_mem_nil _
  | typed h =>
    obtain ⟨E, ms, -, htells⟩ := answer_tells (congrArg Prod.fst h)
    intro p hp
    obtain ⟨m, -, hm⟩ := exists_of_mem_right htells hp
    exact hm.default

theorem applyDefault_completes {defaults : Table Literal} {found : PropInfo}
    (h : found.default = none) : Completes defaults found (applyDefault defaults found) := by
  obtain ⟨name, required, shape, default, doc, typeText⟩ := found
  obtain rfl : default = none := h
  unfold applyDefault
  cases hvalue : defaults.get? (PropInfo.mk name required shape none doc typeText).name with
  | none => exact ⟨rfl, rfl, rfl, rfl, hvalue.symm, nofun, fun _ => rfl⟩
  | some value => exact ⟨rfl, rfl, rfl, rfl, hvalue.symm, fun _ => rfl, nofun⟩

theorem Answered.completes {type : Option TypeExpr} {found : List PropInfo}
    (h : Answered s id type found l) (defaults : Table Literal) :
    Forall₂ (Completes defaults) found (found.map (applyDefault defaults)) := by
  rw [forall₂_map_right_iff, forall₂_same]
  exact fun p hp => applyDefault_completes (h.default_eq_none p hp)

theorem exists_answered (s : Setting) (id : Nat) (type : Option TypeExpr) :
    ∃ found l, Answered s id type found l := by
  cases type with
  | none => exact ⟨[], {}, .untyped⟩
  | some type =>
    obtain ⟨found, l, h⟩ := exists_inline_answer s id type {}
    exact ⟨found, l, .typed h⟩

def Candidate.answered (k : Candidate) (path : Path) (found : List PropInfo) (l : Ledger) :
    Component where
  name := k.name
  origin := path
  kind := k.kind
  props := found.map (applyDefault k.defaults)
  definitions := l.definitions

theorem component_eq (path : Path) {found : List PropInfo} (h : Answered s id k.props found l) :
    component s id path k = .ok (k.answered path found l) := by
  obtain ⟨name, kind, props, defaults⟩ := k
  cases h with
  | untyped => rfl
  | typed h =>
    simp only [component, h]
    rfl

theorem of_component_eq_ok {c : Component} (h : component s id path k = .ok c) :
    ∃ found l, Answered s id k.props found l ∧ c = k.answered path found l := by
  obtain ⟨found, l, hanswer⟩ := exists_answered s id k.props
  exact ⟨found, l, hanswer, Except.ok.inj (h.symm.trans (component_eq path hanswer))⟩

theorem origin_of_component {s : Resolver.Setting} {c : Component}
    (h : component s id path k = .ok c) : c.origin = path := by
  obtain ⟨found, l, -, rfl⟩ := of_component_eq_ok h
  rfl

/-- The components of the file at a path: one for each name among its candidates, in the order in
which the names first occur. -/
structure Extracted (s : Setting) (path : Path) (cs : List Component) : Prop where
  extracted : extract s path = .ok cs
  distinct : (cs.map Component.name).Nodup
  components : ∃ id file, s.project.idOf? path = some id ∧ s.project.file? id = some file ∧
    file.path = path.normalize ∧
    cs.map Component.name = ((file.items.flatMap itemCandidates).map Candidate.name).eraseDups ∧
    ∀ c ∈ cs, IsComponent s id file c

theorem extract_eq {file : SourceFile} (hid : s.project.idOf? path = some id)
    (hfile : s.project.file? id = some file) :
    extract s path = (candidatesOf file).mapM (component s id file.path) := by
  rw [extract, hid]
  simp only [hfile]

theorem candidatesOf_eq (file : SourceFile) :
    candidatesOf file = (firstOfEach (file.items.flatMap itemCandidates)).map fun k =>
      { k with defaults := k.allDefaults file } :=
  rfl

theorem extract_of_contains (h : s.project.contains path = true) : ∃ cs, Extracted s path cs := by
  obtain ⟨id, hid⟩ := Option.isSome_iff_exists.mp h
  obtain ⟨file, hfile, hpath⟩ := Project.idAt?_eq_some hid
  have hcomponent : ∀ k ∈ candidatesOf file, ∃ c, component s id file.path k = .ok c := by
    intro k _
    obtain ⟨found, l, hanswer⟩ := exists_answered s id k.props
    exact ⟨_, component_eq file.path hanswer⟩
  obtain ⟨cs, hcs⟩ := exists_mapM_eq_ok hcomponent
  have hmade := mapM_eq_ok_iff.mp hcs
  rw [candidatesOf_eq, forall₂_map_left_iff] at hmade
  have hnames : cs.map Component.name =
      ((file.items.flatMap itemCandidates).map Candidate.name).eraseDups := by
    rw [← names_firstOfEach]
    refine hmade.map_eq fun k c hc => ?_
    obtain ⟨found, l, -, rfl⟩ := of_component_eq_ok hc
    rfl
  refine ⟨cs, (extract_eq hid hfile).trans hcs, ?_, id, file, hid, hfile, hpath, hnames, ?_⟩
  · rw [hnames]
    exact Table.nodup_eraseDups _
  · intro c hc
    obtain ⟨k, hk, hkc⟩ := exists_of_mem_right hmade hc
    obtain ⟨found, l, hanswer, rfl⟩ := of_component_eq_ok hkc
    exact ⟨rfl, k, found, l, find?_of_mem_firstOfEach hk, rfl, hanswer, rfl, hanswer.completes _⟩

theorem extract_of_not_contains (h : s.project.contains path = false) :
    extract s path = .error (.notInProject path) := by
  have hnone : s.project.idOf? path = none := by simpa [Project.contains] using h
  rw [extract, hnone]

theorem mapM_extract_of_foreign {paths : List Path}
    (h : (paths.find? fun path => !s.project.contains path) = some path) :
    paths.mapM (extract s) = .error (.notInProject path) := by
  induction paths with
  | nil => cases h
  | cons first paths ih =>
    rw [find?_cons] at h
    rw [mapM_cons]
    cases hfirst : s.project.contains first with
    | false =>
      obtain rfl : first = path := by simpa [hfirst] using h
      rw [extract_of_not_contains hfirst]
      rfl
    | true =>
      obtain ⟨cs, hcs⟩ := extract_of_contains hfirst
      rw [hcs.extracted, ih (by simpa [hfirst] using h)]
      rfl

theorem mapM_extract_of_own {paths : List Path} (h : ∀ path ∈ paths, s.project.contains path = true)
    :
    ∃ parts, paths.mapM (extract s) = .ok parts ∧ Forall₂ (Extracted s) paths parts := by
  have hown : ∀ path ∈ paths, ∃ cs, Extracted s path cs :=
    fun path hpath => extract_of_contains (h path hpath)
  obtain ⟨parts, hparts⟩ := exists_mapM_eq_ok fun path hpath =>
    (hown path hpath).imp fun _ hcs => hcs.extracted
  refine ⟨parts, hparts, ?_⟩
  have hboth := (forall₂_and_left _ _).mpr ⟨hown, mapM_eq_ok_iff.mp hparts⟩
  refine hboth.imp ?_
  rintro path cs ⟨⟨cs', hcs'⟩, hcs⟩
  obtain rfl : cs' = cs := Except.ok.inj (hcs'.extracted.symm.trans hcs)
  exact hcs'

/-- A document fails exactly if some path is not in the project, and then with the first such
path. Otherwise it lists the components of the files, path by path. -/
theorem document_fails_only_on_foreign (s : Setting) (paths : List Path) :
    (∀ e, document s paths = .error e ↔
      ∃ path, (paths.find? fun path => !s.project.contains path) = some path ∧
        e = .notInProject path) ∧
    ((∀ path ∈ paths, s.project.contains path = true) →
      ∃ parts, document s paths = .ok ⟨parts.flatten⟩ ∧
        Forall₂ (Extracted s) paths parts) := by
  have hown (h : ∀ path ∈ paths, s.project.contains path = true) :
      ∃ parts, document s paths = .ok ⟨parts.flatten⟩ ∧
        Forall₂ (Extracted s) paths parts := by
    obtain ⟨parts, hparts, hextracted⟩ := mapM_extract_of_own h
    refine ⟨parts, ?_, hextracted⟩
    rw [document, hparts]
    rfl
  refine ⟨fun e => ?_, hown⟩
  cases hforeign : paths.find? fun path => !s.project.contains path with
  | some path =>
    rw [document, mapM_extract_of_foreign hforeign]
    constructor
    · rintro ⟨⟩
      exact ⟨path, rfl, rfl⟩
    · rintro ⟨_, ⟨⟩, rfl⟩
      rfl
  | none =>
    obtain ⟨parts, hparts, -⟩ := hown (by simpa using find?_eq_none.mp hforeign)
    rw [hparts]
    exact ⟨nofun, nofun⟩

end PropContract.Extraction
