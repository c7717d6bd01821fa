import Mathlib.Data.List.Nodup
import PropContract.Project.Basic
import PropContract.Proofs.Lists

namespace PropContract.Project

open List

theorem exists_ok_of_any {ε α : Type} {x : Except ε α} {q : α → Prop} [DecidablePred q]
    (h : x.toOption.any fun a => decide (q a)) : ∃ a, x = .ok a ∧ q a := by
  cases x with
  | error e => cases h
  | ok a => exact ⟨a, rfl, of_decide_eq_true h⟩

variable {kind : SourceKind} {roots : List String} {text : String} {path : Path}

theorem parseFile_eq_ok {file : SourceFile} (h : parseFile roots path kind text = .ok file) :
    file.path = path ∧ file.isRoot = roots.contains path.text := by
  unfold parseFile at h
  split at h
  · cases h
  · cases h
    exact ⟨rfl, rfl⟩

theorem parseFile_read {f : SourceFile} (h : parseFile roots path kind text = .ok f) :
    Grammar.parseModule f.kind.dialect f.text = .ok f.items := by
  unfold parseFile at h
  split at h
  · cases h
  · rename_i items hitems
    cases h
    exact hitems

theorem parseFile_scope {f : SourceFile} (h : parseFile roots path kind text = .ok f) :
    f.kind = kind ∧ f.scope = Scope.ofItems f.items := by
  unfold parseFile at h
  split at h
  · cases h
  · cases h
    exact ⟨rfl, rfl⟩

theorem idAt?_isSome_iff (p : Project) (path : Path) :
    (p.idAt? path).isSome ↔ path ∈ p.files.map SourceFile.path := by
  rw [idAt?, findIdx?_isSome, any_eq_true, mem_map]
  simp

section Rounds

variable {tree : FileTree} {roots : List String} {fuel : Nat} {texts : Table String}
  {path : Path} {queue : List Path} {p q : Project}

def textAt (tree : FileTree) (texts : Table String) (path : Path) : Except ProjectError String :=
  match texts.get? path.text with
  | some text => .ok text
  | none => (tree.read path).mapError (.unreadable path)

theorem readAll_of_passed (hpath : SourceKind.ofPath? path = none ∨ (p.idAt? path).isSome) :
    readAll tree roots (fuel + 1) ⟨texts, path :: queue⟩ p =
      readAll tree roots fuel ⟨texts, queue⟩ p := by
  rw [readAll]
  dsimp only
  obtain hkind | hread := hpath
  · simp only [hkind]
  · cases SourceKind.ofPath? path with
    | none => rfl
    | some kind => simp only [hread, if_true]

theorem readAll_of_unread {kind : SourceKind} (hkind : SourceKind.ofPath? path = some kind)
    (hnew : (p.idAt? path).isSome = false) :
    readAll tree roots (fuel + 1) ⟨texts, path :: queue⟩ p =
      (textAt tree texts path).bind fun text => (parseFile roots path kind text).bind fun file =>
        readAll tree roots fuel ⟨texts.erase path.text, enqueue tree
          { p with files := p.files ++ [file] } file ⟨texts.erase path.text, queue⟩⟩
          { p with files := p.files ++ [file] } := by
  simp only [readAll, hkind, hnew, Bool.false_eq_true, if_false, textAt]
  cases texts.get? path.text <;> rfl

theorem readAll_cons (h : readAll tree roots (fuel + 1) ⟨texts, path :: queue⟩ p = .ok q) :
    ((SourceKind.ofPath? path = none ∨ (p.idAt? path).isSome) ∧
      readAll tree roots fuel ⟨texts, queue⟩ p = .ok q) ∨
    ∃ kind text file, SourceKind.ofPath? path = some kind ∧ (p.idAt? path).isSome = false ∧
      textAt tree texts path = .ok text ∧ parseFile roots path kind text = .ok file ∧
      readAll tree roots fuel ⟨texts.erase path.text, enqueue tree
        { p with files := p.files ++ [file] } file ⟨texts.erase path.text, queue⟩⟩
        { p with files := p.files ++ [file] } = .ok q := by
  by_cases hpath : SourceKind.ofPath? path = none ∨ (p.idAt? path).isSome
  · rw [readAll_of_passed hpath] at h
    exact .inl ⟨hpath, h⟩
  · rw [not_or, Bool.not_eq_true] at hpath
    obtain ⟨kind, hkind⟩ := Option.ne_none_iff_exists'.mp hpath.1
    rw [readAll_of_unread hkind hpath.2] at h
    obtain ⟨text, htext, h⟩ := of_bind_eq_ok h
    obtain ⟨file, hfile, h⟩ := of_bind_eq_ok h
    exact .inr ⟨kind, text, file, hkind, hpath.2, htext, hfile, h⟩

variable {pending : Pending}

theorem readAll_invariant {I : Project → Prop}
    (hI : ∀ {p path kind text file}, SourceKind.ofPath? path = some kind →
      (p.idAt? path).isSome = false → parseFile roots path kind text = .ok file → I p →
      I { p with files := p.files ++ [file] }) (h : readAll tree roots fuel pending p = .ok q)
    (hp : I p) : I q := by
  induction fuel generalizing pending p with
  | zero =>
    cases h
    exact hp
  | succ fuel ih =>
    obtain ⟨texts, queue⟩ := pending
    cases queue with
    | nil =>
      cases h
      exact hp
    | cons path queue =>
      obtain ⟨-, h⟩ | ⟨kind, text, file, hkind, hnew, -, hfile, h⟩ := readAll_cons h
      · exact ih h hp
      · exact ih h (hI hkind hnew hfile hp)

theorem readAll_files_grow (h : readAll tree roots fuel pending p = .ok q) : p.files <+: q.files :=
  readAll_invariant (I := fun p' => p.files <+: p'.files)
    (fun _ _ _ hp => hp.trans (prefix_append _ _)) h prefix_rfl

theorem readAll_nodup (h : readAll tree roots fuel pending p = .ok q)
    (hp : (p.files.map SourceFile.path).Nodup) : (q.files.map SourceFile.path).Nodup := by
  refine readAll_invariant (I := fun p => (p.files.map SourceFile.path).Nodup) ?_ h hp
  intro p path kind text file _ hnew hfile hp
  have hpath : file.path ∉ p.files.map SourceFile.path := by
    rw [(parseFile_eq_ok hfile).1, ← idAt?_isSome_iff, hnew]
    exact Bool.false_ne_true
  rw [map_append, map_singleton]
  exact nodup_append.mpr ⟨hp, nodup_singleton _,
    fun a ha b hb he => hpath (mem_singleton.mp hb ▸ he ▸ ha)⟩

theorem readAll_forall {P : SourceFile → Prop}
    (hP : ∀ {path kind text file}, SourceKind.ofPath? path = some kind →
      parseFile roots path kind text = .ok file → P file) (hp : ∀ f ∈ p.files, P f)
    (h : readAll tree roots fuel pending p = .ok q) : ∀ f ∈ q.files, P f := by
  refine readAll_invariant (I := fun p => ∀ f ∈ p.files, P f) ?_ h hp
  intro p path kind text file hkind _ hfile hp f hf
  rcases mem_append.mp hf with hf | hf
  · exact hp f hf
  · exact mem_singleton.mp hf ▸ hP hkind hfile

end Rounds

section Programs

variable {tree : FileTree} {options : CompilerOptions} {sources : List (Path × String)}
  {p : Project}

theorem ofSources_forall {P : SourceFile → Prop}
    (hP : ∀ {roots path kind text file}, parseFile roots path kind text = .ok file → P file)
    (h : ofSources tree options sources = .ok p) : ∀ f ∈ p.files, P f := by
  obtain ⟨texts, -, h⟩ := of_bind_eq_ok h
  exact readAll_forall (fun _ => hP) (forall_mem_nil _) h

theorem ofSources_kind (h : ofSources tree options sources = .ok p) :
    ∀ f ∈ p.files, SourceKind.ofPath? f.path = some f.kind := by
  obtain ⟨texts, -, h⟩ := of_bind_eq_ok h
  refine readAll_forall (fun hkind hfile => ?_) (forall_mem_nil _) h
  rw [(parseFile_eq_ok hfile).1, (parseFile_scope hfile).1, hkind]

theorem ofSources_scope (h : ofSources tree options sources = .ok p) :
    ∀ f ∈ p.files, f.scope = Scope.ofItems f.items :=
  ofSources_forall (fun hfile => (parseFile_scope hfile).2) h

end Programs

end PropContract.Project
