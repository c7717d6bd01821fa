import PropContract.Proofs.Extraction.Candidates
import PropContract.Proofs.Project.Revision

/-!
Checks and imports that are woven into a file are invisible to extraction.
-/

namespace PropContract

open Syntax Resolver List Table Project

/-- Items among which other ones were woven in: assignments to `propTypes`, and imports of fresh
names. The items that were there are alike, and their types do not refer to fresh names. -/
inductive Woven (R : Span → Span → Prop) (fresh : String → Prop) : List Item → List Item → Prop
  | nil : Woven R fresh [] []
  | kept (h : item.kind.Like R (fun name => ¬ fresh name) item'.kind)
      (hs : Woven R fresh items items') : Woven R fresh (item :: items) (item' :: items')
  | assignment
      (h : item.kind = .statement (.expr (.assign true (.member object "propTypes") value)))
      (hs : Woven R fresh items items') : Woven R fresh items (item :: items')
  | imported (hfresh : fresh name)
      (h : item.kind = .imports "prop-types" [⟨name, .named "default"⟩])
      (hs : Woven R fresh items items') : Woven R fresh items (item :: items')

variable {R : Span → Span → Prop} {fresh : String → Prop}

theorem enumEntries_eq {K : String → Prop} {ms ms' : List EnumMember}
    (h : Forall₂ (EnumMember.Like R K) ms ms') (next : Double) :
    enumEntries next ms' = enumEntries next ms := by
  induction h generalizing next with
  | nil => rfl
  | cons h _ ih =>
    cases h with
    | mk name isQuoted h =>
      cases h with
      | none => simp only [enumEntries, ih]
      | some h => simp only [enumEntries, h.literal?_eq, ih]

namespace Scope

structure Woven (R : Span → Span → Prop) (fresh : String → Prop) (s s' : Scope) : Prop where
  locals : Table.Rel (Forall₂ (Declared.Like R fun name => ¬ fresh name)) s.locals s'.locals
  imports : ∀ name, ¬ fresh name → s'.imports.get? name = s.imports.get? name
  added : ∀ name b, s'.imports.get? name = some b →
    s.imports.get? name = some b ∨ b.module = "prop-types"
  apart : s.imports.keys.Nodup ∧ s'.imports.keys.Nodup
  exports : s'.exports = s.exports
  starExports : s'.starExports = s.starExports
  isModule : s.isModule = true → s'.isModule = true

theorem bindings_like {K : String → Prop} {d d' : Declaration} (h : d.Like R K d') :
    Table.Rel (Declared.Like R K) (bindings d) (bindings d') := by
  cases h with
  | interface h => exact .cons ⟨h.name, .interface h⟩ .nil
  | typeAlias h => exact .cons ⟨h.name, .typeAlias h⟩ .nil
  | enum name h => exact .cons ⟨rfl, .enum (enumEntries_eq h)⟩ .nil
  | «class» name h => exact .cons ⟨rfl, .class _ _⟩ .nil
  | function name isAmbient h => exact .cons ⟨rfl, .function _ _⟩ .nil
  | vars kind h =>
    refine rel_filterMap (fun d d' hd => ?_) h
    cases hd with
    | mk hp he =>
      cases hp with
      | name text ht => exact .some ⟨rfl, .variable _ _ _ _⟩
      | _ => exact .none
  | «namespace» path h => exact .nil

namespace Woven

variable {s s' : Scope}

section

variable (h : Woven R fresh s s')

include h

theorem addLocal {e e' : String × Declared}
    (he : e'.1 = e.1 ∧ Declared.Like R (fun name => ¬ fresh name) e.2 e'.2) :
    Woven R fresh (s.addLocal e) (s'.addLocal e') := by
  have hold : Forall₂ (Declared.Like R fun name => ¬ fresh name)
      ((s.locals.get? e.1).getD []) ((s'.locals.get? e.1).getD []) :=
    (h.locals.get? e.1).getD .nil
  refine ⟨?_, h.imports, h.added, h.apart, h.exports, h.starExports, h.isModule⟩
  rw [Scope.addLocal, Scope.addLocal, he.1]
  exact h.locals.put e.1 (rel_append hold (.cons he.2 .nil))

theorem addLocals {d d' : Declaration} (hd : d.Like R (fun name => ¬ fresh name) d') :
    Woven R fresh (s.addLocals d) (s'.addLocals d') :=
  rel_foldl (fun _ _ hs _ _ he => hs.addLocal he) h (bindings_like hd)

theorem addExport (name : String) (target : ExportTarget) :
    Woven R fresh (s.addExport name target) (s'.addExport name target) := by
  refine ⟨h.locals, h.imports, h.added, h.apart, ?_, h.starExports, h.isModule⟩
  rw [Scope.addExport, Scope.addExport, h.exports]

theorem addImport (source : String) (specifier : ImportSpecifier) :
    Woven R fresh (s.addImport source specifier) (s'.addImport source specifier) := by
  refine ⟨h.locals, fun name hname => ?_, fun name b hb => ?_, ?_, h.exports, h.starExports,
    h.isModule⟩
  · simp only [Scope.addImport, get?_put, h.imports name hname]
  · simp only [Scope.addImport, get?_put] at hb ⊢
    by_cases hn : specifier.localName = name
    · rw [if_pos hn] at hb ⊢
      exact .inl hb
    · rw [if_neg hn] at hb ⊢
      exact h.added name b hb
  · exact ⟨nodup_put h.apart.1 _ _, nodup_put h.apart.2 _ _⟩

theorem addSpecifier (source : Option String) (e : ExportSpecifier) :
    Woven R fresh (Scope.addSpecifier source s e) (Scope.addSpecifier source s' e) := by
  unfold Scope.addSpecifier
  split
  · exact h.addExport _ _
  · exact h.addExport _ _
  · exact h.addExport _ _
  · exact h

end

theorem foldl {α : Type} {add : Scope → α → Scope}
    (hadd : ∀ s s' a, Woven R fresh s s' → Woven R fresh (add s a) (add s' a)) (as : List α)
    (h : Woven R fresh s s') : Woven R fresh (as.foldl add s) (as.foldl add s') := by
  induction as generalizing s s' with
  | nil => exact h
  | cons a as ih => exact ih (hadd s s' a h)

theorem exportBindings (h : Woven R fresh s s') {d d' : Declaration}
    (hd : d.Like R (fun name => ¬ fresh name) d') (key : String → String) :
    Woven R fresh
      (((bindings d).map Prod.fst).foldl (fun s n => s.addExport (key n) (.local n)) s)
      (((bindings d').map Prod.fst).foldl (fun s n => s.addExport (key n) (.local n)) s') := by
  have hnames : (bindings d').map Prod.fst = (bindings d).map Prod.fst :=
    Forall₂.map_eq (bindings_like hd) fun _ _ he => he.1
  rw [hnames]
  exact h.foldl (fun _ _ n hs => hs.addExport (key n) (.local n)) _

theorem module (h : Woven R fresh s s') :
    Woven R fresh { s with isModule := true } { s' with isModule := true } :=
  ⟨h.locals, h.imports, h.added, h.apart, h.exports, h.starExports, fun _ => rfl⟩

theorem addItem (h : Woven R fresh s s') {item item' : Item}
    (hi : item.kind.Like R (fun name => ¬ fresh name) item'.kind) :
    Woven R fresh (s.addItem item) (s'.addItem item') := by
  unfold Scope.addItem
  revert hi
  generalize item.kind = kind, item'.kind = kind'
  intro hi
  cases hi with
  | statement hs =>
    cases hs with
    | declaration hd => exact h.addLocals hd
    | _ => exact h
  | imports source specifiers =>
    exact h.module.foldl (fun _ _ e hs => hs.addImport source e) specifiers
  | exportDeclaration hd => exact (h.module.addLocals hd).exportBindings hd id
  | exportNames source specifiers =>
    exact h.module.foldl (fun _ _ e hs => hs.addSpecifier source e) specifiers
  | exportAll source =>
    have hstar : s'.starExports ++ [source] = s.starExports ++ [source] := by rw [h.starExports]
    exact ⟨h.locals, h.imports, h.added, h.apart, h.exports, hstar, fun _ => rfl⟩
  | exportDefault hd => exact (h.module.addLocals hd).exportBindings hd fun _ => "default"
  | exportValue he =>
    cases he with
    | name text => exact h.module.addExport "default" (.local text)
    | _ => exact h.module
  | moduleSyntax he => exact h.module

theorem addFresh (h : Woven R fresh s s') {name : String} {imported : ImportedName}
    (hfresh : fresh name) {item : Item}
    (hi : item.kind = .imports "prop-types" [⟨name, imported⟩]) :
    Woven R fresh s (s'.addItem item) := by
  have hscope : s'.addItem item =
      ({ s' with isModule := true } : Scope).addImport "prop-types" ⟨name, imported⟩ := by
    rw [Scope.addItem, hi]
    rfl
  rw [hscope, Scope.addImport]
  refine ⟨h.locals, fun other hother => ?_, fun other b hb => ?_,
    ⟨h.apart.1, nodup_put h.apart.2 _ _⟩, h.exports, h.starExports, fun _ => rfl⟩
  · have hne : name ≠ other := fun he => hother (he ▸ hfresh)
    rw [get?_put, if_neg hne, h.imports other hother]
  · rw [get?_put] at hb
    by_cases hn : name = other
    · rw [if_pos hn] at hb
      cases hb
      exact .inr rfl
    · rw [if_neg hn] at hb
      exact h.added other b hb

theorem ofItems {items items' : List Item} (h : PropContract.Woven R fresh items items') :
    Woven R fresh (Scope.ofItems items) (Scope.ofItems items') := by
  have hfold : ∀ {s s' : Scope}, Woven R fresh s s' →
      Woven R fresh (items.foldl Scope.addItem s) (items'.foldl Scope.addItem s') := by
    induction h with
    | nil => exact id
    | kept hi _ ih => exact fun hs => ih (hs.addItem hi)
    | assignment hi _ ih =>
      intro s s' hs
      refine ih ?_
      rw [Scope.addItem, hi]
      exact hs
    | imported hfresh hi _ ih => exact fun hs => ih (hs.addFresh hfresh hi)
  exact hfold ⟨.nil, fun _ _ => rfl, fun _ _ hb => .inl hb, ⟨.nil, .nil⟩, rfl, rfl, id⟩

theorem mem_requests_iff (h : Woven R fresh s s')
    (hfresh : ∀ name ∈ s.imports.keys, ¬ fresh name) {module : String}
    (hmodule : module ≠ "prop-types") : module ∈ s'.requests ↔ module ∈ s.requests := by
  have himports : module ∈ s'.imports.values.map ImportBinding.module ↔
      module ∈ s.imports.values.map ImportBinding.module := by
    simp only [Table.values, map_map, mem_map, Function.comp_apply]
    constructor
    · rintro ⟨entry, hentry, rfl⟩
      obtain hold | hnew := h.added _ _ (get?_of_mem h.apart.2 hentry)
      · exact ⟨_, mem_of_get? hold, rfl⟩
      · exact absurd hnew hmodule
    · rintro ⟨entry, hentry, rfl⟩
      have hold := get?_of_mem h.apart.1 hentry
      rw [← h.imports _ (hfresh _ (mem_map_of_mem hentry))] at hold
      exact ⟨_, mem_of_get? hold, rfl⟩
  simp only [requests, mem_mergeSort, mem_eraseDups, mem_append, himports,
    h.exports, h.starExports]

end Woven

end Scope

namespace Extraction

theorem assignedDefaults?_propTypes (plain : Bool) (object value : Expr) :
    assignedDefaults? (.assign plain (.member object "propTypes") value) = none := by
  unfold assignedDefaults?
  split
  · rename_i h
    simp at h
  · rfl

theorem statementDefaults_woven {items items' : List Item} (h : Woven R fresh items items') :
    statementDefaults items' = statementDefaults items := by
  unfold statementDefaults
  generalize ([] : Table (Table Literal)) = table
  induction h generalizing table with
  | nil => rfl
  | @kept items items' item item' hi _ ih =>
    rw [foldl_cons, foldl_cons, ih]
    congr 1
    revert hi
    generalize item.kind = kind, item'.kind = kind'
    intro hi
    cases hi with
    | statement hs =>
      cases hs with
      | expr he => simp only [assignedDefaults?_eq he]
      | _ => rfl
    | _ => rfl
  | assignment hi _ ih =>
    rw [foldl_cons, hi, ih]
    simp only [assignedDefaults?_propTypes]
  | imported _ hi _ ih =>
    rw [foldl_cons, hi, ih]

theorem flatMap_itemCandidates_woven {items items' : List Item} (h : Woven R fresh items items') :
    Forall₂ (Candidate.Like R fun name => ¬ fresh name) (items.flatMap itemCandidates)
      (items'.flatMap itemCandidates) := by
  induction h with
  | nil => exact .nil
  | kept hi _ ih =>
    rw [flatMap_cons, flatMap_cons]
    exact rel_append (itemCandidates_like hi) ih
  | assignment hi _ ih =>
    rw [flatMap_cons, itemCandidates, hi]
    exact ih
  | imported _ hi _ ih =>
    rw [flatMap_cons, itemCandidates, hi]
    exact ih

theorem candidatesOf_woven {file file' : SourceFile} (h : Woven R fresh file.items file'.items) :
    Forall₂ (Candidate.Like R fun name => ¬ fresh name) (candidatesOf file)
      (candidatesOf file') := by
  unfold candidatesOf
  rw [statementDefaults_woven h]
  refine rel_map (fun c c' hc => ?_) (firstOfEach_like (flatMap_itemCandidates_woven h))
  refine ⟨hc.name, hc.kind, hc.props, ?_⟩
  dsimp only
  rw [hc.name, hc.defaults]

end Extraction

namespace Scope

def Mentions (scope : Scope) (name : String) : Prop :=
  name ∈ scope.locals.keys ∨ name ∈ scope.imports.keys ∨ .local name ∈ scope.exports.values

instance (scope : Scope) (name : String) : Decidable (scope.Mentions name) :=
  inferInstanceAs (Decidable (name ∈ scope.locals.keys ∨ name ∈ scope.imports.keys ∨
    ExportTarget.local name ∈ scope.exports.values))

end Scope

/-- A module of a project, and the same module with other items woven in. The texts of what was
there are the same, and the file does not speak of the fresh names. -/
structure Weaving (p : Project) (n : Nat) (file file' : SourceFile) (fresh : String → Prop) :
    Prop where
  there : p.file? n = some file
  isModule : file.scope.isModule = true
  scope_eq : file.scope = Scope.ofItems file.items
  scope_eq' : file'.scope = Scope.ofItems file'.items
  path_eq : file'.path = file.path
  unmentioned : ∀ name, fresh name → ¬ file.scope.Mentions name
  woven : Woven (fun s s' => file'.textOf s' = file.textOf s) fresh file.items file'.items

namespace Weaving

variable {p : Project} {n : Nat} {file file' : SourceFile} (w : Weaving p n file file' fresh)

theorem file?_replace_of_ne {id : Nat} (h : id ≠ n) : (p.replace n file').file? id = p.file? id :=
  getElem?_set_ne (Ne.symm h)

theorem scopeOf_replace_of_ne {id : Nat} (h : id ≠ n) :
    (p.replace n file').scopeOf id = p.scopeOf id := by
  rw [Project.scopeOf, Project.scopeOf, file?_replace_of_ne h]

include w

theorem file?_replace : (p.replace n file').file? n = some file' :=
  getElem?_set_self (List.getElem?_eq_some_iff.mp w.there).1

theorem scopeOf_eq : p.scopeOf n = file.scope := by
  rw [Project.scopeOf, w.there]
  rfl

theorem scopeOf_replace : (p.replace n file').scopeOf n = file'.scope := by
  rw [Project.scopeOf, w.file?_replace]
  rfl

theorem scope : Scope.Woven (fun s s' => file'.textOf s' = file.textOf s) fresh file.scope
    file'.scope := by
  rw [w.scope_eq, w.scope_eq']
  exact .ofItems w.woven

theorem files : Forall₂ (fun f f' => f' = f ∨ f = file ∧ f' = file') p.files
    (p.replace n file').files :=
  .set (fun _ => .inl rfl) w.there (.inr ⟨rfl, rfl⟩)

theorem idAt?_replace (place : Path) : (p.replace n file').idAt? place = p.idAt? place := by
  refine w.files.findIdx?_eq fun f f' hf => ?_
  obtain rfl | ⟨rfl, rfl⟩ := hf
  · rfl
  · rw [w.path_eq]

theorem global?_replace (name : String) : (p.replace n file').global? name = p.global? name := by
  refine congrArg (Option.map _) (w.files.findIdx?_eq fun f f' hf => ?_)
  obtain rfl | ⟨rfl, rfl⟩ := hf
  · rfl
  · rw [w.isModule, w.scope.isModule w.isModule]
    rfl

theorem declaredCount_replace : declaredCount (p.replace n file') = declaredCount p := by
  have hlocals : Forall₂ (fun e e' => e'.1 = e.1) (p.files.flatMap fun f => f.scope.locals)
      ((p.replace n file').files.flatMap fun f => f.scope.locals) := by
    refine rel_flatMap w.files fun f f' hf => ?_
    obtain rfl | ⟨rfl, rfl⟩ := hf
    · exact forall₂_same.mpr fun _ _ => rfl
    · exact w.scope.locals.imp fun _ _ he => he.1
  exact hlocals.length_eq.symm

omit w in
def Apart (n : Nat) (fresh : String → Prop) : Visit → Prop
  | .name id name => id = n → ¬ fresh name
  | .exported _ _ => True

theorem apart_of_passages (x : Visit) (next : List Passage) (hx : Apart n fresh x)
    (hj : p.junction x = .passages next) (e : Passage) (he : e ∈ next) : Apart n fresh e.place := by
  cases x with
  | name id name =>
    rw [Project.junction] at hj
    split at hj
    · cases hj
    · split at hj
      · split at hj
        · cases hj
          rw [mem_singleton.mp he]
          trivial
        · cases hj
      · split at hj <;> cases hj
      · split at hj
        · cases hj
        · cases hj
          cases he
  | exported id name =>
    rw [Project.junction] at hj
    split at hj
    · rename_i other hexport
      cases hj
      rw [mem_singleton.mp he]
      rintro rfl hfresh
      rw [w.scopeOf_eq] at hexport
      have hmem : .local other ∈ file.scope.exports.values :=
        mem_map_of_mem (mem_of_get? hexport)
      exact w.unmentioned other hfresh (.inr (.inr hmem))
    · split at hj
      · cases hj
        rw [mem_singleton.mp he]
        trivial
      · cases hj
    · split at hj <;> cases hj
    · split at hj
      · cases hj
        cases he
      · cases hj
        obtain ⟨module, -, hpassage⟩ := mem_filterMap.mp he
        obtain ⟨target, -, rfl⟩ := Option.map_eq_some_iff.mp hpassage
        trivial

theorem sameScope (x : Visit) (hx : Apart n fresh x) :
    x.SameScope (p.scopeOf x.file) ((p.replace n file').scopeOf x.file) := by
  by_cases hn : x.file = n
  · rw [hn, w.scopeOf_eq, w.scopeOf_replace]
    cases x with
    | name id name => exact ⟨w.scope.locals.contains_eq name, w.scope.imports name (hx hn)⟩
    | exported id name =>
      exact ⟨congrArg (Table.get? name) w.scope.exports, w.scope.starExports⟩
  · rw [scopeOf_replace_of_ne hn]
    cases x <;> exact ⟨rfl, rfl⟩

def correspondence : Correspondence p (p.replace n file') where
  number := id
  injective := Function.injective_id
  sameOptions := rfl
  path_eq := fun i => by
    by_cases hi : i = n
    · rw [hi, id, w.file?_replace, w.there, Option.map_some, Option.map_some, w.path_eq]
    · rw [id, file?_replace_of_ne hi]
  idAt?_eq := fun place => by rw [w.idAt?_replace, Option.map_id, id]
  global?_eq := fun name => by
    rw [w.global?_replace]
    exact Option.map_id'.symm
  agreed := Apart n fresh
  closed := w.apart_of_passages
  sameScope := w.sameScope

omit w in
theorem sameText_of_ne {id : Nat} (h : id ≠ n) (s : Span) :
    SameText p (p.replace n file') id id s s := by
  rw [SameText, textOf, textOf, file?_replace_of_ne h]

theorem sameText_eq : SameText p (p.replace n file') n n =
    fun s s' => file'.textOf s' = file.textOf s := by
  funext s s'
  rw [SameText, textOf, textOf, w.file?_replace, w.there]
  rfl

theorem known_eq : w.correspondence.known n = fun name => ¬ fresh name := by
  funext name
  exact propext ⟨fun h => h rfl, fun h _ => h⟩

omit w in
theorem known_of_ne (w : Weaving p n file file' fresh) {id : Nat} (h : id ≠ n) (name : String) :
    w.correspondence.known id name :=
  fun he => absurd he h

theorem declarations_like (d : DeclRef) :
    Forall₂ (Declared.Like (SameText p (p.replace n file') d.file d.file)
      (w.correspondence.known d.file)) (p.declarations d) ((p.replace n file').declarations d) := by
  rw [Project.declarations, Project.declarations]
  by_cases hn : d.file = n
  · rw [hn, w.sameText_eq, w.known_eq, w.scopeOf_eq, w.scopeOf_replace]
    exact (w.scope.locals.get? d.name).getD .nil
  · rw [scopeOf_replace_of_ne hn]
    exact forall₂_same.mpr fun found _ =>
      Declared.Like.refl (sameText_of_ne hn) (w.known_of_ne hn) found

def likeness : Likeness p (p.replace n file') where
  toCorrespondence := w.correspondence
  exportsAgreed := fun _ _ => trivial
  declaredCount_eq := w.declaredCount_replace
  declarations := w.declarations_like

theorem candidates_like (id : Nat) :
    Option.Rel (fun f f' => Forall₂
      (Extraction.Candidate.Like (SameText p (p.replace n file') id id)
        (w.correspondence.known id))
      (Extraction.candidatesOf f) (Extraction.candidatesOf f'))
      (p.file? id) ((p.replace n file').file? id) := by
  by_cases hn : id = n
  · rw [hn, w.sameText_eq, w.known_eq, w.there, w.file?_replace]
    exact .some (Extraction.candidatesOf_woven w.woven)
  · rw [file?_replace_of_ne hn]
    cases p.file? id with
    | none => exact .none
    | some f =>
      refine .some (forall₂_same.mpr fun c _ => ?_)
      exact Extraction.Candidate.Like.refl (sameText_of_ne hn) (w.known_of_ne hn) c

theorem sameRequests {options : CompilerOptions} {there : Path → Bool}
    (h : Modules.find? options there file.path "prop-types" = none) :
    Project.SameRequests options there file file' := by
  refine sameRequests_of_mem fun s hs => ?_
  have hs' : s ≠ "prop-types" := by
    rintro rfl
    rw [h] at hs
    cases hs
  refine w.scope.mem_requests_iff (fun name hname hfresh => ?_) hs'
  exact w.unmentioned name hfresh (.inr (.inl hname))

omit w in
/-- Code that is woven into a module does not disturb extraction: every file of the project has
the same components. The project with the woven module is the one that is read when the text of
the module is changed, if the module that the woven code imports is not found. -/
theorem extract_woven (w : Weaving p n file file' fresh) :
    (∀ maxDepth path, Extraction.extract ⟨p.replace n file', maxDepth⟩ path =
        Extraction.extract ⟨p, maxDepth⟩ path) ∧
      ∀ tree tree' options sources, Project.ofSources tree options sources = .ok p →
        Project.Rewritten file file' → Project.Revises file file' tree tree' →
        Modules.find? options (Project.isThere tree sources) file.path "prop-types" = none →
        Project.ofSources tree' options (Project.revisedSources file.path file'.text sources) =
          .ok (p.replace n file') := by
  refine ⟨fun maxDepth path => ?_, fun tree tree' options sources hp hf htree hnone => ?_⟩
  · let ℓ : Likeness (Setting.mk p maxDepth).project
      (Setting.mk (p.replace n file') maxDepth).project := w.likeness
    exact ℓ.extract_eq rfl w.candidates_like path
  · exact ofSources_rewrite hp w.there hf htree (w.sameRequests hnone)

end Weaving

def cardText : String :=
  "export const Card: FC<Props> = null;\n"

def wovenCardText : String :=
  "import PT from 'prop-types';\n" ++ cardText ++ "Card.propTypes = \x7b title: PT.string \x7d;\n"

def cardSources (text : String) : List (Path × String) :=
  [(⟨"/app/Card.tsx"⟩, text),
    (⟨"/app/props.d.ts"⟩, "interface Props \x7b title: string; size?: number \x7d\n")]

def isCard : List Item → Bool
  | [⟨_, _, .exportDeclaration (.vars .const [.mk (.name "Card" (some (.reference ["FC"]
      [.reference ["Props"] []]))) (some .null)])⟩] => true
  | _ => false

def isWovenCard : List Item → Bool
  | [⟨_, _, .imports "prop-types" [⟨"PT", .named "default"⟩]⟩,
      ⟨_, _, .exportDeclaration (.vars .const [.mk (.name "Card" (some (.reference ["FC"]
        [.reference ["Props"] []]))) (some .null)])⟩,
      ⟨_, _, .statement (.expr (.assign true (.member _ "propTypes") _))⟩] => true
  | _ => false

theorem woven_card {items items' : List Item} (h : isCard items) (h' : isWovenCard items') :
    Woven R (fun name => name = "PT") items items' := by
  unfold isCard at h
  unfold isWovenCard at h'
  split at h
  · split at h'
    · refine .imported rfl rfl (.kept (.exportDeclaration (.vars _ (.cons ?_ .nil)))
        (.assignment rfl .nil))
      have hprops : TypeExpr.Like R (fun name => ¬ name = "PT") (.reference ["Props"] [])
          (.reference ["Props"] []) := .reference (by simp) .nil
      exact .mk (.name _ (.some (.reference (by simp) (.cons hprops .nil)))) (.some .null)
    · cases h'
  · cases h

theorem card_read : ∃ p, Project.ofSources {} {} (cardSources cardText) = .ok p ∧
    ((p.file? 0).any fun f => f.path = ⟨"/app/Card.tsx"⟩ ∧ f.kind = .markup ∧ f.isRoot ∧
      f.scope.isModule ∧ ¬ f.scope.Mentions "PT" ∧ isCard f.items) ∧
    (Extraction.extract ⟨p, 6⟩ ⟨"/app/Card.tsx"⟩).toOption.map (fun components =>
      components.map fun c => (c.name, c.props.map PropInfo.name)) =
        some [("Card", ["title", "size"])] :=
  exists_ok_of_any (by decide +kernel)

theorem wovenCard_parse : ∃ items, Grammar.parseModule SourceKind.markup.dialect wovenCardText =
    .ok items ∧ isWovenCard items :=
  exists_ok_of_any (by decide +kernel)

/-- The component has the same properties after its checks were woven in. -/
theorem extract_woven_card : ∃ p q, Project.ofSources {} {} (cardSources cardText) = .ok p ∧
    Project.ofSources {} {} (cardSources wovenCardText) = .ok q ∧
    Extraction.extract ⟨q, 6⟩ ⟨"/app/Card.tsx"⟩ = Extraction.extract ⟨p, 6⟩ ⟨"/app/Card.tsx"⟩ ∧
    (Extraction.extract ⟨q, 6⟩ ⟨"/app/Card.tsx"⟩).toOption.map (fun components =>
      components.map fun c => (c.name, c.props.map PropInfo.name)) =
        some [("Card", ["title", "size"])] := by
  obtain ⟨p, hp, hfile, hcard⟩ := card_read
  obtain ⟨items, hitems, hwoven⟩ := wovenCard_parse
  obtain ⟨file, hthere, hfacts⟩ := (Option.any_eq_true _ _).mp hfile
  obtain ⟨hpath, hkind, hroot, hmodule, hunmentioned, hitemsOf⟩ := of_decide_eq_true hfacts
  let file' : SourceFile :=
    { file with text := wovenCardText, items, scope := Scope.ofItems items }
  have w : Weaving p 0 file file' fun name => name = "PT" := {
    there := hthere
    isModule := hmodule
    scope_eq := ofSources_scope hp file (mem_of_getElem? hthere)
    scope_eq' := rfl
    path_eq := rfl
    unmentioned := fun name hname => hname ▸ hunmentioned
    woven := woven_card hitemsOf hwoven }
  have hrewritten : Project.Rewritten file file' := ⟨rfl, rfl, rfl, rfl, hkind ▸ hitems⟩
  have hrevises : Project.Revises file file' {} {} :=
    ⟨rfl, fun _ => rfl, fun _ _ _ => rfl, fun hnot => absurd hroot (by simp [hnot])⟩
  have hnone : Modules.find? {} (Project.isThere {} (cardSources cardText)) file.path
      "prop-types" = none := by
    rw [hpath]
    decide +kernel
  obtain ⟨hextract, hread⟩ := w.extract_woven
  have hq := hread {} {} {} (cardSources cardText) hp hrewritten hrevises hnone
  have hsources : Project.revisedSources file.path wovenCardText (cardSources cardText) =
      cardSources wovenCardText := by
    rw [hpath]
    decide +kernel
  refine ⟨p, p.replace 0 file', hp, hsources ▸ hq, hextract 6 _, ?_⟩
  rw [hextract 6]
  exact hcard

end PropContract
