import PropContract.Proofs.Project.Resolution

namespace PropContract

open List Project

section Numbers

variable (number : Nat → Nat)

def DeclRef.renumber (d : DeclRef) : DeclRef :=
  ⟨number d.file, d.name⟩

def Resolution.renumber : Resolution → Resolution
  | .declared d => .declared (d.renumber number)
  | .namespace file => .namespace (number file)
  | .outside module name => .outside module name
  | .outsideNamespace module => .outsideNamespace module

def Visit.renumber : Visit → Visit
  | .name file word => .name (number file) word
  | .exported file word => .exported (number file) word

def Passage.renumber (e : Passage) : Passage :=
  ⟨e.edge, e.place.renumber number⟩

def Junction.renumber : Junction → Junction
  | .answer r => .answer (r.renumber number)
  | .passages next => .passages (next.map (Passage.renumber number))

variable {number}

theorem DeclRef.renumber_injective (h : Function.Injective number) :
    Function.Injective (DeclRef.renumber number) := by
  rintro ⟨file, name⟩ ⟨file', name'⟩ heq
  simp only [renumber, DeclRef.mk.injEq] at heq ⊢
  exact ⟨h heq.1, heq.2⟩

theorem DeclRef.contains_renumber (h : Function.Injective number) (ds : List DeclRef)
    (d : DeclRef) : (ds.map (renumber number)).contains (d.renumber number) = ds.contains d := by
  rw [Bool.eq_iff_iff, contains_iff_mem, contains_iff_mem]
  exact mem_map_of_injective (renumber_injective h)

theorem Visit.renumber_injective (h : Function.Injective number) :
    Function.Injective (Visit.renumber number) := by
  intro x y heq
  cases x <;> cases y <;>
    simp only [renumber, Visit.name.injEq, Visit.exported.injEq, reduceCtorEq] at heq
  all_goals rw [h heq.1, heq.2]

theorem Passage.isRemembered_renumber (e : Passage) :
    (e.renumber number).isRemembered = e.isRemembered := by
  obtain ⟨edge, place⟩ := e
  cases edge <;> cases place <;> rfl

theorem Passage.extend_renumber (e : Passage) (path : List Visit) :
    (e.renumber number).extend isRemembered (path.map (Visit.renumber number)) =
      (e.extend isRemembered path).map (Visit.renumber number) := by
  rw [extend, extend, isRemembered_renumber]
  split <;> rfl

end Numbers

def Visit.SameScope (s s' : Scope) : Visit → Prop
  | .name _ word =>
    s'.locals.contains word = s.locals.contains word ∧ s'.imports.get? word = s.imports.get? word
  | .exported _ word =>
    s'.exports.get? word = s.exports.get? word ∧ s'.starExports = s.starExports

def Visit.file : Visit → Nat
  | .name id _ | .exported id _ => id

/-- Files of two projects that go with one another by `number`. A search that starts at an agreed
place passes agreed places only, and at these the files know the same. -/
structure Correspondence (p q : Project) where
  number : Nat → Nat
  injective : Function.Injective number
  sameOptions : q.options = p.options
  path_eq : ∀ id, (q.file? (number id)).map SourceFile.path = (p.file? id).map SourceFile.path
  idAt?_eq : ∀ place, q.idAt? place = (p.idAt? place).map number
  global?_eq : ∀ name, q.global? name = (p.global? name).map (DeclRef.renumber number)
  agreed : Visit → Prop
  closed : ∀ x next, agreed x → p.junction x = .passages next → ∀ e ∈ next, agreed e.place
  sameScope : ∀ x, agreed x → x.SameScope (p.scopeOf x.file) (q.scopeOf (number x.file))

namespace Correspondence

variable {p q : Project} (κ : Correspondence p q)

def known (file : Nat) (name : String) : Prop :=
  κ.agreed (.name file name)

theorem moduleOf?_eq (id : Nat) (specifier : String) :
    q.moduleOf? (κ.number id) specifier = (p.moduleOf? id specifier).map κ.number := by
  have hthere : (fun c => (q.idAt? c).isSome) = fun c => (p.idAt? c).isSome := by
    funext c
    rw [κ.idAt?_eq, Option.isSome_map]
  have hpath := κ.path_eq id
  rw [Project.moduleOf?, Project.moduleOf?, κ.sameOptions, hthere]
  cases hp : p.file? id with
  | none =>
    rw [hp, Option.map_none, Option.map_eq_none_iff] at hpath
    rw [hpath]
    rfl
  | some file =>
    rw [hp] at hpath
    obtain ⟨file', hfile', hsame⟩ := Option.map_eq_some_iff.mp hpath
    simp only [hfile', hsame, Option.bind_eq_bind, Option.bind_some]
    cases Modules.find? p.options (fun c => (p.idAt? c).isSome) file.path specifier with
    | none => rfl
    | some target => exact κ.idAt?_eq target

theorem junction_eq {x : Visit} (hx : κ.agreed x) :
    q.junction (x.renumber κ.number) = (p.junction x).renumber κ.number := by
  have hscope := κ.sameScope x hx
  cases x with
  | name file name =>
    obtain ⟨hlocals, himports⟩ := hscope
    rw [Visit.file] at hlocals himports
    simp only [Visit.renumber, Project.junction, hlocals, himports, moduleOf?_eq, κ.global?_eq]
    split
    · rfl
    · cases (p.scopeOf file).imports.get? name with
      | none => cases p.global? name <;> rfl
      | some binding =>
        obtain ⟨module, imported⟩ := binding
        cases imported <;> dsimp only <;> cases p.moduleOf? file module <;> rfl
  | exported file name =>
    obtain ⟨hexports, hstar⟩ := hscope
    rw [Visit.file] at hexports hstar
    simp only [Visit.renumber, Project.junction, hexports, hstar, moduleOf?_eq]
    cases (p.scopeOf file).exports.get? name with
    | some target =>
      cases target with
      | «local» other => rfl
      | named module other =>
        dsimp only
        cases p.moduleOf? file module <;> rfl
      | «namespace» module =>
        dsimp only
        cases p.moduleOf? file module <;> rfl
    | none =>
      dsimp only
      split
      · rfl
      · simp only [Junction.renumber, map_filterMap, Option.map_map]
        rfl

theorem depthFirst {path : List Visit} {es : List Passage} {r : Option Resolution}
    (h : DepthFirst p Passage.isRemembered path es r) (hes : ∀ e ∈ es, κ.agreed e.place) :
    DepthFirst q Passage.isRemembered (path.map (Visit.renumber κ.number))
      (es.map (Passage.renumber κ.number)) (r.map (Resolution.renumber κ.number)) := by
  have hmem (x : Visit) (path : List Visit) :
      x.renumber κ.number ∈ path.map (Visit.renumber κ.number) ↔ x ∈ path :=
    mem_map_of_injective (Visit.renumber_injective κ.injective)
  have hopen {e : Passage} {path : List Visit} (he : e.isRemembered → e.place ∉ path) :
      (e.renumber κ.number).isRemembered →
        (e.renumber κ.number).place ∉ path.map (Visit.renumber κ.number) := by
    rw [Passage.isRemembered_renumber]
    exact fun hr hm => he hr ((hmem _ _).mp hm)
  induction h with
  | deadEnd path => exact .deadEnd _
  | pruned hc hm _ ih =>
    refine .pruned ?_ ((hmem _ _).mpr hm) (ih fun e he => hes e (mem_cons_of_mem _ he))
    rwa [Passage.isRemembered_renumber]
  | answer he hr =>
    refine .answer (hopen he) ?_
    rw [Passage.renumber, κ.junction_eq (hes _ mem_cons_self), hr]
    rfl
  | found he hn _ ih =>
    have hplace := hes _ mem_cons_self
    have ih := ih (κ.closed _ _ hplace hn)
    rw [← Passage.extend_renumber] at ih
    refine .found (hopen he) ?_ ih
    rw [Passage.renumber, κ.junction_eq hplace, hn]
    rfl
  | missed he hn _ _ ih ih' =>
    have hplace := hes _ mem_cons_self
    have ih := ih (κ.closed _ _ hplace hn)
    rw [← Passage.extend_renumber] at ih
    refine .missed (hopen he) ?_ ih (ih' fun e he => hes e (mem_cons_of_mem _ he))
    rw [Passage.renumber, κ.junction_eq hplace, hn]
    rfl

theorem resolveName_eq {file : Nat} {name : String} (h : κ.known file name) :
    q.resolveName (κ.number file) name = (p.resolveName file name).map (.renumber κ.number) := by
  have hstart : ∀ e ∈ [Passage.mk .start (.name file name)], κ.agreed e.place :=
    fun e he => mem_singleton.mp he ▸ h
  have hsearch := κ.depthFirst ((depthFirst_name_iff file name _).mpr rfl) hstart
  exact ((depthFirst_name_iff _ _ _).mp hsearch).symm

theorem resolveExport_eq {file : Nat} {name : String} (h : κ.agreed (.exported file name)) :
    q.resolveExport (κ.number file) name =
      (p.resolveExport file name).map (.renumber κ.number) := by
  have hstart : ∀ e ∈ [Passage.mk .start (.exported file name)], κ.agreed e.place :=
    fun e he => mem_singleton.mp he ▸ h
  have hsearch := κ.depthFirst ((depthFirst_exported_iff file name _).mpr rfl) hstart
  exact ((depthFirst_exported_iff _ _ _).mp hsearch).symm

end Correspondence

end PropContract
