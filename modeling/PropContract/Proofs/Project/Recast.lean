import PropContract.Proofs.Project.Correspondence

namespace PropContract

open Syntax List Table

def Syntax.Interface.asAlias (i : Interface) : TypeAlias where
  name := i.name
  params := i.params
  type := .object i.members

def Declared.recast : Declared → Declared
  | .interface i => .typeAlias i.asAlias
  | other => other

def Syntax.Declaration.recast (name : String) : Declaration → Declaration
  | .interface i => if i.name = name then .typeAlias i.asAlias else .interface i
  | other => other

def Syntax.ItemKind.recast (name : String) : ItemKind → ItemKind
  | .statement (.declaration d) => .statement (.declaration (d.recast name))
  | .exportDeclaration d => .exportDeclaration (d.recast name)
  | .exportDefault d => .exportDefault (d.recast name)
  | other => other

def Syntax.Item.recast (name : String) (item : Item) : Item :=
  { item with kind := item.kind.recast name }

namespace Scope

variable (name : String)

def recast (scope : Scope) : Scope :=
  { scope with locals := scope.locals.adjust name (List.map Declared.recast) }

theorem bindings_recast (d : Declaration) : bindings (d.recast name) =
    (bindings d).map fun entry =>
      (entry.1, if entry.1 = name then entry.2.recast else entry.2) := by
  cases d with
  | interface i =>
    by_cases hname : i.name = name
    · simp only [Declaration.recast, if_pos hname, bindings, map_cons, map_nil,
        Declared.recast, Interface.asAlias]
    · simp only [Declaration.recast, if_neg hname, bindings, map_cons, map_nil]
  | vars kind ds =>
    rw [Declaration.recast, bindings, map_filterMap]
    · congr 1
      funext d
      obtain ⟨target, init⟩ := d
      cases target <;> simp [Declared.recast]
    · exact fun i h => nomatch h
  | _ => simp [Declaration.recast, bindings, Declared.recast]

theorem addLocal_recast (scope : Scope) (entry : String × Declared) :
    (scope.recast name).addLocal
        (entry.1, if entry.1 = name then entry.2.recast else entry.2) =
      (scope.addLocal entry).recast name := by
  obtain ⟨key, x⟩ := entry
  simp only [addLocal, recast]
  rw [← put_adjust, get?_adjust]
  by_cases hkey : key = name
  · cases scope.locals.get? key <;> simp [hkey]
  · cases scope.locals.get? key <;> simp [hkey]

theorem addLocals_recast (scope : Scope) (d : Declaration) :
    (scope.recast name).addLocals (d.recast name) = (scope.addLocals d).recast name := by
  rw [addLocals, addLocals, bindings_recast, foldl_map]
  generalize bindings d = entries
  induction entries generalizing scope with
  | nil => rfl
  | cons entry entries ih => rw [foldl_cons, foldl_cons, addLocal_recast, ih]

theorem map_fst_bindings_recast (d : Declaration) :
    (bindings (d.recast name)).map Prod.fst = (bindings d).map Prod.fst := by
  rw [bindings_recast, map_map]
  rfl

theorem foldl_recast {α : Type} {f : Scope → α → Scope}
    (h : ∀ scope x, f (recast name scope) x = recast name (f scope x)) (xs : List α)
    (scope : Scope) : xs.foldl f (scope.recast name) = (xs.foldl f scope).recast name := by
  induction xs generalizing scope with
  | nil => rfl
  | cons x xs ih => rw [foldl_cons, foldl_cons, h, ih]

theorem addItem_recast (scope : Scope) (item : Item) :
    (scope.recast name).addItem (item.recast name) = (scope.addItem item).recast name := by
  obtain ⟨span, doc, kind⟩ := item
  have hmodule : { scope.recast name with isModule := true } =
      Scope.recast name { scope with isModule := true } := rfl
  cases kind with
  | statement stmt =>
    cases stmt with
    | declaration d => exact addLocals_recast name scope d
    | _ => rfl
  | imports source specifiers =>
    exact foldl_recast name (fun _ _ => rfl) specifiers { scope with isModule := true }
  | exportDeclaration d =>
    simp only [Item.recast, ItemKind.recast, addItem, exportLocals, hmodule, addLocals_recast,
      map_fst_bindings_recast]
    exact foldl_recast name (fun _ _ => rfl) _ _
  | exportDefault d =>
    simp only [Item.recast, ItemKind.recast, addItem, exportDefault, hmodule, addLocals_recast,
      map_fst_bindings_recast]
    exact foldl_recast name (fun _ _ => rfl) _ _
  | exportNames source specifiers =>
    refine foldl_recast name (fun scope specifier => ?_) specifiers { scope with isModule := true }
    simp only [addSpecifier]
    split <;> rfl
  | exportValue e => cases e <;> rfl
  | _ => rfl

theorem ofItems_recast (items : List Item) :
    ofItems (items.map (Item.recast name)) = (ofItems items).recast name := by
  have hfold (scope : Scope) : (items.map (Item.recast name)).foldl addItem (scope.recast name) =
      (items.foldl addItem scope).recast name := by
    induction items generalizing scope with
    | nil => rfl
    | cons item items ih => rw [map_cons, foldl_cons, foldl_cons, addItem_recast, ih]
  exact hfold {}

end Scope

def SourceFile.recast (name : String) (file : SourceFile) : SourceFile :=
  { file with
    items := file.items.map (Item.recast name)
    scope := file.scope.recast name }

def Project.recast (p : Project) (d : DeclRef) : Project :=
  { p with files := p.files.modify d.file (SourceFile.recast d.name) }

theorem map_modify_of_same {α β : Type} {f : α → α} {g : α → β} (h : ∀ a, g (f a) = g a)
    (xs : List α) (n : Nat) : (xs.modify n f).map g = xs.map g := by
  apply ext_getElem?
  intro k
  rw [getElem?_map, getElem?_map, getElem?_modify]
  cases xs[k]? with
  | none => rfl
  | some x =>
    by_cases hk : n = k
    · simp [hk, h]
    · simp [hk]

namespace Project

variable (p : Project) (d : DeclRef)

@[simp] theorem options_recast : (p.recast d).options = p.options :=
  rfl

theorem file?_recast (id : Nat) : (p.recast d).file? id =
    (p.file? id).map fun f => if d.file = id then f.recast d.name else f := by
  rw [file?, file?, recast, getElem?_modify]
  cases p.files[id]? with
  | none => rfl
  | some f => by_cases hid : d.file = id <;> simp [hid]

theorem scope_recast (h : ∀ f ∈ p.files, f.scope = Scope.ofItems f.items) :
    ∀ f ∈ (p.recast d).files, f.scope = Scope.ofItems f.items := by
  intro f hf
  obtain ⟨id, hid⟩ := mem_iff_getElem?.mp hf
  obtain ⟨g, hg, rfl⟩ := Option.map_eq_some_iff.mp ((p.file?_recast d id).symm.trans hid)
  have hscope := h g (mem_of_getElem? hg)
  split
  · exact (congrArg (Scope.recast d.name) hscope).trans (Scope.ofItems_recast d.name _).symm
  · exact hscope

theorem scopeOf_recast (id : Nat) : (p.recast d).scopeOf id =
    if d.file = id then (p.scopeOf id).recast d.name else p.scopeOf id := by
  rw [scopeOf, scopeOf, file?_recast]
  cases p.file? id with
  | none => split <;> rfl
  | some f => by_cases hid : d.file = id <;> simp [hid, SourceFile.recast]

theorem idAt?_recast (place : Path) : (p.recast d).idAt? place = p.idAt? place := by
  have hpaths : (p.recast d).files.map SourceFile.path = p.files.map SourceFile.path :=
    map_modify_of_same (f := SourceFile.recast d.name) (fun _ => rfl) _ _
  have hidAt (q : Project) :
      q.idAt? place = (q.files.map SourceFile.path).findIdx? (· == place) := by
    rw [findIdx?_map]
    rfl
  rw [hidAt, hidAt, hpaths]

theorem global?_recast (name : String) : (p.recast d).global? name = p.global? name := by
  let visible (f : SourceFile) : Bool := !f.scope.isModule && f.scope.locals.contains name
  have hsame (f : SourceFile) : visible (f.recast d.name) = visible f :=
    congrArg (!f.scope.isModule && ·) (contains_adjust ..)
  have hglobal (q : Project) : q.global? name =
      ((q.files.map visible).findIdx? id).map fun id => ⟨id, name⟩ := by
    rw [findIdx?_map]
    rfl
  rw [hglobal, hglobal, recast, map_modify_of_same hsame]

theorem declarations_recast (e : DeclRef) : (p.recast d).declarations e =
    if e = d then (p.declarations e).map Declared.recast else p.declarations e := by
  rw [declarations, declarations, scopeOf_recast]
  by_cases hfile : d.file = e.file
  · rw [if_pos hfile, Scope.recast, get?_adjust]
    have hiff : e.name = d.name ↔ e = d := by
      obtain ⟨file, name⟩ := d
      obtain ⟨file', name'⟩ := e
      simp_all
    by_cases he : e = d
    · cases (p.scopeOf e.file).locals.get? e.name <;> simp [he]
    · cases (p.scopeOf e.file).locals.get? e.name <;> simp [he, hiff]
  · have he : e ≠ d := fun he => hfile (congrArg DeclRef.file he).symm
    rw [if_neg hfile, if_neg he]

theorem any_declarations_recast {f : Declared → Bool} (h : ∀ x, f (Declared.recast x) = f x)
    (e : DeclRef) : ((p.recast d).declarations e).any f = (p.declarations e).any f := by
  rw [declarations_recast]
  split
  · rw [any_map]
    exact congrArg _ (funext h)
  · rfl

def recastCorrespondence : Correspondence p (p.recast d) where
  number := id
  injective := fun _ _ h => h
  sameOptions := rfl
  path_eq := fun id => by
    rw [Function.id_def, file?_recast, Option.map_map]
    congr 1
    funext f
    by_cases hid : d.file = id <;> simp [hid, SourceFile.recast]
  idAt?_eq := fun place => by rw [idAt?_recast, Option.map_id_fun, id]
  global?_eq := fun name => by
    rw [global?_recast]
    exact Option.map_id'.symm
  agreed := fun _ => True
  closed := fun _ _ _ _ _ _ => trivial
  sameScope := fun x _ => by
    rw [Function.id_def, scopeOf_recast]
    split
    · cases x with
      | name => exact ⟨contains_adjust .., rfl⟩
      | exported => exact ⟨rfl, rfl⟩
    · cases x <;> exact ⟨rfl, rfl⟩

theorem renumber_id (r : Resolution) : r.renumber id = r := by
  cases r <;> rfl

theorem resolveName_recast (file : Nat) (name : String) :
    (p.recast d).resolveName file name = p.resolveName file name := by
  have hsame : (p.recast d).resolveName file name = (p.resolveName file name).map (.renumber id) :=
    (p.recastCorrespondence d).resolveName_eq trivial
  rw [hsame, funext renumber_id, Option.map_id']

theorem resolveExport_recast (file : Nat) (name : String) :
    (p.recast d).resolveExport file name = p.resolveExport file name := by
  have hsame : (p.recast d).resolveExport file name =
      (p.resolveExport file name).map (.renumber id) :=
    (p.recastCorrespondence d).resolveExport_eq trivial
  rw [hsame, funext renumber_id, Option.map_id']

end Project

end PropContract
