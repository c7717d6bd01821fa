import PropContract.Proofs.Project.Correspondence

namespace PropContract

structure Renumbering (p q : Project) where
  number : Nat → Nat
  injective : Function.Injective number
  sameOptions : q.options = p.options
  sameFiles : q.files.Perm p.files
  file?_number : ∀ id, q.file? (number id) = p.file? id
  idAt?_eq : ∀ place, q.idAt? place = (p.idAt? place).map number
  global?_eq : ∀ name, q.global? name = (p.global? name).map fun d => ⟨number d.file, d.name⟩

namespace Renumbering

variable {p q : Project} (ρ : Renumbering p q)

def decl (d : DeclRef) : DeclRef :=
  ⟨ρ.number d.file, d.name⟩

def resolution : Resolution → Resolution
  | .declared d => .declared (ρ.decl d)
  | .namespace file => .namespace (ρ.number file)
  | .outside module name => .outside module name
  | .outsideNamespace module => .outsideNamespace module

theorem resolution_eq_renumber : ρ.resolution = Resolution.renumber ρ.number := by
  funext r
  cases r <;> rfl

@[simp] theorem scopeOf_number (id : Nat) : q.scopeOf (ρ.number id) = p.scopeOf id := by
  rw [Project.scopeOf, ρ.file?_number, Project.scopeOf]

@[simp] theorem declarations_decl (d : DeclRef) : q.declarations (ρ.decl d) = p.declarations d := by
  rw [Project.declarations, Project.declarations, decl, scopeOf_number]

def correspondence : Correspondence p q where
  number := ρ.number
  injective := ρ.injective
  sameOptions := ρ.sameOptions
  path_eq := fun id => by rw [ρ.file?_number]
  idAt?_eq := ρ.idAt?_eq
  global?_eq := ρ.global?_eq
  agreed := fun _ => True
  closed := fun _ _ _ _ _ _ => trivial
  sameScope := fun x _ => by
    rw [scopeOf_number]
    cases x <;> exact ⟨rfl, rfl⟩

theorem moduleOf?_number (id : Nat) (specifier : String) :
    q.moduleOf? (ρ.number id) specifier = (p.moduleOf? id specifier).map ρ.number :=
  ρ.correspondence.moduleOf?_eq id specifier

theorem resolveName_number (file : Nat) (name : String) :
    q.resolveName (ρ.number file) name = (p.resolveName file name).map ρ.resolution := by
  rw [resolution_eq_renumber]
  exact ρ.correspondence.resolveName_eq trivial

theorem resolveExport_number (file : Nat) (name : String) :
    q.resolveExport (ρ.number file) name = (p.resolveExport file name).map ρ.resolution := by
  rw [resolution_eq_renumber]
  exact ρ.correspondence.resolveExport_eq trivial

theorem typeNamed?_number (file : Nat) (name : String) :
    q.typeNamed? (ρ.number file) name = (p.typeNamed? file name).map ρ.decl := by
  rw [Project.typeNamed?, Project.typeNamed?, resolveName_number]
  cases p.resolveName file name with
  | none => rfl
  | some r =>
    cases r with
    | declared d =>
      simp only [Option.map_some, resolution, declarations_decl]
      split <;> rfl
    | «namespace» => rfl
    | outside => rfl
    | outsideNamespace => rfl

end Renumbering

end PropContract
