import PropContract.Project.Basic

/-!
What a name means, seen from a file. The search remembers where it has been, so that circles end.
-/

namespace PropContract

open Syntax

inductive Resolution where
  | declared (d : DeclRef)
  | namespace (file : Nat)
  | outside (module name : String)
  | outsideNamespace (module : String)
  deriving DecidableEq, Repr

inductive Visit where
  | name (file : Nat) (name : String)
  | exported (file : Nat) (name : String)
  deriving DecidableEq, Repr

namespace Project

/-- The declarations that are visible everywhere: those of the first file that is no module and
has them. -/
def global? (p : Project) (name : String) : Option DeclRef :=
  (p.files.findIdx? fun f => !f.scope.isModule && f.scope.locals.contains name).map fun id =>
    ⟨id, name⟩

mutual

def findName (p : Project) : Nat → Nat → String → List Visit → Option Resolution × List Visit
  | 0, _, _, seen => (none, seen)
  | fuel + 1, file, name, seen =>
    if seen.contains (.name file name) then (none, seen)
    else
      let seen := Visit.name file name :: seen
      let scope := p.scopeOf file
      if scope.locals.contains name then (some (.declared ⟨file, name⟩), seen)
      else
        match scope.imports.get? name with
        | some ⟨module, imported⟩ =>
          match imported, p.moduleOf? file module with
          | .named name, some target => findExport p fuel target name seen
          | .named name, none => (some (.outside module name), seen)
          | .namespace, some target => (some (.namespace target), seen)
          | .namespace, none => (some (.outsideNamespace module), seen)
        | none => ((p.global? name).map .declared, seen)

def findExport (p : Project) : Nat → Nat → String → List Visit → Option Resolution × List Visit
  | 0, _, _, seen => (none, seen)
  | fuel + 1, file, name, seen =>
    let scope := p.scopeOf file
    match scope.exports.get? name with
    | some (.local name) => findName p fuel file name seen
    | some (.named module name) =>
      match p.moduleOf? file module with
      | some target =>
        if seen.contains (.exported target name) then (none, seen)
        else findExport p fuel target name (.exported target name :: seen)
      | none => (some (.outside module name), seen)
    | some (.namespace module) =>
      match p.moduleOf? file module with
      | some target => (some (.namespace target), seen)
      | none => (some (.outsideNamespace module), seen)
    | none =>
      if name = "default" then (none, seen)
      else
        scope.starExports.foldl (fun (found, seen) module =>
          match found, p.moduleOf? file module with
          | some r, _ => (some r, seen)
          | none, none => (none, seen)
          | none, some target =>
            if seen.contains (.exported target name) then (none, seen)
            else findExport p fuel target name (.exported target name :: seen)) (none, seen)

end

def nameCount (p : Project) : Nat :=
  (p.files.flatMap fun f => f.scope.imports.keys ++ f.scope.exports.keys).length

/-- More steps than a search can make: of every two, one comes to a new place. -/
def searchBound (p : Project) : Nat :=
  4 * (p.files.length + 1) * (p.nameCount + 2)

def resolveName (p : Project) (file : Nat) (name : String) : Option Resolution :=
  (p.findName p.searchBound file name []).1

def resolveExport (p : Project) (file : Nat) (name : String) : Option Resolution :=
  (p.findExport p.searchBound file name []).1

def typeNamed? (p : Project) (file : Nat) (name : String) : Option DeclRef :=
  match p.resolveName file name with
  | some (.declared d) => if (p.declarations d).any Declared.isType then some d else none
  | _ => none

end Project

end PropContract
