import PropContract.Syntax.Tree
import PropContract.Table

namespace PropContract

open Syntax

inductive Declared where
  | interface (i : Interface)
  | typeAlias (a : TypeAlias)
  | enum (members : List EnumMember)
  | class (c : ClassBody)
  | function (f : Function)
  | variable (kind : VariableKind) (d : Declarator)

def Declared.isType : Declared → Bool
  | .interface _ | .typeAlias _ | .enum _ | .class _ => true
  | .function _ | .variable .. => false

structure ImportBinding where
  module : String
  imported : ImportedName
  deriving DecidableEq, Repr, Inhabited

inductive ExportTarget where
  | «local» (name : String)
  | named (module name : String)
  | namespace (module : String)
  deriving DecidableEq, Repr, Inhabited

def ExportTarget.module? : ExportTarget → Option String
  | .local _ => none
  | .named module _ | .namespace module => some module

structure Scope where
  locals : Table (List Declared) := []
  imports : Table ImportBinding := []
  exports : Table ExportTarget := []
  starExports : List String := []
  isModule : Bool := false
  deriving Inhabited

namespace Scope

def bindings : Declaration → List (String × Declared)
  | .interface i => [(i.name, .interface i)]
  | .typeAlias a => [(a.name, .typeAlias a)]
  | .enum name members => [(name, .enum members)]
  | .class name c => [(name, .class c)]
  | .function name _ f => [(name, .function f)]
  | .vars kind ds => ds.filterMap fun d =>
    match d with
    | .mk (.name n _) _ => some (n, .variable kind d)
    | .mk _ _ => none
  | .namespace _ _ => []

def addLocal (scope : Scope) (entry : String × Declared) : Scope :=
  let old := (scope.locals.get? entry.1).getD []
  { scope with locals := scope.locals.put entry.1 (old ++ [entry.2]) }

def addLocals (scope : Scope) (d : Declaration) : Scope :=
  (bindings d).foldl addLocal scope

def addExport (scope : Scope) (name : String) (target : ExportTarget) : Scope :=
  { scope with exports := scope.exports.put name target }

def exportLocals (scope : Scope) (d : Declaration) : Scope :=
  ((bindings d).map Prod.fst).foldl (fun s n => s.addExport n (.local n)) (scope.addLocals d)

def exportDefault (scope : Scope) (d : Declaration) : Scope :=
  ((bindings d).map Prod.fst).foldl (fun s n => s.addExport "default" (.local n))
    (scope.addLocals d)

def addImport (source : String) (scope : Scope) (s : ImportSpecifier) : Scope :=
  { scope with imports := scope.imports.put s.localName ⟨source, s.imported⟩ }

def addSpecifier (source : Option String) (scope : Scope) (s : ExportSpecifier) : Scope :=
  match source, s.source with
  | none, .named name => scope.addExport s.exported (.local name)
  | some module, .named name => scope.addExport s.exported (.named module name)
  | some module, .namespace => scope.addExport s.exported (.namespace module)
  | none, .namespace => scope

def addItem (scope : Scope) (item : Item) : Scope :=
  match item.kind with
  | .statement (.declaration d) => scope.addLocals d
  | .statement _ => scope
  | kind =>
    let scope := { scope with isModule := true }
    match kind with
    | .imports source specifiers => specifiers.foldl (addImport source) scope
    | .exportDeclaration d => scope.exportLocals d
    | .exportNames source specifiers => specifiers.foldl (addSpecifier source) scope
    | .exportAll source => { scope with starExports := scope.starExports ++ [source] }
    | .exportDefault d => scope.exportDefault d
    | .exportValue (.name n) => scope.addExport "default" (.local n)
    | .exportValue _ | .moduleSyntax _ | .statement _ => scope

def ofItems (items : List Item) : Scope :=
  items.foldl addItem {}

def requests (scope : Scope) : List String :=
  let all := scope.imports.values.map ImportBinding.module ++
    scope.exports.values.filterMap ExportTarget.module? ++ scope.starExports
  all.eraseDups.mergeSort fun a b => decide (a ≤ b)

end Scope

end PropContract
