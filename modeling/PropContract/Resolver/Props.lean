import PropContract.Resolver.Shapes

namespace PropContract.Resolver

open Syntax

inductive Symbol where
  | declared (d : DeclRef)
  | named (file : Nat) (name : String)
  | inline (file : Nat) (type : TypeExpr)

inductive ResolveError where
  | unknownSymbol (name : String) (file : Path)
  | notAType (name : String) (file : Path)
  deriving DecidableEq, Repr

def ResolveError.message : ResolveError → String
  | unknownSymbol name file => s!"cannot find type `{name}` in {file.text}"
  | notAType name file => s!"`{name}` in {file.text} is not a type"

def stepLimit : Nat := 96

variable (s : Setting)

def pathAt (file : Nat) : Path :=
  ((s.project.file? file).map SourceFile.path).getD ⟨""⟩

def limitedProps (expanding : Expanding) (ms : List Member) : StateM Ledger (List PropInfo) :=
  propsOf s (shapeWithin s stepLimit) expanding 1 ms

def declaredProps (d : DeclRef) : ExceptT ResolveError (StateM Ledger) (List PropInfo) := do
  let p := s.project
  let decls := p.declarations d
  if decls.isEmpty then throw (.unknownSymbol d.name (pathAt s d.file))
  if !decls.any Declared.isType then throw (.notAType d.name (pathAt s d.file))
  let members := membersWithin p stepLimit
  let base := pathMembers p members (declaredCount p + 1) [d]
  let props ← limitedProps s [d] ((declMembers p (members [d]) base d []).getD [])
  Ledger.define d (.object props)
  return props

def plainName? : TypeExpr → Option String
  | .reference [name] [] => some name
  | _ => none

def declaredType? (file : Nat) (type : TypeExpr) : Option DeclRef := do
  s.project.typeNamed? file (← plainName? type)

def inlineProps (file : Nat) (type : TypeExpr) :
    ExceptT ResolveError (StateM Ledger) (List PropInfo) := do
  match declaredType? s file type with
  | some d => declaredProps s d
  | none =>
    limitedProps s [] ((membersWithin s.project stepLimit [] (.written type (.file file))).getD [])

def resolveProps (symbol : Symbol) : ExceptT ResolveError (StateM Ledger) (List PropInfo) := do
  match symbol with
  | .declared d => declaredProps s d
  | .named file name =>
    match s.project.resolveName file name with
    | some (.declared d) => declaredProps s d
    | some (.outside ..) => return []
    | some (.namespace _) | some (.outsideNamespace _) => throw (.notAType name (pathAt s file))
    | none => throw (.unknownSymbol name (pathAt s file))
  | .inline file type => inlineProps s file type

def takeDefinitions : StateM Ledger (Table Shape) := do
  let l ← get
  set { l with definitions := [] }
  return l.definitions

end PropContract.Resolver
