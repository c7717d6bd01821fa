import PropContract.Resolver.Members
import PropContract.Shape.Classify
import PropContract.Shape.Library

/-!
The shapes of types. A named type that is met again while it is being expanded becomes a
reference; a ledger keeps the names of references and the shapes behind them.
-/

namespace PropContract.Resolver

open Syntax

structure Ledger where
  referenced : List DeclRef := []
  names : List (DeclRef × String) := []
  definitions : Table Shape := []
  deriving Inhabited

namespace Ledger

def nameOf? (l : Ledger) (d : DeclRef) : Option String :=
  (l.names.find? fun entry => entry.1 == d).map Prod.snd

def freshName (taken : List String) (base : String) : Nat → Nat → String
  | 0, suffix => s!"{base}#{suffix}"
  | fuel + 1, suffix =>
    let name := if suffix = 1 then base else s!"{base}#{suffix}"
    if taken.contains name then freshName taken base fuel (suffix + 1) else name

def referenceName (d : DeclRef) : StateM Ledger String := do
  let l ← get
  match l.nameOf? d with
  | some name => return name
  | none =>
    let name := freshName (l.names.map Prod.snd) d.name (l.names.length + 1) 1
    set { l with names := l.names ++ [(d, name)] }
    return name

def refer (d : DeclRef) : StateM Ledger Shape := do
  modify fun l =>
    { l with referenced := if l.referenced.contains d then l.referenced else d :: l.referenced }
  return .reference (← referenceName d)

def define (d : DeclRef) (shape : Shape) : StateM Ledger Unit := do
  if (← get).referenced.contains d then
    let name ← referenceName d
    modify fun l => { l with definitions := l.definitions.putNew name shape }

end Ledger

structure Setting where
  project : Project
  maxDepth : Nat := 6
  deriving Inhabited

abbrev ShapeOf := Expanding → Ty → Nat → StateM Ledger Shape

section Step

variable (s : Setting) (shape : ShapeOf) (members : MembersOf)

def keywordShape : Keyword → Shape
  | .string => .primitive .string
  | .number => .primitive .number
  | .boolean => .primitive .boolean
  | .bigint => .primitive .bigInt
  | .symbol => .primitive .symbol
  | .object => .primitive .object
  | .null => .literal .null
  | .any | .unknown | .never | .void | .undefined => .any

def propsOf (expanding : Expanding) (depth : Nat) (ms : List Member) :
    StateM Ledger (List PropInfo) :=
  ms.mapM fun m => do
    let isNullable := s.project.options.nullChecks && admitsNullish s.project m.type
    let found ← shape expanding m.type depth
    return .mk m.name (!m.isOptional && !isNullable) found none m.doc m.typeText

def objectShape (expanding : Expanding) (depth : Nat) (ms : List Member) : StateM Ledger Shape := do
  if ms.isEmpty || s.maxDepth ≤ depth then return .primitive .object
  return .object (← propsOf s shape expanding (depth + 1) ms)

def unionShape (expanding : Expanding) (depth : Nat) (types : List Ty) : StateM Ledger Shape := do
  let leaves := (types.flatMap (flatten s.project)).filter fun t => !isNullish t
  let shapes ← leaves.mapM fun t => shape expanding t depth
  return .classify (shapes.flatMap Shape.branches)

def keyofShape (expanding : Expanding) (t : Ty) : Shape :=
  match members expanding t with
  | some ms => .classify (ms.map fun m => .literal (.string m.name))
  | none => .primitive .string

def isOpenObject : Shape → Bool
  | .primitive .object | .primitive .any | .object _ => true
  | _ => false

structure Parts where
  table : Table Member := []
  other : Option Shape := none

def addPart (expanding : Expanding) (depth : Nat) (parts : Parts) (t : Ty) :
    StateM Ledger Parts := do
  match members expanding t with
  | some ms => return { parts with table := merge parts.table ms }
  | none =>
    let found ← shape expanding t depth
    if isOpenObject found then return parts
    else return { parts with other := parts.other <|> some found }

def intersectionShape (expanding : Expanding) (depth : Nat) (types : List Ty) :
    StateM Ledger Shape := do
  let parts ← types.foldlM (addPart shape members expanding depth) {}
  match parts.other with
  | some found => return found
  | none => objectShape s shape expanding depth parts.table.values

def globalShape (expanding : Expanding) (depth : Nat) (name : String) (args : List Ty) :
    StateM Ledger Shape := do
  match name with
  | "Array" | "ReadonlyArray" =>
    match args.head? with
    | some t => return .arrayOf (← shape expanding t depth)
    | none => return .primitive .array
  | "Partial" | "Required" | "Readonly" | "Pick" | "Omit" | "Record" =>
    match utilityMembers s.project (members expanding) name args with
    | some ms => objectShape s shape expanding depth ms
    | none => return .primitive .object
  | "NonNullable" =>
    match args.head? with
    | some t => unionShape s shape expanding depth [t]
    | none => return .any
  | _ => return (Library.globalShape? name).getD .any

def expandedShape (expanding : Expanding) (depth : Nat) (d : DeclRef) (args : List Ty) :
    StateM Ledger Shape := do
  let p := s.project
  match aliasOf? p d, (p.declarations d).any isInterface with
  | some a, false =>
    shape expanding (.written a.type ((Env.file d.file).bindParams a.params args)) depth
  | _, _ =>
    let base := pathMembers p members (declaredCount p + 1) expanding
    match declMembers p (members expanding) base d args with
    | some ms => objectShape s shape expanding depth ms
    | none => return .primitive .object

def declShape (expanding : Expanding) (depth : Nat) (d : DeclRef) (args : List Ty) :
    StateM Ledger Shape := do
  let p := s.project
  let decls := p.declarations d
  if decls.any isInterface || (aliasOf? p d).isSome then
    if expanding.contains d then Ledger.refer d
    else
      let found ← expandedShape s shape members (d :: expanding) depth d args
      Ledger.define d found
      return found
  else
    match enumValues? p d with
    | some values => return .classify (values.map fun (_, value) => .literal value)
    | none => return if decls.any isClass then .instance d.name else .any

def enumMemberShape (p : Project) (d : DeclRef) (member : String) : Shape :=
  match ((enumValues? p d).getD []).find? fun entry => entry.1 == member with
  | some (_, value) => .literal value
  | none => .any

def referenceShape (expanding : Expanding) (depth : Nat) (env : Env) (path : List String)
    (args : List Ty) : StateM Ledger Shape := do
  match lookup s.project env path with
  | .param t => shape expanding t depth
  | .decl d => declShape s shape members expanding depth d args
  | .enumMember d member => return enumMemberShape s.project d member
  | .outside module name =>
    return if Library.isReact module then (Library.reactShape? name).getD .any else .any
  | .unknown name => globalShape s shape members expanding depth name args

def restShape : Shape → Shape
  | .arrayOf element => element
  | found => found

def writtenShape (expanding : Expanding) (depth : Nat) (env : Env) : TypeExpr → StateM Ledger Shape
  | .keyword k => return keywordShape k
  | .string v => return .literal (.string v)
  | .number v => return .literal (.number v)
  | .boolean v => return .literal (.boolean v)
  | .bigint => return .primitive .bigInt
  | .template texts types =>
    return if types.isEmpty then .literal (.string (String.join texts)) else .primitive .string
  | .callable .. => return .function
  | .reference path args =>
    referenceShape s shape members expanding depth env path (env.all args)
  | .object ms =>
    if !ms.isEmpty && ms.all TypeMember.isCall then return .function
    else objectShape s shape expanding depth (literalMembers s.project env ms)
  | .array t => return .arrayOf (← shape expanding (.written t env) depth)
  | .tuple _ ts =>
    if ts.isEmpty then return .primitive .array
    else return .arrayOf (← unionShape s shape expanding depth (env.all ts))
  | .optional t | .paren t | .operator .readonly t => shape expanding (.written t env) depth
  | .rest t => return restShape (← shape expanding (.written t env) depth)
  | .union ts => unionShape s shape expanding depth (env.all ts)
  | .intersection ts => intersectionShape s shape members expanding depth (env.all ts)
  | .operator .keyof t => return keyofShape members expanding (.written t env)
  | .operator .unique _ => return .primitive .symbol
  | .indexed object index =>
    match indexed? s.project (members expanding) (.written object env) (.written index env) with
    | some t => shape expanding t depth
    | none => return .any
  | .mapped param keys rename mark value =>
    match rename, mappedMembers s.project (members expanding) env param keys mark value with
    | none, some ms => objectShape s shape expanding depth ms
    | _, _ => return .primitive .object
  | .predicate .. => return .primitive .boolean
  | .this | .query .. | .conditional .. | .infer .. => return .any

def shapeStep (expanding : Expanding) (t : Ty) (depth : Nat) : StateM Ledger Shape :=
  match t with
  | .written t env => writtenShape s shape members expanding depth env t
  | .key text => return .literal (.string text)
  | .function => return .function
  | .any => return .any
  | .union types => unionShape s shape expanding depth types

end Step

def shapeWithin (s : Setting) : Nat → ShapeOf
  | 0, _, _, _ => return .any
  | n + 1, expanding, t, depth =>
    shapeStep s (shapeWithin s n) (membersWithin s.project n) expanding t depth

end PropContract.Resolver
