import PropContract.Proofs.Resolver.Session

namespace PropContract.Resolver.InPlace

open Syntax

structure Work where
  stack : Expanding := []
  counter : Nat := 0
  ledger : Ledger := {}

abbrev Working := StateM Work

abbrev Asking := OptionT Working

def deeper {α : Type} (cut : α) (body : Working α) : Working α := do
  if stepLimit ≤ (← get).counter then return cut
  modify fun w => { w with counter := w.counter + 1 }
  let a ← body
  modify fun w => { w with counter := w.counter - 1 }
  return a

def expand {α : Type} (d : DeclRef) (body : Working α) : Working α := do
  modify fun w => { w with stack := d :: w.stack }
  let a ← body
  modify fun w => { w with stack := w.stack.tail }
  return a

def isExpanding (d : DeclRef) : Working Bool := do
  return (← get).stack.contains d

def onLedger {α : Type} (m : StateM Ledger α) : Working α := do
  let w ← get
  let (a, ledger) := m.run w.ledger
  set { w with ledger }
  return a

section Members

variable (p : Project) (members : Ty → Asking (List Member))

def unionMembers (types : List Ty) : Asking (List Member) := do
  let leaves := (types.flatMap (flatten p)).filter fun t => !isNullish t
  match ← leaves.mapM members with
  | [] => failure
  | [branch] => return branch
  | branches => return joinBranches branches

def literalKeys : Nat → Ty → Asking (List String)
  | 0, _ => failure
  | n + 1, t => do
    let keys ← (flatten p t).mapM fun
      | .key text => return [text]
      | .written (.string s) _ => return [s]
      | .written (.number v) _ => return [v.plainText]
      | .written (.operator .keyof t) env => return (← members (.written t env)).map Member.name
      | .written (.reference path args) env =>
        match lookup p env path with
        | .decl d =>
          match enumValues? p d with
          | some values => OptionT.mk (pure (values.mapM fun (_, value) => keyOf? value))
          | none =>
            match aliasOf? p d with
            | some a =>
              literalKeys n
                (.written a.type ((Env.file d.file).bindParams a.params (env.all args)))
            | none => failure
        | _ => failure
      | _ => failure
    return keys.flatten.eraseDups

def keys (t : Ty) : Asking (List String) :=
  literalKeys p members keyBound t

def indexed? (object index : Ty) : Asking Ty :=
  match index with
  | .written (.keyword .number) _ => OptionT.mk (pure (object.element? p))
  | _ => do
    let keys ← keys p members index
    let members ← members object
    match keys.filterMap fun key => members.find? fun m => m.name == key with
    | [] => failure
    | [m] => return m.type
    | ms => return .union (ms.map Member.type)

def mappedMembers (env : Env) (param : String) (keyType : TypeExpr) (mark : OptionalMark)
    (value : Option TypeExpr) : Asking (List Member) :=
  match keyType with
  | .operator .keyof t => do
    let source ← members (.written t env)
    return source.map fun m => mappedMember env param mark value source m.name
  | _ => do
    let keys ← keys p members (.written keyType env)
    return keys.map (mappedMember env param mark value [])

def selectedMembers (first : Ty) (second : Option Ty) (test : List String → Member → Bool) :
    Asking (List Member) := do
  let some second := second | failure
  let keys ← keys p members second
  return (← members first).filter (test keys)

def utilityMembers (name : String) (args : List Ty) : Asking (List Member) := do
  let some first := args.head? | failure
  match name with
  | "Partial" => return (← members first).map fun m => { m with isOptional := true }
  | "Required" => return (← members first).map fun m => { m with isOptional := false }
  | "Readonly" | "NonNullable" => members first
  | "Pick" => selectedMembers p members first args[1]? fun keys m => keys.contains m.name
  | "Omit" => selectedMembers p members first args[1]? fun keys m => !keys.contains m.name
  | "Record" =>
    let keys ← keys p members first
    return keys.map fun key =>
      { name := key, isOptional := false, type := (args[1]?).getD .any, doc := none,
        typeText := none }
  | _ => failure

def addInterface (base : Env → List String → List Ty → Asking (List Member)) (file : Nat)
    (args : List Ty) (table : Table Member) (i : Interface) : Working (Table Member) := do
  let env := (Env.file file).bindParams i.params args
  let table ← i.bases.foldlM (fun table b => do
    match b.path with
    | some path =>
      match ← (base env path (env.all b.args)).run with
      | some members => return merge table members
      | none => return table
    | none => return table) table
  return merge table (i.members.filterMap (member? p env))

def declMembers (base : Env → List String → List Ty → Asking (List Member)) (d : DeclRef)
    (args : List Ty) : Asking (List Member) :=
  match (p.declarations d).filterMap interface? with
  | [] => do
    let some a := aliasOf? p d | failure
    members (.written a.type ((Env.file d.file).bindParams a.params args))
  | interfaces => do
    let table ← OptionT.lift (interfaces.foldlM (addInterface p base d.file args) [])
    return table.values

def pathMembers : Nat → Env → List String → List Ty → Asking (List Member)
  | n, env, path, args =>
    match lookup p env path with
    | .param t => members t
    | .decl d => do
      if ← isExpanding d then failure
      else
        match n with
        | 0 => failure
        | n + 1 => OptionT.mk (expand d (declMembers p members (pathMembers n) d args).run)
    | .unknown name => if path.length = 1 then utilityMembers p members name args else failure
    | .outside .. | .enumMember .. => failure

def intersectionMembers (parts : List Ty) : Asking (List Member) := do
  let answers ← OptionT.lift (parts.mapM fun t => (members t).run)
  let found := answers.filterMap id
  if found.isEmpty then failure else return (found.foldl merge []).values

def membersStep : Ty → Asking (List Member)
  | .union types => unionMembers p members types
  | .key _ | .function | .any => failure
  | .written t env =>
    match t with
    | .object ms => return literalMembers p env ms
    | .paren t | .operator .readonly t => members (.written t env)
    | .intersection ts => intersectionMembers members (env.all ts)
    | .union ts => unionMembers p members (env.all ts)
    | .reference path args =>
      pathMembers p members (declaredCount p + 1) env path (env.all args)
    | .mapped param keys none mark value => mappedMembers p members env param keys mark value
    | .indexed object index => do
      members (← indexed? p members (.written object env) (.written index env))
    | _ => failure

end Members

def members (p : Project) : Nat → Ty → Asking (List Member)
  | 0, _ => failure
  | n + 1, t => OptionT.mk (deeper none (membersStep p (members p n) t).run)

section Shapes

variable (s : Setting) (shape : Ty → Nat → Working Shape) (members : Ty → Asking (List Member))

def propsOf (depth : Nat) (ms : List Member) : Working (List PropInfo) :=
  ms.mapM fun m => do
    let isNullable := s.project.options.nullChecks && admitsNullish s.project m.type
    let found ← shape m.type depth
    return .mk m.name (!m.isOptional && !isNullable) found none m.doc m.typeText

def objectShape (depth : Nat) (ms : List Member) : Working Shape := do
  if ms.isEmpty || s.maxDepth ≤ depth then return .primitive .object
  return .object (← propsOf s shape (depth + 1) ms)

def unionShape (depth : Nat) (types : List Ty) : Working Shape := do
  let leaves := (types.flatMap (flatten s.project)).filter fun t => !isNullish t
  let shapes ← leaves.mapM fun t => shape t depth
  return .classify (shapes.flatMap Shape.branches)

def keyofShape (t : Ty) : Working Shape := do
  match ← (members t).run with
  | some ms => return .classify (ms.map fun m => .literal (.string m.name))
  | none => return .primitive .string

def addPart (depth : Nat) (parts : Parts) (t : Ty) : Working Parts := do
  match ← (members t).run with
  | some ms => return { parts with table := merge parts.table ms }
  | none =>
    let found ← shape t depth
    if isOpenObject found then return parts
    else return { parts with other := parts.other <|> some found }

def intersectionShape (depth : Nat) (types : List Ty) : Working Shape := do
  let parts ← types.foldlM (addPart shape members depth) {}
  match parts.other with
  | some found => return found
  | none => objectShape s shape depth parts.table.values

def answeredShape (depth : Nat) (answer : Asking (List Member)) : Working Shape := do
  match ← answer.run with
  | some ms => objectShape s shape depth ms
  | none => return .primitive .object

def globalShape (depth : Nat) (name : String) (args : List Ty) : Working Shape := do
  match name with
  | "Array" | "ReadonlyArray" =>
    match args.head? with
    | some t => return .arrayOf (← shape t depth)
    | none => return .primitive .array
  | "Partial" | "Required" | "Readonly" | "Pick" | "Omit" | "Record" =>
    answeredShape s shape depth (utilityMembers s.project members name args)
  | "NonNullable" =>
    match args.head? with
    | some t => unionShape s shape depth [t]
    | none => return .any
  | _ => return (Library.globalShape? name).getD .any

def expandedShape (depth : Nat) (d : DeclRef) (args : List Ty) : Working Shape := do
  let p := s.project
  match aliasOf? p d, (p.declarations d).any isInterface with
  | some a, false => shape (.written a.type ((Env.file d.file).bindParams a.params args)) depth
  | _, _ =>
    let base := pathMembers p members (declaredCount p + 1)
    answeredShape s shape depth (declMembers p members base d args)

def declShape (depth : Nat) (d : DeclRef) (args : List Ty) : Working Shape := do
  let p := s.project
  let decls := p.declarations d
  if decls.any isInterface || (aliasOf? p d).isSome then
    if ← isExpanding d then onLedger (Ledger.refer d)
    else
      let found ← expand d (expandedShape s shape members depth d args)
      onLedger (Ledger.define d found)
      return found
  else
    match enumValues? p d with
    | some values => return .classify (values.map fun (_, value) => .literal value)
    | none => return if decls.any isClass then .instance d.name else .any

def referenceShape (depth : Nat) (env : Env) (path : List String) (args : List Ty) :
    Working Shape := do
  match lookup s.project env path with
  | .param t => shape t depth
  | .decl d => declShape s shape members depth d args
  | .enumMember d member => return enumMemberShape s.project d member
  | .outside module name =>
    return if Library.isReact module then (Library.reactShape? name).getD .any else .any
  | .unknown name => globalShape s shape members depth name args

def writtenShape (depth : Nat) (env : Env) : TypeExpr → Working Shape
  | .keyword k => return keywordShape k
  | .string v => return .literal (.string v)
  | .number v => return .literal (.number v)
  | .boolean v => return .literal (.boolean v)
  | .bigint => return .primitive .bigInt
  | .template texts types =>
    return if types.isEmpty then .literal (.string (String.join texts)) else .primitive .string
  | .callable .. => return .function
  | .reference path args => referenceShape s shape members depth env path (env.all args)
  | .object ms =>
    if !ms.isEmpty && ms.all TypeMember.isCall then return .function
    else objectShape s shape depth (literalMembers s.project env ms)
  | .array t => return .arrayOf (← shape (.written t env) depth)
  | .tuple _ ts =>
    if ts.isEmpty then return .primitive .array
    else return .arrayOf (← unionShape s shape depth (env.all ts))
  | .optional t | .paren t | .operator .readonly t => shape (.written t env) depth
  | .rest t => return restShape (← shape (.written t env) depth)
  | .union ts => unionShape s shape depth (env.all ts)
  | .intersection ts => intersectionShape s shape members depth (env.all ts)
  | .operator .keyof t => keyofShape members (.written t env)
  | .operator .unique _ => return .primitive .symbol
  | .indexed object index => do
    match ← (indexed? s.project members (.written object env) (.written index env)).run with
    | some t => shape t depth
    | none => return .any
  | .mapped param keys rename mark value =>
    match rename with
    | none =>
      answeredShape s shape depth (mappedMembers s.project members env param keys mark value)
    | some _ => return .primitive .object
  | .predicate .. => return .primitive .boolean
  | .this | .query .. | .conditional .. | .infer .. => return .any

def shapeStep (t : Ty) (depth : Nat) : Working Shape :=
  match t with
  | .written t env => writtenShape s shape members depth env t
  | .key text => return .literal (.string text)
  | .function => return .function
  | .any => return .any
  | .union types => unionShape s shape depth types

end Shapes

def shape (s : Setting) : Nat → Ty → Nat → Working Shape
  | 0, _, _ => return .any
  | n + 1, t, depth =>
    deeper .any (shapeStep s (shape s n) (members s.project n) t depth)

def enough : Nat := stepLimit + 1

section Questions

variable (s : Setting)

def askedProps (answer : Asking (List Member)) : Working (List PropInfo) := do
  let found ← answer.run
  propsOf s (shape s enough) 1 (found.getD [])

def declaredProps (d : DeclRef) : ExceptT ResolveError Working (List PropInfo) := do
  let p := s.project
  let decls := p.declarations d
  if decls.isEmpty then throw (.unknownSymbol d.name (pathAt s d.file))
  if !decls.any Declared.isType then throw (.notAType d.name (pathAt s d.file))
  let members := members p enough
  let base := pathMembers p members (declaredCount p + 1)
  let props : List PropInfo ← ExceptT.lift (expand d (askedProps s (declMembers p members base d [])))
  ExceptT.lift (onLedger (Ledger.define d (.object props)))
  return props

def inlineProps (file : Nat) (type : TypeExpr) :
    ExceptT ResolveError Working (List PropInfo) := do
  match declaredType? s file type with
  | some d => declaredProps s d
  | none =>
    ExceptT.lift (askedProps s (members s.project enough (.written type (.file file))))

def resolveProps (symbol : Symbol) : ExceptT ResolveError Working (List PropInfo) := do
  match symbol with
  | .declared d => declaredProps s d
  | .named file name =>
    match s.project.resolveName file name with
    | some (.declared d) => declaredProps s d
    | some (.outside ..) => return []
    | some (.namespace _) | some (.outsideNamespace _) => throw (.notAType name (pathAt s file))
    | none => throw (.unknownSymbol name (pathAt s file))
  | .inline file type => inlineProps s file type

def call : Call → Working Answer
  | .resolve symbol => do return .props (← (resolveProps s symbol).run)
  | .take => do return .definitions (← onLedger takeDefinitions)

def session (calls : List Call) : Working (List Answer) :=
  calls.mapM (call s)

end Questions

end PropContract.Resolver.InPlace
