import PropContract.Resolver.Ty

/-!
The members of object types. A named type that is being expanded already has no members.
-/

namespace PropContract.Resolver

open Syntax

abbrev Expanding := List DeclRef

abbrev MembersOf := Expanding → Ty → Option (List Member)

def textOf (p : Project) (file : Nat) (span : Span) : String :=
  ((p.file? file).map fun f => f.textOf span).getD ""

def methodText? (p : Project) (file : Nat) (head : MemberHead) : Option String := do
  let signature := textOf p file head.span
  let key := textOf p file head.keySpan
  let (_, rest) ← Text.cut? key.utf8ByteSize signature.toList
  let rest := rest.dropWhile (· = '?')
  pure (String.ofList (Text.trim (Text.dropEndWhile (fun c => c = ';' || c = ',') rest)))

def annotated (p : Project) (env : Env) (head : MemberHead) (name : String) (isOptional : Bool)
    (span : Span) (type : Option TypeExpr) : Member where
  name
  isOptional
  type := (type.map fun t => Ty.written t env).getD .any
  doc := head.doc
  typeText := type.map fun _ => textOf p env.fileId span

def member? (p : Project) (env : Env) : TypeMember → Option Member
  | .property head span type => do
    pure (annotated p env head (← head.key.name?) head.isOptional span type)
  | .getter head span type => do
    pure (annotated p env head (← head.key.name?) false span type)
  | .method head _ _ => do
    pure {
      name := ← head.key.name?
      isOptional := head.isOptional
      type := .function
      doc := head.doc
      typeText := methodText? p env.fileId head }
  | .setter .. | .call .. | .construct .. | .index .. => none

/-- Adds members: the first occurrence of a name gives its place, the last one its meaning. -/
def merge (table : Table Member) (members : List Member) : Table Member :=
  members.foldl (fun t m => t.put m.name m) table

def literalMembers (p : Project) (env : Env) (members : List TypeMember) : List Member :=
  (merge [] (members.filterMap (member? p env))).values

structure Joined where
  first : Member
  count : Nat
  allRequired : Bool
  types : List Ty
  texts : List String

namespace Joined

def add (j : Joined) (m : Member) : Joined where
  first := { j.first with doc := j.first.doc <|> m.doc }
  count := j.count + 1
  allRequired := j.allRequired && !m.isOptional
  types := j.types ++ [m.type]
  texts := match m.typeText with
    | some text => if j.texts.contains text then j.texts else j.texts ++ [text]
    | none => j.texts

def start (m : Member) : Joined :=
  { first := m, count := 0, allRequired := true, types := [], texts := [] }

def result (total : Nat) (j : Joined) : Member :=
  { j.first with
    isOptional := !(j.count == total && j.allRequired)
    type := match j.types with
      | [t] => t
      | ts => .union ts
    typeText := if j.texts.isEmpty then none else some (" | ".intercalate j.texts) }

end Joined

def joinMember (table : Table Joined) (m : Member) : Table Joined :=
  table.put m.name (((table.get? m.name).getD (.start m)).add m)

def joinBranches (branches : List (List Member)) : List Member :=
  (branches.flatten.foldl joinMember []).values.map (Joined.result branches.length)

def unionMembers (p : Project) (members : Ty → Option (List Member)) (types : List Ty) :
    Option (List Member) := do
  let leaves := (types.flatMap (flatten p)).filter fun t => !isNullish t
  match ← leaves.mapM members with
  | [] => none
  | [branch] => some branch
  | branches => some (joinBranches branches)

def keyOf? : Literal → Option String
  | .string s => some s
  | .number n => some n.plainText
  | .boolean _ | .null => none

/-- The keys that a literal type stands for: `none` if they cannot be listed. At most `n` aliases
are opened inside one another. -/
def literalKeys (p : Project) (members : Ty → Option (List Member)) :
    Nat → Ty → Option (List String)
  | 0, _ => none
  | n + 1, t => do
    let keys ← (flatten p t).mapM fun
      | .key text => some [text]
      | .written (.string s) _ => some [s]
      | .written (.number v) _ => some [v.plainText]
      | .written (.operator .keyof t) env => (members (.written t env)).map (·.map Member.name)
      | .written (.reference path args) env =>
        match lookup p env path with
        | .decl d =>
          match enumValues? p d with
          | some values => values.mapM fun (_, value) => keyOf? value
          | none =>
            match aliasOf? p d with
            | some a =>
              literalKeys p members n
                (.written a.type ((Env.file d.file).bindParams a.params (env.all args)))
            | none => none
        | _ => none
      | _ => none
    pure keys.flatten.eraseDups

/-- More aliases inside one another than memory holds: a circle of aliases is not told from a
long way. -/
def keyBound : Nat := Nat.pow 2 62

def keys (p : Project) (members : Ty → Option (List Member)) (t : Ty) : Option (List String) :=
  literalKeys p members keyBound t

def indexed? (p : Project) (members : Ty → Option (List Member)) (object index : Ty) :
    Option Ty :=
  match index with
  | .written (.keyword .number) _ => object.element? p
  | _ => do
    let keys ← keys p members index
    let members ← members object
    match keys.filterMap fun key => members.find? fun m => m.name == key with
    | [] => none
    | [m] => some m.type
    | ms => some (.union (ms.map Member.type))

def mappedMember (env : Env) (param : String) (mark : OptionalMark) (value : Option TypeExpr)
    (source : List Member) (key : String) : Member :=
  let mapped := source.find? fun m => m.name == key
  { name := key
    isOptional := match mark with
      | .add => true
      | .remove => false
      | .keep => (mapped.map Member.isOptional).getD false
    type := (value.map fun t => Ty.written t (env.bind param (.key key))).getD .any
    doc := mapped.bind Member.doc
    typeText := mapped.bind Member.typeText }

def mappedMembers (p : Project) (members : Ty → Option (List Member)) (env : Env)
    (param : String) (keyType : TypeExpr) (mark : OptionalMark) (value : Option TypeExpr) :
    Option (List Member) :=
  match keyType with
  | .operator .keyof t => do
    let source ← members (.written t env)
    pure (source.map fun m => mappedMember env param mark value source m.name)
  | _ => do
    let keys ← keys p members (.written keyType env)
    pure (keys.map (mappedMember env param mark value []))

def utilityMembers (p : Project) (members : Ty → Option (List Member)) (name : String)
    (args : List Ty) : Option (List Member) := do
  let first ← args.head?
  match name with
  | "Partial" => pure ((← members first).map fun m => { m with isOptional := true })
  | "Required" => pure ((← members first).map fun m => { m with isOptional := false })
  | "Readonly" | "NonNullable" => members first
  | "Pick" =>
    let keys ← keys p members (← args[1]?)
    pure ((← members first).filter fun m => keys.contains m.name)
  | "Omit" =>
    let keys ← keys p members (← args[1]?)
    pure ((← members first).filter fun m => !keys.contains m.name)
  | "Record" =>
    let keys ← keys p members first
    pure (keys.map fun key =>
      { name := key, isOptional := false, type := (args[1]?).getD .any, doc := none,
        typeText := none })
  | _ => none

def addInterface (p : Project) (base : Env → List String → List Ty → Option (List Member))
    (file : Nat) (args : List Ty) (table : Table Member) (i : Interface) : Table Member :=
  let env := (Env.file file).bindParams i.params args
  let table := i.bases.foldl (fun table b =>
    match b.path.bind fun path => base env path (env.all b.args) with
    | some members => merge table members
    | none => table) table
  merge table (i.members.filterMap (member? p env))

def declMembers (p : Project) (members : Ty → Option (List Member))
    (base : Env → List String → List Ty → Option (List Member)) (d : DeclRef) (args : List Ty) :
    Option (List Member) :=
  match (p.declarations d).filterMap interface? with
  | [] => do
    let a ← aliasOf? p d
    members (.written a.type ((Env.file d.file).bindParams a.params args))
  | interfaces => some (interfaces.foldl (addInterface p base d.file args) []).values

/-- The members of the type that a path names. Every declaration on the way is expanded once, so
that `n` above their number is enough. -/
def pathMembers (p : Project) (members : MembersOf) :
    Nat → Expanding → Env → List String → List Ty → Option (List Member)
  | n, expanding, env, path, args =>
    match lookup p env path with
    | .param t => members expanding t
    | .decl d =>
      if expanding.contains d then none
      else
        match n with
        | 0 => none
        | n + 1 =>
          let expanding := d :: expanding
          declMembers p (members expanding) (pathMembers p members n expanding) d args
    | .unknown name =>
      if path.length = 1 then utilityMembers p (members expanding) name args else none
    | .outside .. | .enumMember .. => none

def intersectionMembers (members : Ty → Option (List Member)) (parts : List Ty) :
    Option (List Member) :=
  let found := parts.filterMap members
  if found.isEmpty then none else some (found.foldl merge []).values

def membersStep (p : Project) (members : MembersOf) (expanding : Expanding) :
    Ty → Option (List Member)
  | .union types => unionMembers p (members expanding) types
  | .key _ | .function | .any => none
  | .written t env =>
    match t with
    | .object ms => some (literalMembers p env ms)
    | .paren t | .operator .readonly t => members expanding (.written t env)
    | .intersection ts => intersectionMembers (members expanding) (env.all ts)
    | .union ts => unionMembers p (members expanding) (env.all ts)
    | .reference path args =>
      pathMembers p members (declaredCount p + 1) expanding env path (env.all args)
    | .mapped param keys none mark value =>
      mappedMembers p (members expanding) env param keys mark value
    | .indexed object index => do
      members expanding
        (← indexed? p (members expanding) (.written object env) (.written index env))
    | _ => none

def membersWithin (p : Project) : Nat → MembersOf
  | 0, _, _ => none
  | n + 1, expanding, t => membersStep p (membersWithin p n) expanding t

end PropContract.Resolver
