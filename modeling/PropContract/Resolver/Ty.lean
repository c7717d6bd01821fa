import PropContract.Project.Resolution
import PropContract.Shape.Literal

/-!
Types before they are looked into. A type as it is written stands in an environment that says
what its type parameters mean; nothing is expanded until somebody asks.
-/

namespace PropContract.Resolver

open Syntax

mutual

inductive Ty where
  | written (type : TypeExpr) (env : Env)
  | key (text : String)
  | function
  | any
  | union (types : List Ty)

inductive Env where
  | file (id : Nat)
  | bind (env : Env) (name : String) (type : Ty)

end

instance : Inhabited Ty := ⟨.any⟩

instance : Inhabited Env := ⟨.file 0⟩

namespace Env

def fileId : Env → Nat
  | file id => id
  | bind env _ _ => env.fileId

def find? : Env → String → Option Ty
  | file _, _ => none
  | bind env name type, n => if n = name then some type else env.find? n

def all (env : Env) (types : List TypeExpr) : List Ty :=
  types.map fun t => .written t env

def fallback (env : Env) (p : TypeParam) : Ty :=
  match p.default, p.bound with
  | some t, _ => .written t env
  | none, some t => .written t env
  | none, none => .any

/-- Binds type parameters one after another, so that a default may speak of those before. -/
def bindParams : Env → List TypeParam → List Ty → Env
  | env, [], _ => env
  | env, p :: ps, args =>
    bindParams (env.bind p.name (args.head?.getD (env.fallback p))) ps args.tail

end Env

structure Member where
  name : String
  isOptional : Bool
  type : Ty
  doc : Option String
  typeText : Option String
  deriving Inhabited

inductive Named where
  | param (type : Ty)
  | decl (d : DeclRef)
  | enumMember (d : DeclRef) (member : String)
  | outside (module name : String)
  | unknown (name : String)
  deriving Inhabited

def isEnum : Declared → Bool
  | .enum _ => true
  | _ => false

def isInterface : Declared → Bool
  | .interface _ => true
  | _ => false

def isClass : Declared → Bool
  | .class _ => true
  | _ => false

def typeAlias? : Declared → Option TypeAlias
  | .typeAlias a => some a
  | _ => none

def interface? : Declared → Option Interface
  | .interface i => some i
  | _ => none

def aliasOf? (p : Project) (d : DeclRef) : Option TypeAlias :=
  (p.declarations d).findSome? typeAlias?

def qualifiedName (path : List String) : String :=
  match path.reverse with
  | last :: before :: _ => if before = "JSX" then "JSX" ++ last else last
  | [last] => last
  | [] => ""

def followPath (p : Project) (first qualified : String) : Option Resolution → List String → Named
  | some (.declared d), [] => .decl d
  | some (.outside module name), [] => .outside module name
  | some (.namespace _), [] | some (.outsideNamespace _), [] | none, [] => .unknown qualified
  | some (.namespace file), word :: rest =>
    followPath p first qualified (p.resolveExport file word) rest
  | some (.outsideNamespace module), _ :: _ | some (.outside module _), _ :: _ =>
    .outside module qualified
  | some (.declared d), word :: rest =>
    if (p.declarations d).any isEnum && rest.isEmpty then .enumMember d word
    else .unknown qualified
  | none, _ :: _ =>
    if first = "React" || first = "JSX" then .outside "react" qualified else .unknown qualified

def lookupIn (p : Project) (file : Nat) (path : List String) : Named :=
  match path with
  | [] => .unknown ""
  | first :: rest => followPath p first (qualifiedName path) (p.resolveName file first) rest

def lookup (p : Project) (env : Env) (path : List String) : Named :=
  match path with
  | [name] =>
    match env.find? name with
    | some type => .param type
    | none => lookupIn p env.fileId path
  | _ => lookupIn p env.fileId path

/-- The values of the members of one declaration; a member without one follows the last number. -/
def enumEntries : Double → List EnumMember → List (String × Literal)
  | _, [] => []
  | next, .mk name _ init :: rest =>
    match init with
    | none => (name, .number next) :: enumEntries next.addOne rest
    | some e =>
      match e.literal? with
      | some (.number n) => (name, .number n) :: enumEntries n.addOne rest
      | some value => (name, value) :: enumEntries next rest
      | none => enumEntries next rest

def enumMembers? : Declared → Option (List EnumMember)
  | .enum members => some members
  | _ => none

def enumValues? (p : Project) (d : DeclRef) : Option (List (String × Literal)) :=
  match (p.declarations d).filterMap enumMembers? with
  | [] => none
  | enums => some (enums.flatMap (enumEntries (Double.zero false)))

abbrev Seen := List DeclRef

abbrev Leaves := Seen → List Ty × Seen

def leaf (t : Ty) : Leaves :=
  fun seen => ([t], seen)

abbrev Opener := DeclRef → List Ty → Seen → Option (List Ty × Seen)

mutual

def leavesOf (p : Project) (openAlias : Opener) (env : Env) (params : String → Option Leaves) :
    TypeExpr → Leaves
  | .paren t => leavesOf p openAlias env params t
  | .union ts => leavesOfAll p openAlias env params ts
  | .reference path args => fun seen =>
    match (match path with
      | [name] => params name
      | _ => none) with
    | some leaves => leaves seen
    | none =>
      match lookupIn p env.fileId path with
      | .decl d =>
        (openAlias d (env.all args) seen).getD ([.written (.reference path args) env], seen)
      | _ => ([.written (.reference path args) env], seen)
  | t => leaf (.written t env)

def leavesOfAll (p : Project) (openAlias : Opener) (env : Env) (params : String → Option Leaves) :
    List TypeExpr → Leaves
  | [] => fun seen => ([], seen)
  | t :: ts => fun seen =>
    let (found, seen) := leavesOf p openAlias env params t seen
    let (rest, seen) := leavesOfAll p openAlias env params ts seen
    (found ++ rest, seen)

end

mutual

def Ty.leaves (p : Project) (openAlias : Opener) : Ty → Leaves
  | .written t env => leavesOf p openAlias env (env.leaves p openAlias) t
  | .union ts => Ty.leavesAll p openAlias ts
  | .key text => leaf (.key text)
  | .function => leaf .function
  | .any => leaf .any

def Ty.leavesAll (p : Project) (openAlias : Opener) : List Ty → Leaves
  | [] => fun seen => ([], seen)
  | t :: ts => fun seen =>
    let (found, seen) := t.leaves p openAlias seen
    let (rest, seen) := Ty.leavesAll p openAlias ts seen
    (found ++ rest, seen)

def Env.leaves (p : Project) (openAlias : Opener) : Env → String → Option Leaves
  | .file _, _ => none
  | .bind env name type, n =>
    if n = name then some (type.leaves p openAlias) else env.leaves p openAlias n

end

def isUnion : TypeExpr → Bool
  | .paren t => isUnion t
  | .union _ => true
  | _ => false

def openUnion (p : Project) : Nat → Opener
  | 0, _, _, _ => none
  | n + 1, d, args, seen =>
    match aliasOf? p d with
    | some a =>
      if isUnion a.type && !seen.contains d then
        some ((Ty.written a.type ((Env.file d.file).bindParams a.params args)).leaves p
          (openUnion p n) (d :: seen))
      else none
    | none => none

def declaredCount (p : Project) : Nat :=
  (p.files.flatMap fun f => f.scope.locals).length

def flatten (p : Project) (t : Ty) : List Ty :=
  (t.leaves p (openUnion p (declaredCount p + 1)) []).1

def isNullish : Ty → Bool
  | .written (.keyword .null) _ | .written (.keyword .undefined) _ => true
  | _ => false

def admitsNullish (p : Project) (t : Ty) : Bool :=
  (flatten p t).any isNullish

def elementOf? (p : Project) (env : Env) (params : String → Option (Option Ty)) :
    TypeExpr → Option Ty
  | .array t => some (.written t env)
  | .tuple _ ts => some (.union (env.all ts))
  | .paren t => elementOf? p env params t
  | .reference path args =>
    match (match path with
      | [name] => params name
      | _ => none) with
    | some found => found
    | none =>
      match lookupIn p env.fileId path with
      | .unknown name =>
        if name = "Array" || name = "ReadonlyArray" then (env.all args).head? else none
      | _ => none
  | _ => none

mutual

def Ty.element? (p : Project) : Ty → Option Ty
  | .written t env => elementOf? p env (env.element? p) t
  | .key _ | .function | .any | .union _ => none

def Env.element? (p : Project) : Env → String → Option (Option Ty)
  | .file _, _ => none
  | .bind env name type, n => if n = name then some (type.element? p) else env.element? p n

end

end PropContract.Resolver
