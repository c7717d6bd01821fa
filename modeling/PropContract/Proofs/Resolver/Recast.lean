import PropContract.Proofs.Project.Recast
import PropContract.Proofs.Resolver.Keys
import PropContract.Proofs.Resolver.Likeness
import PropContract.Proofs.Resolver.Settled

namespace PropContract.Resolver

open Syntax List Project

section Names

variable {p q : Project}

theorem lookup_congr (hl : lookupIn q = lookupIn p) : lookup q = lookup p := by
  funext env path
  rw [lookup_eq, lookup_eq, hl]

theorem elementOf?_congr (hl : lookupIn q = lookupIn p) (env : Env)
    (params : String → Option (Option Ty)) (t : TypeExpr) :
    elementOf? q env params t = elementOf? p env params t := by
  cases t with
  | paren t =>
    rw [elementOf?, elementOf?]
    exact elementOf?_congr hl env params t
  | reference path args =>
    rw [Likeness.elementOf?_reference, Likeness.elementOf?_reference]
    unfold Likeness.listElement?
    rw [hl]
  | _ => simp only [elementOf?]

mutual

theorem element?_congr (hl : lookupIn q = lookupIn p) (t : Ty) : t.element? q = t.element? p := by
  cases t with
  | written t env =>
    rw [Ty.element?, Ty.element?, elementOf?_congr hl, funext (element?_env_congr hl env)]
  | _ => simp only [Ty.element?]

theorem element?_env_congr (hl : lookupIn q = lookupIn p) (env : Env) (name : String) :
    env.element? q name = env.element? p name := by
  cases env with
  | file id => rw [Env.element?, Env.element?]
  | bind env key type =>
    rw [Env.element?, Env.element?, element?_congr hl type, element?_env_congr hl env name]

end

end Names

section Project

variable (p : Project) (d : DeclRef)

theorem followPath_recast (first qualified : String) (current : Option Resolution)
    (path : List String) :
    followPath (p.recast d) first qualified current path =
      followPath p first qualified current path := by
  induction path generalizing current with
  | nil => rcases current with _ | (_ | _ | _ | _) <;> rfl
  | cons word rest ih =>
    rcases current with _ | (e | file | _ | _)
    case some.declared =>
      have henum : ∀ x, isEnum (Declared.recast x) = isEnum x := fun x => by cases x <;> rfl
      rw [followPath, followPath, any_declarations_recast p d henum]
    case some.namespace => rw [followPath, followPath, resolveExport_recast, ih]
    all_goals rfl

theorem lookupIn_recast : lookupIn (p.recast d) = lookupIn p := by
  funext file path
  cases path with
  | nil => rfl
  | cons first rest => rw [lookupIn, lookupIn, resolveName_recast, followPath_recast]

theorem lookup_recast : lookup (p.recast d) = lookup p :=
  lookup_congr (lookupIn_recast p d)

theorem enumValues?_recast : enumValues? (p.recast d) = enumValues? p := by
  funext e
  have hmembers : enumMembers? ∘ Declared.recast = enumMembers? := by
    funext x
    cases x <;> rfl
  have hsame : ((p.recast d).declarations e).filterMap enumMembers? =
      (p.declarations e).filterMap enumMembers? := by
    rw [declarations_recast]
    split
    · rw [filterMap_map, hmembers]
    · rfl
  rw [enumValues?, enumValues?, hsame]

theorem declaredCount_recast : declaredCount (p.recast d) = declaredCount p := by
  rw [declaredCount, declaredCount, length_flatMap, length_flatMap, Project.recast,
    map_modify_of_same fun f => ?_]
  exact length_map _

theorem textOf_recast : textOf (p.recast d) = textOf p := by
  funext file span
  rw [textOf, textOf, file?_recast]
  cases p.file? file with
  | none => rfl
  | some f => by_cases hfile : d.file = file <;> simp [hfile, SourceFile.recast, SourceFile.textOf]

theorem member?_recast : member? (p.recast d) = member? p := by
  funext env m
  cases m <;> simp only [member?, annotated, methodText?, textOf_recast]

theorem literalMembers_recast : literalMembers (p.recast d) = literalMembers p := by
  funext env ms
  rw [literalMembers, literalMembers, member?_recast]

end Project

section Interface

variable {p : Project} {d : DeclRef} {i : Interface} (h : p.declarations d = [.interface i])
include h

theorem declarations_recast_self : (p.recast d).declarations d = [.typeAlias i.asAlias] := by
  rw [declarations_recast, if_pos rfl, h]
  rfl

theorem aliasOf?_interface : aliasOf? p d = none := by
  rw [aliasOf?, h]
  rfl

theorem aliasOf?_recast (e : DeclRef) :
    aliasOf? (p.recast d) e = if e = d then some i.asAlias else aliasOf? p e := by
  by_cases he : e = d
  · rw [if_pos he, he, aliasOf?, declarations_recast_self h]
    rfl
  · rw [if_neg he, aliasOf?, aliasOf?, declarations_recast, if_neg he]

theorem opening?_recast : opening? (p.recast d) = opening? p := by
  funext seen t
  cases t with
  | written t env =>
    cases t with
    | reference path args =>
      simp only [opening?, lookup_recast]
      cases lookup p env path with
      | decl e =>
        simp only [aliasOf?_recast h]
        by_cases he : e = d
        · rw [if_pos he, he, aliasOf?_interface h]
          rfl
        · rw [if_neg he]
      | _ => rfl
    | _ => rfl
  | _ => rfl

theorem flatten_recast : flatten (p.recast d) = flatten p :=
  flatten_congr (opening?_recast h)

theorem admitsNullish_recast : admitsNullish (p.recast d) = admitsNullish p := by
  funext t
  rw [admitsNullish, admitsNullish, flatten_recast h]

end Interface

theorem literalKeys_object (p : Project) (members : Ty → Option (List Member)) (n : Nat)
    (ms : List TypeMember) (env : Env) :
    literalKeys p members n (.written (.object ms) env) = none := by
  cases n with
  | zero => rfl
  | succ n =>
    have hleaf : flatten p (.written (.object ms) env) = [.written (.object ms) env] := by
      simp [flatten, Ty.leaves, leavesOf, leaf]
    rw [literalKeys_succ, hleaf]
    rfl

section Members

variable {p : Project} {d : DeclRef} {i : Interface} (h : p.declarations d = [.interface i])
include h

theorem leafKeys_recast (members : Ty → Option (List Member))
    {next : Ty → Option (List String)} (hnext : ∀ args, next (aliasBody d i.asAlias args) = none)
    (t : Ty) : leafKeys (p.recast d) members next t = leafKeys p members next t := by
  cases t with
  | written t env =>
    cases t with
    | operator op t => cases op <;> rfl
    | reference path args =>
      simp only [leafKeys, lookup_recast, enumValues?_recast]
      cases lookup p env path with
      | decl e =>
        by_cases he : e = d
        · simp only [aliasOf?_recast h, if_pos he]
          rw [he, aliasOf?_interface h]
          simp only [hnext]
        · simp only [aliasOf?_recast h, if_neg he]
      | _ => rfl
    | _ => rfl
  | _ => rfl

theorem literalKeys_recast (members : Ty → Option (List Member)) (n : Nat) :
    literalKeys (p.recast d) members n = literalKeys p members n := by
  induction n with
  | zero => rfl
  | succ n ih =>
    funext t
    have hleaf : leafKeys (p.recast d) members (literalKeys p members n) =
        leafKeys p members (literalKeys p members n) :=
      funext (leafKeys_recast h members fun args => literalKeys_object p members n _ _)
    rw [literalKeys_succ, literalKeys_succ, flatten_recast h, ih, hleaf]

theorem keys_recast : keys (p.recast d) = keys p := by
  funext members t
  rw [keys, keys, literalKeys_recast h]

theorem indexed?_recast : indexed? (p.recast d) = indexed? p := by
  funext members object index
  unfold indexed?
  rw [element?_congr (lookupIn_recast p d), keys_recast h]

theorem mappedMembers_recast : mappedMembers (p.recast d) = mappedMembers p := by
  funext members env param keyType mark value
  unfold mappedMembers
  rw [keys_recast h]

theorem utilityMembers_recast : utilityMembers (p.recast d) = utilityMembers p := by
  funext members name args
  unfold utilityMembers
  rw [keys_recast h]

theorem unionMembers_recast : unionMembers (p.recast d) = unionMembers p := by
  funext members types
  rw [unionMembers, unionMembers, flatten_recast h]

end Members

/-- A name that is declared once, as an interface without parameters and bases. -/
structure PlainInterface (p : Project) (d : DeclRef) (i : Interface) : Prop where
  declared : p.declarations d = [.interface i]
  params : i.params = []
  bases : i.bases = []

def bodyOf (d : DeclRef) (i : Interface) : Ty :=
  .written (.object i.members) (.file d.file)

namespace PlainInterface

variable {p : Project} {d : DeclRef} {i : Interface} (hi : PlainInterface p d i)
include hi

section

variable (members : Ty → Option (List Member))
  (base : Env → List String → List Ty → Option (List Member)) (args : List Ty)

theorem declMembers_eq :
    declMembers p members base d args = some (literalMembers p (.file d.file) i.members) := by
  unfold declMembers
  rw [hi.declared]
  simp [interface?, addInterface, hi.params, hi.bases, Env.bindParams, literalMembers]

theorem declMembers_recast_self :
    declMembers (p.recast d) members base d args = members (bodyOf d i) := by
  unfold declMembers
  rw [declarations_recast_self hi.declared, aliasOf?_recast hi.declared, if_pos rfl]
  simp only [filterMap_cons, filterMap_nil, interface?, Option.bind_eq_bind,
    Option.bind_some, Interface.asAlias, hi.params, Env.bindParams, bodyOf]

end

theorem declMembers_recast_of_ne {e : DeclRef} (he : e ≠ d) (members : Ty → Option (List Member))
    (base : Env → List String → List Ty → Option (List Member)) (args : List Ty) :
    declMembers (p.recast d) members base e args = declMembers p members base e args := by
  have hadd : addInterface (p.recast d) base e.file args = addInterface p base e.file args := by
    funext table i
    rw [addInterface, addInterface, member?_recast]
  unfold declMembers
  rw [declarations_recast, if_neg he, aliasOf?_recast hi.declared, if_neg he, hadd]

variable {members : MembersOf}
  (hm : ∀ expanding, members expanding (bodyOf d i) =
    some (literalMembers p (.file d.file) i.members))
include hm

theorem declMembers_recast (expanding : Expanding)
    (base : Env → List String → List Ty → Option (List Member)) (e : DeclRef) (args : List Ty) :
    declMembers (p.recast d) (members expanding) base e args =
      declMembers p (members expanding) base e args := by
  by_cases he : e = d
  · rw [he, hi.declMembers_recast_self, hm, hi.declMembers_eq]
  · exact hi.declMembers_recast_of_ne he _ base args

theorem pathMembers_recast (n : Nat) : pathMembers (p.recast d) members n =
    pathMembers p members n := by
  induction n with
  | zero =>
    funext expanding env path args
    unfold pathMembers
    rw [lookup_recast, utilityMembers_recast hi.declared]
  | succ n ih =>
    funext expanding env path args
    unfold pathMembers
    rw [lookup_recast, utilityMembers_recast hi.declared]
    simp only [ih, hi.declMembers_recast hm]

theorem membersStep_recast (expanding : Expanding) (t : Ty) :
    membersStep (p.recast d) members expanding t = membersStep p members expanding t := by
  cases t with
  | union types => rw [membersStep, membersStep, unionMembers_recast hi.declared]
  | written t env =>
    unfold membersStep
    rw [literalMembers_recast, unionMembers_recast hi.declared, declaredCount_recast,
      hi.pathMembers_recast hm, mappedMembers_recast hi.declared, indexed?_recast hi.declared]
  | _ => rfl

end PlainInterface

def Setting.recast (s : Setting) (d : DeclRef) : Setting :=
  { s with project := s.project.recast d }

section Shapes

variable {s : Setting} {d : DeclRef} {i : Interface}
  (h : s.project.declarations d = [.interface i]) (shape : ShapeOf)
include h

theorem propsOf_recast : propsOf (s.recast d) shape = propsOf s shape := by
  funext expanding depth ms
  simp only [propsOf, Setting.recast, options_recast, admitsNullish_recast h]

theorem objectShape_recast : objectShape (s.recast d) shape = objectShape s shape := by
  funext expanding depth ms
  rw [objectShape, objectShape, propsOf_recast h]
  rfl

theorem unionShape_recast : unionShape (s.recast d) shape = unionShape s shape := by
  funext expanding depth types
  simp only [unionShape, Setting.recast, flatten_recast h]

theorem intersectionShape_recast :
    intersectionShape (s.recast d) shape = intersectionShape s shape := by
  funext members expanding depth types
  simp only [intersectionShape, objectShape_recast h]

theorem globalShape_recast : globalShape (s.recast d) shape = globalShape s shape := by
  funext members expanding depth name args
  unfold globalShape
  rw [objectShape_recast h, unionShape_recast h]
  simp only [Setting.recast, utilityMembers_recast h]

end Shapes

def onlyCalls (i : Interface) : Bool :=
  !i.members.isEmpty && i.members.all TypeMember.isCall

def bodyShape (s : Setting) (d : DeclRef) (i : Interface) (shape : ShapeOf) (expanding : Expanding)
    (depth : Nat) : StateM Ledger Shape :=
  if onlyCalls i then return .function
  else objectShape s shape expanding depth (literalMembers s.project (.file d.file) i.members)

theorem answerStep_members_body (s : Setting) (d : DeclRef) (i : Interface) (f : Answers)
    (expanding : Expanding) :
    answerStep s f (.members expanding (bodyOf d i)) =
      some (literalMembers s.project (.file d.file) i.members) :=
  rfl

theorem answerStep_shape_body (s : Setting) (d : DeclRef) (i : Interface) (f : Answers)
    (expanding : Expanding) (depth : Nat) (l : Ledger) :
    answerStep s f (.shape expanding (bodyOf d i) depth l) =
      (bodyShape s d i f.shape expanding depth).run l :=
  rfl

def StepsInto (s : Setting) (d : DeclRef) (i : Interface) (f : Answers) : Prop :=
  ∀ q : Query, q.type = bodyOf d i → f q = answerStep s f q

section

variable {s : Setting} {d : DeclRef} {i : Interface} {f : Answers} (hf : StepsInto s d i f)
  (expanding : Expanding)

include hf

theorem StepsInto.members_eq :
    f.members expanding (bodyOf d i) = some (literalMembers s.project (.file d.file) i.members) :=
  hf (.members expanding (bodyOf d i)) rfl

theorem StepsInto.shape_eq (depth : Nat) :
    f.shape expanding (bodyOf d i) depth = bodyShape s d i f.shape expanding depth :=
  funext fun l => hf (.shape expanding (bodyOf d i) depth l) rfl

end

namespace PlainInterface

variable {s : Setting} {d : DeclRef} {i : Interface} (hi : PlainInterface s.project d i)
include hi

section

variable (shape : ShapeOf) (members : MembersOf) (expanding : Expanding) (depth : Nat)
  (args : List Ty)

theorem expandedShape_eq : expandedShape s shape members expanding depth d args =
      objectShape s shape expanding depth
        (literalMembers s.project (.file d.file) i.members) := by
  unfold expandedShape
  simp only [aliasOf?_interface hi.declared, hi.declMembers_eq]

theorem expandedShape_recast_self :
    expandedShape (s.recast d) shape members expanding depth d args =
      shape expanding (bodyOf d i) depth := by
  have hnone : ((s.project.recast d).declarations d).any isInterface = false := by
    rw [declarations_recast_self hi.declared]
    rfl
  unfold expandedShape
  simp only [Setting.recast, aliasOf?_recast hi.declared, if_true, hnone, Interface.asAlias,
    hi.params, Env.bindParams, bodyOf]

end

variable {f : Answers} (hf : StepsInto s d i f)
include hf

theorem expandedShape_recast_of_ne {e : DeclRef} (he : e ≠ d) (expanding : Expanding)
    (depth : Nat) (args : List Ty) :
    expandedShape (s.recast d) f.shape f.members expanding depth e args =
      expandedShape s f.shape f.members expanding depth e args := by
  unfold expandedShape
  simp only [objectShape_recast hi.declared]
  simp only [Setting.recast, aliasOf?_recast hi.declared, if_neg he,
    declarations_recast, declaredCount_recast, hi.pathMembers_recast hf.members_eq,
    hi.declMembers_recast hf.members_eq]

variable (hcalls : onlyCalls i = false)
include hcalls

theorem expandedShape_recast (expanding : Expanding) (depth : Nat) (e : DeclRef)
    (args : List Ty) :
    expandedShape (s.recast d) f.shape f.members expanding depth e args =
      expandedShape s f.shape f.members expanding depth e args := by
  by_cases he : e = d
  · rw [he, hi.expandedShape_recast_self, hf.shape_eq, bodyShape, hcalls, hi.expandedShape_eq]
    rfl
  · exact hi.expandedShape_recast_of_ne hf he expanding depth args

theorem declShape_recast (expanding : Expanding) (depth : Nat) (e : DeclRef) (args : List Ty) :
    declShape (s.recast d) f.shape f.members expanding depth e args =
      declShape s f.shape f.members expanding depth e args := by
  have hclass : ∀ x, isClass (Declared.recast x) = isClass x := fun x => by cases x <;> rfl
  have hopen : (((s.project.recast d).declarations e).any isInterface ||
      (aliasOf? (s.project.recast d) e).isSome) =
        ((s.project.declarations e).any isInterface || (aliasOf? s.project e).isSome) := by
    rw [aliasOf?_recast hi.declared, declarations_recast]
    by_cases he : e = d
    · simp [he, hi.declared, isInterface]
    · rw [if_neg he, if_neg he]
  unfold declShape
  simp only [hi.expandedShape_recast hf hcalls]
  simp only [Setting.recast, hopen, enumValues?_recast,
    any_declarations_recast _ _ hclass]

theorem referenceShape_recast (expanding : Expanding) (depth : Nat) (env : Env)
    (path : List String) (args : List Ty) :
    referenceShape (s.recast d) f.shape f.members expanding depth env path args =
      referenceShape s f.shape f.members expanding depth env path args := by
  unfold referenceShape
  simp only [hi.declShape_recast hf hcalls, globalShape_recast hi.declared]
  simp only [Setting.recast, lookup_recast, enumMemberShape, enumValues?_recast]

theorem shapeStep_recast (expanding : Expanding) (t : Ty) (depth : Nat) :
    shapeStep (s.recast d) f.shape f.members expanding t depth =
      shapeStep s f.shape f.members expanding t depth := by
  cases t with
  | union types => rw [shapeStep, shapeStep, unionShape_recast hi.declared]
  | written t env =>
    unfold shapeStep writtenShape
    simp only [hi.referenceShape_recast hf hcalls, objectShape_recast hi.declared,
      unionShape_recast hi.declared, intersectionShape_recast hi.declared]
    simp only [Setting.recast, literalMembers_recast, indexed?_recast hi.declared,
      mappedMembers_recast hi.declared]
  | _ => rfl

theorem answerStep_recast (q : Query) : answerStep (s.recast d) f q = answerStep s f q := by
  cases q with
  | members expanding t => exact hi.membersStep_recast hf.members_eq expanding t
  | shape expanding t depth l =>
    rw [answerStep, answerStep, hi.shapeStep_recast hf hcalls]

end PlainInterface

end PropContract.Resolver
