import PropContract.Proofs.Project.Correspondence
import PropContract.Proofs.Relator
import PropContract.Proofs.Resolver.Opening
import PropContract.Proofs.Syntax.Likeness

/-!
Types and members in two projects that are alike. Files go with one another by number; they may
differ in where their declarations stand and in names that no type refers to.
-/

namespace PropContract

open Syntax Resolver Option

variable {R : Span → Span → Prop} {K : String → Prop} {value' : Option TypeExpr}

inductive Declared.Like (R : Span → Span → Prop) (K : String → Prop) : Declared → Declared → Prop
  | interface (h : i.Like R K i') : Declared.Like R K (.interface i) (.interface i')
  | typeAlias (h : a.Like R K a') : Declared.Like R K (.typeAlias a) (.typeAlias a')
  | enum (h : ∀ next, enumEntries next ms' = enumEntries next ms) :
      Declared.Like R K (.enum ms) (.enum ms')
  | class (c c' : ClassBody) : Declared.Like R K (.class c) (.class c')
  | function (f f' : Function) : Declared.Like R K (.function f) (.function f')
  | variable (kind kind' : VariableKind) (d d' : Declarator) :
      Declared.Like R K (.variable kind d) (.variable kind' d')

theorem Declared.Like.refl (hR : ∀ s, R s s)
    (hK : ∀ name, K name) (d : Declared) : d.Like R K d := by
  cases d with
  | interface i => exact .interface (Interface.Like.refl hR hK i)
  | typeAlias a => exact .typeAlias (TypeAlias.Like.refl hR hK a)
  | enum ms => exact .enum fun _ => rfl
  | «class» c => exact .class c c
  | function f => exact .function f f
  | «variable» kind d => exact .variable kind kind d d

def SameText (p q : Project) (file file' : Nat) (s s' : Span) : Prop :=
  textOf q file' s' = textOf p file s

/-- Two projects that are alike: known names stand for the same in files that go with one
another, and so do the declarations that they lead to. -/
structure Likeness (p q : Project) extends Correspondence p q where
  exportsAgreed : ∀ file name, agreed (.exported file name)
  declaredCount_eq : declaredCount q = declaredCount p
  declarations : ∀ d : DeclRef,
    List.Forall₂
      (Declared.Like (SameText p q d.file (number d.file)) (toCorrespondence.known d.file))
      (p.declarations d) (q.declarations (d.renumber number))

namespace Likeness

variable {p q : Project} (ℓ : Likeness p q)

abbrev decl : DeclRef → DeclRef :=
  .renumber ℓ.number

abbrev LikeExpr (file : Nat) : TypeExpr → TypeExpr → Prop :=
  TypeExpr.Like (SameText p q file (ℓ.number file)) (ℓ.known file)

mutual

inductive LikeTy : Ty → Ty → Prop
  | written (ht : ℓ.LikeExpr e.fileId t t') (he : LikeEnv e e') :
      LikeTy (.written t e) (.written t' e')
  | key (text : String) : LikeTy (.key text) (.key text)
  | function : LikeTy .function .function
  | any : LikeTy .any .any
  | union (h : List.Forall₂ LikeTy ts ts') : LikeTy (.union ts) (.union ts')

inductive LikeEnv : Env → Env → Prop
  | file (id : Nat) : LikeEnv (.file id) (.file (ℓ.number id))
  | bind (name : String) (he : LikeEnv e e') (ht : LikeTy t t') :
      LikeEnv (.bind e name t) (.bind e' name t')

end

structure LikeMember (m m' : Member) : Prop where
  name : m'.name = m.name
  isOptional : m'.isOptional = m.isOptional
  type : ℓ.LikeTy m.type m'.type
  doc : m'.doc = m.doc
  typeText : m'.typeText = m.typeText

inductive LikeNamed : Named → Named → Prop
  | param (h : ℓ.LikeTy t t') : LikeNamed (.param t) (.param t')
  | decl (d : DeclRef) : LikeNamed (.decl d) (.decl (ℓ.decl d))
  | enumMember (d : DeclRef) (member : String) :
      LikeNamed (.enumMember d member) (.enumMember (ℓ.decl d) member)
  | outside (module name : String) : LikeNamed (.outside module name) (.outside module name)
  | unknown (name : String) : LikeNamed (.unknown name) (.unknown name)

theorem contains_decl (ds : List DeclRef) (d : DeclRef) :
    (ds.map ℓ.decl).contains (ℓ.decl d) = ds.contains d :=
  DeclRef.contains_renumber ℓ.injective ds d

variable {ℓ}

theorem LikeEnv.fileId_eq {e e' : Env} (h : ℓ.LikeEnv e e') : e'.fileId = ℓ.number e.fileId := by
  match e, h with
  | .file id, .file _ => rw [Env.fileId, Env.fileId]
  | .bind e _ _, .bind _ h _ => rw [Env.fileId, Env.fileId, LikeEnv.fileId_eq h]
termination_by structural e

theorem LikeEnv.find? {e e' : Env} (h : ℓ.LikeEnv e e') (name : String) :
    Option.Rel ℓ.LikeTy (e.find? name) (e'.find? name) := by
  match e, h with
  | .file id, .file _ => exact .none
  | .bind e key type, .bind _ h ht =>
    rw [Env.find?, Env.find?]
    split
    · exact .some ht
    · exact LikeEnv.find? h name
termination_by structural e

theorem LikeEnv.all {e e' : Env} (h : ℓ.LikeEnv e e') {ts ts' : List TypeExpr}
    (hts : List.Forall₂ (ℓ.LikeExpr e.fileId) ts ts') :
    List.Forall₂ ℓ.LikeTy (e.all ts) (e'.all ts') :=
  List.rel_map (fun _ _ ht => .written ht h) hts

theorem LikeEnv.fallback {e e' : Env} (h : ℓ.LikeEnv e e') {a a' : TypeParam}
    (ha : a.Like (SameText p q e.fileId (ℓ.number e.fileId)) (ℓ.known e.fileId) a') :
    ℓ.LikeTy (e.fallback a) (e'.fallback a') := by
  obtain ⟨name, bound, default⟩ := a
  obtain ⟨name', bound', default'⟩ := a'
  obtain ⟨-, hbound, hdefault⟩ := ha
  cases hdefault with
  | some ht => exact .written ht h
  | none =>
    cases hbound with
    | some ht => exact .written ht h
    | none => exact .any

variable {args args' : List Ty}

theorem LikeEnv.bindParams {file : Nat} {ps ps' : List TypeParam}
    (hps : List.Forall₂ (TypeParam.Like (SameText p q file (ℓ.number file)) (ℓ.known file)) ps ps')
    {e e' : Env} (h : ℓ.LikeEnv e e') (hfile : e.fileId = file)
    (hargs : List.Forall₂ ℓ.LikeTy args args') :
    ℓ.LikeEnv (e.bindParams ps args) (e'.bindParams ps' args') := by
  induction hps generalizing e e' args args' with
  | nil => exact h
  | cons ha _ ih =>
    subst hfile
    rw [Env.bindParams, Env.bindParams, ha.name]
    exact ih (.bind _ h (hargs.head?.getD (h.fallback ha))) rfl hargs.tail

theorem likeTy_alias {d : DeclRef} {a a' : TypeAlias}
    (ha : a.Like (SameText p q d.file (ℓ.number d.file)) (ℓ.known d.file) a')
    (hargs : List.Forall₂ ℓ.LikeTy args args') :
    ℓ.LikeTy (.written a.type ((Env.file d.file).bindParams a.params args))
      (.written a'.type ((Env.file (ℓ.decl d).file).bindParams a'.params args')) := by
  refine .written ?_ (LikeEnv.bindParams ha.params (.file d.file) rfl hargs)
  rw [fileId_bindParams]
  exact ha.type

theorem Declared.Like.isEnum_eq {d d' : Declared} (h : d.Like R K d') : isEnum d' = isEnum d := by
  cases h <;> rfl

variable (ℓ)

theorem followPath_like (first qualified : String) (r : Option Resolution) (path : List String) :
    ℓ.LikeNamed (followPath p first qualified r path)
      (followPath q first qualified (r.map (.renumber ℓ.number)) path) := by
  induction path generalizing r with
  | nil =>
    cases r with
    | none => exact .unknown qualified
    | some r =>
      cases r with
      | declared d => exact .decl d
      | «namespace» file => exact .unknown qualified
      | outside module name => exact .outside module name
      | outsideNamespace module => exact .unknown qualified
  | cons word rest ih =>
    cases r with
    | none =>
      simp only [map_none, followPath]
      split
      · exact .outside "react" qualified
      · exact .unknown qualified
    | some r =>
      cases r with
      | declared d =>
        simp only [map_some, Resolution.renumber, followPath,
          (ℓ.declarations d).any_eq fun _ _ h => Declared.Like.isEnum_eq h]
        split
        · exact .enumMember d word
        · exact .unknown qualified
      | «namespace» file =>
        simp only [map_some, Resolution.renumber, followPath,
          ℓ.resolveExport_eq (ℓ.exportsAgreed _ _)]
        exact ih _
      | outside module name => exact .outside module qualified
      | outsideNamespace module => exact .outside module qualified

variable {path : List String}

theorem lookupIn_like (file : Nat) (hknown : ∀ name ∈ path.head?, ℓ.known file name) :
    ℓ.LikeNamed (lookupIn p file path) (lookupIn q (ℓ.number file) path) := by
  cases path with
  | nil => exact .unknown ""
  | cons first rest =>
    rw [lookupIn, lookupIn, ℓ.resolveName_eq (hknown first rfl)]
    exact ℓ.followPath_like first _ _ rest

variable {ℓ}

theorem LikeEnv.lookup_like {e e' : Env} (h : ℓ.LikeEnv e e')
    (hknown : ∀ name ∈ path.head?, ℓ.known e.fileId name) :
    ℓ.LikeNamed (lookup p e path) (lookup q e' path) := by
  have hin := ℓ.lookupIn_like e.fileId hknown
  rw [← h.fileId_eq] at hin
  rcases path with _ | ⟨name, _ | ⟨word, rest⟩⟩
  · exact hin
  · simp only [lookup]
    have hfind := h.find? name
    revert hfind
    generalize e.find? name = found, e'.find? name = found'
    rintro (ht | _)
    · exact .param ht
    · exact hin
  · exact hin

section Declarations

variable (ℓ) (d : DeclRef)

theorem aliasOf?_like : Option.Rel
    (TypeAlias.Like (SameText p q d.file (ℓ.number d.file)) (ℓ.known d.file))
    (aliasOf? p d) (aliasOf? q (ℓ.decl d)) := by
  refine (ℓ.declarations d).findSome? fun x x' h => ?_
  cases h with
  | typeAlias h => exact .some h
  | _ => exact .none

theorem interfaces_like : List.Forall₂
    (Interface.Like (SameText p q d.file (ℓ.number d.file)) (ℓ.known d.file))
    ((p.declarations d).filterMap interface?)
    ((q.declarations (ℓ.decl d)).filterMap interface?) := by
  refine List.rel_filterMap (fun x x' h => ?_) (ℓ.declarations d)
  cases h with
  | interface h => exact .some h
  | _ => exact .none

theorem any_isInterface :
    (q.declarations (ℓ.decl d)).any isInterface = (p.declarations d).any isInterface :=
  (ℓ.declarations d).any_eq fun _ _ h => by cases h <;> rfl

theorem any_isClass :
    (q.declarations (ℓ.decl d)).any isClass = (p.declarations d).any isClass :=
  (ℓ.declarations d).any_eq fun _ _ h => by cases h <;> rfl

theorem any_isType :
    (q.declarations (ℓ.decl d)).any Declared.isType = (p.declarations d).any Declared.isType :=
  (ℓ.declarations d).any_eq fun _ _ h => by cases h <;> rfl

theorem enumValues?_eq : enumValues? q (ℓ.decl d) = enumValues? p d := by
  have henums : List.Forall₂ (fun ms ms' => ∀ next, enumEntries next ms' = enumEntries next ms)
      ((p.declarations d).filterMap enumMembers?)
      ((q.declarations (ℓ.decl d)).filterMap enumMembers?) := by
    refine List.rel_filterMap (fun x x' h => ?_) (ℓ.declarations d)
    cases h with
    | enum h => exact .some h
    | _ => exact .none
  have hentries := henums.map_eq fun _ _ h => h (Double.zero false)
  rw [enumValues?, enumValues?]
  revert henums hentries
  generalize (p.declarations d).filterMap enumMembers? = enums
  generalize (q.declarations (ℓ.decl d)).filterMap enumMembers? = enums'
  intro henums hentries
  cases henums with
  | nil => rfl
  | cons h hs => exact congrArg (fun entries => some entries.flatten) hentries

end Declarations

variable {t t' : Ty}

theorem isUnion_eq (t : TypeExpr) {t' : TypeExpr} (h : t.Like R K t') : isUnion t' = isUnion t := by
  cases t with
  | paren t =>
    cases h with
    | paren h =>
      rw [isUnion, isUnion]
      exact isUnion_eq t h
  | _ =>
    cases h
    rfl

theorem opening?_like (h : ℓ.LikeTy t t') (seen : Seen) :
    Option.Rel (fun o o' => List.Forall₂ ℓ.LikeTy o.1 o'.1 ∧ o'.2 = o.2.map ℓ.decl)
      (opening? p seen t) (opening? q (seen.map ℓ.decl) t') := by
  cases h with
  | union h => exact .some ⟨h, rfl⟩
  | written ht he =>
    cases ht with
    | paren ht => exact .some ⟨.cons (.written ht he) .nil, rfl⟩
    | union hts => exact .some ⟨he.all hts, rfl⟩
    | @reference _ _ path hknown hargs =>
      have hnamed := he.lookup_like hknown
      simp only [opening?]
      revert hnamed
      generalize lookup p _ path = named, lookup q _ path = named'
      rintro (ht | d | _ | _ | _)
      case param => exact .some ⟨.cons ht .nil, rfl⟩
      case decl =>
        have halias := ℓ.aliasOf?_like d
        dsimp only
        revert halias
        generalize aliasOf? p d = found, aliasOf? q (ℓ.decl d) = found'
        rintro (ha | _)
        · simp only [bind_some, isUnion_eq _ ha.type, ℓ.contains_decl]
          split
          · exact .some ⟨.cons (likeTy_alias ha (he.all hargs)) .nil, rfl⟩
          · exact .none
        · exact .none
      all_goals exact .none
    | _ => exact .none
  | _ => exact .none

variable (ℓ)

structure LikeWalk (w w' : Walk) : Prop where
  rest : List.Forall₂ ℓ.LikeTy w.rest w'.rest
  seen : w'.seen = w.seen.map ℓ.decl
  found : List.Forall₂ ℓ.LikeTy w.found w'.found

variable {ℓ}

theorem LikeWalk.step {v w w' : Walk} (h : ℓ.LikeWalk w w') (hstep : Walk.Step p w v) :
    ∃ v', Walk.Step q w' v' ∧ ℓ.LikeWalk v v' := by
  obtain ⟨rest', seen', found'⟩ := w'
  obtain ⟨hrest, hseen, hfound⟩ := h
  obtain rfl : seen' = w.seen.map ℓ.decl := hseen
  cases hstep with
  | @leaf t ts found seen hleaf =>
    cases hrest with
    | cons ht hts =>
      have hlike := opening?_like ht seen
      generalize hleaf' : opening? q _ _ = opened' at hlike
      rw [hleaf] at hlike
      cases hlike
      exact ⟨_, .leaf hleaf', hts, rfl, List.rel_append hfound (.cons ht .nil)⟩
  | @opened t us ts found seen seen' hopen =>
    cases hrest with
    | cons ht hts =>
      have hlike := opening?_like ht seen
      generalize hopen' : opening? q _ _ = opened' at hlike
      rw [hopen] at hlike
      obtain ⟨hus, hseen'⟩ := hlike
      exact ⟨_, .opened hopen', List.rel_append hus hts, hseen', hfound⟩

theorem LikeWalk.runs {v w w' : Walk} (h : ℓ.LikeWalk w w') (hrun : Walk.Runs p w v) :
    ∃ v', Walk.Runs q w' v' ∧ ℓ.LikeWalk v v' := by
  induction hrun with
  | refl => exact ⟨w', .refl, h⟩
  | tail _ hstep ih =>
    obtain ⟨v', hrun', hlike⟩ := ih
    obtain ⟨u', hstep', hlike'⟩ := hlike.step hstep
    exact ⟨u', hrun'.tail hstep', hlike'⟩

theorem flatten_like (h : ℓ.LikeTy t t') : List.Forall₂ ℓ.LikeTy (flatten p t) (flatten q t') := by
  obtain ⟨seen, hrun⟩ := exists_run p t
  obtain ⟨⟨rest', seen', found'⟩, hrun', hlike⟩ :=
    (show ℓ.LikeWalk _ ⟨[t'], [], []⟩ from ⟨.cons h .nil, rfl, .nil⟩).runs hrun
  cases hlike.rest
  rw [flatten_eq_of_runs hrun']
  exact hlike.found

theorem isNullish_eq (h : ℓ.LikeTy t t') : isNullish t' = isNullish t := by
  cases h with
  | written ht he =>
    cases ht with
    | keyword kind => cases kind <;> rfl
    | _ => rfl
  | _ => rfl

theorem admitsNullish_eq (h : ℓ.LikeTy t t') : admitsNullish q t' = admitsNullish p t :=
  (flatten_like h).any_eq fun _ _ => isNullish_eq

theorem filter_flatten_like {ts ts' : List Ty} (h : List.Forall₂ ℓ.LikeTy ts ts') :
    List.Forall₂ ℓ.LikeTy ((ts.flatMap (flatten p)).filter fun t => !isNullish t)
      ((ts'.flatMap (flatten q)).filter fun t => !isNullish t) := by
  refine List.rel_filter (fun t t' ht => ?_) (List.rel_flatMap h fun _ _ => flatten_like)
  simp only [isNullish_eq ht]

def listElement? (p : Project) (e : Env) (path : List String) (args : List TypeExpr) : Option Ty :=
  match lookupIn p e.fileId path with
  | .unknown name =>
    if name = "Array" || name = "ReadonlyArray" then (e.all args).head? else none
  | _ => none

theorem elementOf?_reference (p : Project) (e : Env) (params : String → Option (Option Ty))
    (path : List String) (args : List TypeExpr) :
    elementOf? p e params (.reference path args) =
      (paramOf params path).getD (listElement? p e path args) := by
  rcases path with _ | ⟨name, _ | ⟨word, rest⟩⟩
  · rw [elementOf?]
    · rfl
    · simp
  · simp only [elementOf?, paramOf]
    cases params name <;> rfl
  · rw [elementOf?]
    · rfl
    · simp

theorem listElement?_like {e e' : Env} (he : ℓ.LikeEnv e e')
    (hknown : ∀ name ∈ path.head?, ℓ.known e.fileId name) {args args' : List TypeExpr}
    (hargs : List.Forall₂ (ℓ.LikeExpr e.fileId) args args') :
    Option.Rel ℓ.LikeTy (listElement? p e path args) (listElement? q e' path args') := by
  have hnamed := ℓ.lookupIn_like e.fileId hknown
  rw [← he.fileId_eq] at hnamed
  simp only [listElement?]
  revert hnamed
  generalize lookupIn p e.fileId path = named, lookupIn q e'.fileId path = named'
  rintro (_ | _ | _ | _ | name)
  case unknown =>
    dsimp only
    split
    · exact (he.all hargs).head?
    · exact .none
  all_goals exact .none

theorem elementOf?_like {e e' : Env} (he : ℓ.LikeEnv e e')
    {params params' : String → Option (Option Ty)}
    (hp : ∀ name, Option.Rel (Option.Rel ℓ.LikeTy) (params name) (params' name)) (t : TypeExpr)
    {t' : TypeExpr} (ht : ℓ.LikeExpr e.fileId t t') :
    Option.Rel ℓ.LikeTy (elementOf? p e params t) (elementOf? q e' params' t') := by
  cases t with
  | array t =>
    cases ht with
    | array ht => exact .some (.written ht he)
  | tuple labels ts =>
    cases ht with
    | tuple _ hts => exact .some (.union (he.all hts))
  | paren t =>
    cases ht with
    | paren ht =>
      rw [elementOf?, elementOf?]
      exact elementOf?_like he hp t ht
  | reference path args =>
    cases ht with
    | reference hknown hargs =>
      rw [elementOf?_reference, elementOf?_reference]
      exact (rel_paramOf hp path).getD (listElement?_like he hknown hargs)
  | _ =>
    cases ht
    exact .none

mutual

theorem element?_like (t : Ty) {t' : Ty} (h : ℓ.LikeTy t t') :
    Option.Rel ℓ.LikeTy (t.element? p) (t'.element? q) := by
  cases t with
  | written t e =>
    cases h with
    | written ht he =>
      rw [Ty.element?, Ty.element?]
      exact elementOf?_like he (element?_env_like e he) t ht
  | _ =>
    cases h
    simp only [Ty.element?]
    exact .none

theorem element?_env_like (e : Env) {e' : Env} (h : ℓ.LikeEnv e e') (name : String) :
    Option.Rel (Option.Rel ℓ.LikeTy) (e.element? p name) (e'.element? q name) := by
  cases e with
  | file id =>
    cases h
    rw [Env.element?, Env.element?]
    exact .none
  | bind e key type =>
    cases h with
    | bind _ he ht =>
      rw [Env.element?, Env.element?]
      split
      · exact .some (element?_like type ht)
      · exact element?_env_like e he name

end

theorem methodText?_eq {file : Nat} {head head' : MemberHead}
    (h : head.Like (SameText p q file (ℓ.number file)) head') :
    methodText? q (ℓ.number file) head' = methodText? p file head := by
  rw [methodText?, methodText?, show textOf q _ head'.span = _ from h.span,
    show textOf q _ head'.keySpan = _ from h.keySpan]

theorem annotated_like {e e' : Env} (he : ℓ.LikeEnv e e') {head head' : MemberHead}
    (hh : head.Like (SameText p q e.fileId (ℓ.number e.fileId)) head') (name : String)
    (isOptional : Bool) {span span' : Span}
    (hs : SameText p q e.fileId (ℓ.number e.fileId) span span') {t t' : Option TypeExpr}
    (ht : Option.Rel (ℓ.LikeExpr e.fileId) t t') :
    ℓ.LikeMember (annotated p e head name isOptional span t)
      (annotated q e' head' name isOptional span' t') := by
  refine ⟨rfl, rfl, (ht.map fun _ _ h => .written h he).getD .any, hh.doc, ?_⟩
  cases ht with
  | none => rfl
  | some _ => exact congrArg some (he.fileId_eq ▸ hs)

theorem member?_like {e e' : Env} (he : ℓ.LikeEnv e e') {m m' : TypeMember}
    (h : m.Like (SameText p q e.fileId (ℓ.number e.fileId)) (ℓ.known e.fileId) m') :
    Option.Rel ℓ.LikeMember (member? p e m) (member? q e' m') := by
  cases h with
  | @property head head' span span' t t' hh hs ht =>
    rw [member?, member?, hh.key, hh.isOptional]
    cases head.key.name? with
    | none => exact .none
    | some name => exact .some (annotated_like he hh name _ hs ht)
  | @getter head head' span span' t t' hh hs ht =>
    rw [member?, member?, hh.key]
    cases head.key.name? with
    | none => exact .none
    | some name => exact .some (annotated_like he hh name _ hs ht)
  | @method head head' ts ts' uses hh ht =>
    rw [member?, member?, hh.key, hh.isOptional, hh.doc, he.fileId_eq, methodText?_eq hh]
    cases head.key.name? with
    | none => exact .none
    | some name => exact .some ⟨rfl, rfl, .function, rfl, rfl⟩
  | _ => exact .none

theorem merge_like {table table' : Table Member} (ht : table.Rel ℓ.LikeMember table')
    {ms ms' : List Member} (h : List.Forall₂ ℓ.LikeMember ms ms') :
    (merge table ms).Rel ℓ.LikeMember (merge table' ms') := by
  refine List.rel_foldl (fun _ _ ht m m' hm => ?_) ht h
  rw [hm.name]
  exact Table.Rel.put ht m.name hm

section

variable {e e' : Env} (he : ℓ.LikeEnv e e') {ms ms' : List TypeMember}
  (h : List.Forall₂
    (TypeMember.Like (SameText p q e.fileId (ℓ.number e.fileId)) (ℓ.known e.fileId)) ms ms')

include he h

theorem filterMap_member?_like :
    List.Forall₂ ℓ.LikeMember (ms.filterMap (member? p e)) (ms'.filterMap (member? q e')) := by
  refine List.rel_filterMap (fun m m' hm => ?_) h
  exact member?_like he hm

theorem literalMembers_like :
    List.Forall₂ ℓ.LikeMember (literalMembers p e ms) (literalMembers q e' ms') :=
  (merge_like .nil (filterMap_member?_like he h)).values

end

variable (ℓ) in
structure LikeJoined (j j' : Resolver.Joined) : Prop where
  first : ℓ.LikeMember j.first j'.first
  count : j'.count = j.count
  allRequired : j'.allRequired = j.allRequired
  types : List.Forall₂ ℓ.LikeTy j.types j'.types
  texts : j'.texts = j.texts

theorem LikeJoined.add {j j' : Resolver.Joined} (h : ℓ.LikeJoined j j') {m m' : Member}
    (hm : ℓ.LikeMember m m') : ℓ.LikeJoined (j.add m) (j'.add m') where
  first := { h.first with doc := by simp only [Resolver.Joined.add, h.first.doc, hm.doc] }
  count := congrArg (· + 1) h.count
  allRequired := by simp only [Resolver.Joined.add, h.allRequired, hm.isOptional]
  types := List.rel_append h.types (.cons hm.type .nil)
  texts := by simp only [Resolver.Joined.add, h.texts, hm.typeText]

theorem LikeJoined.result {j j' : Resolver.Joined} (h : ℓ.LikeJoined j j') (total : Nat) :
    ℓ.LikeMember (j.result total) (j'.result total) where
  name := h.first.name
  isOptional := by simp only [Resolver.Joined.result, h.count, h.allRequired]
  type := by
    obtain ⟨first, count, allRequired, types, texts⟩ := j
    obtain ⟨first', count', allRequired', types', texts'⟩ := j'
    rcases h.types with _ | ⟨ht, _ | ⟨hu, hts⟩⟩
    · exact .union .nil
    · exact ht
    · exact .union (.cons ht (.cons hu hts))
  doc := h.first.doc
  typeText := by simp only [Resolver.Joined.result, h.texts]

theorem joinMember_like {table table' : Table Resolver.Joined} (h : table.Rel ℓ.LikeJoined table')
    {m m' : Member} (hm : ℓ.LikeMember m m') :
    (joinMember table m).Rel ℓ.LikeJoined (joinMember table' m') := by
  have hstart : ℓ.LikeJoined (.start m) (.start m') := ⟨hm, rfl, rfl, .nil, rfl⟩
  rw [joinMember, joinMember, hm.name]
  exact h.put m.name (((h.get? m.name).getD hstart).add hm)

theorem joinBranches_like {branches branches' : List (List Member)}
    (h : List.Forall₂ (List.Forall₂ ℓ.LikeMember) branches branches') :
    List.Forall₂ ℓ.LikeMember (joinBranches branches) (joinBranches branches') := by
  have htable : Table.Rel ℓ.LikeJoined (branches.flatten.foldl joinMember [])
      (branches'.flatten.foldl joinMember []) := by
    refine List.rel_foldl (P := Table.Rel ℓ.LikeJoined) (fun table table' ht m m' hm => ?_) .nil
      (List.rel_flatten h)
    exact joinMember_like ht hm
  rw [joinBranches, joinBranches, h.length_eq]
  exact List.rel_map (fun _ _ hj => hj.result _) htable.values

variable (ℓ) in
def MembersLike (f g : Ty → Option (List Member)) : Prop :=
  ∀ t t', ℓ.LikeTy t t' → Option.Rel (List.Forall₂ ℓ.LikeMember) (f t) (g t')

variable {f g : Ty → Option (List Member)}

theorem unionMembers_like (h : ℓ.MembersLike f g) {ts ts' : List Ty}
    (hts : List.Forall₂ ℓ.LikeTy ts ts') :
    Option.Rel (List.Forall₂ ℓ.LikeMember) (unionMembers p f ts) (unionMembers q g ts') := by
  refine ((filter_flatten_like hts).mapM h).bind fun branches branches' hb => ?_
  rcases hb with _ | ⟨hfirst, _ | ⟨hsecond, hrest⟩⟩
  · exact .none
  · exact .some hfirst
  · exact .some (joinBranches_like (.cons hfirst (.cons hsecond hrest)))

theorem map_name_eq {ms ms' : List Member} (h : List.Forall₂ ℓ.LikeMember ms ms') :
    ms'.map Member.name = ms.map Member.name :=
  h.map_eq fun _ _ hm => hm.name

theorem find?_name_like {ms ms' : List Member} (h : List.Forall₂ ℓ.LikeMember ms ms')
    (key : String) :
    Option.Rel ℓ.LikeMember (ms.find? fun m => m.name == key) (ms'.find? fun m => m.name == key) :=
  h.find? fun _ _ hm => by rw [hm.name]

theorem literalKeys_eq (h : ℓ.MembersLike f g) (n : Nat) (ht : ℓ.LikeTy t t') :
    literalKeys q g n t' = literalKeys p f n t := by
  induction n generalizing t t' with
  | zero => rw [literalKeys, literalKeys]
  | succ n ih =>
    rw [literalKeys, literalKeys]
    refine congrArg (· >>= _) ((flatten_like ht).mapM_eq fun u u' hu => ?_)
    cases hu with
    | written hw he =>
      cases hw with
      | operator op hw =>
        cases op with
        | keyof => exact (h _ _ (.written hw he)).map_eq fun _ _ hms => map_name_eq hms
        | _ => rfl
      | @reference args args' path hknown hargs =>
        dsimp only
        have hnamed := he.lookup_like hknown
        revert hnamed
        generalize lookup p _ path = named, lookup q _ path = named'
        rintro (_ | d | _ | _ | _)
        case decl =>
          have halias := ℓ.aliasOf?_like d
          simp only [ℓ.enumValues?_eq d]
          cases enumValues? p d with
          | some values => rfl
          | none =>
            revert halias
            dsimp only
            generalize aliasOf? p d = found, aliasOf? q (ℓ.decl d) = found'
            rintro (ha | _)
            · exact ih (likeTy_alias ha (he.all hargs))
            · rfl
        all_goals rfl
      | _ => rfl
    | _ => rfl

theorem keys_eq (h : ℓ.MembersLike f g) (ht : ℓ.LikeTy t t') : keys q g t' = keys p f t := by
  rw [keys, keys, literalKeys_eq h _ ht]

theorem indexed?_like (h : ℓ.MembersLike f g) {object object' index index' : Ty}
    (ho : ℓ.LikeTy object object') (hi : ℓ.LikeTy index index') :
    Option.Rel ℓ.LikeTy (indexed? p f object index) (indexed? q g object' index') := by
  by_cases hindex : ∃ e, index = .written (.keyword .number) e
  · obtain ⟨e, rfl⟩ := hindex
    cases hi with
    | written ht he =>
      cases ht
      exact element?_like object ho
  · have hother : ∀ e, index ≠ .written (.keyword .number) e := not_exists.1 hindex
    have hother' : ∀ e, index' ≠ .written (.keyword .number) e := by
      rintro e rfl
      cases hi with
      | written ht he =>
        cases ht
        exact hother _ rfl
    simp only [indexed?, keys_eq h hi]
    cases keys p f index with
    | none => exact .none
    | some keys =>
      refine (h object object' ho).bind fun ms ms' hms => ?_
      have hfound : List.Forall₂ ℓ.LikeMember
          (keys.filterMap fun key => ms.find? fun m => m.name == key)
          (keys.filterMap fun key => ms'.find? fun m => m.name == key) := by
        refine List.rel_filterMap (R := Eq) (fun key _ hkey => ?_) (List.forall₂_eq_eq_eq ▸ rfl)
        exact hkey ▸ find?_name_like hms key
      revert hfound
      generalize keys.filterMap (fun key => ms.find? fun m => m.name == key) = found
      generalize keys.filterMap (fun key => ms'.find? fun m => m.name == key) = found'
      rintro (_ | ⟨hfirst, _ | ⟨hsecond, hrest⟩⟩)
      · exact .none
      · exact .some hfirst.type
      · exact .some (.union (List.rel_map (fun _ _ hm => hm.type)
          (.cons hfirst (.cons hsecond hrest))))

theorem mappedMember_like {e e' : Env} (he : ℓ.LikeEnv e e') (param : String)
    (mark : OptionalMark) {value : Option TypeExpr}
    (hv : Option.Rel (ℓ.LikeExpr e.fileId) value value') {source source' : List Member}
    (hs : List.Forall₂ ℓ.LikeMember source source') (key : String) :
    ℓ.LikeMember (mappedMember e param mark value source key)
      (mappedMember e' param mark value' source' key) := by
  have hfound := find?_name_like hs key
  have htype : ℓ.LikeTy ((value.map fun t => Ty.written t (e.bind param (.key key))).getD .any)
      ((value'.map fun t => Ty.written t (e'.bind param (.key key))).getD .any) :=
    (hv.map fun _ _ ht => .written ht (.bind param he (.key key))).getD .any
  simp only [mappedMember]
  revert hfound
  generalize source.find? (fun m => m.name == key) = found
  generalize source'.find? (fun m => m.name == key) = found'
  rintro (hm | _)
  · refine ⟨rfl, ?_, htype, hm.doc, hm.typeText⟩
    cases mark with
    | keep => exact hm.isOptional
    | _ => rfl
  · exact ⟨rfl, rfl, htype, rfl, rfl⟩

theorem mappedMembers_like (h : ℓ.MembersLike f g) {e e' : Env} (he : ℓ.LikeEnv e e')
    (param : String) {keyType keyType' : TypeExpr} (hk : ℓ.LikeExpr e.fileId keyType keyType')
    (mark : OptionalMark) {value : Option TypeExpr}
    (hv : Option.Rel (ℓ.LikeExpr e.fileId) value value') :
    Option.Rel (List.Forall₂ ℓ.LikeMember) (mappedMembers p f e param keyType mark value)
      (mappedMembers q g e' param keyType' mark value') := by
  by_cases hkeys : ∃ t, keyType = .operator .keyof t
  · obtain ⟨t, rfl⟩ := hkeys
    cases hk with
    | operator _ ht =>
      refine (h _ _ (.written ht he)).bind fun source source' hs => .some ?_
      refine List.rel_map (fun m m' hm => ?_) hs
      rw [hm.name]
      exact mappedMember_like he param mark hv hs m.name
  · have hother : ∀ t, keyType ≠ .operator .keyof t := not_exists.1 hkeys
    have hother' : ∀ t, keyType' ≠ .operator .keyof t := by
      rintro t rfl
      cases hk
      exact hother _ rfl
    simp only [mappedMembers, keys_eq h (.written hk he)]
    cases keys p f (.written keyType e) with
    | none => exact .none
    | some keys =>
      refine .some (List.rel_map (R := Eq) (fun key _ hkey => ?_) (List.forall₂_eq_eq_eq ▸ rfl))
      exact hkey ▸ mappedMember_like he param mark hv .nil key

theorem selected_like (h : ℓ.MembersLike f g) {first first' : Ty} (hfirst : ℓ.LikeTy first first')
    {second second' : Option Ty} (hsecond : Option.Rel ℓ.LikeTy second second')
    (test : List String → String → Bool) :
    Option.Rel (List.Forall₂ ℓ.LikeMember)
      (second.bind fun t => (keys p f t).bind fun keys =>
        (f first).bind fun ms => some (ms.filter fun m => test keys m.name))
      (second'.bind fun t => (keys q g t).bind fun keys =>
        (g first').bind fun ms => some (ms.filter fun m => test keys m.name)) := by
  refine hsecond.bind fun t t' ht => ?_
  rw [keys_eq h ht]
  cases keys p f t with
  | none => exact .none
  | some keys =>
    refine (h first first' hfirst).bind fun ms ms' hms => .some ?_
    refine List.rel_filter (fun m m' hm => ?_) hms
    simp only [hm.name]

theorem utilityMembers_like (h : ℓ.MembersLike f g) (name : String)
    (hargs : List.Forall₂ ℓ.LikeTy args args') :
    Option.Rel (List.Forall₂ ℓ.LikeMember) (utilityMembers p f name args)
      (utilityMembers q g name args') := by
  have hsecond := hargs.getElem? 1
  refine hargs.head?.bind fun first first' hfirst => ?_
  split
  case h_1 | h_2 =>
    refine (h first first' hfirst).bind fun ms ms' hms => .some ?_
    exact List.rel_map (fun m m' hm => { hm with isOptional := rfl }) hms
  case h_3 | h_4 => exact h first first' hfirst
  case h_5 => exact selected_like h hfirst hsecond fun keys name => keys.contains name
  case h_6 => exact selected_like h hfirst hsecond fun keys name => !keys.contains name
  case h_7 =>
    rw [keys_eq h hfirst]
    cases keys p f first with
    | none => exact .none
    | some keys =>
      refine .some (List.rel_map (R := Eq) (fun key _ hkey => ?_) (List.forall₂_eq_eq_eq ▸ rfl))
      exact hkey ▸ ⟨rfl, rfl, hsecond.getD .any, rfl, rfl⟩
  case h_8 =>
    try simp only [*]
    exact .none

variable (ℓ) in
def NamedLike (base base' : Env → List String → List Ty → Option (List Member)) : Prop :=
  ∀ e e' path args args', ℓ.LikeEnv e e' → (∀ name ∈ path.head?, ℓ.known e.fileId name) →
    List.Forall₂ ℓ.LikeTy args args' →
      Option.Rel (List.Forall₂ ℓ.LikeMember) (base e path args) (base' e' path args')

section Named

variable {base base' : Env → List String → List Ty → Option (List Member)}

theorem baseMembers_like (h : ℓ.NamedLike base base') {e e' : Env} (he : ℓ.LikeEnv e e')
    {b b' : InterfaceBase}
    (hb : b.Like (SameText p q e.fileId (ℓ.number e.fileId)) (ℓ.known e.fileId) b') :
    Option.Rel (List.Forall₂ ℓ.LikeMember) (b.path.bind fun path => base e path (e.all b.args))
      (b'.path.bind fun path => base' e' path (e'.all b'.args)) := by
  rw [hb.path]
  cases hpath : b.path with
  | none => exact .none
  | some path => exact h _ _ path _ _ he (hb.known path hpath) (he.all hb.args)

theorem addInterface_like (h : ℓ.NamedLike base base') {d : DeclRef} {args args' : List Ty}
    (hargs : List.Forall₂ ℓ.LikeTy args args') {table table' : Table Member}
    (ht : table.Rel ℓ.LikeMember table') {i i' : Interface}
    (hi : i.Like (SameText p q d.file (ℓ.number d.file)) (ℓ.known d.file) i') :
    (addInterface p base d.file args table i).Rel ℓ.LikeMember
      (addInterface q base' (ℓ.decl d).file args' table' i') := by
  have he : ℓ.LikeEnv ((Env.file d.file).bindParams i.params args)
      ((Env.file (ℓ.decl d).file).bindParams i'.params args') :=
    LikeEnv.bindParams hi.params (.file d.file) rfl hargs
  have hfile : ((Env.file d.file).bindParams i.params args).fileId = d.file :=
    fileId_bindParams _ _ _
  unfold addInterface
  have hms := hi.members
  rw [← hfile] at hms
  refine merge_like ?_ (filterMap_member?_like he hms)
  refine List.rel_foldl (P := Table.Rel ℓ.LikeMember)
    (fun table table' ht b b' hb => ?_) ht hi.bases
  rw [← hfile] at hb
  have hmembers := baseMembers_like h he hb
  revert hmembers
  generalize (b.path.bind fun path => base _ path _) = found
  generalize (b'.path.bind fun path => base' _ path _) = found'
  rintro (hms | _)
  · exact merge_like ht hms
  · exact ht

theorem declMembers_like (h : ℓ.MembersLike f g) (hb : ℓ.NamedLike base base') (d : DeclRef)
    {args args' : List Ty} (hargs : List.Forall₂ ℓ.LikeTy args args') :
    Option.Rel (List.Forall₂ ℓ.LikeMember) (declMembers p f base d args)
      (declMembers q g base' (ℓ.decl d) args') := by
  have hinterfaces := ℓ.interfaces_like d
  unfold declMembers
  revert hinterfaces
  generalize (p.declarations d).filterMap interface? = is
  generalize (q.declarations (ℓ.decl d)).filterMap interface? = is'
  intro his
  cases his with
  | nil => exact (ℓ.aliasOf?_like d).bind fun a a' ha => h _ _ (likeTy_alias ha hargs)
  | cons hfirst hrest =>
    refine .some (Table.Rel.values ?_)
    refine List.rel_foldl (P := Table.Rel ℓ.LikeMember) (fun table table' ht i i' hi => ?_) .nil
      (.cons hfirst hrest)
    exact addInterface_like hb hargs ht hi

end Named

variable (ℓ) in
def SearchesLike (members members' : MembersOf) : Prop :=
  ∀ expanding, ℓ.MembersLike (members expanding) (members' (expanding.map ℓ.decl))

variable {members members' : MembersOf}

theorem pathMembers_like (h : ℓ.SearchesLike members members') (n : Nat) (expanding : Expanding) :
    ℓ.NamedLike (pathMembers p members n expanding)
      (pathMembers q members' n (expanding.map ℓ.decl)) := by
  induction n generalizing expanding with
  | zero =>
    intro e e' path args args' he hknown hargs
    have hnamed := he.lookup_like hknown
    unfold pathMembers
    revert hnamed
    generalize lookup p e path = named, lookup q e' path = named'
    rintro (ht | d | _ | _ | name)
    case param => exact h expanding _ _ ht
    case decl => simp only [ite_self]; exact .none
    case unknown =>
      dsimp only
      split
      · exact utilityMembers_like (h expanding) name hargs
      · exact .none
    all_goals exact .none
  | succ n ih =>
    intro e e' path args args' he hknown hargs
    have hnamed := he.lookup_like hknown
    unfold pathMembers
    revert hnamed
    generalize lookup p e path = named, lookup q e' path = named'
    rintro (ht | d | _ | _ | name)
    case param => exact h expanding _ _ ht
    case decl =>
      simp only [ℓ.contains_decl]
      split
      · exact .none
      · exact declMembers_like (h (d :: expanding)) (ih (d :: expanding)) d hargs
    case unknown =>
      dsimp only
      split
      · exact utilityMembers_like (h expanding) name hargs
      · exact .none
    all_goals exact .none

theorem intersectionMembers_like (h : ℓ.MembersLike f g) {parts parts' : List Ty}
    (hparts : List.Forall₂ ℓ.LikeTy parts parts') :
    Option.Rel (List.Forall₂ ℓ.LikeMember) (intersectionMembers f parts)
      (intersectionMembers g parts') := by
  have hfound : List.Forall₂ (List.Forall₂ ℓ.LikeMember) (parts.filterMap f)
      (parts'.filterMap g) := List.rel_filterMap h hparts
  simp only [intersectionMembers, hfound.isEmpty_eq]
  split
  · exact .none
  · refine .some (Table.Rel.values ?_)
    refine List.rel_foldl (P := Table.Rel ℓ.LikeMember) (fun _ _ ht _ _ hms => ?_) .nil hfound
    exact merge_like ht hms

theorem membersStep_like (h : ℓ.SearchesLike members members') :
    ℓ.SearchesLike (membersStep p members) (membersStep q members') := by
  intro expanding t t' ht
  cases ht with
  | union hts => exact unionMembers_like (h expanding) hts
  | written hw he =>
    cases hw with
    | object hms => exact .some (literalMembers_like he hms)
    | paren hw => exact h expanding _ _ (.written hw he)
    | operator op hw =>
      cases op with
      | readonly => exact h expanding _ _ (.written hw he)
      | _ => exact .none
    | intersection hts => exact intersectionMembers_like (h expanding) (he.all hts)
    | union hts => exact unionMembers_like (h expanding) (he.all hts)
    | reference hknown hargs =>
      simp only [membersStep, ℓ.declaredCount_eq]
      exact pathMembers_like h _ expanding _ _ _ _ _ he hknown (he.all hargs)
    | mapped param mark hk hr hv =>
      cases hr with
      | none => exact mappedMembers_like (h expanding) he param hk mark hv
      | some _ => exact .none
    | indexed hobject hindex =>
      exact (indexed?_like (h expanding) (.written hobject he) (.written hindex he)).bind
        (h expanding)
    | _ => exact .none
  | _ => exact .none

variable (ℓ) in
theorem membersWithin_like (n : Nat) : ℓ.SearchesLike (membersWithin p n) (membersWithin q n) := by
  induction n with
  | zero => exact fun _ _ _ _ => .none
  | succ n ih => exact membersStep_like ih

end Likeness

end PropContract
