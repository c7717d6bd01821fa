import Mathlib.Data.List.Perm.Subperm
import Mathlib.Logic.Relation
import PropContract.Proofs.Resolver.Unfolding

/-!
Types that are opened. What is reached by opening is found by the walk over the members of a union,
unless an alias is met with two different meanings.
-/

namespace PropContract.Resolver

open Syntax Relation Option

def aliasBody (d : DeclRef) (a : TypeAlias) (args : List Ty) : Ty :=
  .written a.type ((Env.file d.file).bindParams a.params args)

/-- One step of opening a type; `may` says which aliases are opened. -/
inductive Opens (p : Project) (may : DeclRef → TypeAlias → Prop) : Ty → Ty → Prop where
  | paren : Opens p may (.written (.paren t) env) (.written t env)
  | branch : t ∈ ts → Opens p may (.written (.union ts) env) (.written t env)
  | among : t ∈ ts → Opens p may (.union ts) t
  | param : lookup p env path = .param t → Opens p may (.written (.reference path args) env) t
  | named : Names p t d args → aliasOf? p d = some a → may d a → Opens p may t (aliasBody d a args)

abbrev Reaches (p : Project) (may : DeclRef → TypeAlias → Prop) : Ty → Ty → Prop :=
  ReflTransGen (Opens p may)

def Fresh (seen : Seen) (d : DeclRef) (a : TypeAlias) : Prop :=
  isUnion a.type = true ∧ d ∉ seen

def isPlain : Ty → Bool
  | .union _ | .written (.paren _) _ | .written (.union _) _ | .written (.reference ..) _ => false
  | _ => true

variable {t u : Ty} {p : Project} {may : DeclRef → TypeAlias → Prop} {d : DeclRef} {args : List Ty}
  {a : TypeAlias} {seen : Seen} {n : Nat}

variable {may' : DeclRef → TypeAlias → Prop}

theorem Opens.mono (hmay : ∀ d a, may d a → may' d a) (h : Opens p may t u) : Opens p may' t u := by
  cases h with
  | paren => exact .paren
  | branch ht => exact .branch ht
  | among ht => exact .among ht
  | param hl => exact .param hl
  | named hn ha hd => exact .named hn ha (hmay _ _ hd)

theorem Reaches.mono (hmay : ∀ d a, may d a → may' d a) (h : Reaches p may t u) :
    Reaches p may' t u :=
  ReflTransGen.mono (fun _ _ => Opens.mono hmay) _ _ h

theorem Names.unique {d' : DeclRef} {args' : List Ty} (h : Names p t d args)
    (h' : Names p t d' args') : d = d' ∧ args = args' := by
  obtain ⟨path, types, env, rfl, hl, rfl⟩ := h
  obtain ⟨_, _, _, ⟨⟩, hl', rfl⟩ := h'
  rw [hl] at hl'
  exact ⟨Named.decl.inj hl', rfl⟩

theorem Opens.of_names (h : Opens p may t u) (hn : Names p t d args) :
    ∃ a, aliasOf? p d = some a ∧ may d a ∧ u = aliasBody d a args := by
  cases h with
  | named hn' ha hmay =>
    obtain ⟨rfl, rfl⟩ := hn.unique hn'
    exact ⟨_, ha, hmay, rfl⟩
  | param hl =>
    obtain ⟨_, _, _, ⟨⟩, hl', -⟩ := hn
    rw [hl] at hl'
    cases hl'
  | paren | branch | among =>
    obtain ⟨_, _, _, ⟨⟩, -, -⟩ := hn

theorem Names.isReference (h : Names p t d args) :
    ∃ path types env, t = .written (.reference path types) env := by
  obtain ⟨path, types, env, rfl, -, -⟩ := h
  exact ⟨path, types, env, rfl⟩

section Steps

variable {p : Project} {may : DeclRef → TypeAlias → Prop} {env : Env} {u : Ty}

theorem opens_paren {t : TypeExpr} :
    Opens p may (.written (.paren t) env) u ↔ u = .written t env := by
  constructor
  · intro h
    cases h with
    | paren => rfl
    | named hn => obtain ⟨_, _, _, ⟨⟩⟩ := hn.isReference
  · rintro rfl
    exact .paren

theorem opens_union {ts : List TypeExpr} :
    Opens p may (.written (.union ts) env) u ↔ u ∈ env.all ts := by
  rw [Env.all, List.mem_map]
  constructor
  · intro h
    cases h with
    | branch ht => exact ⟨_, ht, rfl⟩
    | named hn => obtain ⟨_, _, _, ⟨⟩⟩ := hn.isReference
  · rintro ⟨t, ht, rfl⟩
    exact .branch ht

theorem opens_among {ts : List Ty} : Opens p may (.union ts) u ↔ u ∈ ts := by
  constructor
  · intro h
    cases h with
    | among ht => exact ht
    | named hn => obtain ⟨_, _, _, ⟨⟩⟩ := hn.isReference
  · exact .among

theorem opens_param {path : List String} {args : List TypeExpr} {t : Ty}
    (hl : lookup p env path = .param t) :
    Opens p may (.written (.reference path args) env) u ↔ u = t := by
  constructor
  · intro h
    cases h with
    | param hl' => exact Named.param.inj (hl'.symm.trans hl)
    | named hn =>
      obtain ⟨_, _, _, ⟨⟩, hl', -⟩ := hn
      cases hl'.symm.trans hl
  · rintro rfl
    exact .param hl

end Steps

theorem Opens.not_isPlain (h : Opens p may t u) : isPlain t = false := by
  cases h with
  | named hn =>
    obtain ⟨_, _, _, rfl, -, -⟩ := hn
    rfl
  | _ => rfl

/-- What a type is opened into, and which aliases have been seen then. A leaf is not opened. -/
def opening? (p : Project) (seen : Seen) : Ty → Option (List Ty × Seen)
  | .union ts => some (ts, seen)
  | .written (.paren t) env => some ([.written t env], seen)
  | .written (.union ts) env => some (env.all ts, seen)
  | .written (.reference path args) env =>
    match lookup p env path with
    | .param t => some ([t], seen)
    | .decl d => (aliasOf? p d).bind fun a =>
      if isUnion a.type && !seen.contains d then
        some ([aliasBody d a (env.all args)], d :: seen)
      else none
    | _ => none
  | _ => none

structure Walk where
  rest : List Ty
  seen : Seen
  found : List Ty

namespace Walk

inductive Step (p : Project) : Walk → Walk → Prop where
  | leaf {t : Ty} {ts found : List Ty} {seen : Seen} : opening? p seen t = none →
      Step p ⟨t :: ts, seen, found⟩ ⟨ts, seen, found ++ [t]⟩
  | opened {t : Ty} {us ts found : List Ty} {seen seen' : Seen} :
      opening? p seen t = some (us, seen') →
      Step p ⟨t :: ts, seen, found⟩ ⟨us ++ ts, seen', found⟩

abbrev Runs (p : Project) : Walk → Walk → Prop :=
  ReflTransGen (Step p)

variable {w w' w'' : Walk}

theorem Step.unique (h : Step p w w') (h' : Step p w w'') : w' = w'' := by
  cases h with
  | leaf hleaf =>
    cases h' with
    | leaf => rfl
    | opened hopen => cases hleaf.symm.trans hopen
  | opened hopen =>
    cases h' with
    | leaf hleaf => cases hleaf.symm.trans hopen
    | opened hopen' =>
      cases hopen.symm.trans hopen'
      rfl

theorem Runs.eq_of_end (h : Runs p w w') (hend : w.rest = []) : w' = w := by
  rcases h.cases_head with rfl | ⟨v, hstep, -⟩
  · rfl
  · cases hstep <;> cases hend

end Walk

theorem opening?_param {path : List String} {types : List TypeExpr} {env : Env}
    (h : lookup p env path = .param t) :
    opening? p seen (.written (.reference path types) env) = some ([t], seen) := by
  simp only [opening?, h]

theorem opening?_named (hn : Names p t d args) : opening? p seen t =
    (aliasOf? p d).bind fun a =>
      if isUnion a.type && !seen.contains d then some ([aliasBody d a args], d :: seen)
      else none := by
  obtain ⟨path, types, env, rfl, hl, rfl⟩ := hn
  simp only [opening?, hl]

theorem not_opens_of_opening? (h : opening? p seen t = none) (u : Ty) :
    ¬ Opens p (Fresh seen) t u := by
  intro hu
  cases hu with
  | paren | branch | among => cases h
  | param hl =>
    rw [opening?_param hl] at h
    cases h
  | named hn ha hfresh =>
    rw [opening?_named hn, ha] at h
    simp [hfresh.1, hfresh.2] at h

theorem opening?_cases {us : List Ty} {seen' : Seen} (h : opening? p seen t = some (us, seen')) :
    isPlain t = false ∧ (seen' = seen ∧ (∀ u, Opens p (Fresh seen) t u ↔ u ∈ us) ∨
      ∃ d args a, Names p t d args ∧ aliasOf? p d = some a ∧ Fresh seen d a ∧
        us = [aliasBody d a args] ∧ seen' = d :: seen) := by
  cases t with
  | union ts =>
    cases h
    exact ⟨rfl, .inl ⟨rfl, fun _ => opens_among⟩⟩
  | written t env =>
    cases t with
    | paren t =>
      cases h
      refine ⟨rfl, .inl ⟨rfl, fun u => ?_⟩⟩
      rw [List.mem_singleton]
      exact opens_paren
    | union ts =>
      cases h
      exact ⟨rfl, .inl ⟨rfl, fun _ => opens_union⟩⟩
    | reference path types =>
      refine ⟨rfl, ?_⟩
      cases hl : lookup p env path with
      | param t =>
        rw [opening?_param hl] at h
        cases h
        refine .inl ⟨rfl, fun u => ?_⟩
        rw [List.mem_singleton]
        exact opens_param hl
      | decl d =>
        have hn : Names p (.written (.reference path types) env) d (env.all types) :=
          ⟨path, types, env, rfl, hl, rfl⟩
        rw [opening?_named hn] at h
        obtain ⟨a, ha, hopen⟩ := bind_eq_some_iff.mp h
        by_cases hfresh : isUnion a.type && !seen.contains d
        · rw [if_pos hfresh] at hopen
          cases hopen
          exact .inr ⟨d, _, a, hn, ha, by simpa [Fresh] using hfresh, rfl, rfl⟩
        · rw [if_neg hfresh] at hopen
          cases hopen
      | enumMember | outside | unknown => simp [opening?, hl] at h
    | _ => cases h
  | _ => cases h

theorem Fresh.of_seen {d' : DeclRef} (h : Fresh (d' :: seen) d a) : Fresh seen d a :=
  ⟨h.1, fun hd => h.2 (List.mem_cons_of_mem d' hd)⟩

namespace Walk.Runs

variable {w w' : Walk}

theorem isPrefix_found (h : Runs p w w') : w.found <+: w'.found := by
  induction h with
  | refl => exact List.prefix_rfl
  | tail _ hstep ih =>
    cases hstep with
    | leaf => exact ih.trans (List.prefix_append ..)
    | opened => exact ih

theorem sound (h : Runs p w w') (hu : u ∈ w'.found) :
    u ∈ w.found ∨ ∃ t ∈ w.rest, Reaches p (Fresh w.seen) t u := by
  induction h using ReflTransGen.head_induction_on with
  | refl => exact .inl hu
  | head hstep _ ih =>
    cases hstep with
    | @leaf t ts found seen hleaf =>
      rcases ih with hfound | ⟨t', ht', hr⟩
      · rcases List.mem_append.mp hfound with hfound | hfound
        · exact .inl hfound
        · exact .inr ⟨t, List.mem_cons_self, List.mem_singleton.mp hfound ▸ .refl⟩
      · exact .inr ⟨t', List.mem_cons_of_mem _ ht', hr⟩
    | @opened t us ts found seen seen' hopen =>
      refine ih.imp_right ?_
      rintro ⟨t', ht', hr⟩
      obtain ⟨-, ⟨rfl, hparts⟩ | ⟨d, args, a, hn, ha, hfresh, rfl, rfl⟩⟩ := opening?_cases hopen
      · rcases List.mem_append.mp ht' with ht' | ht'
        · exact ⟨t, List.mem_cons_self, .head ((hparts t').mpr ht') hr⟩
        · exact ⟨t', List.mem_cons_of_mem _ ht', hr⟩
      · have hr := Reaches.mono (fun _ _ => Fresh.of_seen) hr
        rcases List.mem_cons.mp ht' with rfl | ht'
        · exact ⟨t, List.mem_cons_self, .head (.named hn ha hfresh) hr⟩
        · exact ⟨t', List.mem_cons_of_mem _ ht', hr⟩

end Walk.Runs

/-- On the way to `goal` an alias is met with a meaning that is not the one it has elsewhere. -/
def Varies (p : Project) (root goal : Ty) : Prop :=
  ∃ t t' d a args args', Reaches p (Fresh []) root t ∧ Names p t d args ∧
    Reaches p (Fresh []) root t' ∧ Names p t' d args' ∧ aliasOf? p d = some a ∧
    isUnion a.type = true ∧ aliasBody d a args ≠ aliasBody d a args' ∧
    Reaches p (Fresh []) (aliasBody d a args') goal

/-- A way that avoids the aliases that have been seen either avoids one more, or it avoids it from
the last place on where that is opened. -/
theorem Reaches.avoid (h : Reaches p (Fresh seen) t u) (d : DeclRef) :
    Reaches p (Fresh (d :: seen)) t u ∨
      ∃ t' args a, Reaches p (Fresh seen) t t' ∧ Names p t' d args ∧ aliasOf? p d = some a ∧
        isUnion a.type = true ∧ Reaches p (Fresh (d :: seen)) (aliasBody d a args) u := by
  induction h using ReflTransGen.head_induction_on with
  | refl => exact .inl .refl
  | @head t t₁ hstep _ ih =>
    rcases ih with hr | ⟨t', args, a, hr, hlast⟩
    · by_cases hnames : ∃ args, Names p t d args
      · obtain ⟨args, hn⟩ := hnames
        obtain ⟨a, ha, hfresh, rfl⟩ := hstep.of_names hn
        exact .inr ⟨t, args, a, .refl, hn, ha, hfresh.1, hr⟩
      · refine .inl (.head ?_ hr)
        cases hstep with
        | paren => exact .paren
        | branch ht => exact .branch ht
        | among ht => exact .among ht
        | param hl => exact .param hl
        | named hn ha hfresh =>
          refine .named hn ha ⟨hfresh.1, fun hd => ?_⟩
          rcases List.mem_cons.mp hd with rfl | hd
          · exact hnames ⟨_, hn⟩
          · exact hfresh.2 hd
    · exact .inr ⟨t', args, a, .head hstep hr, hlast⟩

theorem Walk.Runs.complete {root goal : Ty} (hgoal : isPlain goal = true)
    (hsteady : ¬ Varies p root goal) {w w' : Walk} (h : Walk.Runs p w w') (hend : w'.rest = [])
    (hroot : ∀ t ∈ w.rest, Reaches p (Fresh []) root t) (ht : t ∈ w.rest)
    (hr : Reaches p (Fresh w.seen) t goal) : goal ∈ w'.found := by
  have hempty {seen : Seen} {t u : Ty} (h : Reaches p (Fresh seen) t u) :
      Reaches p (Fresh []) t u :=
    h.mono fun _ _ hf => ⟨hf.1, List.not_mem_nil⟩
  induction h using ReflTransGen.head_induction_on generalizing t with
  | refl =>
    rw [hend] at ht
    cases ht
  | head hstep hrun ih =>
    cases hstep with
    | @leaf first ts found seen hleaf =>
      rcases List.mem_cons.mp ht with rfl | ht
      · rcases hr.cases_head with rfl | ⟨u, hstep, -⟩
        · exact (Walk.Runs.isPrefix_found hrun).subset
            (List.mem_append_right found (List.mem_singleton_self t))
        · exact absurd hstep (not_opens_of_opening? hleaf u)
      · exact ih (fun t ht => hroot t (List.mem_cons_of_mem _ ht)) ht hr
    | @opened first us ts found seen seen' hopen =>
      obtain ⟨hplain, ⟨rfl, hparts⟩ | ⟨d, args, a, hn, ha, hfresh, rfl, rfl⟩⟩ :=
        opening?_cases hopen
      · have hnext (t : Ty) (ht : t ∈ us ++ ts) : Reaches p (Fresh []) root t := by
          rcases List.mem_append.mp ht with ht | ht
          · exact (hroot first List.mem_cons_self).trans (hempty (.single ((hparts t).mpr ht)))
          · exact hroot t (List.mem_cons_of_mem _ ht)
        rcases List.mem_cons.mp ht with rfl | ht
        · rcases hr.cases_head with rfl | ⟨u, hstep, hr⟩
          · rw [hplain] at hgoal
            cases hgoal
          · exact ih hnext (List.mem_append_left ts ((hparts u).mp hstep)) hr
        · exact ih hnext (List.mem_append_right us ht) hr
      · have hbody : Reaches p (Fresh []) root (aliasBody d a args) :=
          (hroot first List.mem_cons_self).trans (hempty (.single (.named hn ha hfresh)))
        have hfind {t : Ty} (ht : t ∈ aliasBody d a args :: ts)
            (hr : Reaches p (Fresh (d :: seen)) t goal) : goal ∈ w'.found := by
          refine ih (fun t ht => ?_) ht hr
          rcases List.mem_cons.mp ht with rfl | ht
          · exact hbody
          · exact hroot t (List.mem_cons_of_mem _ ht)
        rcases hr.avoid d with hr | ⟨t', args', a', hr', hn', ha', hunion, hlast⟩
        · rcases List.mem_cons.mp ht with rfl | ht
          · -- The name of the alias cannot be passed without opening it.
            rcases hr.cases_head with rfl | ⟨u, hstep, -⟩
            · rw [hplain] at hgoal
              cases hgoal
            · obtain ⟨_, _, hfresh', _⟩ := hstep.of_names hn
              exact absurd List.mem_cons_self hfresh'.2
          · exact hfind (List.mem_cons_of_mem _ ht) hr
        · obtain rfl : a = a' := Option.some.inj (ha.symm.trans ha')
          have hsame : aliasBody d a args = aliasBody d a args' := by
            by_contra hne
            exact hsteady ⟨first, t', d, a, args, args', hroot first List.mem_cons_self, hn,
              (hroot t ht).trans (hempty hr'), hn', ha, hunion, hne, hempty hlast⟩
          exact hfind List.mem_cons_self (hsame ▸ hlast)

def declaredRefs (p : Project) : List DeclRef :=
  p.files.zipIdx.flatMap fun f => f.1.scope.locals.map fun entry => ⟨f.2, entry.1⟩

theorem length_declaredRefs (p : Project) : (declaredRefs p).length = declaredCount p := by
  simp only [declaredRefs, declaredCount, List.length_flatMap, List.length_map]
  conv_rhs => rw [← List.zipIdx_map_fst 0 p.files, List.map_map]
  rfl

theorem mem_declaredRefs (h : aliasOf? p d = some a) : d ∈ declaredRefs p := by
  obtain ⟨declared, hdeclared, -⟩ := List.exists_of_findSome?_eq_some h
  unfold Project.declarations Project.scopeOf at hdeclared
  cases hfile : p.file? d.file with
  | none => simp [hfile, Table.get?] at hdeclared
  | some file =>
    simp only [hfile, map_some, getD_some] at hdeclared
    cases hget : file.scope.locals.get? d.name with
    | none => simp [hget] at hdeclared
    | some ds =>
      refine List.mem_flatMap.mpr ⟨(file, d.file), List.mem_zipIdx_iff_getElem?.mpr hfile, ?_⟩
      exact List.mem_map.mpr ⟨_, Table.mem_of_get? hget, rfl⟩

def paramOf {α : Type} (params : String → Option α) : List String → Option α
  | [name] => params name
  | _ => none

theorem rel_paramOf {α β : Type} {r : α → β → Prop} {f : String → Option α}
    {g : String → Option β} (h : ∀ name, Option.Rel r (f name) (g name)) (path : List String) :
    Option.Rel r (paramOf f path) (paramOf g path) := by
  rcases path with _ | ⟨name, _ | ⟨word, rest⟩⟩
  · exact .none
  · exact h name
  · exact .none

theorem lookup_eq (p : Project) (env : Env) (path : List String) :
    lookup p env path =
      ((paramOf env.find? path).map Named.param).getD (lookupIn p env.fileId path) := by
  rcases path with _ | ⟨name, _ | ⟨word, rest⟩⟩
  · rfl
  · simp only [lookup, paramOf]
    cases env.find? name <;> rfl
  · rfl

theorem followPath_ne_param (p : Project) (first qualified : String) (current : Option Resolution)
    (path : List String) (t : Ty) : followPath p first qualified current path ≠ .param t := by
  fun_induction followPath p first qualified current path with
  | case6 file word rest ih => exact ih
  | _ => exact nofun

theorem lookupIn_ne_param (p : Project) (file : Nat) (path : List String) (t : Ty) :
    lookupIn p file path ≠ .param t := by
  cases path with
  | nil => exact nofun
  | cons first rest => exact followPath_ne_param p first _ _ rest t

theorem fileId_bindParams (env : Env) (params : List TypeParam) (args : List Ty) :
    (env.bindParams params args).fileId = env.fileId := by
  induction params generalizing env args with
  | nil => rfl
  | cons q params ih =>
    rw [Env.bindParams, ih]
    rfl

theorem find?_of_lookup {env : Env} {path : List String} (h : lookup p env path = .param t) :
    ∃ name, env.find? name = some t := by
  rw [lookup_eq] at h
  cases hparam : paramOf env.find? path with
  | none =>
    rw [hparam] at h
    exact absurd h (lookupIn_ne_param p env.fileId path t)
  | some u =>
    rw [hparam] at h
    obtain rfl : u = t := Named.param.inj h
    rcases path with _ | ⟨name, _ | ⟨word, rest⟩⟩
    · cases hparam
    · exact ⟨name, hparam⟩
    · cases hparam

theorem of_lookup_eq_decl {env : Env} {path : List String} (h : lookup p env path = .decl d) :
    paramOf env.find? path = none ∧ lookupIn p env.fileId path = .decl d := by
  rw [lookup_eq] at h
  cases hparam : paramOf env.find? path with
  | none =>
    rw [hparam] at h
    exact ⟨rfl, h⟩
  | some u =>
    rw [hparam] at h
    cases h

def opened (p : Project) (openAlias : Opener) (env : Env) (path : List String)
    (args : List TypeExpr) : Leaves := fun seen =>
  match lookupIn p env.fileId path with
  | .decl d =>
    (openAlias d (env.all args) seen).getD ([.written (.reference path args) env], seen)
  | _ => ([.written (.reference path args) env], seen)

theorem leavesOf_reference (p : Project) (openAlias : Opener) (env : Env)
    (params : String → Option Leaves) (path : List String) (args : List TypeExpr) :
    leavesOf p openAlias env params (.reference path args) =
      (paramOf params path).getD (opened p openAlias env path args) := by
  funext seen
  rcases path with _ | ⟨name, _ | ⟨word, rest⟩⟩
  · rw [leavesOf]
    · rfl
    · simp
  · simp only [leavesOf, paramOf]
    cases params name <;> rfl
  · rw [leavesOf]
    · rfl
    · simp

/-- The aliases that have been seen, while `n` may still be opened inside one another: there are
not so many that one is missed. -/
structure Ample (p : Project) (n : Nat) (seen : Seen) : Prop where
  nodup : seen.Nodup
  declared : ∀ d ∈ seen, d ∈ declaredRefs p
  enough : declaredCount p < n + seen.length

theorem Ample.pos (h : Ample p n seen) : 0 < n := by
  have hle : seen.length ≤ (declaredRefs p).length :=
    (List.subperm_of_subset h.nodup h.declared).length_le
  have henough := h.enough
  rw [length_declaredRefs] at hle
  omega

theorem Ample.succ (h : Ample p n seen) : Ample p (n + 1) seen :=
  ⟨h.nodup, h.declared, by have := h.enough; omega⟩

theorem Ample.cons (h : Ample p (n + 1) seen) (ha : aliasOf? p d = some a) (hd : d ∉ seen) :
    Ample p n (d :: seen) := by
  refine ⟨List.nodup_cons.mpr ⟨hd, h.nodup⟩, ?_, ?_⟩
  · exact List.forall_mem_cons.mpr ⟨mem_declaredRefs ha, h.declared⟩
  · have henough := h.enough
    rw [List.length_cons]
    omega

def Finds (p : Project) (n : Nat) (us : List Ty) (f : Leaves) : Prop :=
  ∀ seen, Ample p n seen → Ample p n (f seen).2 ∧
    ∀ ts found, Walk.Runs p ⟨us ++ ts, seen, found⟩ ⟨ts, (f seen).2, found ++ (f seen).1⟩

def FindsNamed (p : Project) (n : Nat) (f : Opener) : Prop :=
  ∀ t d args, Names p t d args → Finds p n [t] fun seen => (f d args seen).getD ([t], seen)

section Leaves

variable {p : Project} {n : Nat}

theorem finds_nil : Finds p n [] fun seen => ([], seen) := by
  refine fun seen hseen => ⟨hseen, fun ts found => ?_⟩
  rw [List.append_nil]
  exact .refl

theorem finds_leaf {t : Ty} (h : ∀ seen, opening? p seen t = none) : Finds p n [t] (leaf t) :=
  fun seen hseen => ⟨hseen, fun _ _ => .single (.leaf (h seen))⟩

theorem Finds.parts {t : Ty} {us : List Ty} {f : Leaves} (h : Finds p n us f)
    (hparts : ∀ seen, opening? p seen t = some (us, seen)) : Finds p n [t] f :=
  fun seen hseen => ⟨(h seen hseen).1, fun ts found =>
    .head (.opened (hparts seen)) ((h seen hseen).2 ts found)⟩

theorem Finds.cons {t : Ty} {us : List Ty} {f g : Leaves} (h : Finds p n [t] f)
    (h' : Finds p n us g) :
    Finds p n (t :: us) fun seen => ((f seen).1 ++ (g (f seen).2).1, (g (f seen).2).2) := by
  intro seen hseen
  obtain ⟨hfirst, hrun⟩ := h seen hseen
  obtain ⟨hrest, hrun'⟩ := h' (f seen).2 hfirst
  refine ⟨hrest, fun ts found => ?_⟩
  rw [← List.append_assoc]
  exact (hrun (us ++ ts) found).trans (hrun' ts (found ++ (f seen).1))

section Written

variable {f : Opener} {env : Env} {params : String → Option Leaves}

def FindsParams (p : Project) (n : Nat) (env : Env) (params : String → Option Leaves) : Prop :=
  ∀ name, Option.Rel (fun t => Finds p n [t]) (env.find? name) (params name)

theorem reference_finds (hf : FindsNamed p n f) (hparams : FindsParams p n env params)
    (path : List String) (args : List TypeExpr) :
    Finds p n [.written (.reference path args) env]
      (leavesOf p f env params (.reference path args)) := by
  rw [leavesOf_reference]
  have hpath : Option.Rel (fun t => Finds p n [t]) (paramOf env.find? path)
      (paramOf params path) := rel_paramOf hparams path
  have hlookup := lookup_eq p env path
  revert hpath hlookup
  generalize paramOf env.find? path = param, paramOf params path = leaves
  rintro (hleaves | _) hlookup
  case some u leaves =>
    exact hleaves.parts fun _ => opening?_param hlookup
  case none =>
    simp only [getD_none, map_none] at hlookup ⊢
    cases hl : lookupIn p env.fileId path with
    | decl d =>
      have hopened : opened p f env path args = fun seen =>
          (f d (env.all args) seen).getD ([.written (.reference path args) env], seen) := by
        funext seen
        simp only [opened, hl]
      rw [hopened]
      exact hf _ _ _ ⟨path, args, env, rfl, hlookup.trans hl, rfl⟩
    | param t => exact absurd hl (lookupIn_ne_param p env.fileId path t)
    | enumMember | outside | unknown =>
      have hopened : opened p f env path args = leaf (.written (.reference path args) env) := by
        funext seen
        simp only [opened, hl]
        rfl
      rw [hopened]
      refine finds_leaf fun seen => ?_
      simp only [opening?, hlookup, hl]

mutual

theorem leavesOf_finds (hf : FindsNamed p n f) (hparams : FindsParams p n env params)
    (t : TypeExpr) :
    Finds p n [.written t env] (leavesOf p f env params t) := by
  cases t with
  | paren t =>
    rw [leavesOf]
    exact (leavesOf_finds hf hparams t).parts fun _ => rfl
  | union ts =>
    rw [leavesOf]
    exact (leavesOfAll_finds hf hparams ts).parts fun _ => rfl
  | reference path args => exact reference_finds hf hparams path args
  | _ =>
    simp only [leavesOf]
    exact finds_leaf fun _ => rfl

theorem leavesOfAll_finds (hf : FindsNamed p n f) (hparams : FindsParams p n env params)
    (ts : List TypeExpr) :
    Finds p n (env.all ts) (leavesOfAll p f env params ts) := by
  cases ts with
  | nil =>
    rw [leavesOfAll]
    exact finds_nil
  | cons t ts =>
    rw [leavesOfAll]
    exact (leavesOf_finds hf hparams t).cons (leavesOfAll_finds hf hparams ts)

end

mutual

theorem leaves_finds (hf : FindsNamed p n f) (t : Ty) : Finds p n [t] (t.leaves p f) := by
  cases t with
  | written t env =>
    rw [Ty.leaves]
    exact leavesOf_finds hf (leaves_env_finds hf env) t
  | union ts =>
    rw [Ty.leaves]
    exact (leavesAll_finds hf ts).parts fun _ => rfl
  | _ =>
    simp only [Ty.leaves]
    exact finds_leaf fun _ => rfl

theorem leavesAll_finds (hf : FindsNamed p n f) (ts : List Ty) :
    Finds p n ts (Ty.leavesAll p f ts) := by
  cases ts with
  | nil =>
    rw [Ty.leavesAll]
    exact finds_nil
  | cons t ts =>
    rw [Ty.leavesAll]
    exact (leaves_finds hf t).cons (leavesAll_finds hf ts)

theorem leaves_env_finds (hf : FindsNamed p n f) (env : Env) :
    FindsParams p n env (env.leaves p f) := by
  intro name
  cases env with
  | file id =>
    rw [Env.leaves]
    exact .none
  | bind env key type =>
    rw [Env.find?, Env.leaves]
    split
    · exact .some (leaves_finds hf type)
    · exact leaves_env_finds hf env name

end

end Written

theorem openUnion_finds (n : Nat) : FindsNamed p n (openUnion p n) := by
  induction n with
  | zero => exact fun _ _ _ _ _ hseen => absurd hseen.pos (Nat.lt_irrefl 0)
  | succ n ih =>
    intro t d args hn seen hseen
    have hopening : opening? p seen t = _ := opening?_named hn
    simp only [openUnion]
    cases ha : aliasOf? p d with
    | none =>
      rw [ha, bind_none] at hopening
      exact ⟨hseen, fun _ _ => .single (.leaf hopening)⟩
    | some a =>
      rw [ha, bind_some] at hopening
      by_cases hfresh : isUnion a.type && !seen.contains d
      · rw [if_pos hfresh] at hopening
        obtain ⟨hample, hrun⟩ := leaves_finds ih (aliasBody d a args) (d :: seen)
          (hseen.cons ha (by simpa using (Bool.and_eq_true_iff.mp hfresh).2))
        simp only [if_pos hfresh, getD_some]
        exact ⟨hample.succ, fun ts found => .head (.opened hopening) (hrun ts found)⟩
      · rw [if_neg hfresh] at hopening
        simp only [if_neg hfresh, getD_none]
        exact ⟨hseen, fun _ _ => .single (.leaf hopening)⟩

end Leaves

theorem exists_run (p : Project) (t : Ty) :
    ∃ seen, Walk.Runs p ⟨[t], [], []⟩ ⟨[], seen, flatten p t⟩ := by
  have hample : Ample p (declaredCount p + 1) [] :=
    ⟨List.nodup_nil, List.forall_mem_nil _, by simp⟩
  exact ⟨_, (leaves_finds (openUnion_finds _) t [] hample).2 [] []⟩

theorem flatten_eq_of_runs {found : List Ty} (h : Walk.Runs p ⟨[t], [], []⟩ ⟨[], seen, found⟩) :
    flatten p t = found := by
  obtain ⟨seen', hrun⟩ := exists_run p t
  have hunique : Relator.RightUnique (Walk.Step p) := fun _ _ _ => Walk.Step.unique
  rcases hrun.total_of_right_unique hunique h with hrest | hrest
  · exact (congrArg Walk.found (Walk.Runs.eq_of_end hrest rfl)).symm
  · exact congrArg Walk.found (Walk.Runs.eq_of_end hrest rfl)

theorem flatten_of_opening? (h : opening? p [] t = none) : flatten p t = [t] :=
  flatten_eq_of_runs (.single (.leaf h))

theorem flatten_congr {q : Project} (h : opening? q = opening? p) : flatten q = flatten p := by
  funext t
  obtain ⟨seen, hrun⟩ := exists_run p t
  refine flatten_eq_of_runs (ReflTransGen.mono (fun w w' hstep => ?_) _ _ hrun)
  cases hstep with
  | leaf hleaf => exact .leaf (h ▸ hleaf)
  | opened hopen => exact .opened (h ▸ hopen)

theorem reaches_of_mem_flatten (h : u ∈ flatten p t) : Reaches p (Fresh []) t u := by
  obtain ⟨seen, hrun⟩ := exists_run p t
  obtain ⟨t', ht', hr⟩ := (hrun.sound h).resolve_left List.not_mem_nil
  exact List.mem_singleton.mp ht' ▸ hr

theorem mem_flatten_of_reaches (hu : isPlain u = true) (h : Reaches p (Fresh []) t u) :
    u ∈ flatten p t ∨ Varies p t u := by
  by_cases hvaries : Varies p t u
  · exact .inr hvaries
  · obtain ⟨seen, hrun⟩ := exists_run p t
    refine .inl (hrun.complete hu hvaries rfl ?_ (List.mem_singleton_self t) h)
    exact fun t' ht' => List.mem_singleton.mp ht' ▸ .refl

end PropContract.Resolver
