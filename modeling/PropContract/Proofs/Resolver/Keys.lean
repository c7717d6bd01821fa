import Mathlib.Algebra.Order.BigOperators.Group.List
import Mathlib.Algebra.Order.Group.Nat
import Mathlib.Data.Fintype.Card
import Mathlib.Data.Fintype.EquivFin
import Mathlib.Data.Fintype.Sets
import PropContract.Proofs.Lists
import PropContract.Proofs.Project.Reading
import PropContract.Proofs.Resolver.Opening

/-!
How deep the search for keys goes. Nothing stops it in a circle of aliases; elsewhere it ends, and
its answer does not depend on how deep it may go.
-/

namespace PropContract.Resolver

open Syntax Relation List

def leafKeys (p : Project) (members : Ty → Option (List Member))
    (next : Ty → Option (List String)) : Ty → Option (List String)
  | .key text => some [text]
  | .written (.string s) _ => some [s]
  | .written (.number v) _ => some [v.plainText]
  | .written (.operator .keyof t) env => (members (.written t env)).map (·.map Member.name)
  | .written (.reference path args) env =>
    match lookup p env path with
    | .decl d =>
      match enumValues? p d with
      | some values => values.mapM fun (_, value) => keyOf? value
      | none =>
        match aliasOf? p d with
        | some a => next (aliasBody d a (env.all args))
        | none => none
    | _ => none
  | _ => none

theorem literalKeys_succ (p : Project) (members : Ty → Option (List Member)) (n : Nat) (t : Ty) :
    literalKeys p members (n + 1) t =
      (flatten p t).mapM (leafKeys p members (literalKeys p members n)) >>= fun keys =>
        pure keys.flatten.eraseDups := by
  rw [literalKeys]
  rfl

def Nested (p : Project) (t u : Ty) : Prop :=
  ∃ d args a, Names p t d args ∧ enumValues? p d = none ∧ aliasOf? p d = some a ∧
    u = aliasBody d a args

/-- To list the keys of a type, those of another one are listed: all members of the union before
the name of an alias have keys. -/
def Calls (p : Project) (members : Ty → Option (List Member)) (t u : Ty) : Prop :=
  ∃ before leaf after, flatten p t = before ++ leaf :: after ∧
    (∀ b ∈ before, ∃ n, (leafKeys p members (literalKeys p members n) b).isSome = true) ∧
    Nested p leaf u

def Deep (p : Project) (members : Ty → Option (List Member)) : Nat → Ty → Prop
  | 0, _ => True
  | n + 1, t => ∃ u, Calls p members t u ∧ Deep p members n u

section Search

variable {p : Project} {members : Ty → Option (List Member)}

theorem leafKeys_of_nested (next : Ty → Option (List String)) {t u : Ty} (h : Nested p t u) :
    leafKeys p members next t = next u := by
  obtain ⟨d, args, a, ⟨path, types, env, rfl, hl, rfl⟩, henum, ha, rfl⟩ := h
  simp only [leafKeys, hl, henum, ha]

theorem leafKeys_of_not_nested {t : Ty} (h : ∀ u, ¬ Nested p t u)
    (next next' : Ty → Option (List String)) :
    leafKeys p members next t = leafKeys p members next' t := by
  cases t with
  | written t env =>
    cases t with
    | reference path args =>
      simp only [leafKeys]
      cases hl : lookup p env path with
      | decl d =>
        dsimp only
        cases henum : enumValues? p d with
        | some values => rfl
        | none =>
          dsimp only
          cases ha : aliasOf? p d with
          | none => rfl
          | some a => exact absurd ⟨d, _, a, ⟨path, args, env, rfl, hl, rfl⟩, henum, ha, rfl⟩ (h _)
      | _ => rfl
    | operator op t => cases op <;> rfl
    | _ => rfl
  | _ => rfl

theorem Deep.mono {n m : Nat} (hle : m ≤ n) {t : Ty} (h : Deep p members n t) :
    Deep p members m t := by
  induction n generalizing m t with
  | zero =>
    obtain rfl := Nat.le_zero.mp hle
    trivial
  | succ n ih =>
    cases m with
    | zero => trivial
    | succ m =>
      obtain ⟨u, hu, hdeep⟩ := h
      exact ⟨u, hu, ih (Nat.le_of_succ_le_succ hle) hdeep⟩

theorem literalKeys_eq_of_not_deep {n : Nat} {t : Ty} (h : ¬ Deep p members n t) {m : Nat}
    (hm : n ≤ m) : literalKeys p members m t = literalKeys p members n t := by
  induction n generalizing t m with
  | zero => exact absurd trivial h
  | succ n ih =>
    obtain ⟨m, rfl⟩ : ∃ k, m = k + 1 := ⟨m - 1, by omega⟩
    rw [literalKeys_succ, literalKeys_succ]
    refine congrArg (· >>= _) (mapM_congr_until_none fun before leaf after hleaves hbefore => ?_)
    by_cases hnested : ∃ u, Nested p leaf u
    · obtain ⟨u, hu⟩ := hnested
      rw [leafKeys_of_nested _ hu, leafKeys_of_nested _ hu]
      refine ih (fun hdeep => h ⟨u, ⟨before, leaf, after, hleaves, ?_, hu⟩, hdeep⟩) (by omega)
      exact fun b hb => ⟨m, hbefore b hb⟩
    · exact leafKeys_of_not_nested (not_exists.mp hnested) _ _

end Search

mutual

def openedNames : TypeExpr → List (List String)
  | .paren t => openedNames t
  | .union ts => openedNamesAll ts
  | .reference path args => path :: openedNamesAll args
  | _ => []

def openedNamesAll : List TypeExpr → List (List String)
  | [] => []
  | t :: ts => openedNames t ++ openedNamesAll ts

end

def aliasTypes (a : TypeAlias) : List TypeExpr :=
  a.type :: a.params.flatMap fun q => q.default.toList ++ q.bound.toList

def Leads (p : Project) (d d' : DeclRef) : Prop :=
  ∃ a t path, aliasOf? p d = some a ∧ t ∈ aliasTypes a ∧ path ∈ openedNames t ∧
    lookupIn p d.file path = .decl d'

/-- A type leads to a declaration that is named in it, or in what its type parameters stand
for. -/
inductive Mentions (p : Project) : Ty → DeclRef → Prop where
  | here : path ∈ openedNames t → lookupIn p env.fileId path = .decl d →
      Mentions p (.written t env) d
  | bound : env.find? name = some u → Mentions p u d → Mentions p (.written t env) d
  | among : u ∈ ts → Mentions p u d → Mentions p (.union ts) d

def OpensFinitely (p : Project) : Ty → Prop :=
  Acc fun u t => Opens p (fun _ _ => True) t u

def KeepsFinite (p : Project) (d : DeclRef) : Prop :=
  ∀ a args, aliasOf? p d = some a → (∀ u ∈ args, OpensFinitely p u) →
    OpensFinitely p (aliasBody d a args)

section Circles

variable {p : Project}

theorem opensFinitely_of_isPlain {t : Ty} (h : isPlain t = true) : OpensFinitely p t := by
  constructor
  intro u hu
  rw [hu.not_isPlain] at h
  cases h

mutual

theorem opensFinitely_written {env : Env}
    (henv : ∀ name u, env.find? name = some u → OpensFinitely p u) (t : TypeExpr)
    (hnames : ∀ path ∈ openedNames t, ∀ d, lookupIn p env.fileId path = .decl d →
      KeepsFinite p d) : OpensFinitely p (.written t env) := by
  cases t with
  | paren t =>
    rw [openedNames] at hnames
    constructor
    intro u hu
    rw [opens_paren.mp hu]
    exact opensFinitely_written henv t hnames
  | union ts =>
    rw [openedNames] at hnames
    constructor
    intro u hu
    exact opensFinitely_all henv ts hnames u (opens_union.mp hu)
  | reference path args =>
    rw [openedNames] at hnames
    have hargs := opensFinitely_all henv args fun path hpath =>
      hnames path (mem_cons_of_mem _ hpath)
    constructor
    intro u hu
    cases hu with
    | param hl =>
      obtain ⟨name, hname⟩ := find?_of_lookup hl
      exact henv name u hname
    | @named _ d args' a hn ha _ =>
      obtain ⟨_, _, _, ⟨⟩, hl, rfl⟩ := hn
      exact hnames path mem_cons_self d (of_lookup_eq_decl hl).2 a _ ha hargs
  | _ => exact opensFinitely_of_isPlain rfl

theorem opensFinitely_all {env : Env}
    (henv : ∀ name u, env.find? name = some u → OpensFinitely p u) (ts : List TypeExpr)
    (hnames : ∀ path ∈ openedNamesAll ts, ∀ d, lookupIn p env.fileId path = .decl d →
      KeepsFinite p d) : ∀ u ∈ env.all ts, OpensFinitely p u := by
  cases ts with
  | nil => exact forall_mem_nil _
  | cons t ts =>
    rw [openedNamesAll] at hnames
    refine forall_mem_cons.mpr ⟨?_, ?_⟩
    · exact opensFinitely_written henv t fun path hpath =>
        hnames path (mem_append_left _ hpath)
    · exact opensFinitely_all henv ts fun path hpath =>
        hnames path (mem_append_right _ hpath)

end

theorem opensFinitely_fallback {env : Env}
    (henv : ∀ name u, env.find? name = some u → OpensFinitely p u) (q : TypeParam)
    (hnames : ∀ t ∈ q.default.toList ++ q.bound.toList, ∀ path ∈ openedNames t, ∀ d,
      lookupIn p env.fileId path = .decl d → KeepsFinite p d) :
    OpensFinitely p (env.fallback q) := by
  unfold Env.fallback
  split
  · exact opensFinitely_written henv _ (hnames _ (by simp [*]))
  · exact opensFinitely_written henv _ (hnames _ (by simp [*]))
  · exact opensFinitely_of_isPlain rfl

theorem opensFinitely_bindParams {env : Env}
    (henv : ∀ name u, env.find? name = some u → OpensFinitely p u) (params : List TypeParam)
    {args : List Ty} (hargs : ∀ u ∈ args, OpensFinitely p u)
    (hnames : ∀ q ∈ params, ∀ t ∈ q.default.toList ++ q.bound.toList, ∀ path ∈ openedNames t, ∀ d,
      lookupIn p env.fileId path = .decl d → KeepsFinite p d) :
    ∀ name u, (env.bindParams params args).find? name = some u → OpensFinitely p u := by
  induction params generalizing env args with
  | nil => exact henv
  | cons q params ih =>
    refine ih ?_ (fun u hu => hargs u (mem_of_mem_tail hu))
      (fun q' hq' => hnames q' (mem_cons_of_mem _ hq'))
    intro name u hu
    rw [Env.find?] at hu
    split at hu
    · obtain rfl := Option.some.inj hu
      cases args with
      | nil => exact opensFinitely_fallback henv q (hnames q mem_cons_self)
      | cons arg args => exact hargs arg mem_cons_self
    · exact henv name u hu

theorem keepsFinite_of_acc {d : DeclRef} (h : Acc (fun d' d => Leads p d d') d) :
    KeepsFinite p d := by
  induction h with
  | intro d _ ih =>
    intro a args ha hargs
    have hnames (t : TypeExpr) (ht : t ∈ aliasTypes a) (path : List String)
        (hpath : path ∈ openedNames t) (d' : DeclRef) (hl : lookupIn p d.file path = .decl d') :
        KeepsFinite p d' := ih d' ⟨a, t, path, ha, ht, hpath, hl⟩
    refine opensFinitely_written ?_ a.type ?_
    · refine opensFinitely_bindParams (fun _ _ hu => by simp [Env.find?] at hu) a.params hargs ?_
      intro q hq t ht
      exact hnames t (mem_cons_of_mem _ (mem_flatMap.mpr ⟨q, hq, ht⟩))
    · rw [fileId_bindParams]
      exact hnames a.type mem_cons_self

mutual

theorem opensFinitely_of_mentions (t : Ty) (h : ∀ d, Mentions p t d → KeepsFinite p d) :
    OpensFinitely p t := by
  cases t with
  | written t env =>
    refine opensFinitely_written ?_ t fun path hpath d hl => h d (.here hpath hl)
    exact fun name u hu => opensFinitely_find? env hu fun d hd => h d (.bound hu hd)
  | union ts =>
    constructor
    intro u hu
    exact opensFinitely_among ts (fun u hu d hd => h d (.among hu hd)) u (opens_among.mp hu)
  | _ => exact opensFinitely_of_isPlain rfl

theorem opensFinitely_among (ts : List Ty)
    (h : ∀ u ∈ ts, ∀ d, Mentions p u d → KeepsFinite p d) : ∀ u ∈ ts, OpensFinitely p u := by
  cases ts with
  | nil => exact forall_mem_nil _
  | cons t ts =>
    refine forall_mem_cons.mpr ⟨?_, ?_⟩
    · exact opensFinitely_of_mentions t (h t mem_cons_self)
    · exact opensFinitely_among ts fun u hu => h u (mem_cons_of_mem _ hu)

theorem opensFinitely_find? (env : Env) {name : String} {u : Ty} (hu : env.find? name = some u)
    (h : ∀ d, Mentions p u d → KeepsFinite p d) : OpensFinitely p u := by
  cases env with
  | file id => cases hu
  | bind env key type =>
    rw [Env.find?] at hu
    split at hu
    · obtain rfl := Option.some.inj hu
      exact opensFinitely_of_mentions type h
    · exact opensFinitely_find? env hu h

end

/-- There are finitely many aliases, so that a way from one to the next without end comes to a
circle. -/
theorem acc_of_no_circle {d : DeclRef}
    (h : ∀ e, ReflTransGen (Leads p) d e → ¬ TransGen (Leads p) e e) :
    Acc (fun d' d => Leads p d d') d := by
  let r (x y : { e // e ∈ declaredRefs p }) : Prop :=
    ReflTransGen (Leads p) d y.1 ∧ TransGen (Leads p) y.1 x.1
  have htrans : IsTrans _ r := ⟨fun _ _ _ hxy hyz => ⟨hyz.1, hyz.2.trans hxy.2⟩⟩
  have hirrefl : Std.Irrefl r := ⟨fun x hx => h x.1 hx.1 hx.2⟩
  have hwf : WellFounded r := Finite.wellFounded_of_trans_of_irrefl r
  have hacc (e : DeclRef) (hne : e ∉ declaredRefs p) : Acc (fun d' d => Leads p d d') e := by
    constructor
    rintro e' ⟨a, _, _, ha, -⟩
    exact absurd (mem_declaredRefs ha) hne
  have hall (x : { e // e ∈ declaredRefs p }) :
      ReflTransGen (Leads p) d x.1 → Acc (fun d' d => Leads p d d') x.1 := by
    induction x using hwf.induction with
    | h x ih =>
      intro hx
      constructor
      intro e hlead
      by_cases he : e ∈ declaredRefs p
      · exact ih ⟨e, he⟩ ⟨hx, .single hlead⟩ (hx.tail hlead)
      · exact hacc e he
  by_cases hd : d ∈ declaredRefs p
  · exact hall ⟨d, hd⟩ .refl
  · exact hacc d hd

theorem opensFinitely_of_no_circle {t : Ty}
    (h : ∀ d e, Mentions p t d → ReflTransGen (Leads p) d e → ¬ TransGen (Leads p) e e) :
    OpensFinitely p t :=
  opensFinitely_of_mentions t fun d hd => keepsFinite_of_acc (acc_of_no_circle fun e => h d e hd)

theorem Calls.exists_nested {members : Ty → Option (List Member)} {t u : Ty}
    (h : Calls p members t u) : ∃ leaf ∈ flatten p t, Nested p leaf u := by
  obtain ⟨before, leaf, after, hleaves, -, hnested⟩ := h
  exact ⟨leaf, by simp [hleaves], hnested⟩

theorem Calls.transGen {members : Ty → Option (List Member)} {t u : Ty}
    (h : Calls p members t u) : TransGen (Opens p fun _ _ => True) t u := by
  obtain ⟨leaf, hleaf, d, args, a, hn, -, ha, rfl⟩ := h.exists_nested
  have hreaches : Reaches p (fun _ _ => True) t leaf :=
    (reaches_of_mem_flatten hleaf).mono fun _ _ _ => trivial
  exact .tail' hreaches (.named hn ha trivial)

theorem Nested.unique {t u u' : Ty} (h : Nested p t u) (h' : Nested p t u') : u = u' := by
  obtain ⟨d, args, a, hn, -, ha, rfl⟩ := h
  obtain ⟨d', args', a', hn', -, ha', rfl⟩ := h'
  obtain ⟨rfl, rfl⟩ := hn.unique hn'
  rw [Option.some.inj (ha.symm.trans ha')]

theorem exists_not_deep (members : Ty → Option (List Member)) {t : Ty} (h : OpensFinitely p t) :
    ∃ n, ¬ Deep p members n t := by
  have hacc := h.transGen
  clear h
  induction hacc with
  | intro t _ ih =>
    have hbound (leaf : Ty) : ∃ n, ∀ u, Nested p leaf u → Calls p members t u →
        ¬ Deep p members n u := by
      by_cases hcalls : ∃ u, Nested p leaf u ∧ Calls p members t u
      · obtain ⟨u, hu, hcall⟩ := hcalls
        obtain ⟨n, hn⟩ := ih u (transGen_swap.mpr hcall.transGen)
        exact ⟨n, fun u' hu' _ => hu.unique hu' ▸ hn⟩
      · exact ⟨0, fun u hu hcall => absurd ⟨u, hu, hcall⟩ hcalls⟩
    choose bound hbound using hbound
    refine ⟨((flatten p t).map bound).sum + 1, ?_⟩
    rintro ⟨u, hcall, hdeep⟩
    obtain ⟨leaf, hleaf, hnested⟩ := hcall.exists_nested
    refine hbound leaf u hnested hcall (hdeep.mono ?_)
    exact single_le_sum (fun _ _ => Nat.zero_le _) _ (mem_map_of_mem hleaf)

end Circles

def Renames (p : Project) (d d' : DeclRef) : Prop :=
  ∃ a path args, aliasOf? p d = some a ∧ enumValues? p d = none ∧ a.params = [] ∧
    a.type = .reference path args ∧ lookupIn p d.file path = .decl d'

section Renaming

variable {p : Project} {members : Ty → Option (List Member)}

theorem flatten_of_names {t : Ty} {d : DeclRef} {args : List Ty} {a : TypeAlias}
    (hn : Names p t d args) (ha : aliasOf? p d = some a) (hunion : isUnion a.type = false) :
    flatten p t = [t] := by
  refine flatten_of_opening? ?_
  rw [opening?_named hn, ha, Option.bind_some, hunion]
  rfl

theorem Renames.calls (members : Ty → Option (List Member)) {d d' : DeclRef}
    (h : Renames p d d') {t : Ty} {args : List Ty} (hn : Names p t d args) :
    ∃ t' args', Calls p members t t' ∧ Names p t' d' args' := by
  obtain ⟨a, path, types, ha, henum, hparams, htype, hl⟩ := h
  refine ⟨aliasBody d a args, (Env.file d.file).all types, ?_, ?_⟩
  · have hflat : flatten p t = [t] := flatten_of_names hn ha (by rw [htype]; rfl)
    exact ⟨[], t, [], hflat, nofun, d, args, a, hn, henum, ha, rfl⟩
  · refine ⟨path, types, .file d.file, ?_, ?_, rfl⟩
    · rw [aliasBody, htype, hparams]
      rfl
    · rcases path with _ | ⟨name, _ | ⟨word, rest⟩⟩ <;> exact hl

theorem deep_of_renames {d : DeclRef} (h : TransGen (Renames p) d d) {t : Ty} {args : List Ty}
    (hn : Names p t d args) (n : Nat) : Deep p members n t := by
  induction n generalizing d t args with
  | zero => trivial
  | succ n ih =>
    obtain ⟨d', hfirst, hback⟩ := TransGen.head'_iff.mp h
    obtain ⟨t', args', hcall, hn'⟩ := hfirst.calls members hn
    exact ⟨t', hcall, ih (.tail' hback hfirst) hn'⟩

end Renaming

/-- Where a type leads to no circle of aliases, the search for its keys ends, and its answer does
not depend on how deep it may go. A circle of aliases that are nothing but names of one another
has no end. -/
theorem keys_end_unless_circular (p : Project) (members : Ty → Option (List Member)) (t : Ty) :
    ((∀ d e, Mentions p t d → ReflTransGen (Leads p) d e → ¬ TransGen (Leads p) e e) →
      ∃ n, ¬ Deep p members n t ∧
        ∀ m, n ≤ m → literalKeys p members m t = literalKeys p members n t) ∧
    ∀ d args, Names p t d args → TransGen (Renames p) d d → ∀ n, Deep p members n t := by
  refine ⟨fun h => ?_, fun d args hn hcircle => deep_of_renames hcircle hn⟩
  obtain ⟨n, hn⟩ := exists_not_deep members (opensFinitely_of_no_circle h)
  exact ⟨n, hn, fun m => literalKeys_eq_of_not_deep hn⟩

def pairText : String :=
  "type Pair<T> = T | 'b';\ntype K = Pair<Pair<'a'>>;\n"

def isPair : Project → Bool
  | ⟨_, [⟨_, _, _, _, ⟨[("Pair", [.typeAlias ⟨"Pair", [⟨"T", none, none⟩],
      .union [.reference ["T"] [], .string "b"]⟩]),
      ("K", [.typeAlias ⟨"K", [], .reference ["Pair"] [.reference ["Pair"] [.string "a"]]⟩])],
      [], _, _, false⟩, _⟩]⟩ => true
  | _ => false

theorem pair_read : ∃ p, Project.ofSources {} {} [(⟨"/a.ts"⟩, pairText)] = .ok p ∧ isPair p :=
  Project.exists_ok_of_any (by decide +kernel)

theorem leads_pair (hp : isPair p) {d e : DeclRef} (h : Leads p d e) :
    d = ⟨0, "K"⟩ ∧ e = ⟨0, "Pair"⟩ := by
  unfold isPair at hp
  split at hp
  · obtain ⟨a, t, path, ha, ht, hpath, hl⟩ := h
    have hd : d = ⟨0, "Pair"⟩ ∨ d = ⟨0, "K"⟩ := mem_pair.mp (mem_declaredRefs ha)
    rcases hd with rfl | rfl
    · cases Option.some.inj ha
      obtain rfl := mem_singleton.mp ht
      obtain rfl : path = ["T"] := mem_singleton.mp hpath
      cases hl
    · cases Option.some.inj ha
      obtain rfl := mem_singleton.mp ht
      obtain rfl : path = ["Pair"] := by simpa [openedNames, openedNamesAll] using hpath
      exact ⟨rfl, (Named.decl.inj hl).symm⟩
  · cases hp

theorem keys_end_unless_circular_pair :
    ∃ p, Project.ofSources {} {} [(⟨"/a.ts"⟩, pairText)] = .ok p ∧
      ∃ n, ¬ Deep p (fun _ => none) n (.written (.reference ["K"] []) (.file 0)) ∧
        ∀ m, n ≤ m → literalKeys p (fun _ => none) m (.written (.reference ["K"] []) (.file 0)) =
          literalKeys p (fun _ => none) n (.written (.reference ["K"] []) (.file 0)) := by
  obtain ⟨p, hp, hpair⟩ := pair_read
  refine ⟨p, hp, (keys_end_unless_circular p (fun _ => none) _).1 fun d e _ _ hcircle => ?_⟩
  obtain ⟨e', hfirst, -⟩ := TransGen.head'_iff.mp hcircle
  obtain ⟨e'', -, hlast⟩ := TransGen.tail'_iff.mp hcircle
  exact absurd ((leads_pair hpair hfirst).1.symm.trans (leads_pair hpair hlast).2) (by decide)

def circleText : String :=
  "type A = B;\ntype B = A;\ntype K = 'a' | K;\n"

def isCircle : Project → Bool
  | ⟨_, [⟨_, _, _, _, ⟨[("A", [.typeAlias ⟨"A", [], .reference ["B"] []⟩]),
      ("B", [.typeAlias ⟨"B", [], .reference ["A"] []⟩]),
      ("K", [.typeAlias ⟨"K", [], .union [.string "a", .reference ["K"] []]⟩])], _, _, _, _⟩,
      _⟩]⟩ => true
  | _ => false

theorem circle_read : ∃ p, Project.ofSources {} {} [(⟨"/a.ts"⟩, circleText)] = .ok p ∧ isCircle p :=
  Project.exists_ok_of_any (by decide +kernel)

/-- The keys of an alias in a circle are looked for without end. -/
theorem circular_keys_endless :
    ∃ p, Project.ofSources {} {} [(⟨"/a.ts"⟩, circleText)] = .ok p ∧
      (¬ ∃ n, ¬ Deep p (membersWithin p stepLimit []) n
        (.written (.reference ["A"] []) (.file 0))) ∧
      ∃ a, aliasOf? p ⟨0, "K"⟩ = some a ∧
        ¬ ∃ n, ¬ Deep p (membersWithin p stepLimit []) n (.written a.type (.file 0)) := by
  obtain ⟨p, hp, hcircle⟩ := circle_read
  refine ⟨p, hp, ?_⟩
  clear hp
  unfold isCircle at hcircle
  split at hcircle
  · constructor
    · rintro ⟨n, hn⟩
      refine hn (deep_of_renames (d := ⟨0, "A"⟩) ?_ ⟨["A"], [], .file 0, rfl, rfl, rfl⟩ n)
      exact .tail (.single ⟨_, ["B"], [], rfl, rfl, rfl, rfl, rfl⟩)
        ⟨_, ["A"], [], rfl, rfl, rfl, rfl, rfl⟩
    · refine ⟨_, rfl, ?_⟩
      rintro ⟨n, hn⟩
      induction n with
      | zero => exact hn trivial
      | succ n ih =>
        refine ih fun hdeep => hn ⟨_, ?_, hdeep⟩
        refine ⟨[.written (.string "a") (.file 0), .written (.string "a") (.file 0)],
          .written (.reference ["K"] []) (.file 0), [], rfl, ?_, ?_⟩
        · intro b hb
          obtain rfl : b = .written (.string "a") (.file 0) := by simpa using hb
          exact ⟨0, rfl⟩
        · exact ⟨⟨0, "K"⟩, [], _, ⟨["K"], [], .file 0, rfl, rfl, rfl⟩, rfl, rfl, rfl⟩
  · cases hcircle

end PropContract.Resolver
