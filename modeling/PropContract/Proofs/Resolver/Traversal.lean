import Mathlib.Data.List.Forall2
import PropContract.Proofs.Resolver.Members
import PropContract.Proofs.Resolver.Unfolding

/-!
What two runs of a resolver have in common. A law that is kept by the making of references and of
definitions, and by each way of putting shapes together, is kept by the whole recursion.
-/

namespace PropContract

open List

structure PropInfo.Alike (r : Shape → Shape → Prop) (p q : PropInfo) : Prop where
  name : p.name = q.name
  required : p.required = q.required
  shape : r p.shape q.shape
  default : p.default = q.default
  doc : p.doc = q.doc
  typeText : p.typeText = q.typeText

namespace Resolver

open Syntax

abbrev Twin := Ledger × Ledger

def Twin.after {α : Type} (l : Twin) (m n : StateM Ledger α) : Twin :=
  ((m.run l.1).2, (n.run l.2).2)

structure TwinLaw where
  fits : Project → Expanding → Ty → Prop := fun _ _ _ => True
  inv : Expanding → Twin → Prop
  grows : Twin → Twin → Prop
  limits : Nat → Prop := fun _ => True
  /-- How the shapes of one type compare at a depth, while some types are being expanded. -/
  good : Expanding → Nat → Twin → Shape → Shape → Prop
  asked : ∀ {p n E t E' u}, fits p E t → Asks p (membersWithin p n) E t E' u → fits p E' u := by
    intros; trivial
  grows_refl : ∀ l, grows l l
  grows_trans : ∀ {l₁ l₂ l₃}, grows l₁ l₂ → grows l₂ l₃ → grows l₁ l₃
  good_of_grows : ∀ {E depth l l' s t}, inv E l' → grows l l' → good E depth l s t →
    good E depth l' s t
  primitive : ∀ E depth l k, good E depth l (.primitive k) (.primitive k)
  literal : ∀ E depth l v, good E depth l (.literal v) (.literal v)
  function : ∀ E depth l, good E depth l .function .function
  ofClass : ∀ E depth l name, good E depth l (.instance name) (.instance name)
  react : ∀ {E depth l name s}, Library.reactShape? name = some s → good E depth l s s
  global : ∀ {E depth l name s}, Library.globalShape? name = some s → good E depth l s s
  arrayOf : ∀ {E depth l s t}, good E depth l s t → good E depth l (.arrayOf s) (.arrayOf t)
  rest : ∀ {E depth l s t}, good E depth l s t → good E depth l (restShape s) (restShape t)
  isOpen : ∀ {E depth l s t}, good E depth l s t → isOpenObject s = isOpenObject t
  /-- Objects stand above the limit, or at the top, where there is none. -/
  object : ∀ {E depth limit l} {ps qs : List PropInfo}, limits limit → depth = 0 ∨ depth < limit →
    inv E l → (ps.map PropInfo.name).Nodup →
    Forall₂ (PropInfo.Alike (good E (depth + 1) l)) ps qs →
    good E depth l (.object ps) (.object qs)
  union : ∀ {E depth l} {ss ts : List Shape}, inv E l → Forall₂ (good E depth l) ss ts →
    good E depth l (.classify (ss.flatMap Shape.branches))
      (.classify (ts.flatMap Shape.branches))
  literals : ∀ E depth l (values : List Literal),
    good E depth l (.classify (values.map .literal)) (.classify (values.map .literal))
  refer : ∀ {p E t d args depth l}, d ∈ E → fits p E t → Names p t d args → inv E l →
    grows l (l.after (Ledger.refer d) (Ledger.refer d)) ∧
      inv E (l.after (Ledger.refer d) (Ledger.refer d)) ∧
      good E depth (l.after (Ledger.refer d) (Ledger.refer d))
        ((Ledger.refer d).run l.1).1 ((Ledger.refer d).run l.2).1
  begun : ∀ {E d l}, inv E l → inv (d :: E) l
  define : ∀ {E d depth l s t}, inv (d :: E) l → good (d :: E) depth l s t →
    grows l (l.after (Ledger.define d s) (Ledger.define d t)) ∧
      inv E (l.after (Ledger.define d s) (Ledger.define d t)) ∧
      good E depth (l.after (Ledger.define d s) (Ledger.define d t)) s t

namespace TwinLaw

variable {α β : Type} {L : TwinLaw} {E : Expanding}

def Keeps (L : TwinLaw) (E : Expanding) (m n : StateM Ledger α) (l : Twin)
    (post : Twin → α → α → Prop) : Prop :=
  L.grows l (l.after m n) ∧ L.inv E (l.after m n) ∧
    post (l.after m n) (m.run l.1).1 (n.run l.2).1

variable {l : Twin} {post : Twin → β → β → Prop}

theorem keeps_pure {a b : α} {post : Twin → α → α → Prop} (hi : L.inv E l) (hp : post l a b) :
    L.Keeps E (pure a) (pure b) l post :=
  ⟨L.grows_refl l, hi, hp⟩

theorem keeps_primitive {depth : Nat} (hi : L.inv E l) (k : Primitive) :
    L.Keeps E (pure (.primitive k)) (pure (.primitive k)) l (L.good E depth) :=
  keeps_pure hi (L.primitive E depth l k)

variable {mid : Twin → α → α → Prop}

theorem keeps_bind {m n : StateM Ledger α} {f g : α → StateM Ledger β} (hm : L.Keeps E m n l mid)
    (hf : ∀ a b l', L.grows l l' → L.inv E l' → mid l' a b → L.Keeps E (f a) (g b) l' post) :
    L.Keeps E (m >>= f) (n >>= g) l post := by
  obtain ⟨hg, hi, hmid⟩ := hm
  obtain ⟨hg', hi', hpost⟩ := hf _ _ _ hg hi hmid
  exact ⟨L.grows_trans hg hg', hi', hpost⟩

theorem keeps_map {m n : StateM Ledger α} {f : α → β} (hm : L.Keeps E m n l mid)
    (hf : ∀ a b l', mid l' a b → post l' (f a) (f b)) :
    L.Keeps E (do return f (← m)) (do return f (← n)) l post :=
  keeps_bind hm fun a b l' _ hi hmid => keeps_pure hi (hf a b l' hmid)

/-- A definition that is made once the expansion of its name has ended. -/
theorem keeps_define {d : DeclRef} {depth : Nat} {m n : StateM Ledger α} {f : α → Shape}
    (h : L.Keeps (d :: E) m n l fun l' a b => L.good (d :: E) depth l' (f a) (f b)) :
    L.Keeps E (do let a ← m; Ledger.define d (f a); return a)
      (do let b ← n; Ledger.define d (f b); return b) l
      fun l' a b => L.good E depth l' (f a) (f b) := by
  obtain ⟨hg, hi, hs⟩ := h
  obtain ⟨hg', hi', hs'⟩ := L.define hi hs
  exact ⟨L.grows_trans hg hg', hi', hs'⟩

theorem keeps_mapM {f : α → StateM Ledger β} {xs : List α} (post : Twin → β → β → Prop)
    (hpost : ∀ l l' b c, L.inv E l' → L.grows l l' → post l b c → post l' b c)
    (hf : ∀ x ∈ xs, ∀ l, L.inv E l → L.Keeps E (f x) (f x) l post) (l : Twin) (hi : L.inv E l) :
    L.Keeps E (xs.mapM f) (xs.mapM f) l fun l' bs cs => Forall₂ (post l') bs cs := by
  induction xs generalizing l with
  | nil => exact keeps_pure hi .nil
  | cons x xs ih =>
    rw [mapM_cons]
    refine keeps_bind (hf x (by simp) l hi) fun b c l₁ _ hi₁ hb => ?_
    refine keeps_bind (ih (fun y hy => hf y (by simp [hy])) l₁ hi₁) fun bs cs l₂ hg hi₂ hbs => ?_
    exact keeps_pure hi₂ (.cons (hpost l₁ l₂ b c hi₂ hg hb) hbs)

theorem keeps_foldlM {f : β → α → StateM Ledger β} {xs : List α}
    (hf : ∀ b c, ∀ x ∈ xs, ∀ l, L.inv E l → post l b c → L.Keeps E (f b x) (f c x) l post) (b c : β)
    (l : Twin) (hi : L.inv E l) (hb : post l b c) :
    L.Keeps E (xs.foldlM f b) (xs.foldlM f c) l post := by
  induction xs generalizing b c l with
  | nil => exact keeps_pure hi hb
  | cons x xs ih =>
    rw [foldlM_cons, foldlM_cons]
    refine keeps_bind (hf b c x mem_cons_self l hi hb) fun b' c' l' _ hi' hb' => ?_
    exact ih (fun b c y hy => hf b c y (mem_cons_of_mem x hy)) b' c' l' hi' hb'

def Lawful (L : TwinLaw) (p : Project) (shape : ShapeOf) : Prop :=
  ∀ E t depth l, L.fits p E t → L.inv E l →
    L.Keeps E (shape E t depth) (shape E t depth) l (L.good E depth)

structure Supports (L : TwinLaw) (s : Setting) (shape : ShapeOf) (members : MembersOf) :
    Prop where
  limit : L.limits s.maxDepth
  shape : L.Lawful s.project shape
  apart : ∀ E, KeepsApart (members E)
  asked : ∀ {E t E' u}, L.fits s.project E t → Asks s.project members E t E' u →
    L.fits s.project E' u

section Step

variable {s : Setting} {shape : ShapeOf} {members : MembersOf} {depth : Nat} {l : Twin}

theorem propsOf_names (ms : List Member) (l : Ledger) :
    ((propsOf s shape E depth ms).run l).1.map PropInfo.name = ms.map Member.name := by
  unfold propsOf
  induction ms generalizing l with
  | nil => rfl
  | cons m ms ih =>
    rw [mapM_cons, map_cons, ← ih]
    rfl

def goodProps (L : TwinLaw) (E : Expanding) (depth : Nat) (l : Twin) (ps qs : List PropInfo) :
    Prop :=
  (ps.map PropInfo.name).Nodup ∧ Forall₂ (PropInfo.Alike (L.good E depth l)) ps qs

theorem propsOf_keeps (h : L.Lawful s.project shape) {ms : List Member} (hms : NamesApart ms)
    (hf : ∀ m ∈ ms, L.fits s.project E m.type) (hi : L.inv E l) :
    L.Keeps E (propsOf s shape E depth ms) (propsOf s shape E depth ms) l (L.goodProps E depth) := by
  have hmap : L.Keeps E (propsOf s shape E depth ms) (propsOf s shape E depth ms) l
      fun l' ps qs => Forall₂ (PropInfo.Alike (L.good E depth l')) ps qs := by
    apply keeps_mapM fun l' => PropInfo.Alike (L.good E depth l')
    · intro l l' p q hi' hg hp
      exact { hp with shape := L.good_of_grows hi' hg hp.shape }
    · intro m hm l hi
      exact keeps_map (h E m.type depth l (hf m hm) hi) fun a b l' hab =>
        ⟨rfl, rfl, hab, rfl, rfl, rfl⟩
    · exact hi
  obtain ⟨hg, hi', hp⟩ := hmap
  refine ⟨hg, hi', ?_, hp⟩
  rw [propsOf_names]
  exact hms

theorem objectShape_keeps (hlimit : L.limits s.maxDepth) (h : L.Lawful s.project shape)
    {ms : List Member} (hms : NamesApart ms)
    (hf : ∀ m ∈ ms, L.fits s.project E m.type) (hi : L.inv E l) :
    L.Keeps E (objectShape s shape E depth ms) (objectShape s shape E depth ms) l
      (L.good E depth) := by
  unfold objectShape
  split
  · exact keeps_primitive hi .object
  · rename_i habove
    have hdepth : depth < s.maxDepth := by simp_all
    refine keeps_bind (propsOf_keeps h hms hf hi) fun ps qs l' _ hi' hp => ?_
    exact keeps_pure hi' (L.object hlimit (.inr hdepth) hi' hp.1 hp.2)

theorem unionShape_keeps (h : L.Lawful s.project shape) {ts : List Ty}
    (hf : ∀ t ∈ unionLeaves s.project ts, L.fits s.project E t) (hi : L.inv E l) :
    L.Keeps E (unionShape s shape E depth ts) (unionShape s shape E depth ts) l (L.good E depth) := by
  unfold unionShape
  refine keeps_bind ?_ fun ss ts l' _ hi' hs => keeps_pure hi' (L.union hi' hs)
  apply keeps_mapM (L.good E depth)
  · exact fun _ _ _ _ => L.good_of_grows
  · exact fun t ht l hi => h E t depth l (hf t ht) hi
  · exact hi

theorem keyofShape_good (t : Ty) (l : Twin) :
    L.good E depth l (keyofShape members E t) (keyofShape members E t) := by
  unfold keyofShape
  split
  · rename_i ms _
    have hl := L.literals E depth l (ms.map fun m => .string m.name)
    rwa [map_map] at hl
  · exact L.primitive E depth l .string

/-- The parts of an intersection in both runs: the same members, which have distinct names, and
shapes that are no objects. -/
structure GoodParts (L : TwinLaw) (p : Project) (E : Expanding) (depth : Nat) (l : Twin)
    (parts parts' : Parts) : Prop where
  table : parts.table = parts'.table
  keyed : parts.table.Keyed Member.name
  fits : ∀ m ∈ parts.table.values, L.fits p E m.type
  other : Option.Rel (L.good E depth l) parts.other parts'.other

theorem GoodParts.mono {p : Project} {l' : Twin} {parts parts' : Parts} (hi : L.inv E l')
    (hg : L.grows l l') (h : GoodParts L p E depth l parts parts') :
    GoodParts L p E depth l' parts parts' := by
  obtain ⟨table, other⟩ := parts
  obtain ⟨table', other'⟩ := parts'
  obtain ⟨ht, hk, hf, ho⟩ := h
  refine ⟨ht, hk, hf, ?_⟩
  cases ho with
  | none => exact .none
  | some hs => exact .some (L.good_of_grows hi hg hs)

theorem GoodParts.orElse {p : Project} {parts parts' : Parts} {found found' : Shape}
    (h : GoodParts L p E depth l parts parts') (hfound : L.good E depth l found found') :
    GoodParts L p E depth l { parts with other := parts.other <|> some found }
      { parts' with other := parts'.other <|> some found' } := by
  obtain ⟨table, other⟩ := parts
  obtain ⟨table', other'⟩ := parts'
  obtain ⟨ht, hk, hf, ho⟩ := h
  refine ⟨ht, hk, hf, ?_⟩
  cases ho with
  | none => exact .some hfound
  | some hs => exact .some hs

theorem addPart_keeps (h : L.Lawful s.project shape) (parts parts' : Parts) {t : Ty}
    (ht : L.fits s.project E t)
    (hf : ∀ ms, members E t = some ms → ∀ m ∈ ms, L.fits s.project E m.type) (hi : L.inv E l)
    (hp : GoodParts L s.project E depth l parts parts') :
    L.Keeps E (addPart shape members E depth parts t) (addPart shape members E depth parts' t) l
      (GoodParts L s.project E depth) := by
  unfold addPart
  split
  · rename_i ms hms
    refine keeps_pure hi ⟨?_, keyed_merge hp.keyed ms, ?_, hp.other⟩
    · exact congrArg (merge · ms) hp.table
    · exact fun m hm => (mem_values_merge hm).elim (hp.fits m) (hf ms hms m)
  · refine keeps_bind (h E t depth l ht hi) fun found found' l' hg hi' hfound => ?_
    rw [L.isOpen hfound]
    split
    · exact keeps_pure hi' (hp.mono hi' hg)
    · exact keeps_pure hi' ((hp.mono hi' hg).orElse hfound)

theorem intersectionShape_keeps (hlimit : L.limits s.maxDepth) (h : L.Lawful s.project shape)
    {ts : List Ty}
    (hts : ∀ t ∈ ts, L.fits s.project E t)
    (hf : ∀ t ∈ ts, ∀ ms, members E t = some ms → ∀ m ∈ ms, L.fits s.project E m.type)
    (hi : L.inv E l) :
    L.Keeps E (intersectionShape s shape members E depth ts)
      (intersectionShape s shape members E depth ts) l (L.good E depth) := by
  unfold intersectionShape
  have hstart : GoodParts L s.project E depth l {} {} :=
    ⟨rfl, .nil _, forall_mem_nil _, .none⟩
  have hfold : L.Keeps E (ts.foldlM (addPart shape members E depth) {})
      (ts.foldlM (addPart shape members E depth) {}) l (GoodParts L s.project E depth) := by
    apply keeps_foldlM
    · exact fun parts parts' t ht _ hi hp => addPart_keeps h parts parts' (hts t ht) (hf t ht) hi hp
    · exact hi
    · exact hstart
  refine keeps_bind hfold fun parts parts' l' _ hi' hp => ?_
  obtain ⟨table, other⟩ := parts
  obtain ⟨table', other'⟩ := parts'
  obtain ⟨rfl, hk, hfits, ho⟩ := hp
  cases ho with
  | some hs => exact keeps_pure hi' hs
  | none => exact objectShape_keeps hlimit h hk.nodup_values hfits hi'

theorem globalShape_keeps (h : L.Supports s shape members) {env : Env}
    {path : List String} {types : List TypeExpr} {name : String}
    (hname : lookup s.project env path = .unknown name)
    (ht : L.fits s.project E (.written (.reference path types) env)) (hi : L.inv E l) :
    L.Keeps E (globalShape s shape members E depth name (env.all types))
      (globalShape s shape members E depth name (env.all types)) l (L.good E depth) := by
  unfold globalShape
  split
  -- Arrays, in both of their spellings.
  case h_1 | h_2 =>
    split
    · rename_i hu
      have hfits := h.asked ht (.arrayElement hname (by decide) hu)
      exact keeps_map (h.shape E _ depth l hfits hi) fun _ _ _ hs => L.arrayOf hs
    · exact keeps_primitive hi .array
  -- Types that are made of the members of another one.
  case h_3 | h_4 | h_5 | h_6 | h_7 | h_8 =>
    split
    · rename_i hms
      exact objectShape_keeps h.limit h.shape (utilityMembers_apart (h.apart E) hms)
        (fun m hm => h.asked ht (.utility hname hms hm)) hi
    · exact keeps_primitive hi .object
  case h_9 =>
    split
    · rename_i hu
      exact unionShape_keeps h.shape (fun u hm => h.asked ht (.nonNull hname hu hm)) hi
    · exact keeps_primitive hi .any
  case h_10 =>
    apply keeps_pure hi
    cases hg : Library.globalShape? name with
    | some found => exact L.global hg
    | none => exact L.primitive E depth l .any

theorem expandedShape_keeps (h : L.Supports s shape members) (d : DeclRef)
    (args : List Ty)
    (hf : ∀ u, Contains s.project members E d args u → L.fits s.project E u) (hi : L.inv E l) :
    L.Keeps E (expandedShape s shape members E depth d args)
      (expandedShape s shape members E depth d args) l (L.good E depth) := by
  unfold expandedShape
  dsimp only
  split
  · rename_i ha _
    exact h.shape E _ depth l (hf _ (.aliased ha)) hi
  · split
    · rename_i hms
      exact objectShape_keeps h.limit h.shape (declMembers_apart (h.apart E) hms)
        (fun m hm => hf _ (.member hms hm)) hi
    · exact keeps_primitive hi .object

theorem declShape_keeps (h : L.Supports s shape members) {t : Ty} {d : DeclRef}
    {args : List Ty} (hn : Names s.project t d args) (ht : L.fits s.project E t)
    (hi : L.inv E l) :
    L.Keeps E (declShape s shape members E depth d args)
      (declShape s shape members E depth d args) l (L.good E depth) := by
  unfold declShape
  dsimp only
  split
  · split
    · rename_i hc
      exact L.refer (by simpa using hc) ht hn hi
    · apply keeps_define
      exact expandedShape_keeps h d args (fun u hu => h.asked ht (.content hn hu)) (L.begun hi)
  · split
    · rename_i values _
      have hl := L.literals E depth l (values.map Prod.snd)
      rw [map_map] at hl
      exact keeps_pure hi hl
    · apply keeps_pure hi
      split
      · exact L.ofClass E depth l d.name
      · exact L.primitive E depth l .any

theorem enumMemberShape_good (p : Project) (d : DeclRef) (member : String) (l : Twin) :
    L.good E depth l (enumMemberShape p d member) (enumMemberShape p d member) := by
  unfold enumMemberShape
  split
  · exact L.literal E depth l _
  · exact L.primitive E depth l .any

theorem referenceShape_keeps (h : L.Supports s shape members) {env : Env}
    {path : List String} {types : List TypeExpr}
    (ht : L.fits s.project E (.written (.reference path types) env)) (hi : L.inv E l) :
    L.Keeps E (referenceShape s shape members E depth env path (env.all types))
      (referenceShape s shape members E depth env path (env.all types)) l (L.good E depth) := by
  unfold referenceShape
  split
  · rename_i hu
    exact h.shape E _ depth l (h.asked ht (.param hu)) hi
  · rename_i hd
    exact declShape_keeps h ⟨path, types, env, rfl, hd, rfl⟩ ht hi
  · exact keeps_pure hi (enumMemberShape_good _ _ _ l)
  · apply keeps_pure hi
    split
    · rename_i _ name _ _
      cases hr : Library.reactShape? name with
      | some found => exact L.react hr
      | none => exact L.primitive E depth l .any
    · exact L.primitive E depth l .any
  · rename_i hname
    exact globalShape_keeps h hname ht hi

theorem keywordShape_good (k : Keyword) (l : Twin) :
    L.good E depth l (keywordShape k) (keywordShape k) := by
  cases k with
  | null => exact L.literal E depth l .null
  | _ => exact L.primitive E depth l _

theorem writtenShape_keeps (h : L.Supports s shape members) (env : Env) (t : TypeExpr)
    (ht : L.fits s.project E (.written t env)) (hi : L.inv E l) :
    L.Keeps E (writtenShape s shape members E depth env t)
      (writtenShape s shape members E depth env t) l (L.good E depth) := by
  have hshape {u : Ty} (hu : Asks s.project members E (.written t env) E u) :
      L.Keeps E (shape E u depth) (shape E u depth) l (L.good E depth) :=
    h.shape E u depth l (h.asked ht hu) hi
  cases t with
  | keyword k => exact keeps_pure hi (keywordShape_good k l)
  | string v => exact keeps_pure hi (L.literal E depth l (.string v))
  | number v => exact keeps_pure hi (L.literal E depth l (.number v))
  | boolean v => exact keeps_pure hi (L.literal E depth l (.boolean v))
  | bigint => exact keeps_primitive hi .bigInt
  | template texts types =>
    apply keeps_pure hi
    split
    · exact L.literal E depth l _
    · exact L.primitive E depth l .string
  | callable uses types => exact keeps_pure hi (L.function E depth l)
  | reference path args => exact referenceShape_keeps h ht hi
  | object ms =>
    simp only [writtenShape]
    split
    · exact keeps_pure hi (L.function E depth l)
    · exact objectShape_keeps h.limit h.shape (literalMembers_apart s.project env ms)
        (fun m hm => h.asked ht (.member hm)) hi
  | array t => exact keeps_map (hshape .array) fun _ _ _ hs => L.arrayOf hs
  | tuple labels ts =>
    simp only [writtenShape]
    split
    · exact keeps_primitive hi .array
    · exact keeps_map (unionShape_keeps h.shape (fun u hu => h.asked ht (.element hu)) hi)
        fun _ _ _ hs => L.arrayOf hs
  | optional t => exact hshape .optional
  | paren t => exact hshape .paren
  | rest t => exact keeps_map (hshape .rest) fun _ _ _ hs => L.rest hs
  | union ts => exact unionShape_keeps h.shape (fun u hu => h.asked ht (.writtenBranch hu)) hi
  | intersection ts =>
    exact intersectionShape_keeps h.limit h.shape (fun u hu => h.asked ht (.part hu))
      (fun u hu ms hms m hm => h.asked ht (.partMember hu hms hm)) hi
  | operator op t =>
    cases op with
    | keyof => exact keeps_pure hi (keyofShape_good (.written t env) l)
    | readonly => exact hshape .readonly
    | unique => exact keeps_primitive hi .symbol
  | indexed object index =>
    simp only [writtenShape]
    split
    · rename_i hu
      exact hshape (.indexed hu)
    · exact keeps_primitive hi .any
  | mapped param keys rename mark value =>
    simp only [writtenShape]
    split
    · rename_i hms
      exact objectShape_keeps h.limit h.shape (mappedMembers_apart (h.apart E) hms)
        (fun m hm => h.asked ht (.mapped hms hm)) hi
    · exact keeps_primitive hi .object
  | predicate subject type => exact keeps_primitive hi .boolean
  | this | query | conditional | infer => exact keeps_primitive hi .any

theorem shapeStep_keeps (h : L.Supports s shape members) (t : Ty)
    (ht : L.fits s.project E t) (hi : L.inv E l) :
    L.Keeps E (shapeStep s shape members E t depth) (shapeStep s shape members E t depth) l
      (L.good E depth) := by
  cases t with
  | written t env => exact writtenShape_keeps h env t ht hi
  | key text => exact keeps_pure hi (L.literal E depth l (.string text))
  | function => exact keeps_pure hi (L.function E depth l)
  | any => exact keeps_primitive hi .any
  | union ts => exact unionShape_keeps h.shape (fun u hu => h.asked ht (.branch hu)) hi

end Step

theorem shapeWithin_lawful (L : TwinLaw) {s : Setting} (hlimit : L.limits s.maxDepth) (n : Nat) :
    L.Lawful s.project (shapeWithin s n) := by
  induction n with
  | zero => exact fun E _ depth l _ hi => keeps_primitive hi .any
  | succ n ih =>
    exact fun E t depth l ht hi =>
      shapeStep_keeps ⟨hlimit, ih, membersWithin_apart s.project n, L.asked⟩ t ht hi

def GoodAnswers (L : TwinLaw) (l : Twin) :
    Except ResolveError (List PropInfo) → Except ResolveError (List PropInfo) → Prop
  | .error e, .error e' => e = e'
  | .ok ps, .ok qs => L.good [] 0 l (.object ps) (.object qs)
  | _, _ => False

theorem members_getD {found : Option (List Member)} {P : Member → Prop}
    (hapart : ∀ ms, found = some ms → NamesApart ms) (h : ∀ ms, found = some ms → ∀ m ∈ ms, P m) :
    NamesApart (found.getD []) ∧ ∀ m ∈ found.getD [], P m := by
  cases found with
  | none => exact ⟨nodup_nil, forall_mem_nil _⟩
  | some ms => exact ⟨hapart ms rfl, h ms rfl⟩

section Questions

variable {s : Setting} (hlimit : L.limits s.maxDepth)

include hlimit

theorem limitedProps_keeps {ms : List Member} (hms : NamesApart ms)
    (hf : ∀ m ∈ ms, L.fits s.project E m.type) {l : Twin} (hi : L.inv E l) :
    L.Keeps E (limitedProps s E ms) (limitedProps s E ms) l (L.goodProps E 1) :=
  propsOf_keeps (shapeWithin_lawful L hlimit stepLimit) hms hf hi

theorem declaredProps_keeps (d : DeclRef)
    (hf : ∀ u, Contains s.project (membersWithin s.project stepLimit) [d] d [] u →
      L.fits s.project [d] u) {l : Twin} (hi : L.inv [] l) :
    L.Keeps [] (declaredProps s d).run (declaredProps s d).run l L.GoodAnswers := by
  obtain ⟨hms, hfits⟩ := members_getD
    (fun ms h => declMembers_apart (membersWithin_apart s.project stepLimit [d]) h)
    (fun ms h m hm => hf m.type (.member h hm))
  unfold declaredProps
  dsimp only
  split
  · exact keeps_pure hi rfl
  · split
    · exact keeps_pure hi rfl
    · have hprops := limitedProps_keeps hlimit hms hfits (L.begun (d := d) hi)
      generalize limitedProps s [d] _ = found at hprops ⊢
      obtain ⟨hg, hi', hp⟩ := hprops
      exact keeps_define (f := .object) ⟨hg, hi', L.object hlimit (.inl rfl) hi' hp.1 hp.2⟩

theorem inlineProps_keeps (file : Nat) (type : TypeExpr)
    (hf : ∀ E u, Asked s (.inline file type) E u → L.fits s.project E u) {l : Twin}
    (hi : L.inv [] l) :
    L.Keeps [] (inlineProps s file type).run (inlineProps s file type).run l L.GoodAnswers := by
  unfold inlineProps
  split
  · rename_i hd
    exact declaredProps_keeps hlimit _ (fun u hu => hf _ u (.content (.inline hd) hu)) hi
  · rename_i hd
    obtain ⟨hms, hfits⟩ := members_getD
      (membersWithin_apart s.project stepLimit [] (.written type (.file file)))
      (fun ms h m hm => hf [] m.type (.member hd h hm))
    obtain ⟨hg, hi', hp⟩ := limitedProps_keeps hlimit hms hfits hi
    exact ⟨hg, hi', L.object hlimit (.inl rfl) hi' hp.1 hp.2⟩

end Questions

theorem resolveProps_keeps (s : Setting) (symbol : Symbol) (hi : L.inv [] l)
    (hf : ∀ E u, Asked s symbol E u → L.fits s.project E u := by intros; trivial)
    (hlimit : L.limits s.maxDepth := by trivial) :
    L.Keeps [] (resolveProps s symbol).run (resolveProps s symbol).run l L.GoodAnswers := by
  cases symbol with
  | declared d => exact declaredProps_keeps hlimit d (fun u hu => hf _ u (.content .declared hu)) hi
  | inline file type => exact inlineProps_keeps hlimit file type hf hi
  | named file name =>
    simp only [resolveProps]
    split
    · rename_i hd
      exact declaredProps_keeps hlimit _ (fun u hu => hf _ u (.content (.named hd) hu)) hi
    · exact keeps_pure hi (L.object hlimit (.inl rfl) hi nodup_nil .nil)
    · exact keeps_pure hi rfl
    · exact keeps_pure hi rfl
    · exact keeps_pure hi rfl

end TwinLaw

structure LedgerLaw where
  fits : Project → Expanding → Ty → Prop := fun _ _ _ => True
  inv : Expanding → Ledger → Prop
  grows : Ledger → Ledger → Prop
  asked : ∀ {p n E t E' u}, fits p E t → Asks p (membersWithin p n) E t E' u → fits p E' u := by
    intros; trivial
  grows_refl : ∀ l, grows l l
  grows_trans : ∀ {l₁ l₂ l₃}, grows l₁ l₂ → grows l₂ l₃ → grows l₁ l₃
  begun : ∀ {E d l}, inv E l → inv (d :: E) l

structure ShapeLaw extends LedgerLaw where
  limits : Nat → Prop := fun _ => True
  good : Expanding → Nat → Ledger → Shape → Prop
  good_of_grows : ∀ {E depth l l' s}, grows l l' → good E depth l s → good E depth l' s
  primitive : ∀ E depth l k, good E depth l (.primitive k)
  literal : ∀ E depth l v, good E depth l (.literal v)
  function : ∀ E depth l, good E depth l .function
  ofClass : ∀ E depth l name, good E depth l (.instance name)
  react : ∀ {E depth l name s}, Library.reactShape? name = some s → good E depth l s
  global : ∀ {E depth l name s}, Library.globalShape? name = some s → good E depth l s
  arrayOf : ∀ {E depth l s}, good E depth l s → good E depth l (.arrayOf s)
  element : ∀ {E depth l s}, good E depth l (.arrayOf s) → good E depth l s
  object : ∀ {E depth limit l} {ps : List PropInfo}, limits limit → depth = 0 ∨ depth < limit →
    (ps.map PropInfo.name).Nodup → (∀ p ∈ ps, good E (depth + 1) l p.shape) →
    good E depth l (.object ps)
  union : ∀ {E depth l} {shapes : List Shape}, (∀ s ∈ shapes, good E depth l s) →
    good E depth l (.classify (shapes.flatMap Shape.branches))
  literals : ∀ E depth l (values : List Literal),
    good E depth l (.classify (values.map .literal))
  refer : ∀ {p E t d args depth l}, d ∈ E → fits p E t → Names p t d args → inv E l →
    grows l ((Ledger.refer d).run l).2 ∧ inv E ((Ledger.refer d).run l).2 ∧
      good E depth ((Ledger.refer d).run l).2 ((Ledger.refer d).run l).1
  define : ∀ {E d depth l s}, inv (d :: E) l → good (d :: E) depth l s →
    grows l ((Ledger.define d s).run l).2 ∧ inv E ((Ledger.define d s).run l).2 ∧
      good E depth ((Ledger.define d s).run l).2 s

namespace ShapeLaw

theorem forall₂_eq_and {α : Type} {P : α → Prop} {xs ys : List α}
    (h : Forall₂ (fun x y => x = y ∧ P x) xs ys) : xs = ys ∧ ∀ x ∈ xs, P x := by
  induction h with
  | nil => exact ⟨rfl, forall_mem_nil _⟩
  | cons hxy _ ih => exact ⟨by rw [hxy.1, ih.1], forall_mem_cons.mpr ⟨hxy.2, ih.2⟩⟩

theorem eq_of_alike {P : Shape → Prop} {p q : PropInfo}
    (h : p.Alike (fun s t => s = t ∧ P s) q) : p = q ∧ P p.shape := by
  obtain ⟨n, r, s, d, doc, text⟩ := p
  obtain ⟨n', r', s', d', doc', text'⟩ := q
  obtain ⟨h₁, h₂, ⟨h₃, hs⟩, h₄, h₅, h₆⟩ := h
  exact ⟨PropInfo.mk.injEq .. ▸ ⟨h₁, h₂, h₃, h₄, h₅, h₆⟩, hs⟩

def twice (L : ShapeLaw) : TwinLaw where
  fits := L.fits
  inv E l := ∃ a, l = (a, a) ∧ L.inv E a
  grows l l' := L.grows l.1 l'.1
  limits := L.limits
  good E depth l s t := s = t ∧ L.good E depth l.1 s
  asked := L.asked
  grows_refl l := L.grows_refl l.1
  grows_trans := L.grows_trans
  good_of_grows _ hg hs := ⟨hs.1, L.good_of_grows hg hs.2⟩
  primitive E depth l k := ⟨rfl, L.primitive E depth l.1 k⟩
  literal E depth l v := ⟨rfl, L.literal E depth l.1 v⟩
  function E depth l := ⟨rfl, L.function E depth l.1⟩
  ofClass E depth l name := ⟨rfl, L.ofClass E depth l.1 name⟩
  react h := ⟨rfl, L.react h⟩
  global h := ⟨rfl, L.global h⟩
  arrayOf hs := ⟨congrArg Shape.arrayOf hs.1, L.arrayOf hs.2⟩
  rest hs := by
    refine ⟨congrArg restShape hs.1, ?_⟩
    unfold restShape
    split
    · exact L.element hs.2
    · exact hs.2
  isOpen hs := congrArg isOpenObject hs.1
  object hlimit hdepth _ hn hp := by
    obtain ⟨hpq, hgood⟩ := forall₂_eq_and (hp.imp fun _ _ => eq_of_alike)
    exact ⟨congrArg Shape.object hpq, L.object hlimit hdepth hn hgood⟩
  union _ hs := by
    obtain ⟨rfl, hgood⟩ := forall₂_eq_and hs
    exact ⟨rfl, L.union hgood⟩
  literals E depth l values := ⟨rfl, L.literals E depth l.1 values⟩
  refer hd ht hn hi := by
    obtain ⟨a, rfl, hi⟩ := hi
    obtain ⟨hg, hi', hs⟩ := L.refer hd ht hn hi
    exact ⟨hg, ⟨_, rfl, hi'⟩, rfl, hs⟩
  begun {E d l} hi := by
    obtain ⟨a, rfl, hi⟩ := hi
    exact ⟨a, rfl, L.begun hi⟩
  define hi hs := by
    obtain ⟨a, rfl, hi⟩ := hi
    obtain ⟨rfl, hs⟩ := hs
    obtain ⟨hg, hi', hs'⟩ := L.define hi hs
    exact ⟨hg, ⟨_, rfl, hi'⟩, rfl, hs'⟩

variable {L : ShapeLaw}

def goodAnswer (L : ShapeLaw) (l : Ledger) (answer : Except ResolveError (List PropInfo)) : Prop :=
  ∀ ps, answer = .ok ps → L.good [] 0 l (.object ps)

theorem resolveProps_keeps (s : Setting) (symbol : Symbol) {l : Ledger} (hi : L.inv [] l)
    (hf : ∀ E u, Asked s symbol E u → L.fits s.project E u := by intros; trivial)
    (hlimit : L.limits s.maxDepth := by trivial) :
    L.grows l ((resolveProps s symbol).run.run l).2 ∧
      L.inv [] ((resolveProps s symbol).run.run l).2 ∧
      L.goodAnswer ((resolveProps s symbol).run.run l).2 ((resolveProps s symbol).run.run l).1 := by
  have hkeeps : L.twice.Keeps [] (resolveProps s symbol).run (resolveProps s symbol).run (l, l)
      L.twice.GoodAnswers := TwinLaw.resolveProps_keeps s symbol ⟨l, rfl, hi⟩ hf hlimit
  obtain ⟨hg, ⟨l', hl, hi'⟩, ha⟩ := hkeeps
  obtain rfl : ((resolveProps s symbol).run.run l).2 = l' := congrArg Prod.fst hl
  refine ⟨hg, hi', ?_⟩
  intro ps hps
  rw [hps] at ha
  exact ha.2

end ShapeLaw

end Resolver

end PropContract
