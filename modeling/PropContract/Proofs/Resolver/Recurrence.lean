import Mathlib.Logic.Relation
import PropContract.Proofs.Project.Reading
import PropContract.Proofs.Resolver.References

/-!
Where types are cut: a declaration is cut when it is met again inside of its own expansion, also
when its arguments there are others and it unfolds finitely.
-/

namespace PropContract.Resolver

open Syntax Relation List

def Part (p : Project) (t u : Ty) : Prop :=
  ∃ n E E', Asks p (membersWithin p n) E t E' u

def Content (p : Project) (d : DeclRef) (args : List Ty) (u : Ty) : Prop :=
  ∃ n E, Contains p (membersWithin p n) (d :: E) d args u

def UnfoldsFinitely (p : Project) (t : Ty) : Prop :=
  Acc (fun u t => Part p t u) t

section Unfolding

variable {p : Project} {d : DeclRef} {args args' : List Ty} {t u : Ty}

theorem Part.of_content (hn : Names p t d args) (hc : Content p d args u) : Part p t u := by
  obtain ⟨n, E, hc⟩ := hc
  exact ⟨n, E, d :: E, .content hn hc⟩

theorem Part.eq_of_param {path : List String} {types : List TypeExpr} {env : Env}
    (hl : lookup p env path = .param t) (h : Part p (.written (.reference path types) env) u) :
    u = t := by
  obtain ⟨n, E, E', ha⟩ := h
  cases ha with
  | param hu => exact Named.param.inj (hu.symm.trans hl)
  | content hn _ =>
    obtain ⟨_, _, _, he, hd, -⟩ := hn
    cases he
    cases hl.symm.trans hd
  | arrayElement hu | nonNull hu | utility hu => cases hl.symm.trans hu

theorem Part.content_of_decl {path : List String} {types : List TypeExpr} {env : Env}
    (hl : lookup p env path = .decl d) (h : Part p (.written (.reference path types) env) u) :
    Content p d (env.all types) u := by
  obtain ⟨n, E, E', ha⟩ := h
  cases ha with
  | content hn hc =>
    obtain ⟨_, _, _, he, hd, rfl⟩ := hn
    cases he
    obtain rfl := Named.decl.inj (hl.symm.trans hd)
    exact ⟨n, E, hc⟩
  | param hu | arrayElement hu | nonNull hu | utility hu => cases hl.symm.trans hu

theorem unfoldsFinitely_keyword (p : Project) (k : Keyword) (env : Env) :
    UnfoldsFinitely p (.written (.keyword k) env) := by
  constructor
  rintro u ⟨n, E, E', ha⟩
  cases ha with
  | content hn _ =>
    obtain ⟨_, _, _, he, -⟩ := hn
    cases he

theorem UnfoldsFinitely.of_chain (h : UnfoldsFinitely p t) (hu : ReflTransGen (Part p) t u) :
    UnfoldsFinitely p u := by
  induction hu with
  | refl => exact h
  | tail _ hpart ih => exact ih.inv hpart

def Simulates (p : Project) (r : Ty → Ty → Prop) : Prop :=
  ∀ t t' u, r t t' → Part p t u → ∃ u', TransGen (Part p) t' u' ∧ r u u'

theorem simulates_eq (p : Project) : Simulates p Eq := by
  rintro t _ u rfl hpart
  exact ⟨u, .single hpart, rfl⟩

theorem Simulates.chain {r : Ty → Ty → Prop} (h : Simulates p r) {t' : Ty} (ht : r t t')
    (hu : TransGen (Part p) t u) : ∃ u', TransGen (Part p) t' u' ∧ r u u' := by
  induction hu with
  | single hpart => exact h _ _ _ ht hpart
  | tail _ hpart ih =>
    obtain ⟨v, hv, hr⟩ := ih
    obtain ⟨u', hu', hr'⟩ := h _ _ _ hr hpart
    exact ⟨u', hv.trans hu', hr'⟩

/-- A type that unfolds finitely corresponds to nothing inside of itself: there it would stand
again, and again. -/
theorem UnfoldsFinitely.not_simulated {r : Ty → Ty → Prop} (hr : Simulates p r)
    (h : UnfoldsFinitely p t) : ∀ u, TransGen (Part p) t u → ¬ r t u := by
  have hacc : Acc (TransGen fun u t => Part p t u) t := h.transGen
  clear h
  induction hacc with
  | intro t _ ih =>
    -- The like of the way from `t` to `u` starts at `u`, which is deeper than `t`.
    intro u hu htu
    obtain ⟨u', hu', hr'⟩ := hr.chain htu hu
    exact ih u (transGen_swap.mpr hu) u' hu' hr'

def UnfoldsAlike (p : Project) (d : DeclRef) (args args' : List Ty) : Prop :=
  ∃ r, Simulates p r ∧ ∀ u, Content p d args u → ∃ u', Content p d args' u' ∧ r u u'

theorem unfoldsAlike_of_content (h : ∀ u, Content p d args u → Content p d args' u) :
    UnfoldsAlike p d args args' :=
  ⟨Eq, simulates_eq p, fun u hu => ⟨u, h u hu, rfl⟩⟩

def TakesArguments (p : Project) (d : DeclRef) : Prop :=
  ∃ x ∈ p.declarations d, (∃ a, typeAlias? x = some a ∧ a.params ≠ []) ∨
    ∃ i, interface? x = some i ∧ i.params ≠ []

theorem params_of_aliasOf? (h : ¬ TakesArguments p d) {a : TypeAlias}
    (ha : aliasOf? p d = some a) : a.params = [] := by
  obtain ⟨x, hx, hxa⟩ := exists_of_findSome?_eq_some ha
  by_contra hne
  exact h ⟨x, hx, .inl ⟨a, hxa, hne⟩⟩

theorem declMembers_args (h : ¬ TakesArguments p d) (members : Ty → Option (List Member))
    (base : Env → List String → List Ty → Option (List Member)) (args args' : List Ty) :
    declMembers p members base d args = declMembers p members base d args' := by
  have hparams : ∀ i ∈ (p.declarations d).filterMap interface?, i.params = [] := by
    intro i hi
    obtain ⟨x, hx, hxi⟩ := mem_filterMap.mp hi
    by_contra hne
    exact h ⟨x, hx, .inr ⟨i, hxi, hne⟩⟩
  unfold declMembers
  generalize (p.declarations d).filterMap interface? = interfaces at hparams
  cases interfaces with
  | nil =>
    cases ha : aliasOf? p d with
    | none => rfl
    | some a =>
      simp only [Option.bind_eq_bind, Option.bind_some, params_of_aliasOf? h ha, Env.bindParams]
  | cons i is =>
    have hfold : (i :: is).foldl (addInterface p base d.file args) [] =
        (i :: is).foldl (addInterface p base d.file args') [] := by
      apply foldl_ext
      intro table j hj
      simp only [addInterface, hparams j hj, Env.bindParams]
    simp only [hfold]

theorem Content.of_interface {i : Interface} (hd : p.declarations d = [.interface i])
    (hb : i.bases = []) (hc : Content p d args u) :
    ∃ m ∈ i.members.filterMap (member? p ((Env.file d.file).bindParams i.params args)),
      u = m.type := by
  obtain ⟨n, E, hc⟩ := hc
  cases hc with
  | aliased ha => simp [aliasOf?, hd, typeAlias?] at ha
  | @member ms m hms hm =>
    have hinterface : (p.declarations d).filterMap interface? = [i] := by simp [hd, interface?]
    simp only [declMembers, hinterface, foldl_cons, foldl_nil, addInterface, hb,
      Option.some.injEq] at hms
    subst hms
    exact ⟨m, (mem_values_merge hm).resolve_left not_mem_nil, rfl⟩

theorem content_args (h : ¬ TakesArguments p d) (hc : Content p d args u) :
    Content p d args' u := by
  obtain ⟨n, E, hc⟩ := hc
  refine ⟨n, E, ?_⟩
  cases hc with
  | @aliased a ha =>
    have hcontent : Contains p (membersWithin p n) (d :: E) d args'
        (.written a.type ((Env.file d.file).bindParams a.params args')) := .aliased ha
    rw [params_of_aliasOf? h ha, Env.bindParams] at hcontent ⊢
    exact hcontent
  | member hms hm => exact .member (declMembers_args h _ _ args args' ▸ hms) hm

end Unfolding

def Reached (s : Setting) (symbol : Symbol) (t : Ty) : Prop :=
  ∃ E r, Asked s symbol E r ∧ ReflTransGen (Part s.project) r t

def Inside (s : Setting) (symbol : Symbol) (d : DeclRef) (args : List Ty) (t : Ty) : Prop :=
  ∃ c, Reached s symbol c ∧ Content s.project d args c ∧ ReflTransGen (Part s.project) c t

def Recurs (s : Setting) (symbol : Symbol) (d : DeclRef) (outer inner : List Ty) : Prop :=
  ∃ t, Inside s symbol d outer t ∧ Names s.project t d inner

section Cut

variable {s : Setting} {symbol : Symbol} {d : DeclRef} {t u : Ty}

theorem Reached.part (h : Reached s symbol t) (hu : Part s.project t u) : Reached s symbol u := by
  obtain ⟨E, r, hr, hchain⟩ := h
  exact ⟨E, r, hr, hchain.tail hu⟩

theorem Inside.part {args : List Ty} (h : Inside s symbol d args t) (hu : Part s.project t u) :
    Inside s symbol d args u := by
  obtain ⟨c, hc, hd, hchain⟩ := h
  exact ⟨c, hc, hd, hchain.tail hu⟩

theorem Reached.unfoldsFinitely (h : Reached s symbol t)
    (hs : ∀ E r, Asked s symbol E r → UnfoldsFinitely s.project r) :
    UnfoldsFinitely s.project t := by
  obtain ⟨E, r, hr, hchain⟩ := h
  exact (hs E r hr).of_chain hchain

theorem Recurs.not_unfoldsAlike {outer inner : List Ty} (h : Recurs s symbol d outer inner)
    (hs : ∀ E r, Asked s symbol E r → UnfoldsFinitely s.project r) :
    ¬ UnfoldsAlike s.project d outer inner := by
  rintro ⟨r, hr, halike⟩
  obtain ⟨t, ⟨c, hc, hcontent, hchain⟩, hn⟩ := h
  obtain ⟨c', hcontent', hcc'⟩ := halike c hcontent
  have hagain : TransGen (Part s.project) c c' := .tail' hchain (.of_content hn hcontent')
  exact (hc.unfoldsFinitely hs).not_simulated hr c' hagain hcc'

def Comes (s : Setting) (symbol : Symbol) (p : Project) (E : Expanding) (t : Ty) : Prop :=
  p = s.project ∧ Reached s symbol t ∧ ∀ d ∈ E, ∃ args, Inside s symbol d args t

theorem Comes.asked {p : Project} {n : Nat} {E E' : Expanding} (h : Comes s symbol p E t)
    (ha : Asks p (membersWithin p n) E t E' u) : Comes s symbol p E' u := by
  obtain ⟨rfl, hr, hE⟩ := h
  have hpart : Part s.project t u := ⟨n, E, E', ha⟩
  have hin : ∀ d ∈ E, ∃ args, Inside s symbol d args u :=
    fun d hd => (hE d hd).imp fun _ h => h.part hpart
  refine ⟨rfl, hr.part hpart, ?_⟩
  -- A type whose expansion begins here has what is asked as one of its contents.
  rcases ha.cases_expanding with rfl | ⟨d, args, rfl, -, hc⟩
  · exact hin
  · exact forall_mem_cons.mpr ⟨⟨args, u, hr.part hpart, ⟨n, E, hc⟩, .refl⟩, hin⟩

theorem comes_of_asked {E : Expanding} (h : Asked s symbol E t) :
    Comes s symbol s.project E t := by
  have hr : Reached s symbol t := ⟨E, t, h, .refl⟩
  refine ⟨rfl, hr, ?_⟩
  cases h with
  | content hd hc => exact forall_mem_singleton.mpr ⟨[], t, hr, ⟨_, [], hc⟩, .refl⟩
  | member => exact forall_mem_nil _

def NamesRecurring (s : Setting) (symbol : Symbol) (l : Ledger) (name : String) : Prop :=
  ∃ d outer inner, l.nameOf? d = some name ∧ Recurs s symbol d outer inner

theorem NamesRecurring.mono {l l' : Ledger} {name : String} (hg : l.NamesGrow l')
    (h : NamesRecurring s symbol l name) : NamesRecurring s symbol l' name := by
  obtain ⟨d, outer, inner, hn, hr⟩ := h
  exact ⟨d, outer, inner, Ledger.nameOf?_of_namesGrow hg hn, hr⟩

def NewRecur (s : Setting) (symbol : Symbol) (old : Table Shape) (l : Ledger) : Prop :=
  ∀ entry ∈ l.definitions, entry ∈ old ∨
    ∀ name, entry.2.Mentions name → NamesRecurring s symbol l name

theorem refer_recurs {old : Table Shape} {p : Project} {E : Expanding} {args : List Ty}
    {l : Ledger} (hd : d ∈ E) (ht : Comes s symbol p E t) (hn : Names p t d args)
    (hl : NewRecur s symbol old l) :
    l.NamesGrow ((Ledger.refer d).run l).2 ∧ NewRecur s symbol old ((Ledger.refer d).run l).2 ∧
      ∀ name, ((Ledger.refer d).run l).1.Mentions name →
        NamesRecurring s symbol ((Ledger.refer d).run l).2 name := by
  obtain ⟨name, l', hr, hname, hg, -, hdef, -⟩ := Ledger.refer_spec d l
  obtain ⟨rfl, -, hE⟩ := ht
  obtain ⟨outer, hin⟩ := hE d hd
  rw [hr]
  refine ⟨hg.names, ?_, ?_⟩
  · intro entry he
    exact (hl entry (hdef ▸ he)).imp_right fun h other hm => (h other hm).mono hg.names
  · intro other hm
    rw [Shape.mentions_reference.mp hm]
    exact ⟨d, outer, args, hname, t, hin, hn⟩

theorem define_recurs {old : Table Shape} {l : Ledger} {shape : Shape}
    (hl : NewRecur s symbol old l)
    (hs : ∀ name, shape.Mentions name → NamesRecurring s symbol l name) :
    l.NamesGrow ((Ledger.define d shape).run l).2 ∧
      NewRecur s symbol old ((Ledger.define d shape).run l).2 ∧
      ∀ name, shape.Mentions name →
        NamesRecurring s symbol ((Ledger.define d shape).run l).2 name := by
  rcases Ledger.define_cases d shape l with ⟨-, hr⟩ | ⟨name, l', -, hg, hdef, -, hr⟩
  · rw [hr]
    exact ⟨prefix_refl _, hl, hs⟩
  · rw [hr]
    have hnew : ∀ other, shape.Mentions other → NamesRecurring s symbol l' other :=
      fun other hm => (hs other hm).mono hg.names
    refine ⟨hg.names, ?_, hnew⟩
    intro entry he
    rcases Table.mem_of_mem_putNew he with he | rfl
    · exact (hl entry (hdef ▸ he)).imp_right fun h other hm => (h other hm).mono hg.names
    · exact .inr hnew

def recurrenceLaw (s : Setting) (symbol : Symbol) (old : Table Shape) : ShapeLaw :=
  MentionLaw.law {
    fits := Comes s symbol
    inv := fun _ => NewRecur s symbol old
    grows := Ledger.NamesGrow
    told := fun _ => NamesRecurring s symbol
    asked := Comes.asked
    grows_refl := fun _ => prefix_refl _
    grows_trans := IsPrefix.trans
    told_of_grows := fun hg h => h.mono hg
    refer := refer_recurs
    begun := fun hl => hl
    define := define_recurs }

/-- A reference in an answer, or in a definition that is made for it, is to a declaration that
stands inside of its own contents. If the question asks for nothing but types that unfold
finitely, the declaration has type parameters, and inside it does not unfold as it does outside;
so it has other arguments there. -/
theorem references_recur (s : Setting) (symbol : Symbol) (l : Ledger) {ps : List PropInfo}
    {name : String} (h : ((resolveProps s symbol).run.run l).1 = .ok ps)
    (hm : (Shape.object ps).Mentions name ∨
      ∃ entry ∈ ((resolveProps s symbol).run.run l).2.definitions,
        entry ∉ l.definitions ∧ entry.2.Mentions name) :
    ∃ d outer inner, ((resolveProps s symbol).run.run l).2.nameOf? d = some name ∧
      Recurs s symbol d outer inner ∧
      ((∀ E t, Asked s symbol E t → UnfoldsFinitely s.project t) →
        TakesArguments s.project d ∧ ¬ UnfoldsAlike s.project d outer inner) := by
  have hold : NewRecur s symbol l.definitions l := fun _ he => .inl he
  obtain ⟨-, hdefined, hanswer⟩ :=
    (recurrenceLaw s symbol l.definitions).resolveProps_keeps s symbol hold
      fun E t => comes_of_asked
  have hname : NamesRecurring s symbol ((resolveProps s symbol).run.run l).2 name := by
    rcases hm with hm | ⟨entry, he, hnew, hm⟩
    · exact hanswer ps h name hm
    · exact (hdefined entry he).resolve_left hnew name hm
  obtain ⟨d, outer, inner, hd, hrecurs⟩ := hname
  refine ⟨d, outer, inner, hd, hrecurs, fun hs => ?_⟩
  have halike : ¬ UnfoldsAlike s.project d outer inner := hrecurs.not_unfoldsAlike hs
  refine ⟨?_, halike⟩
  by_contra hargs
  exact halike (unfoldsAlike_of_content fun u hu => content_args hargs hu)

end Cut

def nestedText : String :=
  "interface Box<T> \x7b v: T \x7d\ninterface Props \x7b b: Box<Box<string>> \x7d\n"

def isNested : Project → Bool
  | ⟨⟨false, none, _, _, _, _⟩, [⟨_, _, _, _, ⟨[
      ("Box", [.interface ⟨"Box", [⟨"T", none, none⟩], [],
        [.property ⟨_, _, .bare "v", false, none⟩ _ (some (.reference ["T"] []))]⟩]),
      ("Props", [.interface ⟨"Props", [], [],
        [.property ⟨_, _, .bare "b", false, none⟩ _
          (some (.reference ["Box"] [.reference ["Box"] [.keyword .string]]))]⟩])],
      _, _, _, _⟩, _⟩]⟩ => true
  | _ => false

theorem nested_read :
    ∃ p, Project.ofSources {} {} [(⟨"/a.ts"⟩, nestedText)] = .ok p ∧ isNested p :=
  Project.exists_ok_of_any (by decide +kernel)

section Nested

variable {p : Project} (hp : isNested p)
include hp

theorem nested_answer :
    ∃ text inner, ((resolveProps ⟨p, 6⟩ (.named 0 "Props")).run.run {}).1 =
      .ok [.mk "b" true (.object [.mk "v" true (.reference "Box") none none inner]) none none
        text] := by
  unfold isNested at hp
  split at hp
  · exact ⟨_, _, rfl⟩
  · cases hp

theorem unfoldsFinitely_box {content : TypeExpr} {env : Env}
    (hl : lookup p env ["Box"] = .decl ⟨0, "Box"⟩)
    (h : UnfoldsFinitely p (.written content env)) :
    UnfoldsFinitely p (.written (.reference ["Box"] [content]) env) := by
  unfold isNested at hp
  split at hp
  · constructor
    intro u hu
    obtain ⟨m, hm, rfl⟩ := (hu.content_of_decl hl).of_interface rfl rfl
    obtain rfl := mem_singleton.mp hm
    constructor
    intro v hv
    obtain rfl := hv.eq_of_param rfl
    exact h
  · cases hp

theorem nested_unfoldsFinitely {E : Expanding} {t : Ty}
    (h : Asked ⟨p, 6⟩ (.named 0 "Props") E t) : UnfoldsFinitely p t := by
  have hbox (content : TypeExpr) (env : Env) := @unfoldsFinitely_box p hp content env
  unfold isNested at hp
  split at hp
  · cases h with
    | content habout hc =>
      cases habout with
      | named hd =>
        obtain rfl := Resolution.declared.inj (Option.some.inj hd)
        obtain ⟨m, hm, rfl⟩ := Content.of_interface rfl rfl ⟨_, _, hc⟩
        obtain rfl := mem_singleton.mp hm
        exact hbox _ _ rfl (hbox _ _ rfl (unfoldsFinitely_keyword _ _ _))
  · cases hp

end Nested

theorem nested_mentions (text inner : Option String) :
    (Shape.object [.mk "b" true (.object [.mk "v" true (.reference "Box") none none inner])
      none none text]).Mentions "Box" :=
  Shape.mentions_object.mpr ⟨_, mem_singleton_self _,
    Shape.mentions_object.mpr ⟨_, mem_singleton_self _, Shape.mentions_reference.mpr rfl⟩⟩

theorem references_recur_nested :
    ∃ p, Project.ofSources {} {} [(⟨"/a.ts"⟩, nestedText)] = .ok p ∧
      ∃ d outer inner,
        ((resolveProps ⟨p, 6⟩ (.named 0 "Props")).run.run {}).2.nameOf? d = some "Box" ∧
        Recurs ⟨p, 6⟩ (.named 0 "Props") d outer inner ∧ TakesArguments p d ∧
        ¬ UnfoldsAlike p d outer inner := by
  obtain ⟨p, hread, hp⟩ := nested_read
  obtain ⟨text, inner, hanswer⟩ := nested_answer hp
  obtain ⟨d, outer, inner, hd, hrecurs, hother⟩ := references_recur ⟨p, 6⟩
    (.named 0 "Props") {} hanswer (.inl (nested_mentions text inner))
  exact ⟨p, hread, d, outer, inner, hd, hrecurs, hother fun _ _ => nested_unfoldsFinitely hp⟩

/-- A type that unfolds finitely is cut. -/
theorem nested_cut :
    ∃ p, Project.ofSources {} {} [(⟨"/a.ts"⟩, nestedText)] = .ok p ∧
      (∀ E t, Asked ⟨p, 6⟩ (.named 0 "Props") E t → UnfoldsFinitely p t) ∧
      ∃ ps, ((resolveProps ⟨p, 6⟩ (.named 0 "Props")).run.run {}).1 = .ok ps ∧
        (Shape.object ps).Mentions "Box" := by
  obtain ⟨p, hread, hp⟩ := nested_read
  obtain ⟨text, inner, hanswer⟩ := nested_answer hp
  exact ⟨p, hread, fun _ _ => nested_unfoldsFinitely hp, _, hanswer, nested_mentions text inner⟩

end PropContract.Resolver
