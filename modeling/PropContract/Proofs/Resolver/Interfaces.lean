import PropContract.Proofs.Resolver.Recast

/-!
An interface and an alias of the type literal with the same members mean the same, except for an
interface that has call signatures and nothing else.
-/

namespace PropContract.Resolver

open Syntax List

variable {f : Answers} {symbol : Symbol}

theorem sizeOf_lt_of_member? {p : Project} {env env' : Env} {x : TypeMember} {m : Member}
    {t : TypeExpr} (h : member? p env x = some m) (ht : m.type = .written t env') :
    sizeOf t < sizeOf x := by
  cases x with
  | property head span type | getter head span type =>
    simp only [member?, Option.bind_eq_bind, Option.pure_def, Option.bind_eq_some_iff,
      Option.some.injEq] at h
    obtain ⟨name, -, rfl⟩ := h
    cases type with
    | none => cases ht
    | some t' =>
      cases ht
      simp only [TypeMember.property.sizeOf_spec, TypeMember.getter.sizeOf_spec,
        Option.some.sizeOf_spec]
      omega
  | method head uses types =>
    simp only [member?, Option.bind_eq_bind, Option.pure_def, Option.bind_eq_some_iff,
      Option.some.injEq] at h
    obtain ⟨name, -, rfl⟩ := h
    cases ht
  | _ => cases h

theorem type_ne_of_mem_literalMembers {p : Project} {env env' : Env} {ms : List TypeMember}
    {m : Member} (h : m ∈ literalMembers p env ms) : m.type ≠ .written (.object ms) env' := by
  intro ht
  rcases mem_values_merge h with h | h
  · cases h
  · obtain ⟨x, hx, hm⟩ := mem_filterMap.mp h
    have hlt := sizeOf_lt_of_member? hm ht
    have hle := sizeOf_lt_of_mem hx
    rw [TypeExpr.object.sizeOf_spec] at hlt
    omega

variable {depth n : Nat} {expanding : Expanding} {s : Setting} {i : Interface} {d : DeclRef}
  {args : List Ty} {t : Ty}

theorem propsOf_congr (s : Setting) {shape shape' : ShapeOf} {ms : List Member}
    (h : ∀ m ∈ ms, shape expanding m.type depth = shape' expanding m.type depth) :
    propsOf s shape expanding depth ms = propsOf s shape' expanding depth ms := by
  unfold propsOf
  induction ms with
  | nil => rfl
  | cons m ms ih =>
    simp only [mapM_cons, h m mem_cons_self]
    rw [ih fun m' hm' => h m' (mem_cons_of_mem m hm')]

theorem objectShape_congr (s : Setting) {shape shape' : ShapeOf} {ms : List Member}
    (h : ∀ m ∈ ms, shape expanding m.type (depth + 1) = shape' expanding m.type (depth + 1)) :
    objectShape s shape expanding depth ms = objectShape s shape' expanding depth ms := by
  rw [objectShape, objectShape, propsOf_congr s h]

theorem answerStep_body_congr {g : Answers} (h : ∀ q : Query, q.type ≠ bodyOf d i → f q = g q)
    {q : Query} (hq : q.type = bodyOf d i) : answerStep s f q = answerStep s g q := by
  cases q with
  | members expanding t =>
    obtain rfl : t = bodyOf d i := hq
    rfl
  | shape expanding t depth l =>
    obtain rfl : t = bodyOf d i := hq
    have hshape : ∀ m ∈ literalMembers s.project (.file d.file) i.members,
        f.shape expanding m.type (depth + 1) = g.shape expanding m.type (depth + 1) := by
      intro m hm
      funext l
      exact h (.shape expanding m.type (depth + 1) l) (type_ne_of_mem_literalMembers hm)
    rw [answerStep_shape_body, answerStep_shape_body, bodyShape, bodyShape,
      objectShape_congr s hshape]

namespace PlainInterface

variable {s : Setting} {d : DeclRef} {i : Interface} (hi : PlainInterface s.project d i)
include hi

theorem answerStep_body {q : Query} (hq : q.type = bodyOf d i) :
    answerStep (s.recast d) f q = answerStep s f q := by
  cases q with
  | members expanding t =>
    obtain rfl : t = bodyOf d i := hq
    rw [answerStep_members_body, answerStep_members_body, Setting.recast, literalMembers_recast]
  | shape expanding t depth l =>
    obtain rfl : t = bodyOf d i := hq
    rw [answerStep_shape_body, answerStep_shape_body, bodyShape, bodyShape,
      objectShape_recast hi.declared, Setting.recast, literalMembers_recast]

theorem exists_backs_of_agree {m n : Nat} (hagree : ∀ q, Settled s m q →
      Settled (s.recast d) n q → answersWithin s m q = answersWithin (s.recast d) n q) :
    ∃ f, Backs s m f ∧ Backs (s.recast d) n f ∧ StepsInto s d i f := by
  classical
  let known (q : Query) : Prop := Settled s m q ∨ Settled (s.recast d) n q
  let g : Answers := fun q =>
    if Settled s m q then answersWithin s m q else answersWithin (s.recast d) n q
  let f : Answers := fun q =>
    if q.type = bodyOf d i ∧ ¬ known q then answerStep s g q else g q
  have hknown {q : Query} (hq : known q) : f q = g q := if_neg fun h => h.2 hq
  have hm : Backs s m f := fun q hq => (hknown (.inl hq)).trans (if_pos hq)
  have hn : Backs (s.recast d) n f := by
    intro q hq
    refine (hknown (.inr hq)).trans ?_
    by_cases hs : Settled s m q
    · exact (if_pos hs).trans (hagree q hs hq)
    · exact if_neg hs
  refine ⟨f, hm, hn, fun q hq => ?_⟩
  -- Only answers about the literal were changed from `g` to `f`, and a step into it asks for none.
  by_cases hs : known q
  · rcases hs with hs | hs
    · exact (hs.step_eq hm).symm
    · exact (hs.step_eq hn).symm.trans (hi.answerStep_body hq)
  · have hstep : f q = answerStep s g q := if_pos ⟨hq, hs⟩
    exact hstep.trans (answerStep_body_congr (fun q' hq' => (if_neg fun h => hq' h.1).symm) hq)

theorem exists_backs (hcalls : onlyCalls i = false) (m n : Nat) :
    ∃ f, Backs s m f ∧ Backs (s.recast d) n f ∧ StepsInto s d i f := by
  -- Both limits go down by one: below, the answers of the two forms are found with the same ones.
  induction m generalizing n with
  | zero => exact hi.exists_backs_of_agree fun _ h => h.elim
  | succ m ih =>
    cases n with
    | zero => exact hi.exists_backs_of_agree fun _ _ h => h.elim
    | succ n =>
      refine hi.exists_backs_of_agree fun q hq hq' => ?_
      obtain ⟨f, hm, hn, hf⟩ := ih n
      calc answersWithin s (m + 1) q = answerStep s f q := (hq f hm).symm
        _ = answerStep (s.recast d) f q := (hi.answerStep_recast hf hcalls q).symm
        _ = answersWithin (s.recast d) (n + 1) q := hq' f hn

theorem answers_agree (hcalls : onlyCalls i = false) {m n : Nat} {q : Query} (h : Settled s m q)
    (h' : Settled (s.recast d) n q) : answersWithin (s.recast d) n q = answersWithin s m q := by
  obtain ⟨f, hm, hn, -⟩ := hi.exists_backs hcalls m n
  exact (hn q h').symm.trans (hm q h)

theorem eq_of_rests (hcalls : onlyCalls i = false) {α : Type} {run run' : Answers → α}
    (hrun : ∀ f, StepsInto s d i f → run' f = run f) {m n : Nat} (h : Rests s m run)
    (h' : Rests (s.recast d) n run') :
    run' (answersWithin (s.recast d) n) = run (answersWithin s m) := by
  obtain ⟨f, hm, hn, hf⟩ := hi.exists_backs hcalls m n
  rw [← h f hm, ← h' f hn, hrun f hf]

end PlainInterface

def rootProps (s : Setting) (d : DeclRef) (l : Ledger) (f : Answers) : List PropInfo × Ledger :=
  let base := pathMembers s.project f.members (declaredCount s.project + 1) [d]
  (propsOf s f.shape [d] 1 ((declMembers s.project (f.members [d]) base d []).getD [])).run l

def rootAnswer (d : DeclRef) (found : List PropInfo × Ledger) :
    Except ResolveError (List PropInfo) × Ledger :=
  (.ok found.1, ((Ledger.define d (.object found.1)).run found.2).2)

theorem declaredProps_eq_rootAnswer (hsome : (s.project.declarations d).isEmpty = false)
    (htype : (s.project.declarations d).any Declared.isType = true) (l : Ledger) :
    (declaredProps s d).run.run l =
      rootAnswer d (rootProps s d l (answersWithin s stepLimit)) := by
  unfold declaredProps
  simp only [hsome, htype]
  rfl

theorem IsAbout.resolveProps_eq (h : IsAbout s symbol d) :
    resolveProps s symbol = declaredProps s d := by
  cases h with
  | declared => rfl
  | named h => simp only [resolveProps, h]
  | inline h => simp only [resolveProps, inlineProps, h]

theorem IsAbout.recast {e : DeclRef} (h : IsAbout s symbol e) (d : DeclRef) :
    IsAbout (s.recast d) symbol e := by
  have htype : ∀ x, Declared.isType (Declared.recast x) = Declared.isType x :=
    fun x => by cases x <;> rfl
  cases h with
  | declared => exact .declared
  | named h => exact .named ((s.project.resolveName_recast d _ _).trans h)
  | inline h =>
    refine .inline ?_
    rw [← h]
    unfold declaredType? Project.typeNamed?
    simp only [Setting.recast, Project.resolveName_recast,
      Project.any_declarations_recast _ _ htype]

theorem literalMembers_of_onlyCalls (h : onlyCalls i = true) (p : Project) (env : Env) :
    literalMembers p env i.members = [] := by
  have hnone : i.members.filterMap (member? p env) = [] := by
    rw [filterMap_eq_nil_iff]
    intro x hx
    have hcall := all_eq_true.mp (Bool.and_eq_true_iff.mp h).2 x hx
    cases x <;> first | rfl | cases hcall
  rw [literalMembers, hnone]
  rfl

theorem members_recast_body (n : Nat) (expanding : Expanding) :
    (answersWithin (s.recast d) (n + 1)).members expanding (bodyOf d i) =
      some (literalMembers s.project (.file d.file) i.members) := by
  rw [Answers.members, answersWithin_succ, answerStep_members_body, Setting.recast,
    literalMembers_recast]

namespace PlainInterface

variable {s : Setting} {d : DeclRef} {i : Interface} (hi : PlainInterface s.project d i)
include hi

theorem rootProps_eq (l : Ledger) (f : Answers) : rootProps s d l f =
    (propsOf s f.shape [d] 1 (literalMembers s.project (.file d.file) i.members)).run l := by
  simp only [rootProps, hi.declMembers_eq, Option.getD_some]

theorem rootProps_recast (l : Ledger) (hf : f.members [d] (bodyOf d i) =
      some (literalMembers s.project (.file d.file) i.members)) :
    rootProps (s.recast d) d l f =
      (propsOf s f.shape [d] 1 (literalMembers s.project (.file d.file) i.members)).run l := by
  rw [rootProps, propsOf_recast hi.declared, Setting.recast, hi.declMembers_recast_self, hf,
    Option.getD_some]

theorem rootProps_agree (l : Ledger) (h : Rests s stepLimit (rootProps s d l))
    (h' : Rests (s.recast d) stepLimit (rootProps (s.recast d) d l)) :
    rootProps (s.recast d) d l (answersWithin (s.recast d) stepLimit) =
      rootProps s d l (answersWithin s stepLimit) := by
  cases hcalls : onlyCalls i with
  | false =>
    refine hi.eq_of_rests hcalls (fun f hf => ?_) h h'
    rw [hi.rootProps_recast l (hf.members_eq [d]), hi.rootProps_eq]
  | true =>
    have hbody : (answersWithin (s.recast d) stepLimit).members [d] (bodyOf d i) =
        some (literalMembers s.project (.file d.file) i.members) := members_recast_body 95 [d]
    rw [hi.rootProps_recast l hbody, hi.rootProps_eq, literalMembers_of_onlyCalls hcalls, propsOf,
      propsOf, mapM_nil, mapM_nil]

theorem resolveProps_agree (hsymbol : IsAbout s symbol d) (l : Ledger)
    (h : Rests s stepLimit (rootProps s d l))
    (h' : Rests (s.recast d) stepLimit (rootProps (s.recast d) d l)) :
    (resolveProps (s.recast d) symbol).run.run l = (resolveProps s symbol).run.run l := by
  have hdecl := hi.declared
  have hrecast : (s.recast d).project.declarations d = [.typeAlias i.asAlias] :=
    declarations_recast_self hdecl
  rw [(hsymbol.recast d).resolveProps_eq, hsymbol.resolveProps_eq,
    declaredProps_eq_rootAnswer (by rw [hrecast]; rfl) (by rw [hrecast]; rfl),
    declaredProps_eq_rootAnswer (by rw [hdecl]; rfl) (by rw [hdecl]; rfl),
    hi.rootProps_agree l h h']

end PlainInterface

theorem names_recast {e : DeclRef} (h : Names s.project t e args) (d : DeclRef) :
    Names (s.recast d).project t e args := by
  unfold Names
  rw [Setting.recast, lookup_recast]
  exact h

theorem shapeStep_names (hname : Names s.project t d args)
    (hopen : ((s.project.declarations d).any isInterface || (aliasOf? s.project d).isSome) = true)
    (hd : d ∉ expanding) (shape : ShapeOf) (members : MembersOf) (depth : Nat) (l : Ledger) :
    ((shapeStep s shape members expanding t depth).run l).1 =
      ((expandedShape s shape members (d :: expanding) depth d args).run l).1 := by
  obtain ⟨path, types, env, rfl, hlookup, rfl⟩ := hname
  have hcontains : expanding.contains d = false := by simpa using hd
  simp only [shapeStep, writtenShape, referenceShape, hlookup, declShape, hopen, hcontains]
  rfl

namespace PlainInterface

variable {s : Setting} {d : DeclRef} {i : Interface} (hi : PlainInterface s.project d i)
include hi

section

variable (hcalls : onlyCalls i = true) (hname : Names s.project t d args) (hd : d ∉ expanding)
  (n : Nat) (depth : Nat) (l : Ledger)

include hcalls hname hd

theorem shape_of_onlyCalls :
    ((shapeWithin s (n + 1) expanding t depth).run l).1 = .primitive .object := by
  have hopen : ((s.project.declarations d).any isInterface ||
      (aliasOf? s.project d).isSome) = true := by
    rw [hi.declared]
    rfl
  rw [shapeWithin, shapeStep_names hname hopen hd, hi.expandedShape_eq,
    literalMembers_of_onlyCalls hcalls]
  rfl

theorem shape_recast_of_onlyCalls :
    ((shapeWithin (s.recast d) (n + 2) expanding t depth).run l).1 = .function := by
  have hopen : (((s.recast d).project.declarations d).any isInterface ||
      (aliasOf? (s.recast d).project d).isSome) = true := by
    rw [Setting.recast, aliasOf?_recast hi.declared, if_pos rfl, Option.isSome_some, Bool.or_true]
  have hbody : shapeWithin (s.recast d) (n + 1) (d :: expanding) (bodyOf d i) depth =
      bodyShape (s.recast d) d i (shapeWithin (s.recast d) n) (d :: expanding) depth := rfl
  rw [shapeWithin, shapeStep_names (names_recast hname d) hopen hd, hi.expandedShape_recast_self,
    hbody, bodyShape, hcalls]
  rfl

end

end PlainInterface

theorem Backs.shape_eq (hf : Backs s n f) (h : ∀ l, Settled s n (.shape expanding t depth l)) :
    f.shape expanding t depth = (answersWithin s n).shape expanding t depth :=
  funext fun l => hf _ (h l)

theorem settled_members_body (s : Setting) (d : DeclRef) (i : Interface) (n : Nat)
    (expanding : Expanding) : Settled s (n + 1) (.members expanding (bodyOf d i)) :=
  settled_of_forall fun _ _ => rfl

theorem settled_shape_body (h : ∀ m ∈ literalMembers s.project (.file d.file) i.members, ∀ l,
      Settled s n (.shape expanding m.type (depth + 1) l)) (l : Ledger) :
    Settled s (n + 1) (.shape expanding (bodyOf d i) depth l) := by
  intro f hf
  rw [answersWithin_succ, answerStep_shape_body, answerStep_shape_body, bodyShape, bodyShape,
    objectShape_congr s fun m hm => Backs.shape_eq hf (h m hm)]

theorem settled_shape_names (hname : Names s.project t d args) (h : ∀ f, Backs s n f →
      expandedShape s f.shape f.members (d :: expanding) depth d args =
        expandedShape s (answersWithin s n).shape (answersWithin s n).members (d :: expanding)
          depth d args) (l : Ledger) : Settled s (n + 1) (.shape expanding t depth l) := by
  intro f hf
  obtain ⟨path, types, env, rfl, hlookup, rfl⟩ := hname
  have hstep : shapeStep s f.shape f.members expanding (.written (.reference path types) env)
      depth = shapeStep s (answersWithin s n).shape (answersWithin s n).members expanding
        (.written (.reference path types) env) depth := by
    simp only [shapeStep, writtenShape, referenceShape, hlookup, declShape, h f hf]
  rw [answersWithin_succ, answerStep, answerStep, hstep]

namespace PlainInterface

variable {s : Setting} {d : DeclRef} {i : Interface} (hi : PlainInterface s.project d i)
include hi

theorem settled_shape (hname : Names s.project t d args)
    (h : ∀ m ∈ literalMembers s.project (.file d.file) i.members, ∀ l,
      Settled s n (.shape (d :: expanding) m.type (depth + 1) l)) (l : Ledger) :
    Settled s (n + 1) (.shape expanding t depth l) := by
  refine settled_shape_names hname (fun f hf => ?_) l
  rw [hi.expandedShape_eq, hi.expandedShape_eq]
  exact objectShape_congr s fun m hm => Backs.shape_eq hf (h m hm)

theorem settled_shape_recast (hname : Names s.project t d args)
    (h : ∀ m ∈ literalMembers s.project (.file d.file) i.members, ∀ l,
      Settled (s.recast d) n (.shape (d :: expanding) m.type (depth + 1) l)) (l : Ledger) :
    Settled (s.recast d) (n + 2) (.shape expanding t depth l) := by
  refine settled_shape_names (names_recast hname d) (fun f hf => ?_) l
  rw [hi.expandedShape_recast_self, hi.expandedShape_recast_self]
  refine Backs.shape_eq hf fun l => settled_shape_body ?_ l
  rw [Setting.recast, literalMembers_recast]
  exact h

theorem rests_root (h : ∀ m ∈ literalMembers s.project (.file d.file) i.members, ∀ l,
      Settled s n (.shape [d] m.type 1 l)) (l : Ledger) : Rests s n (rootProps s d l) := by
  intro f hf
  rw [hi.rootProps_eq, hi.rootProps_eq, propsOf_congr s fun m hm => Backs.shape_eq hf (h m hm)]

theorem rests_root_recast (h : ∀ m ∈ literalMembers s.project (.file d.file) i.members, ∀ l,
      Settled (s.recast d) (n + 1) (.shape [d] m.type 1 l)) (l : Ledger) :
    Rests (s.recast d) (n + 1) (rootProps (s.recast d) d l) := by
  intro f hf
  rw [hi.rootProps_recast l ((hf _ (settled_members_body _ d i n [d])).trans
      (members_recast_body n [d])), hi.rootProps_recast l (members_recast_body n [d]),
    propsOf_congr s fun m hm => Backs.shape_eq hf (h m hm)]

end PlainInterface

/-- An interface without parameters and bases, and the alias of the type literal with the same
members. As a root the two have the same properties, and every type has the same shape with the one
as with the other, as far as the step limit has no part in the answers. Only an interface of call
signatures is an object where the alias is a function. -/
theorem interface_as_type_literal {s : Setting} {d : DeclRef} {i : Interface}
    (hi : PlainInterface s.project d i) :
    ((∀ f ∈ s.project.files, f.scope = Scope.ofItems f.items) →
      ∀ f ∈ (s.recast d).project.files, f.scope = Scope.ofItems f.items) ∧
    (∀ symbol, IsAbout s symbol d → ∀ l, Rests s stepLimit (rootProps s d l) →
      Rests (s.recast d) stepLimit (rootProps (s.recast d) d l) →
        (resolveProps (s.recast d) symbol).run.run l = (resolveProps s symbol).run.run l) ∧
    (onlyCalls i = false → ∀ expanding t depth l m n, Settled s m (.shape expanding t depth l) →
      Settled (s.recast d) n (.shape expanding t depth l) →
        (shapeWithin (s.recast d) n expanding t depth).run l =
          (shapeWithin s m expanding t depth).run l) ∧
    (onlyCalls i = true → ∀ expanding t args, Names s.project t d args → d ∉ expanding →
      ∀ depth l n, ((shapeWithin s (n + 2) expanding t depth).run l).1 = .primitive .object ∧
        ((shapeWithin (s.recast d) (n + 2) expanding t depth).run l).1 = .function) := by
  refine ⟨s.project.scope_recast d, fun symbol hsymbol l => hi.resolveProps_agree hsymbol l,
    ?_, ?_⟩
  · exact fun hcalls _ _ _ _ _ _ h h' => hi.answers_agree hcalls h h'
  · intro hcalls expanding t args hname hd depth l n
    exact ⟨hi.shape_of_onlyCalls hcalls hname hd (n + 1) depth l,
      hi.shape_recast_of_onlyCalls hcalls hname hd n depth l⟩

def interfaceSetting (i : Interface) (text : String) : Setting :=
  let items := [⟨⟨0, text.utf8ByteSize⟩, none, .statement (.declaration (.interface i))⟩]
  { project := { files := [{
      path := ⟨"/a.ts"⟩
      kind := .plain
      text
      items
      scope := Scope.ofItems items
      isRoot := true }] } }

def nodeInterface : Interface where
  name := "Node"
  members := [
    .property { span := ⟨17, 31⟩, keySpan := ⟨17, 22⟩, key := .bare "value" } ⟨24, 30⟩
      (some (.keyword .string)),
    .property { span := ⟨32, 43⟩, keySpan := ⟨32, 36⟩, key := .bare "next", isOptional := true }
      ⟨39, 43⟩ (some (.reference ["Node"] []))]

def nodeSetting : Setting :=
  interfaceSetting nodeInterface "interface Node \x7b value: string; next?: Node \x7d"

theorem node_isPlain : PlainInterface nodeSetting.project ⟨0, "Node"⟩ nodeInterface :=
  ⟨rfl, rfl, rfl⟩

theorem node_settled (hs : s = nodeSetting ∨ s = nodeSetting.recast ⟨0, "Node"⟩) (n depth : Nat) :
    ∀ m ∈ literalMembers nodeSetting.project (.file 0) nodeInterface.members,
      ∀ l, Settled s (n + 1) (.shape [⟨0, "Node"⟩] m.type depth l) := by
  intro m hm l
  refine settled_of_forall fun f g => ?_
  obtain rfl | hm := mem_cons.mp hm
  · rfl
  · obtain rfl := mem_singleton.mp hm
    rcases hs with rfl | rfl <;> rfl

theorem interface_as_type_literal_node :
    ((resolveProps (nodeSetting.recast ⟨0, "Node"⟩) (.declared ⟨0, "Node"⟩)).run.run {} =
      (resolveProps nodeSetting (.declared ⟨0, "Node"⟩)).run.run {}) ∧
    ((resolveProps nodeSetting (.declared ⟨0, "Node"⟩)).run.run {}).1 =
      .ok [.mk "value" true (.primitive .string) none none (some "string"),
        .mk "next" false (.reference "Node") none none (some "Node")] ∧
    (shapeWithin (nodeSetting.recast ⟨0, "Node"⟩) stepLimit []
        (.written (.reference ["Node"] []) (.file 0)) 1).run {} =
      (shapeWithin nodeSetting stepLimit [] (.written (.reference ["Node"] []) (.file 0)) 1).run
        {} := by
  have hname : Names nodeSetting.project (.written (.reference ["Node"] []) (.file 0))
      ⟨0, "Node"⟩ [] := ⟨_, _, _, rfl, rfl, rfl⟩
  obtain ⟨-, hroot, hshape, -⟩ := interface_as_type_literal node_isPlain
  refine ⟨hroot _ .declared {} ?_ ?_, rfl, hshape rfl _ _ _ _ _ _ ?_ ?_⟩
  · exact node_isPlain.rests_root (node_settled (.inl rfl) 95 1) {}
  · exact node_isPlain.rests_root_recast (node_settled (.inr rfl) 95 1) {}
  · exact node_isPlain.settled_shape hname (node_settled (.inl rfl) 94 2) {}
  · exact node_isPlain.settled_shape_recast hname (node_settled (.inr rfl) 93 2) {}

def callInterface : Interface where
  name := "F"
  members := [.call [] [.keyword .void]]

/-- The interface is an object, the type literal a function. -/
theorem call_interface_differs :
    ((shapeWithin (interfaceSetting callInterface "interface F \x7b (): void \x7d") stepLimit []
        (.written (.reference ["F"] []) (.file 0)) 1).run {}).1 = .primitive .object ∧
    ((shapeWithin ((interfaceSetting callInterface "interface F \x7b (): void \x7d").recast
        ⟨0, "F"⟩) stepLimit [] (.written (.reference ["F"] []) (.file 0)) 1).run {}).1 =
      .function :=
  ⟨rfl, rfl⟩

end PropContract.Resolver
