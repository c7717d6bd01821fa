import PropContract.Extraction
import PropContract.Proofs.Resolver.Likeness

namespace PropContract.Likeness

open Syntax Resolver List StateT

variable {ms ms' : List Member} {t t' : TypeExpr}

section Ledgers

variable {p q : Project} (ℓ : Likeness p q)

def ledger (l : Ledger) : Ledger :=
  { l with
    referenced := l.referenced.map ℓ.decl
    names := l.names.map fun entry => (ℓ.decl entry.1, entry.2) }

def Follows {α β : Type} (R : α → β → Prop) (m : StateM Ledger α) (m' : StateM Ledger β) : Prop :=
  ∀ l, R (m.run l).1 (m'.run (ℓ.ledger l)).1 ∧ (m'.run (ℓ.ledger l)).2 = ℓ.ledger (m.run l).2

def Same {α : Type} (m m' : StateM Ledger α) : Prop :=
  ℓ.Follows Eq m m'

variable {ℓ} {α β γ δ : Type} {R : α → β → Prop} {S : γ → δ → Prop}

theorem follows_pure {a : α} {b : β} (h : R a b) : ℓ.Follows R (pure a) (pure b) :=
  fun _ => ⟨h, rfl⟩

theorem same_pure (a : α) : ℓ.Same (pure a) (pure a) :=
  follows_pure rfl

theorem follows_bind {m : StateM Ledger α} {m' : StateM Ledger β} {f : α → StateM Ledger γ}
    {f' : β → StateM Ledger δ} (hm : ℓ.Follows R m m')
    (hf : ∀ a b, R a b → ℓ.Follows S (f a) (f' b)) : ℓ.Follows S (m >>= f) (m' >>= f') := by
  intro l
  obtain ⟨hvalue, hledger⟩ := hm l
  have hnext := hf _ _ hvalue (m.run l).2
  rw [← hledger] at hnext
  exact hnext

theorem same_bind {m m' : StateM Ledger α} {f f' : α → StateM Ledger γ} (hm : ℓ.Same m m')
    (hf : ∀ a, ℓ.Same (f a) (f' a)) : ℓ.Same (m >>= f) (m' >>= f') :=
  follows_bind hm fun a _ h => h ▸ hf a

theorem same_lift_bind {ε : Type} {m m' : StateM Ledger α}
    {f f' : α → ExceptT ε (StateM Ledger) γ} (hm : ℓ.Same m m')
    (hf : ∀ a, ℓ.Same (f a).run (f' a).run) :
    ℓ.Same (ExceptT.lift m >>= f).run (ExceptT.lift m' >>= f').run :=
  same_bind hm hf

theorem same_mapM {f : α → StateM Ledger γ} {f' : β → StateM Ledger γ}
    (h : ∀ a b, R a b → ℓ.Same (f a) (f' b)) {as : List α} {bs : List β}
    (hs : Forall₂ R as bs) : ℓ.Same (as.mapM f) (bs.mapM f') := by
  induction hs with
  | nil => exact same_pure []
  | cons hab _ ih =>
    rw [mapM_cons, mapM_cons]
    exact same_bind (h _ _ hab) fun c => same_bind ih fun cs => same_pure (c :: cs)

theorem follows_foldlM {f : γ → α → StateM Ledger γ} {f' : δ → β → StateM Ledger δ}
    (h : ∀ c d a b, S c d → R a b → ℓ.Follows S (f c a) (f' d b)) {as : List α} {bs : List β}
    (hs : Forall₂ R as bs) {c : γ} {d : δ} (hcd : S c d) :
    ℓ.Follows S (as.foldlM f c) (bs.foldlM f' d) := by
  induction hs generalizing c d with
  | nil => exact follows_pure hcd
  | cons hab _ ih =>
    rw [foldlM_cons, foldlM_cons]
    exact follows_bind (h _ _ _ _ hcd hab) fun _ _ hcd => ih hcd

theorem same_modify {f g : Ledger → Ledger} (h : ∀ l, g (ℓ.ledger l) = ℓ.ledger (f l)) :
    ℓ.Same (modify f) (modify g) :=
  fun l => ⟨rfl, h l⟩

variable (ℓ)

theorem nameOf?_ledger (l : Ledger) (d : DeclRef) :
    (ℓ.ledger l).nameOf? (ℓ.decl d) = l.nameOf? d := by
  have hsame : (fun entry : DeclRef × String => entry.1 == ℓ.decl d) ∘
      (fun entry : DeclRef × String => (ℓ.decl entry.1, entry.2)) = fun entry => entry.1 == d := by
    funext entry
    simp [(DeclRef.renumber_injective ℓ.injective).eq_iff]
  rw [Ledger.nameOf?, Ledger.nameOf?, ledger, find?_map, hsame, Option.map_map]
  rfl

theorem referenceName_decl (d : DeclRef) :
    ℓ.Same (Ledger.referenceName d) (Ledger.referenceName (ℓ.decl d)) := by
  intro l
  have hnames : (ℓ.ledger l).names.map Prod.snd = l.names.map Prod.snd := by
    simp only [ledger, map_map]
    rfl
  have hlength : (ℓ.ledger l).names.length = l.names.length := length_map _
  simp only [Ledger.referenceName, run_bind, run_get, pure_bind, nameOf?_ledger]
  cases l.nameOf? d with
  | some name => exact ⟨rfl, rfl⟩
  | none =>
    simp only [hnames, hlength, run_bind, run_set, pure_bind]
    refine ⟨rfl, ?_⟩
    change ({ ℓ.ledger l with names := _ } : Ledger) = ℓ.ledger { l with names := _ }
    simp only [ledger, map_append, map_cons, map_nil]
    rfl

theorem refer_decl (d : DeclRef) : ℓ.Same (Ledger.refer d) (Ledger.refer (ℓ.decl d)) := by
  refine same_bind (same_modify fun l => ?_) fun _ =>
    same_bind (ℓ.referenceName_decl d) fun name => same_pure _
  have hcontains : (ℓ.ledger l).referenced.contains (ℓ.decl d) = l.referenced.contains d :=
    ℓ.contains_decl l.referenced d
  rw [hcontains]
  split <;> rfl

theorem define_decl (d : DeclRef) (shape : Shape) :
    ℓ.Same (Ledger.define d shape) (Ledger.define (ℓ.decl d) shape) := by
  have hkeep : ℓ.Same
      (do let name ← Ledger.referenceName d
          modify fun l => { l with definitions := l.definitions.putNew name shape })
      (do let name ← Ledger.referenceName (ℓ.decl d)
          modify fun l => { l with definitions := l.definitions.putNew name shape }) :=
    same_bind (ℓ.referenceName_decl d) fun name => same_modify fun l => rfl
  intro l
  have hcontains : (ℓ.ledger l).referenced.contains (ℓ.decl d) = l.referenced.contains d :=
    ℓ.contains_decl l.referenced d
  refine ⟨rfl, ?_⟩
  simp only [Ledger.define, run_bind, run_get, pure_bind, hcontains]
  split
  · exact (hkeep l).2
  · rfl

end Ledgers

section Shapes

variable {s s' : Setting} (ℓ : Likeness s.project s'.project)

def ShapesLike (shape shape' : ShapeOf) : Prop :=
  ∀ expanding t t' depth, ℓ.LikeTy t t' →
    ℓ.Same (shape expanding t depth) (shape' (expanding.map ℓ.decl) t' depth)

variable {ℓ} {shape shape' : ShapeOf} {members members' : MembersOf} {expanding : Expanding}
  {depth : Nat}

theorem propsOf_like (h : ℓ.ShapesLike shape shape') (hms : Forall₂ ℓ.LikeMember ms ms') :
    ℓ.Same (propsOf s shape expanding depth ms)
      (propsOf s' shape' (expanding.map ℓ.decl) depth ms') := by
  refine same_mapM (fun m m' hm => ?_) hms
  rw [ℓ.sameOptions, admitsNullish_eq hm.type, hm.name, hm.isOptional, hm.doc, hm.typeText]
  exact same_bind (h expanding _ _ depth hm.type) fun found => same_pure _

theorem objectShape_like (hd : s'.maxDepth = s.maxDepth) (h : ℓ.ShapesLike shape shape')
    (hms : Forall₂ ℓ.LikeMember ms ms') :
    ℓ.Same (objectShape s shape expanding depth ms)
      (objectShape s' shape' (expanding.map ℓ.decl) depth ms') := by
  unfold objectShape
  rw [hms.isEmpty_eq, hd]
  split
  · exact same_pure _
  · exact same_bind (propsOf_like h hms) fun props => same_pure _

theorem unionShape_like (h : ℓ.ShapesLike shape shape') {ts ts' : List Ty}
    (hts : Forall₂ ℓ.LikeTy ts ts') :
    ℓ.Same (unionShape s shape expanding depth ts)
      (unionShape s' shape' (expanding.map ℓ.decl) depth ts') :=
  same_bind (same_mapM (fun _ _ ht => h expanding _ _ depth ht) (filter_flatten_like hts))
    fun _ => same_pure _

theorem keyofShape_eq (hm : ℓ.SearchesLike members members') {t t' : Ty} (ht : ℓ.LikeTy t t') :
    keyofShape members' (expanding.map ℓ.decl) t' = keyofShape members expanding t := by
  have hfound := hm expanding t t' ht
  rw [keyofShape, keyofShape]
  revert hfound
  generalize members expanding t = found, members' (expanding.map ℓ.decl) t' = found'
  rintro (hms | _)
  · exact congrArg Shape.classify (hms.map_eq fun _ _ hm => by rw [hm.name])
  · rfl

variable (ℓ) in
structure LikeParts (parts parts' : Parts) : Prop where
  table : parts.table.Rel ℓ.LikeMember parts'.table
  other : parts'.other = parts.other

theorem addPart_like (h : ℓ.ShapesLike shape shape') (hm : ℓ.SearchesLike members members')
    {found found' : Parts} (hf : ℓ.LikeParts found found') {t t' : Ty} (ht : ℓ.LikeTy t t') :
    ℓ.Follows ℓ.LikeParts (addPart shape members expanding depth found t)
      (addPart shape' members' (expanding.map ℓ.decl) depth found' t') := by
  have hmembers := hm expanding t t' ht
  unfold addPart
  revert hmembers
  generalize members expanding t = ms, members' (expanding.map ℓ.decl) t' = ms'
  rintro (hms | _)
  · exact follows_pure ⟨merge_like hf.table hms, hf.other⟩
  · refine follows_bind (h expanding t t' depth ht) fun shape _ heq => ?_
    subst heq
    split
    · exact follows_pure hf
    · exact follows_pure ⟨hf.table, by simp only [hf.other]⟩

section

variable (hd : s'.maxDepth = s.maxDepth) (h : ℓ.ShapesLike shape shape')
  (hm : ℓ.SearchesLike members members')

include hd h hm

theorem intersectionShape_like {ts ts' : List Ty} (hts : Forall₂ ℓ.LikeTy ts ts') :
    ℓ.Same (intersectionShape s shape members expanding depth ts)
      (intersectionShape s' shape' members' (expanding.map ℓ.decl) depth ts') := by
  have hstart : ℓ.LikeParts {} {} := ⟨.nil, rfl⟩
  have hparts : ℓ.Follows ℓ.LikeParts (ts.foldlM (addPart shape members expanding depth) {})
      (ts'.foldlM (addPart shape' members' (expanding.map ℓ.decl) depth) {}) := by
    refine follows_foldlM (fun found found' t t' hf ht => ?_) hts hstart
    exact addPart_like h hm hf ht
  refine follows_bind hparts ?_
  rintro ⟨table, other⟩ ⟨table', other'⟩ ⟨htable, hother⟩
  dsimp only at htable hother ⊢
  rw [hother]
  cases other with
  | none => exact objectShape_like hd h htable.values
  | some shape => exact same_pure shape

variable {args args' : List Ty}

theorem globalShape_like (name : String) (hargs : Forall₂ ℓ.LikeTy args args') :
    ℓ.Same (globalShape s shape members expanding depth name args)
      (globalShape s' shape' members' (expanding.map ℓ.decl) depth name args') := by
  have hhead := hargs.head?
  have hutility := utilityMembers_like (hm expanding) name hargs
  unfold globalShape
  split
  case h_1 | h_2 =>
    revert hhead
    generalize args.head? = first, args'.head? = first'
    rintro (ht | _)
    · exact same_bind (h expanding _ _ depth ht) fun found => same_pure _
    · exact same_pure _
  case h_3 | h_4 | h_5 | h_6 | h_7 | h_8 =>
    revert hutility
    generalize utilityMembers s.project (members expanding) _ args = ms
    generalize utilityMembers s'.project (members' (expanding.map ℓ.decl)) _ args' = ms'
    rintro (hms | _)
    · exact objectShape_like hd h hms
    · exact same_pure _
  case h_9 =>
    revert hhead
    generalize args.head? = first, args'.head? = first'
    rintro (ht | _)
    · exact unionShape_like h (.cons ht .nil)
    · exact same_pure _
  case h_10 =>
    try simp only [*]
    exact same_pure _

theorem expandedShape_like (d : DeclRef) (hargs : Forall₂ ℓ.LikeTy args args') :
    ℓ.Same (expandedShape s shape members expanding depth d args)
      (expandedShape s' shape' members' (expanding.map ℓ.decl) depth (ℓ.decl d) args') := by
  have hbase := pathMembers_like hm (declaredCount s.project + 1) expanding
  have hmembers := declMembers_like (hm expanding) hbase d hargs
  have halias := ℓ.aliasOf?_like d
  unfold expandedShape
  simp only [ℓ.declaredCount_eq, ℓ.any_isInterface d]
  revert halias hmembers
  generalize aliasOf? s.project d = found, aliasOf? s'.project (ℓ.decl d) = found'
  generalize (s.project.declarations d).any isInterface = isNamed
  generalize declMembers s.project (members expanding) _ d args = ms
  generalize declMembers s'.project (members' (expanding.map ℓ.decl)) _ (ℓ.decl d) args' = ms'
  intro hmembers halias
  have hobject : ∀ {ms ms'}, Forall₂ ℓ.LikeMember ms ms' →
      ℓ.Same (objectShape s shape expanding depth ms)
        (objectShape s' shape' (expanding.map ℓ.decl) depth ms') := objectShape_like hd h
  cases halias with
  | none => cases hmembers with
    | none => exact same_pure _
    | some hms => exact hobject hms
  | some ha =>
    cases isNamed with
    | false => exact h expanding _ _ depth (likeTy_alias ha hargs)
    | true => cases hmembers with
      | none => exact same_pure _
      | some hms => exact hobject hms

theorem declShape_like (d : DeclRef) (hargs : Forall₂ ℓ.LikeTy args args') :
    ℓ.Same (declShape s shape members expanding depth d args)
      (declShape s' shape' members' (expanding.map ℓ.decl) depth (ℓ.decl d) args') := by
  unfold declShape
  simp only [ℓ.any_isInterface d, ℓ.any_isClass d, (ℓ.aliasOf?_like d).isSome_eq,
    ℓ.enumValues?_eq d, ℓ.contains_decl]
  split
  · split
    · exact ℓ.refer_decl d
    · exact same_bind (expandedShape_like hd h hm d hargs) fun found =>
        same_bind (ℓ.define_decl d found) fun _ => same_pure found
  · cases enumValues? s.project d <;> exact same_pure _

theorem referenceShape_like {e e' : Env} (he : ℓ.LikeEnv e e') {path : List String}
    (hknown : ∀ name ∈ path.head?, ℓ.known e.fileId name)
    (hargs : Forall₂ ℓ.LikeTy args args') :
    ℓ.Same (referenceShape s shape members expanding depth e path args)
      (referenceShape s' shape' members' (expanding.map ℓ.decl) depth e' path args') := by
  have hnamed := he.lookup_like hknown
  unfold referenceShape
  revert hnamed
  generalize lookup s.project e path = named, lookup s'.project e' path = named'
  intro hnamed
  cases hnamed with
  | param ht => exact h expanding _ _ depth ht
  | decl d => exact declShape_like hd h hm d hargs
  | enumMember d name =>
    simp only [enumMemberShape, ℓ.enumValues?_eq d]
    exact same_pure _
  | outside module name => exact same_pure _
  | unknown name => exact globalShape_like hd h hm name hargs

end

theorem isCall_eq {R : Span → Span → Prop} {K : String → Prop} {m m' : TypeMember}
    (h : m.Like R K m') : m'.isCall = m.isCall := by
  cases h <;> rfl

section

variable (hd : s'.maxDepth = s.maxDepth) (h : ℓ.ShapesLike shape shape')
  (hm : ℓ.SearchesLike members members')

include hd h hm

theorem writtenShape_like {e e' : Env} (he : ℓ.LikeEnv e e')
    (ht : ℓ.LikeExpr e.fileId t t') : ℓ.Same (writtenShape s shape members expanding depth e t)
      (writtenShape s' shape' members' (expanding.map ℓ.decl) depth e' t') := by
  cases ht with
  | template texts hts =>
    simp only [writtenShape, hts.isEmpty_eq]
    exact same_pure _
  | reference hknown hargs => exact referenceShape_like hd h hm he hknown (he.all hargs)
  | object hms =>
    simp only [writtenShape, hms.isEmpty_eq, hms.all_eq fun _ _ => isCall_eq]
    split
    · exact same_pure _
    · exact objectShape_like hd h (literalMembers_like he hms)
  | array ht => exact same_bind (h expanding _ _ depth (.written ht he)) fun _ => same_pure _
  | tuple labels hts =>
    simp only [writtenShape, hts.isEmpty_eq]
    split
    · exact same_pure _
    · exact same_bind (unionShape_like h (he.all hts)) fun _ => same_pure _
  | optional ht => exact h expanding _ _ depth (.written ht he)
  | paren ht => exact h expanding _ _ depth (.written ht he)
  | rest ht => exact same_bind (h expanding _ _ depth (.written ht he)) fun _ => same_pure _
  | union hts => exact unionShape_like h (he.all hts)
  | intersection hts => exact intersectionShape_like hd h hm (he.all hts)
  | operator op ht =>
    cases op with
    | keyof =>
      simp only [writtenShape, keyofShape_eq hm (.written ht he)]
      exact same_pure _
    | readonly => exact h expanding _ _ depth (.written ht he)
    | unique => exact same_pure _
  | indexed hobject hindex =>
    have hfound := indexed?_like (hm expanding) (.written hobject he) (.written hindex he)
    simp only [writtenShape]
    revert hfound
    generalize indexed? s.project _ _ _ = found, indexed? s'.project _ _ _ = found'
    intro hfound
    cases hfound with
    | some ht => exact h expanding _ _ depth ht
    | none => exact same_pure _
  | mapped param mark hk hr hv =>
    have hfound := mappedMembers_like (hm expanding) he param hk mark hv
    simp only [writtenShape]
    revert hfound
    generalize mappedMembers s.project _ _ _ _ _ _ = found
    generalize mappedMembers s'.project _ _ _ _ _ _ = found'
    intro hfound
    cases hr with
    | some _ => exact same_pure _
    | none =>
      cases hfound with
      | some hms => exact objectShape_like hd h hms
      | none => exact same_pure _
  | _ => exact same_pure _

theorem shapeStep_like :
    ℓ.ShapesLike (shapeStep s shape members) (shapeStep s' shape' members') := by
  intro expanding t t' depth ht
  cases ht with
  | written ht he => exact writtenShape_like hd h hm he ht
  | union hts => exact unionShape_like h hts
  | _ => exact same_pure _

end

variable (ℓ) in
theorem shapeWithin_like (hd : s'.maxDepth = s.maxDepth) (n : Nat) :
    ℓ.ShapesLike (shapeWithin s n) (shapeWithin s' n) := by
  induction n with
  | zero => exact fun _ _ _ _ _ => same_pure _
  | succ n ih => exact shapeStep_like hd ih (ℓ.membersWithin_like n)

end Shapes

section Properties

variable {s s' : Setting} (ℓ : Likeness s.project s'.project) (hd : s'.maxDepth = s.maxDepth)

theorem pathAt_eq (file : Nat) : pathAt s' (ℓ.number file) = pathAt s file := by
  rw [pathAt, pathAt, ℓ.path_eq]

theorem typeNamed?_eq {file : Nat} {name : String} (hknown : ℓ.known file name) :
    s'.project.typeNamed? (ℓ.number file) name = (s.project.typeNamed? file name).map ℓ.decl := by
  rw [Project.typeNamed?, Project.typeNamed?, ℓ.resolveName_eq hknown]
  cases s.project.resolveName file name with
  | none => rfl
  | some r =>
    cases r with
    | declared d =>
      simp only [Option.map_some, Resolution.renumber, ℓ.any_isType d]
      split <;> rfl
    | _ => rfl

theorem declaredType?_eq (file : Nat) (ht : ℓ.LikeExpr file t t') :
    declaredType? s' (ℓ.number file) t' = (declaredType? s file t).map ℓ.decl := by
  by_cases hplain : ∃ name, t = .reference [name] []
  · obtain ⟨name, rfl⟩ := hplain
    cases ht with
    | reference hknown hargs =>
      cases hargs
      exact ℓ.typeNamed?_eq (hknown name rfl)
  · have hnone : plainName? t = none := by
      unfold plainName?
      split
      · exact absurd ⟨_, rfl⟩ hplain
      · rfl
    have hnone' : plainName? t' = none := by
      unfold plainName?
      split
      · cases ht with
        | reference hknown hargs =>
          cases hargs
          exact absurd ⟨_, rfl⟩ hplain
      · rfl
    rw [declaredType?, declaredType?, hnone, hnone']
    rfl

include hd

theorem limitedProps_like (expanding : Expanding) (hms : Forall₂ ℓ.LikeMember ms ms') :
    ℓ.Same (limitedProps s expanding ms) (limitedProps s' (expanding.map ℓ.decl) ms') :=
  propsOf_like (ℓ.shapeWithin_like hd stepLimit) hms

theorem declaredProps_like (d : DeclRef) :
    ℓ.Same (declaredProps s d).run (declaredProps s' (ℓ.decl d)).run := by
  have hm := ℓ.membersWithin_like stepLimit
  have hbase := pathMembers_like hm (declaredCount s.project + 1) [d]
  have hmembers := declMembers_like (hm [d]) hbase d .nil
  have hpath : pathAt s' (ℓ.decl d).file = pathAt s d.file := ℓ.pathAt_eq d.file
  unfold declaredProps
  simp only [(ℓ.declarations d).isEmpty_eq, ℓ.any_isType d, ℓ.declaredCount_eq, hpath]
  split
  · exact same_pure _
  · split
    · exact same_pure _
    · refine same_lift_bind (ℓ.limitedProps_like hd [d] (hmembers.getD .nil)) fun props => ?_
      exact same_lift_bind (ℓ.define_decl d (.object props)) fun _ => same_pure _

theorem inlineProps_like (file : Nat) (ht : ℓ.LikeExpr file t t') :
    ℓ.Same (inlineProps s file t).run (inlineProps s' (ℓ.number file) t').run := by
  have hty : ℓ.LikeTy (.written t (.file file)) (.written t' (.file (ℓ.number file))) :=
    .written ht (.file file)
  have hmembers := ℓ.membersWithin_like stepLimit [] _ _ hty
  unfold inlineProps
  rw [ℓ.declaredType?_eq file ht]
  cases declaredType? s file t with
  | some d => exact ℓ.declaredProps_like hd d
  | none =>
    exact same_bind (ℓ.limitedProps_like hd [] (hmembers.getD .nil)) fun props =>
      same_pure (Except.ok props)

end Properties

end PropContract.Likeness
