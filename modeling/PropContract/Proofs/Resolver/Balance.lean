import PropContract.Proofs.Resolver.InPlace

/-!
Stack and counter are balanced: the resolver in place does what the resolver does that is told the
types being expanded and the steps that are left.
-/

namespace PropContract.Resolver.InPlace

open Syntax List Option StateT

variable {α β : Type} {E : Expanding} {c : Nat}

/-- From a stack and a counter, a computation in place does what another one does to the ledger,
and it leaves the stack and the counter alone. -/
def Mirrors (E : Expanding) (c : Nat) (m : Working α) (g : StateM Ledger α) : Prop :=
  ∀ l, m.run ⟨E, c, l⟩ = ((g.run l).1, ⟨E, c, (g.run l).2⟩)

def Finds (E : Expanding) (c : Nat) (m : Asking α) (o : Option α) : Prop :=
  Mirrors E c m.run (pure o)

theorem mirrors_pure (a : α) : Mirrors E c (pure a) (pure a) :=
  fun _ => rfl

variable {m : Working α} {g : StateM Ledger α} {f : α → Working β} {xs : List α}

theorem mirrors_bind {h : α → StateM Ledger β} (hm : Mirrors E c m g)
    (hf : ∀ a, Mirrors E c (f a) (h a)) : Mirrors E c (m >>= f) (g >>= h) := by
  intro l
  change (f (m.run ⟨E, c, l⟩).1).run (m.run ⟨E, c, l⟩).2 = _
  rw [hm l]
  exact hf _ _

theorem mirrors_bind_pure {a : α} {g : StateM Ledger β} (hm : Mirrors E c m (pure a))
    (hf : Mirrors E c (f a) g) : Mirrors E c (m >>= f) g := by
  intro l
  change (f (m.run ⟨E, c, l⟩).1).run (m.run ⟨E, c, l⟩).2 = _
  rw [hm l]
  exact hf l

theorem mirrors_mapM {g : α → StateM Ledger β} (h : ∀ x ∈ xs, Mirrors E c (f x) (g x)) :
    Mirrors E c (xs.mapM f) (xs.mapM g) := by
  induction xs with
  | nil => exact mirrors_pure []
  | cons x xs ih =>
    rw [mapM_cons, mapM_cons]
    refine mirrors_bind (h x mem_cons_self) fun b => ?_
    refine mirrors_bind (ih fun y hy => h y (mem_cons_of_mem x hy)) fun bs => ?_
    exact mirrors_pure (b :: bs)

theorem mirrors_foldlM {f : β → α → Working β} {g : β → α → StateM Ledger β}
    (h : ∀ b x, Mirrors E c (f b x) (g b x)) (b : β) :
    Mirrors E c (xs.foldlM f b) (xs.foldlM g b) := by
  induction xs generalizing b with
  | nil => exact mirrors_pure b
  | cons x xs ih =>
    rw [foldlM_cons, foldlM_cons]
    exact mirrors_bind (h b x) ih

theorem mirrors_foldl {f : β → α → Working β} {g : β → α → β} (xs : List α)
    (h : ∀ b x, Mirrors E c (f b x) (pure (g b x))) (b : β) :
    Mirrors E c (xs.foldlM f b) (pure (xs.foldl g b)) := by
  induction xs generalizing b with
  | nil => exact mirrors_pure b
  | cons x xs ih =>
    rw [foldlM_cons]
    exact mirrors_bind_pure (h b x) (ih (g b x))

theorem mirrors_onLedger (m : StateM Ledger α) : Mirrors E c (onLedger m) m :=
  fun _ => rfl

theorem mirrors_expand {d : DeclRef} (h : Mirrors (d :: E) c m g) : Mirrors E c (expand d m) g := by
  intro l
  change ((m.run ⟨d :: E, c, l⟩).1,
    { (m.run ⟨d :: E, c, l⟩).2 with stack := (m.run ⟨d :: E, c, l⟩).2.stack.tail }) = _
  rw [h l]
  rfl

theorem mirrors_deeper {cut : α} (hcut : stepLimit ≤ c → g = pure cut)
    (h : c < stepLimit → Mirrors E (c + 1) m g) : Mirrors E c (deeper cut m) g := by
  intro l
  by_cases hc : stepLimit ≤ c
  · rw [hcut hc]
    simp only [deeper, run_bind, run_get, pure_bind, hc, if_true]
    rfl
  · have hrun : (deeper cut m).run ⟨E, c, l⟩ = ((m.run ⟨E, c + 1, l⟩).1,
        { (m.run ⟨E, c + 1, l⟩).2 with counter := (m.run ⟨E, c + 1, l⟩).2.counter - 1 }) := by
      simp only [deeper, run_bind, run_get, pure_bind, hc, if_false]
      rfl
    rw [hrun, h (by omega) l]
    rfl

theorem finds_pure (a : α) : Finds E c (pure a) (some a) :=
  fun _ => rfl

theorem finds_failure : Finds E c (failure : Asking α) none :=
  fun _ => rfl

theorem finds_mk (o : Option α) : Finds E c (OptionT.mk (pure o)) o :=
  fun _ => rfl

theorem finds_bind {m : Asking α} {o : Option α} {f : α → Asking β} {g : α → Option β}
    (hm : Finds E c m o) (hf : ∀ a, Finds E c (f a) (g a)) : Finds E c (m >>= f) (o.bind g) := by
  rw [Finds, OptionT.run_bind, Option.elimM]
  apply mirrors_bind_pure hm
  cases o with
  | none => exact mirrors_pure none
  | some a => exact hf a

theorem finds_map {m : Asking α} {o : Option α} (f : α → β) (hm : Finds E c m o) :
    Finds E c (do return f (← m)) (o.map f) := by
  rw [map_eq_bind]
  exact finds_bind hm fun a => finds_pure (f a)

theorem finds_lift_bind {a : α} {f : α → Asking β} {o : Option β} (hm : Mirrors E c m (pure a))
    (hf : Finds E c (f a) o) : Finds E c (OptionT.lift m >>= f) o := by
  rw [Finds, OptionT.run_bind, Option.elimM]
  exact mirrors_bind_pure (mirrors_bind_pure hm (mirrors_pure (some a))) hf

theorem finds_mapM {f : α → Asking β} {g : α → Option β} (h : ∀ x ∈ xs, Finds E c (f x) (g x)) :
    Finds E c (xs.mapM f) (xs.mapM g) := by
  induction xs with
  | nil => exact finds_pure []
  | cons x xs ih =>
    rw [mapM_cons, mapM_cons]
    refine finds_bind (h x mem_cons_self) fun b => ?_
    refine finds_bind (ih fun y hy => h y (mem_cons_of_mem x hy)) fun bs => ?_
    exact finds_pure (b :: bs)

section Members

variable {p : Project} {members : Ty → Asking (List Member)} {answers : MembersOf}

def Answers (c : Nat) (members : Ty → Asking (List Member)) (answers : MembersOf) : Prop :=
  ∀ E t, Finds E c (members t) (answers E t)

section

variable (h : Answers c members answers)

include h

theorem unionMembers_finds (types : List Ty) :
    Finds E c (unionMembers p members types) (Resolver.unionMembers p (answers E) types) := by
  unfold unionMembers Resolver.unionMembers
  refine finds_bind (finds_mapM fun t _ => h E t) fun branches => ?_
  rcases branches with _ | ⟨first, _ | ⟨second, rest⟩⟩
  · exact finds_failure
  · exact finds_pure first
  · exact finds_pure _

theorem literalKeys_finds (n : Nat) (t : Ty) :
    Finds E c (literalKeys p members n t) (Resolver.literalKeys p (answers E) n t) := by
  induction n generalizing t with
  | zero => exact finds_failure
  | succ n ih =>
    rw [literalKeys, Resolver.literalKeys]
    refine finds_bind (finds_mapM fun t _ => ?_) fun found => finds_pure _
    cases t with
    | key text => exact finds_pure [text]
    | written t env =>
      cases t with
      | string s => exact finds_pure [s]
      | number v => exact finds_pure [v.plainText]
      | operator op t =>
        cases op with
        | keyof => exact finds_map (List.map Member.name) (h E (.written t env))
        | _ => exact finds_failure
      | reference path args =>
        dsimp only
        cases lookup p env path with
        | decl d =>
          dsimp only
          cases enumValues? p d with
          | some values => exact finds_mk _
          | none =>
            dsimp only
            cases aliasOf? p d with
            | some a => exact ih _
            | none => exact finds_failure
        | _ => exact finds_failure
      | _ => exact finds_failure
    | _ => exact finds_failure

theorem keys_finds (t : Ty) : Finds E c (keys p members t) (Resolver.keys p (answers E) t) :=
  literalKeys_finds h keyBound t

theorem indexed?_finds (object index : Ty) : Finds E c (indexed? p members object index)
      (Resolver.indexed? p (answers E) object index) := by
  by_cases hindex : ∃ env, index = .written (.keyword .number) env
  · obtain ⟨env, rfl⟩ := hindex
    exact finds_mk _
  · have hother : ∀ env, index ≠ .written (.keyword .number) env := not_exists.1 hindex
    simp only [indexed?, Resolver.indexed?]
    refine finds_bind (keys_finds h index) fun keys => ?_
    refine finds_bind (h E object) fun ms => ?_
    generalize keys.filterMap (fun key => ms.find? fun m => m.name == key) = found
    rcases found with _ | ⟨first, _ | ⟨second, rest⟩⟩
    · exact finds_failure
    · exact finds_pure first.type
    · exact finds_pure _

theorem mappedMembers_finds (env : Env) (param : String) (keyType : TypeExpr)
    (mark : OptionalMark) (value : Option TypeExpr) :
    Finds E c (mappedMembers p members env param keyType mark value)
      (Resolver.mappedMembers p (answers E) env param keyType mark value) := by
  by_cases hkeys : ∃ t, keyType = .operator .keyof t
  · obtain ⟨t, rfl⟩ := hkeys
    exact finds_bind (h E _) fun source => finds_pure _
  · have hother : ∀ t, keyType ≠ .operator .keyof t := not_exists.1 hkeys
    simp only [mappedMembers, Resolver.mappedMembers]
    exact finds_bind (keys_finds h _) fun keys => finds_pure _

theorem selectedMembers_finds (first : Ty) (second : Option Ty)
    (test : List String → Member → Bool) : Finds E c (selectedMembers p members first second test)
      (second.bind fun second => (Resolver.keys p (answers E) second).bind fun keys =>
        (answers E first).bind fun ms => some (ms.filter (test keys))) := by
  cases second with
  | none => exact finds_failure
  | some second =>
    refine finds_bind (keys_finds h second) fun keys => ?_
    exact finds_bind (h E first) fun ms => finds_pure _

theorem utilityMembers_finds (name : String) (args : List Ty) :
    Finds E c (utilityMembers p members name args)
      (Resolver.utilityMembers p (answers E) name args) := by
  unfold utilityMembers Resolver.utilityMembers
  cases args.head? with
  | none => exact finds_failure
  | some first =>
    simp only [bind_eq_bind, bind_some]
    split
    · exact finds_bind (h E first) fun ms => finds_pure _
    · exact finds_bind (h E first) fun ms => finds_pure _
    · exact h E first
    · exact h E first
    · exact selectedMembers_finds h first args[1]? fun keys m => keys.contains m.name
    · exact selectedMembers_finds h first args[1]? fun keys m => !keys.contains m.name
    · exact finds_bind (keys_finds h first) fun keys => finds_pure _
    · try simp only [*]
      exact finds_failure

end

section Base

variable {base : Env → List String → List Ty → Asking (List Member)}
  {found : Env → List String → List Ty → Option (List Member)}

theorem addInterface_mirrors
    (h : ∀ env path args, Finds E c (base env path args) (found env path args)) (file : Nat)
    (args : List Ty) (table : Table Member) (i : Interface) :
    Mirrors E c (addInterface p base file args table i)
      (pure (Resolver.addInterface p found file args table i)) := by
  unfold addInterface Resolver.addInterface
  dsimp only
  refine mirrors_bind_pure (mirrors_foldl _ (fun table b => ?_) table) (mirrors_pure _)
  cases b.path with
  | none => exact mirrors_pure table
  | some path =>
    apply mirrors_bind_pure (h _ path _)
    rw [bind_some]
    cases found _ path _ with
    | none => exact mirrors_pure table
    | some ms => exact mirrors_pure (merge table ms)

theorem declMembers_finds (hm : Answers c members answers)
    (h : ∀ env path args, Finds E c (base env path args) (found env path args))
    (d : DeclRef) (args : List Ty) :
    Finds E c (declMembers p members base d args)
      (Resolver.declMembers p (answers E) found d args) := by
  unfold declMembers Resolver.declMembers
  cases (p.declarations d).filterMap interface? with
  | nil =>
    dsimp only
    cases aliasOf? p d with
    | none => exact finds_failure
    | some a => exact hm E _
  | cons first rest =>
    have htable := mirrors_foldl (first :: rest)
      (fun table i => addInterface_mirrors (p := p) h d.file args table i) []
    exact finds_lift_bind htable (finds_pure _)

end Base

theorem finds_unless_expanding {d : DeclRef} {m : Asking α} {o : Option α} (h : Finds E c m o) :
    Finds E c (do if ← isExpanding d then failure else m) (if E.contains d then none else o) := by
  refine finds_lift_bind (a := E.contains d) (fun _ => rfl) ?_
  split
  · exact finds_failure
  · exact h

section

variable (h : Answers c members answers)

include h

theorem unknownMembers_finds (name : String) (path : List String) (args : List Ty) :
    Finds E c (if path.length = 1 then utilityMembers p members name args else failure)
      (if path.length = 1 then Resolver.utilityMembers p (answers E) name args else none) := by
  split
  · exact utilityMembers_finds h name args
  · exact finds_failure

theorem pathMembers_finds (n : Nat) (env : Env) (path : List String) (args : List Ty) :
    Finds E c (pathMembers p members n env path args)
      (Resolver.pathMembers p answers n E env path args) := by
  induction n generalizing E env path args with
  | zero =>
    unfold pathMembers Resolver.pathMembers
    cases lookup p env path with
    | param t => exact h E t
    | decl d => exact finds_unless_expanding finds_failure
    | unknown name => exact unknownMembers_finds h name path args
    | _ => exact finds_failure
  | succ n ih =>
    unfold pathMembers Resolver.pathMembers
    cases lookup p env path with
    | param t => exact h E t
    | decl d =>
      apply finds_unless_expanding
      exact mirrors_expand (declMembers_finds h ih d args)
    | unknown name => exact unknownMembers_finds h name path args
    | _ => exact finds_failure

theorem intersectionMembers_finds (parts : List Ty) : Finds E c (intersectionMembers members parts)
      (Resolver.intersectionMembers (answers E) parts) := by
  have hmap : Mirrors E c (parts.mapM fun t => (members t).run)
      (parts.mapM fun t => pure (answers E t)) := mirrors_mapM fun t _ => h E t
  rw [mapM_pure] at hmap
  have hfound : (parts.map (answers E)).filterMap id = parts.filterMap (answers E) := by
    rw [filterMap_map, Function.id_comp]
  refine finds_lift_bind hmap ?_
  rw [hfound, Resolver.intersectionMembers]
  dsimp only
  split
  · exact finds_failure
  · exact finds_pure _

theorem membersStep_finds (t : Ty) :
    Finds E c (membersStep p members t) (Resolver.membersStep p answers E t) := by
  cases t with
  | union types => exact unionMembers_finds h types
  | written t env =>
    cases t with
    | object ms => exact finds_pure _
    | paren t => exact h E _
    | operator op t =>
      cases op with
      | readonly => exact h E _
      | _ => exact finds_failure
    | intersection ts => exact intersectionMembers_finds h (env.all ts)
    | union ts => exact unionMembers_finds h (env.all ts)
    | reference path args => exact pathMembers_finds h _ env path (env.all args)
    | mapped param keys rename mark value =>
      cases rename with
      | none => exact mappedMembers_finds h env param keys mark value
      | some _ => exact finds_failure
    | indexed object index => exact finds_bind (indexed?_finds h _ _) fun t => h E t
    | _ => exact finds_failure
  | _ => exact finds_failure

end

end Members

theorem stepsLeft_of_lt (hc : c < stepLimit) : stepLimit - c = stepLimit - (c + 1) + 1 := by
  omega

theorem stepsLeft_of_le (hc : stepLimit ≤ c) : stepLimit - c = 0 :=
  Nat.sub_eq_zero_of_le hc

theorem members_answers (p : Project) (n : Nat) (c : Nat) (hn : stepLimit < n + c) :
    Answers c (members p n) (membersWithin p (stepLimit - c)) := by
  induction n generalizing c with
  | zero =>
    intro E t
    rw [stepsLeft_of_le (by omega)]
    exact finds_failure
  | succ n ih =>
    intro E t
    apply mirrors_deeper
    · intro hc
      rw [stepsLeft_of_le hc]
      rfl
    · intro hc
      rw [stepsLeft_of_lt hc]
      exact membersStep_finds (ih (c + 1) (by omega)) t

section Shapes

variable {s : Setting} {shape : Ty → Nat → Working Shape} {shapes : ShapeOf}
  {members : Ty → Asking (List Member)} {answers : MembersOf} {depth : Nat}

def Makes (c : Nat) (shape : Ty → Nat → Working Shape) (shapes : ShapeOf) : Prop :=
  ∀ E t depth, Mirrors E c (shape t depth) (shapes E t depth)

theorem propsOf_mirrors (h : Makes c shape shapes) (ms : List Member) :
    Mirrors E c (propsOf s shape depth ms) (Resolver.propsOf s shapes E depth ms) :=
  mirrors_mapM fun m _ => mirrors_bind (h E m.type depth) fun _ => mirrors_pure _

theorem objectShape_mirrors (h : Makes c shape shapes) (ms : List Member) :
    Mirrors E c (objectShape s shape depth ms) (Resolver.objectShape s shapes E depth ms) := by
  unfold objectShape Resolver.objectShape
  split
  · exact mirrors_pure _
  · exact mirrors_bind (propsOf_mirrors h ms) fun _ => mirrors_pure _

theorem unionShape_mirrors (h : Makes c shape shapes) (types : List Ty) :
    Mirrors E c (unionShape s shape depth types) (Resolver.unionShape s shapes E depth types) :=
  mirrors_bind (mirrors_mapM fun t _ => h E t depth) fun _ => mirrors_pure _

theorem keyofShape_mirrors (hm : Answers c members answers) (t : Ty) :
    Mirrors E c (keyofShape members t) (pure (Resolver.keyofShape answers E t)) := by
  apply mirrors_bind_pure (hm E t)
  unfold Resolver.keyofShape
  cases answers E t <;> exact mirrors_pure _

theorem addPart_mirrors (h : Makes c shape shapes) (hm : Answers c members answers)
    (parts : Parts) (t : Ty) :
    Mirrors E c (addPart shape members depth parts t)
      (Resolver.addPart shapes answers E depth parts t) := by
  apply mirrors_bind_pure (hm E t)
  unfold Resolver.addPart
  cases answers E t with
  | some ms => exact mirrors_pure _
  | none =>
    refine mirrors_bind (h E t depth) fun found => ?_
    split <;> exact mirrors_pure _

theorem intersectionShape_mirrors (h : Makes c shape shapes) (hm : Answers c members answers)
    (types : List Ty) :
    Mirrors E c (intersectionShape s shape members depth types)
      (Resolver.intersectionShape s shapes answers E depth types) := by
  refine mirrors_bind (mirrors_foldlM (addPart_mirrors h hm) {}) fun parts => ?_
  cases parts.other with
  | some found => exact mirrors_pure found
  | none => exact objectShape_mirrors h _

theorem answeredShape_mirrors (h : Makes c shape shapes) {answer : Asking (List Member)}
    {found : Option (List Member)} (ha : Finds E c answer found) {g : StateM Ledger Shape}
    (hsome : ∀ ms, found = some ms → g = Resolver.objectShape s shapes E depth ms)
    (hnone : found = none → g = pure (.primitive .object)) :
    Mirrors E c (answeredShape s shape depth answer) g := by
  apply mirrors_bind_pure ha
  cases found with
  | some ms =>
    rw [hsome ms rfl]
    exact objectShape_mirrors h ms
  | none =>
    rw [hnone rfl]
    exact mirrors_pure _

section

variable (h : Makes c shape shapes) (hm : Answers c members answers)

include h hm

theorem globalShape_mirrors (name : String) (args : List Ty) :
    Mirrors E c (globalShape s shape members depth name args)
      (Resolver.globalShape s shapes answers E depth name args) := by
  unfold globalShape Resolver.globalShape
  split
  case h_1 | h_2 =>
    cases args.head? with
    | some t => exact mirrors_bind (h E t depth) fun _ => mirrors_pure _
    | none => exact mirrors_pure _
  case h_3 | h_4 | h_5 | h_6 | h_7 | h_8 =>
    apply answeredShape_mirrors h (utilityMembers_finds hm _ args)
    · intro ms hms
      simp only [hms]
    · intro hms
      simp only [hms]
  case h_9 =>
    cases args.head? with
    | some t => exact unionShape_mirrors h [t]
    | none => exact mirrors_pure _
  case h_10 =>
    try simp only [*]
    exact mirrors_pure _

theorem expandedShape_mirrors (d : DeclRef) (args : List Ty) :
    Mirrors E c (expandedShape s shape members depth d args)
      (Resolver.expandedShape s shapes answers E depth d args) := by
  have hbase := pathMembers_finds (E := E) (p := s.project) hm (declaredCount s.project + 1)
  have hmembers := declMembers_finds (p := s.project) hm hbase d args
  unfold expandedShape Resolver.expandedShape
  dsimp only
  cases aliasOf? s.project d <;> cases (s.project.declarations d).any isInterface
  case some.false => exact h E _ depth
  all_goals
    apply answeredShape_mirrors h hmembers
    · intro ms hms
      simp only [hms]
    · intro hms
      simp only [hms]

theorem declShape_mirrors (d : DeclRef) (args : List Ty) :
    Mirrors E c (declShape s shape members depth d args)
      (Resolver.declShape s shapes answers E depth d args) := by
  unfold declShape Resolver.declShape
  dsimp only
  split
  · refine mirrors_bind_pure (a := E.contains d) (fun _ => rfl) ?_
    split
    · exact mirrors_onLedger _
    · refine mirrors_bind (mirrors_expand (expandedShape_mirrors h hm d args)) fun found => ?_
      exact mirrors_bind (mirrors_onLedger _) fun _ => mirrors_pure found
  · cases enumValues? s.project d <;> exact mirrors_pure _

theorem referenceShape_mirrors (env : Env) (path : List String) (args : List Ty) :
    Mirrors E c (referenceShape s shape members depth env path args)
      (Resolver.referenceShape s shapes answers E depth env path args) := by
  unfold referenceShape Resolver.referenceShape
  cases lookup s.project env path with
  | param t => exact h E t depth
  | decl d => exact declShape_mirrors h hm d args
  | enumMember | outside => exact mirrors_pure _
  | unknown name => exact globalShape_mirrors h hm name args

theorem writtenShape_mirrors (env : Env) (t : TypeExpr) :
    Mirrors E c (writtenShape s shape members depth env t)
      (Resolver.writtenShape s shapes answers E depth env t) := by
  cases t with
  | reference path args => exact referenceShape_mirrors h hm env path (env.all args)
  | object ms =>
    simp only [writtenShape, Resolver.writtenShape]
    split
    · exact mirrors_pure _
    · exact objectShape_mirrors h _
  | array t => exact mirrors_bind (h E _ depth) fun _ => mirrors_pure _
  | tuple labels ts =>
    simp only [writtenShape, Resolver.writtenShape]
    split
    · exact mirrors_pure _
    · exact mirrors_bind (unionShape_mirrors h (env.all ts)) fun _ => mirrors_pure _
  | optional t => exact h E _ depth
  | paren t => exact h E _ depth
  | rest t => exact mirrors_bind (h E _ depth) fun _ => mirrors_pure _
  | union ts => exact unionShape_mirrors h (env.all ts)
  | intersection ts => exact intersectionShape_mirrors h hm (env.all ts)
  | operator op t =>
    cases op with
    | keyof => exact keyofShape_mirrors hm _
    | readonly => exact h E _ depth
    | unique => exact mirrors_pure _
  | indexed object index =>
    apply mirrors_bind_pure (indexed?_finds hm _ _)
    simp only [Resolver.writtenShape]
    cases Resolver.indexed? s.project (answers E) (.written object env) (.written index env) with
    | some t => exact h E t depth
    | none => exact mirrors_pure _
  | mapped param keys rename mark value =>
    cases rename with
    | some _ => exact mirrors_pure _
    | none =>
      apply answeredShape_mirrors h (mappedMembers_finds hm env param keys mark value)
      · intro ms hms
        simp only [Resolver.writtenShape, hms]
      · intro hms
        simp only [Resolver.writtenShape, hms]
  | _ => exact mirrors_pure _

theorem shapeStep_mirrors (t : Ty) : Mirrors E c (shapeStep s shape members t depth)
      (Resolver.shapeStep s shapes answers E t depth) := by
  cases t with
  | written t env => exact writtenShape_mirrors h hm env t
  | union types => exact unionShape_mirrors h types
  | _ => exact mirrors_pure _

end

end Shapes

theorem shape_makes (s : Setting) (n : Nat) (c : Nat) (hn : stepLimit < n + c) :
    Makes c (shape s n) (shapeWithin s (stepLimit - c)) := by
  induction n generalizing c with
  | zero =>
    intro E t depth
    rw [stepsLeft_of_le (by omega)]
    exact mirrors_pure _
  | succ n ih =>
    intro E t depth
    apply mirrors_deeper
    · intro hc
      rw [stepsLeft_of_le hc]
      rfl
    · intro hc
      rw [stepsLeft_of_lt hc]
      have hmembers := members_answers s.project n (c + 1) (by omega)
      exact shapeStep_mirrors (ih (c + 1) (by omega)) hmembers t

theorem mirrors_lift_bind {ε : Type} {f : α → ExceptT ε Working β}
    {h : α → ExceptT ε (StateM Ledger) β} (hm : Mirrors E c m g)
    (hf : ∀ a, Mirrors E c (f a).run (h a).run) :
    Mirrors E c (ExceptT.lift m >>= f).run (ExceptT.lift g >>= h).run := by
  intro l
  change (f (m.run ⟨E, c, l⟩).1).run.run (m.run ⟨E, c, l⟩).2 = _
  rw [hm l]
  exact hf _ _

section Questions

variable (s : Setting)

theorem members_enough : Answers 0 (members s.project enough) (membersWithin s.project stepLimit) :=
  members_answers s.project enough 0 (Nat.lt_succ_self stepLimit)

theorem askedProps_mirrors {answer : Asking (List Member)} {found : Option (List Member)}
    (h : Finds E 0 answer found) :
    Mirrors E 0 (askedProps s answer) (limitedProps s E (found.getD [])) := by
  have hshape : Makes 0 (shape s enough) (shapeWithin s stepLimit) :=
    shape_makes s enough 0 (Nat.lt_succ_self stepLimit)
  exact mirrors_bind_pure h (propsOf_mirrors hshape _)

theorem declaredProps_mirrors (d : DeclRef) :
    Mirrors [] 0 (declaredProps s d).run (Resolver.declaredProps s d).run := by
  unfold declaredProps Resolver.declaredProps
  dsimp only
  split
  · exact mirrors_pure _
  · split
    · exact mirrors_pure _
    · have hm := members_enough s
      have hbase := pathMembers_finds (E := [d]) (p := s.project) hm (declaredCount s.project + 1)
      have hprops := askedProps_mirrors s (declMembers_finds (p := s.project) hm hbase d [])
      refine mirrors_lift_bind (mirrors_expand hprops) fun props => ?_
      exact mirrors_lift_bind (mirrors_onLedger _) fun _ => mirrors_pure _

theorem inlineProps_mirrors (file : Nat) (type : TypeExpr) :
    Mirrors [] 0 (inlineProps s file type).run (Resolver.inlineProps s file type).run := by
  unfold inlineProps Resolver.inlineProps
  cases declaredType? s file type with
  | some d => exact declaredProps_mirrors s d
  | none =>
    have hprops := askedProps_mirrors s (members_enough s [] (.written type (.file file)))
    exact mirrors_bind hprops fun props => mirrors_pure (Except.ok props)

theorem resolveProps_mirrors (symbol : Symbol) :
    Mirrors [] 0 (resolveProps s symbol).run (Resolver.resolveProps s symbol).run := by
  cases symbol with
  | declared d => exact declaredProps_mirrors s d
  | inline file type => exact inlineProps_mirrors s file type
  | named file name =>
    simp only [resolveProps, Resolver.resolveProps]
    cases s.project.resolveName file name with
    | none => exact mirrors_pure _
    | some found =>
      cases found with
      | declared d => exact declaredProps_mirrors s d
      | _ => exact mirrors_pure _

theorem call_mirrors (c : Call) : Mirrors [] 0 (call s c) (c.run s) := by
  cases c with
  | resolve symbol => exact mirrors_bind (resolveProps_mirrors s symbol) fun _ => mirrors_pure _
  | take => exact mirrors_bind (mirrors_onLedger takeDefinitions) fun _ => mirrors_pure _

theorem session_mirrors (calls : List Call) :
    Mirrors [] 0 (session s calls) (Resolver.session s calls) :=
  mirrors_mapM fun c _ => call_mirrors s c

end Questions

end PropContract.Resolver.InPlace
