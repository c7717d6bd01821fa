import PropContract.Proofs.Resolver.LikeShapes

namespace PropContract.Extraction

open Syntax Resolver

variable {R : Span → Span → Prop} {K : String → Prop}

structure Candidate.Like (R : Span → Span → Prop) (K : String → Prop) (c c' : Candidate) :
    Prop where
  name : c'.name = c.name
  kind : c'.kind = c.kind
  props : Option.Rel (TypeExpr.Like R K) c.props c'.props
  defaults : c'.defaults = c.defaults

theorem Candidate.Like.refl (hR : ∀ s, R s s) (hK : ∀ name, K name) (c : Candidate) :
    c.Like R K c :=
  ⟨rfl, rfl, TypeExpr.Like.refl_option hR hK _, rfl⟩

theorem name?_eq {key key' : PropertyKey} (h : key.Like R K key') : key'.name? = key.name? := by
  cases h <;> rfl

theorem patternDefault?_eq {m m' : PatternMember} (h : m.Like R K m') :
    patternDefault? m' = patternDefault? m := by
  cases h with
  | keyed hk hp =>
    cases hp with
    | assign _ he =>
      rw [patternDefault?, patternDefault?, name?_eq hk, he.literal?_eq]
    | _ => rfl
  | shorthand name he =>
    cases he with
    | none => rfl
    | some he => rw [patternDefault?, patternDefault?, he.literal?_eq]
  | rest _ => rfl

variable {p p' : Pattern} {e e' : Expr} {f f' : Function} {c c' : ClassBody}

theorem withoutDefault_like (h : p.Like R K p') :
    (withoutDefault p).Like R K (withoutDefault p') := by
  have hsame := h
  cases h with
  | assign h _ => exact h
  | _ => exact hsame

theorem patternDefaults_eq (h : p.Like R K p') : patternDefaults p' = patternDefaults p := by
  have hbare := withoutDefault_like h
  rw [patternDefaults, patternDefaults]
  revert hbare
  generalize withoutDefault p = bare, withoutDefault p' = bare'
  intro hbare
  cases hbare with
  | object hms _ =>
    exact congrArg Table.ofEntries (hms.filterMap_eq fun _ _ => patternDefault?_eq)
  | _ => rfl

theorem propertyDefault?_eq {p p' : Property} (h : p.Like R K p') :
    propertyDefault? p' = propertyDefault? p := by
  cases h with
  | keyed hk he => rw [propertyDefault?, propertyDefault?, name?_eq hk, he.literal?_eq]
  | _ => rfl

theorem objectDefaults_eq {ps ps' : List Property} (h : List.Forall₂ (Property.Like R K) ps ps') :
    objectDefaults ps' = objectDefaults ps :=
  congrArg Table.ofEntries (h.filterMap_eq fun _ _ => propertyDefault?_eq)

theorem assignedDefaults?_eq (h : e.Like R K e') : assignedDefaults? e' = assignedDefaults? e := by
  cases h with
  | @assign target target' value value' plain h hv =>
    cases h with
    | member key h =>
      cases h with
      | name component =>
        by_cases hkey : key = "defaultProps"
        · subst hkey
          have hbare := hv.unwrap
          rw [assignedDefaults?, assignedDefaults?]
          revert hbare
          generalize value.unwrap = bare, value'.unwrap = bare'
          intro hbare
          cases hbare with
          | object hps => exact congrArg (fun ds => some (component, ds)) (objectDefaults_eq hps)
          | _ => rfl
        · simp [assignedDefaults?, hkey]
      | _ => rfl
    | _ => rfl
  | _ => rfl

theorem parameterType?_like (h : p.Like R K p') :
    Option.Rel (TypeExpr.Like R K) (parameterType? p) (parameterType? p') := by
  induction p using parameterType?.induct generalizing p' with
  | case1 _ t =>
    cases h with
    | name _ ht => exact ht
  | case2 _ t =>
    cases h with
    | object _ ht => exact ht
  | case3 p _ ih =>
    cases h with
    | assign h _ =>
      rw [parameterType?, parameterType?]
      exact ih h
  | case4 p h1 h2 h3 =>
    cases h with
    | name => exact absurd rfl (h1 _ _)
    | object => exact absurd rfl (h2 _ _)
    | assign => exact absurd rfl (h3 _ _)
    | _ => exact .none

theorem isElementType_eq {t t' : TypeExpr} (h : t.Like R K t') :
    isElementType t' = isElementType t := by
  cases h <;> rfl

theorem params_like (h : f.Like R K f') : List.Forall₂ (Pattern.Like R K) f.params f'.params := by
  cases h with
  | mk _ _ _ _ hp _ _ => exact hp

theorem result_like (h : f.Like R K f') : Option.Rel (TypeExpr.Like R K) f.result f'.result := by
  cases h with
  | mk _ _ _ _ _ hr _ => exact hr

theorem body_like (h : f.Like R K f') : List.Forall₂ (Stmt.Like R K) f.body f'.body := by
  cases h with
  | mk _ _ _ _ _ _ hb => exact hb

variable (name : String)

theorem functionCandidate?_like (h : f.Like R K f') :
    Option.Rel (Candidate.Like R K) (functionCandidate? name f) (functionCandidate? name f') := by
  have hparams := params_like h
  have hrenders : (f'.result.map isElementType).getD false =
      (f.result.map isElementType).getD false :=
    congrArg (·.getD false) ((result_like h).map_eq fun _ _ => isElementType_eq)
  have hfirst {first first' : Pattern} (hp : first.Like R K first') :
      Option.Rel (Candidate.Like R K)
        (do
          let props ← parameterType? first
          let rendersElement := (f.result.map isElementType).getD false
          guard (Stmt.hasMarkup f.body || rendersElement || startsUpper name)
          pure { name, kind := .function, props, defaults := patternDefaults first })
        (do
          let props ← parameterType? first'
          let rendersElement := (f'.result.map isElementType).getD false
          guard (Stmt.hasMarkup f'.body || rendersElement || startsUpper name)
          pure { name, kind := .function, props, defaults := patternDefaults first' }) := by
    refine (parameterType?_like hp).bind fun t t' ht => ?_
    simp only [hrenders, Stmt.Like.hasMarkup_eq (body_like h), patternDefaults_eq hp]
    by_cases hshown : (Stmt.hasMarkup f.body || (f.result.map isElementType).getD false ||
        startsUpper name) = true
    · simp only [hshown, guard_true]
      exact .some ⟨rfl, rfl, .some ht, rfl⟩
    · simp only [hshown]
      exact .none
  unfold functionCandidate?
  revert hparams
  generalize f.params = ps, f'.params = ps'
  intro hps
  rcases hps with _ | ⟨hp, _ | ⟨_, _ | ⟨_, _⟩⟩⟩
  · exact .none
  · exact hfirst hp
  · exact hfirst hp
  · exact .none

theorem lastWord?_eq (h : e.Like R K e') : lastWord? e' = lastWord? e := by
  cases h <;> rfl

theorem base_like (h : c.Like R K c') : Option.Rel (Expr.Like R K) c.base c'.base := by
  cases h with
  | mk _ _ _ hb _ _ _ => exact hb

theorem baseArgs_like (h : c.Like R K c') :
    List.Forall₂ (TypeExpr.Like R K) c.baseArgs c'.baseArgs := by
  cases h with
  | mk _ _ _ _ ha _ _ => exact ha

theorem members_like (h : c.Like R K c') :
    List.Forall₂ (ClassMember.Like R K) c.members c'.members := by
  cases h with
  | mk _ _ _ _ _ _ hm => exact hm

theorem classDefaults_eq (h : c.Like R K c') : classDefaults c' = classDefaults c := by
  rw [classDefaults, classDefaults, List.flatMap, List.flatMap]
  refine congrArg List.flatten ((members_like h).map_eq fun m m' hm => ?_)
  cases hm with
  | property isStatic hk ht he hd =>
    cases isStatic with
    | false => rfl
    | true =>
      cases hk with
      | named text =>
        by_cases htext : text = "defaultProps"
        · subst htext
          cases he with
          | none => rfl
          | some he =>
            cases he with
            | object hps => exact objectDefaults_eq hps
            | _ => rfl
        · simp [htext]
      | _ => rfl
  | _ => rfl

theorem classCandidate?_like (h : c.Like R K c') :
    Option.Rel (Candidate.Like R K) (classCandidate? name c) (classCandidate? name c') := by
  refine (base_like h).bind fun base base' hb => ?_
  simp only [lastWord?_eq hb, classDefaults_eq h]
  cases lastWord? base with
  | none => exact .none
  | some word =>
    by_cases hword : word = "Component" ∨ word = "PureComponent"
    · simp only [Option.bind_eq_bind, Option.bind_some, Bool.or_eq_true, decide_eq_true_eq, hword,
        guard_true]
      exact .some ⟨rfl, rfl, (baseArgs_like h).head?, rfl⟩
    · simp only [Option.bind_eq_bind, Option.bind_some, Bool.or_eq_true, decide_eq_true_eq, hword]
      exact .none

theorem functionOf?_like (h : e.Like R K e') :
    Option.Rel (Function.Like R K) (functionOf? e) (functionOf? e') := by
  have hbare := h.unwrap
  unfold functionOf?
  revert hbare
  generalize e.unwrap = bare, e'.unwrap = bare'
  intro hbare
  cases hbare with
  | arrow hf => exact .some hf
  | function hf => exact .some hf
  | _ => exact .none

theorem firstParam?_like (h : e.Like R K e') :
    Option.Rel (Pattern.Like R K) (firstParam? e) (firstParam? e') :=
  (functionOf?_like h).bind fun _ _ hf => (params_like hf).head?

theorem wrapperIndex?_eq (h : e.Like R K e') : wrapperIndex? e' = wrapperIndex? e := by
  rw [wrapperIndex?, wrapperIndex?, lastWord?_eq h]

def LikeWrapped (R : Span → Span → Prop) (K : String → Prop)
    (w w' : Option TypeExpr × Option Pattern) : Prop :=
  Option.Rel (TypeExpr.Like R K) w.1 w'.1 ∧ Option.Rel (Pattern.Like R K) w.2 w'.2

theorem wrapped?_function_like (h : f.Like R K f') :
    LikeWrapped R K (f.params.head?.bind parameterType?, f.params.head?)
      (f'.params.head?.bind parameterType?, f'.params.head?) :=
  ⟨(params_like h).head?.bind fun _ _ => parameterType?_like, (params_like h).head?⟩

theorem told_like {ts ts' : List TypeExpr} (ht : List.Forall₂ (TypeExpr.Like R K) ts ts')
    (index : Nat) {inner inner' : Option TypeExpr} {first first' : Option Pattern}
    (h : LikeWrapped R K (inner, first) (inner', first')) :
    Option.Rel (LikeWrapped R K)
      (do
        guard ((ts[index]? <|> inner).isSome || first.isSome)
        pure (ts[index]? <|> inner, first))
      (do
        guard ((ts'[index]? <|> inner').isSome || first'.isSome)
        pure (ts'[index]? <|> inner', first')) := by
  have hprops := (ht.getElem? index).orElse h.1
  rw [hprops.isSome_eq, h.2.isSome_eq]
  by_cases htold : ((ts[index]? <|> inner).isSome || first.isSome) = true
  · simp only [htold, guard_true]
    exact .some ⟨hprops, h.2⟩
  · simp only [htold]
    exact .none

theorem wrapped?_like (e : Expr) (h : e.Like R K e') :
    Option.Rel (LikeWrapped R K) (wrapped? e) (wrapped? e') := by
  induction e using wrapped?.induct generalizing e' with
  | case1 e ih =>
    cases h with
    | paren h =>
      rw [wrapped?, wrapped?]
      exact ih h
  | case2 e t ih =>
    cases h with
    | cast h _ =>
      rw [wrapped?, wrapped?]
      exact ih h
  | case3 callee types args hindex =>
    cases h with
    | call hc _ _ =>
      simp only [wrapped?, wrapperIndex?_eq hc, hindex]
      exact .some ⟨.none, .none⟩
  | case4 callee types index hindex =>
    cases h with
    | call hc ht he =>
      cases he
      simp only [wrapped?, wrapperIndex?_eq hc, hindex]
      exact told_like ht index ⟨.none, .none⟩
  | case5 callee types index hindex arg tail ih =>
    cases h with
    | call hc ht he =>
      cases he with
      | cons he _ =>
        cases he with
        | spread he =>
          simp only [wrapped?, wrapperIndex?_eq hc, hindex]
          exact (ih he).bind fun _ _ hw => told_like ht index hw
  | case6 callee types index hindex arg tail hspread ih =>
    cases h with
    | call hc ht he =>
      cases he with
      | @cons _ arg' _ _ he _ =>
        have hspread' : ∀ e, arg' ≠ .spread e := by
          rintro e rfl
          cases he
          exact hspread _ rfl
        simp only [wrapped?, wrapperIndex?_eq hc, hindex]
        exact (ih he).bind fun _ _ hw => told_like ht index hw
  | case7 f =>
    cases h with
    | arrow hf => exact .some (wrapped?_function_like hf)
  | case8 f =>
    cases h with
    | function hf => exact .some (wrapped?_function_like hf)
  | case9 e h1 h2 h3 h4 h5 =>
    cases h with
    | paren => exact absurd rfl (h1 _)
    | cast => exact absurd rfl (h2 _ _)
    | call => exact absurd rfl (h3 _ _ _)
    | arrow => exact absurd rfl (h4 _)
    | function => exact absurd rfl (h5 _)
    | _ => exact .some ⟨.none, .none⟩

theorem wrappedCandidate?_like {callee callee' : Expr} {ts ts' : List TypeExpr}
    {args args' : List Expr} (hc : callee.Like R K callee')
    (ht : List.Forall₂ (TypeExpr.Like R K) ts ts') (ha : List.Forall₂ (Expr.Like R K) args args') :
    Option.Rel (Candidate.Like R K) (wrappedCandidate? name callee ts args)
      (wrappedCandidate? name callee' ts' args') := by
  have hwrapped := wrapped?_like _ (Expr.Like.call hc ht ha)
  unfold wrappedCandidate?
  rw [wrapperIndex?_eq hc]
  by_cases hwraps : (wrapperIndex? callee).isSome = true
  · simp only [hwraps, guard_true]
    refine hwrapped.bind fun w w' hw => .some ⟨rfl, rfl, hw.1, ?_⟩
    exact congrArg (·.getD []) (hw.2.map_eq fun _ _ => patternDefaults_eq)
  · simp only [hwraps]
    exact .none

theorem componentType?_like {t t' : TypeExpr} (h : t.Like R K t') :
    Option.Rel (Option.Rel (TypeExpr.Like R K)) (componentType? t) (componentType? t') := by
  cases h with
  | reference _ hargs =>
    rw [componentType?, componentType?]
    split
    · exact .some hargs.head?
    · exact .none
  | _ => exact .none

theorem valueCandidate?_like (h : e.Like R K e') :
    Option.Rel (Candidate.Like R K) (valueCandidate? name e) (valueCandidate? name e') := by
  have hbare := h.unwrap
  unfold valueCandidate?
  revert hbare
  generalize e.unwrap = bare, e'.unwrap = bare'
  intro hbare
  cases hbare with
  | arrow hf => exact functionCandidate?_like name hf
  | function hf => exact functionCandidate?_like name hf
  | «class» hc => exact classCandidate?_like name hc
  | call hc ht ha => exact wrappedCandidate?_like name hc ht ha
  | _ => exact .none

theorem variableCandidate?_like {d d' : Declarator} (h : d.Like R K d') :
    Option.Rel (Candidate.Like R K) (variableCandidate? d) (variableCandidate? d') := by
  cases h with
  | mk hp he =>
    cases hp with
    | name text ht =>
      have htype := ht.bind fun _ _ => componentType?_like
      have hvalue := he.bind fun _ _ => valueCandidate?_like text
      have hdefaults := (he.bind fun _ _ => firstParam?_like).map_eq fun _ _ => patternDefaults_eq
      unfold variableCandidate?
      dsimp only
      revert htype
      generalize Option.bind _ componentType? = type
      generalize Option.bind _ componentType? = type'
      intro htype
      cases htype with
      | some hprops => exact .some ⟨rfl, rfl, hprops, congrArg (·.getD []) hdefaults⟩
      | none => exact hvalue
    | _ => exact .none

theorem toList_like {α β : Type} {S : α → β → Prop} {a : Option α} {b : Option β}
    (h : Option.Rel S a b) : List.Forall₂ S a.toList b.toList := by
  cases h with
  | none => exact .nil
  | some h => exact .cons h .nil

theorem declarationCandidates_like {d d' : Declaration} (h : d.Like R K d') :
    List.Forall₂ (Candidate.Like R K) (declarationCandidates d) (declarationCandidates d') := by
  cases h with
  | function name _ hf => exact toList_like (functionCandidate?_like name hf)
  | «class» name hc => exact toList_like (classCandidate?_like name hc)
  | vars kind hds =>
    rw [declarationCandidates, declarationCandidates]
    split
    · exact .nil
    · refine List.rel_filterMap (fun _ _ hd => ?_) hds
      exact variableCandidate?_like hd
  | _ => exact .nil

theorem itemCandidates_like {item item' : Item} (h : item.kind.Like R K item'.kind) :
    List.Forall₂ (Candidate.Like R K) (itemCandidates item) (itemCandidates item') := by
  unfold itemCandidates
  revert h
  generalize item.kind = kind, item'.kind = kind'
  intro h
  cases h with
  | statement hs =>
    cases hs with
    | declaration hd => exact declarationCandidates_like hd
    | _ => exact .nil
  | exportDeclaration hd => exact declarationCandidates_like hd
  | exportDefault hd => exact declarationCandidates_like hd
  | _ => exact .nil

theorem firstOfEach_like {cs cs' : List Candidate} (h : List.Forall₂ (Candidate.Like R K) cs cs') :
    List.Forall₂ (Candidate.Like R K) (firstOfEach cs) (firstOfEach cs') := by
  refine List.rel_foldl (fun kept kept' hkept c c' hc => ?_) .nil h
  have hany : (kept'.any fun k => k.name == c'.name) = kept.any fun k => k.name == c.name :=
    hkept.any_eq fun _ _ hk => by rw [hk.name, hc.name]
  rw [hany]
  split
  · exact hkept
  · exact List.rel_append hkept (.cons hc .nil)

end PropContract.Extraction

namespace PropContract.Likeness

open Syntax Resolver Extraction

variable {s s' : Setting} (ℓ : Likeness s.project s'.project) (hd : s'.maxDepth = s.maxDepth)

include hd

theorem component_eq (id : Nat) (path : Path) {c c' : Candidate}
    (hc : c.Like (SameText s.project s'.project id (ℓ.number id)) (ℓ.known id) c') :
    component s' (ℓ.number id) path c' = component s id path c := by
  have hprops := hc.props
  unfold component
  rw [hc.name, hc.kind, hc.defaults]
  revert hprops
  generalize c.props = props, c'.props = props'
  intro hprops
  cases hprops with
  | none => rfl
  | @some t t' ht =>
    -- The ledgers hold the numbers of files, but the definitions in them do not.
    obtain ⟨hvalue, hledger⟩ := ℓ.inlineProps_like hd id ht {}
    have hrun : (inlineProps s' (ℓ.number id) t').run.run {} =
        (((inlineProps s id t).run.run {}).1, ℓ.ledger ((inlineProps s id t).run.run {}).2) :=
      Prod.ext hvalue.symm hledger
    simp only [resolveProps, hrun]
    obtain ⟨_ | props, l⟩ := (inlineProps s id t).run.run {} <;> rfl

theorem extract_eq
    (hfiles : ∀ id, Option.Rel (fun file file' => List.Forall₂
        (Candidate.Like (SameText s.project s'.project id (ℓ.number id)) (ℓ.known id))
        (candidatesOf file) (candidatesOf file'))
      (s.project.file? id) (s'.project.file? (ℓ.number id)))
    (path : Path) : extract s' path = extract s path := by
  simp only [extract, Project.idOf?, ℓ.idAt?_eq]
  cases s.project.idAt? path.normalize with
  | none => rfl
  | some id =>
    have hfile := hfiles id
    have hpath := ℓ.path_eq id
    dsimp only [Option.map_some]
    revert hfile hpath
    generalize s.project.file? id = file, s'.project.file? (ℓ.number id) = file'
    intro hfile hpath
    cases hfile with
    | none => rfl
    | some hfile =>
      simp only [Option.map_some, Option.some.injEq] at hpath
      simp only [hpath]
      exact hfile.mapM_eq fun _ _ hc => ℓ.component_eq hd id _ hc

end PropContract.Likeness
