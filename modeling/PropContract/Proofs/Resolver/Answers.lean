import PropContract.Extraction
import PropContract.Proofs.Project.Reading
import PropContract.Proofs.Resolver.Session
import PropContract.Proofs.Shape.Canonical

/-!
Rules for every shape that a resolver gives out: it is enough that each way of making a shape
keeps them.
-/

namespace PropContract.Resolver

open List Shape

structure ShapeRule where
  holds : Nat → Nat → Shape → Prop
  /-- What holds at a depth holds at the top, where the shape may be kept as a definition. -/
  atTop : ∀ {limit depth s}, holds limit depth s → holds limit 0 s
  primitive : ∀ limit depth k, holds limit depth (.primitive k)
  literal : ∀ limit depth v, holds limit depth (.literal v)
  function : ∀ limit depth, holds limit depth .function
  ofClass : ∀ limit depth name, holds limit depth (.instance name)
  reference : ∀ limit depth name, holds limit depth (.reference name)
  react : ∀ {limit depth name s}, Library.reactShape? name = some s → holds limit depth s
  global : ∀ {limit depth name s}, Library.globalShape? name = some s → holds limit depth s
  arrayOf : ∀ {limit depth s}, holds limit depth (.arrayOf s) ↔ holds limit depth s
  object : ∀ {limit depth} {ps : List PropInfo}, depth = 0 ∨ depth < limit →
    (ps.map PropInfo.name).Nodup → (∀ p ∈ ps, holds limit (depth + 1) p.shape) →
    holds limit depth (.object ps)
  union : ∀ {limit depth} {shapes : List Shape}, (∀ s ∈ shapes, holds limit depth s) →
    holds limit depth (.classify (shapes.flatMap Shape.branches))
  literals : ∀ limit depth (values : List Literal),
    holds limit depth (.classify (values.map .literal))

namespace ShapeRule

variable (R : ShapeRule) {limit : Nat}

def Defined (limit : Nat) (l : Ledger) : Prop :=
  ∀ entry ∈ l.definitions, R.holds limit 0 entry.2

theorem defined_define {R : ShapeRule} {l : Ledger} (hl : R.Defined limit l) (d : DeclRef)
    {s : Shape} (hs : R.holds limit 0 s) : R.Defined limit ((Ledger.define d s).run l).2 := by
  rcases Ledger.define_cases d s l with ⟨-, hr⟩ | ⟨name, l', -, -, hdef, -, hr⟩
  · rw [hr]
    exact hl
  · rw [hr]
    intro entry he
    rcases Table.mem_of_mem_putNew he with he | rfl
    · exact hl entry (hdef ▸ he)
    · exact hs

def law (limit : Nat) : ShapeLaw where
  inv _ l := R.Defined limit l
  grows _ _ := True
  limits n := n = limit
  good _ depth _ s := R.holds limit depth s
  grows_refl _ := trivial
  grows_trans _ _ := trivial
  good_of_grows _ hs := hs
  primitive _ depth _ := R.primitive limit depth
  literal _ depth _ := R.literal limit depth
  function _ depth _ := R.function limit depth
  ofClass _ depth _ := R.ofClass limit depth
  react := R.react
  global := R.global
  arrayOf := R.arrayOf.mpr
  element := R.arrayOf.mp
  object hlimit hdepth := R.object (hlimit ▸ hdepth)
  union := R.union
  literals _ depth _ := R.literals limit depth
  refer {_ _ _ d _ depth l} _ _ _ hl := by
    obtain ⟨name, l', hr, -, -, -, hdef, -⟩ := Ledger.refer_spec d l
    rw [hr]
    refine ⟨trivial, ?_, R.reference limit depth name⟩
    intro entry he
    exact hl entry (hdef ▸ he)
  begun hl := hl
  define hl hs := ⟨trivial, defined_define hl _ (R.atTop hs), hs⟩

theorem resolveProps_holds (s : Setting) (symbol : Symbol) {l : Ledger}
    (hl : R.Defined s.maxDepth l) :
    R.Defined s.maxDepth ((resolveProps s symbol).run.run l).2 ∧
      ∀ ps, ((resolveProps s symbol).run.run l).1 = .ok ps → R.holds s.maxDepth 0 (.object ps) :=
  ((R.law s.maxDepth).resolveProps_keeps s symbol hl (by intros; trivial) rfl).2

end ShapeRule

def Answer.shapes : Answer → List Shape
  | .props (.ok ps) => [.object ps]
  | .props (.error _) => []
  | .definitions table => table.values

theorem ShapeRule.call_holds (R : ShapeRule) (s : Setting) (c : Call) {l : Ledger}
    (hl : R.Defined s.maxDepth l) :
    R.Defined s.maxDepth ((c.run s).run l).2 ∧
      ∀ shape ∈ ((c.run s).run l).1.shapes, R.holds s.maxDepth 0 shape := by
  cases c with
  | take =>
    refine ⟨forall_mem_nil _, ?_⟩
    intro shape hs
    obtain ⟨entry, he, rfl⟩ := mem_map.mp hs
    exact hl entry he
  | resolve symbol =>
    obtain ⟨hl', ha⟩ := R.resolveProps_holds s symbol hl
    refine ⟨hl', ?_⟩
    change ∀ shape ∈ (Answer.props ((resolveProps s symbol).run.run l).1).shapes,
      R.holds s.maxDepth 0 shape
    cases hr : ((resolveProps s symbol).run.run l).1 with
    | error e => exact forall_mem_nil _
    | ok ps =>
      intro shape hs
      rw [mem_singleton.mp hs]
      exact ha ps hr

theorem ShapeRule.session_holds (R : ShapeRule) (s : Setting) (calls : List Call) {l : Ledger}
    (hl : R.Defined s.maxDepth l) :
    ∀ answer ∈ ((session s calls).run l).1, ∀ shape ∈ answer.shapes,
      R.holds s.maxDepth 0 shape := by
  induction calls generalizing l with
  | nil => exact forall_mem_nil _
  | cons c calls ih =>
    obtain ⟨hl', hc⟩ := R.call_holds s c hl
    rw [session_cons]
    intro answer ha
    rcases mem_cons.mp ha with rfl | ha
    · exact hc
    · exact ih hl' answer ha

theorem ShapeRule.defined_empty (R : ShapeRule) {limit : Nat} : R.Defined limit {} :=
  forall_mem_nil _

def canonicalRule : ShapeRule where
  holds _ _ := Shape.Canonical
  atTop h := h
  primitive _ _ := canonical_primitive
  literal _ _ := canonical_literal
  function _ _ := canonical_function
  ofClass _ _ := canonical_instance
  reference _ _ := canonical_reference
  react := canonical_reactShape?
  global := canonical_globalShape?
  arrayOf := canonical_arrayOf
  object _ _ hp := canonical_object.mpr hp
  union := canonical_classify_branches
  literals _ _ := canonical_classify_literals

/-- Whatever is asked of a new resolver, in any order: every shape that occurs, at any depth, in
properties that are answered or in definitions that are taken out is in canonical form. -/
theorem answers_canonical (s : Setting) (calls : List Call) {answer : Answer}
    (ha : answer ∈ ((session s calls).run {}).1) {shape : Shape} (hs : shape ∈ answer.shapes)
    {part : Shape} (hp : part.Within shape) : part.Tidy :=
  canonicalRule.session_holds s calls canonicalRule.defined_empty answer ha shape hs part hp

def crowdedText : String :=
  "type P = \x7b size: React.ReactText | 'a' | true | false \x7d;"

def isCrowded : Project → Bool
  | ⟨⟨false, none, _, _, _, _⟩, [⟨_, _, _, _, ⟨[("P", [.typeAlias ⟨"P", [],
      .object [.property ⟨_, _, .bare "size", false, none⟩ _
        (some (.union [.reference ["React", "ReactText"] [], .string "a", .boolean true,
          .boolean false]))]⟩])], [], [], [], false⟩, _⟩]⟩ => true
  | _ => false

theorem crowded_read :
    ∃ p, Project.ofSources {} {} [(⟨"/p.ts"⟩, crowdedText)] = .ok p ∧ isCrowded p :=
  Project.exists_ok_of_any (by decide +kernel)

theorem crowded_answers {p : Project} (h : isCrowded p) :
    ∃ text, ((session ⟨p, 6⟩ [.resolve (.named 0 "P")]).run {}).1 =
      [.props (.ok [.mk "size" true (.classify [.primitive .string, .primitive .number,
        .literal (.string "a"), .literal (.boolean true), .literal (.boolean false)]) none none
          text])] := by
  unfold isCrowded at h
  split at h
  · exact ⟨_, rfl⟩
  · cases h

theorem answers_canonical_crowded :
    ∃ p, Project.ofSources {} {} [(⟨"/p.ts"⟩, crowdedText)] = .ok p ∧
      ∃ answer ∈ ((session ⟨p, 6⟩ [.resolve (.named 0 "P")]).run {}).1, ∃ shape ∈ answer.shapes,
        Shape.Within (.union [.primitive .string, .primitive .number, .primitive .boolean]) shape ∧
        Shape.Tidy (.union [.primitive .string, .primitive .number, .primitive .boolean]) := by
  have hunion : Shape.classify [.primitive .string, .primitive .number, .literal (.string "a"),
      .literal (.boolean true), .literal (.boolean false)] =
        .union [.primitive .string, .primitive .number, .primitive .boolean] := by
    simp [Shape.classify, Shape.distinct, Shape.isIn, Shape.same, Literal.same, Shape.isAny,
      Shape.joinBooleans, Shape.isBooleanLiteral, Shape.absorb, Shape.absorber?, Shape.combine,
      mapM_cons, Shape.literal?]
  obtain ⟨p, hread, hp⟩ := crowded_read
  obtain ⟨text, hanswers⟩ := crowded_answers hp
  rw [hunion] at hanswers
  refine ⟨p, hread, _, hanswers ▸ mem_singleton_self _, _, mem_singleton_self _, ?_⟩
  have hwithin : Shape.Within (.union [.primitive .string, .primitive .number, .primitive .boolean])
      (.object [.mk "size" true (.union [.primitive .string, .primitive .number,
        .primitive .boolean]) none none text]) :=
    .object (mem_singleton_self _) (.refl _)
  exact ⟨hwithin, answers_canonical ⟨p, 6⟩ _ (hanswers ▸ mem_singleton_self _)
    (mem_singleton_self _) hwithin⟩

def namesRule : ShapeRule where
  holds _ _ := Shape.NamesDistinct
  atTop h := h
  primitive _ _ k ps hw := absurd hw ((Shape.Lasting.object ps).not_within_primitive k)
  literal _ _ v ps hw := absurd hw ((Shape.Lasting.object ps).not_within_literal v)
  function _ _ ps hw := absurd hw (Shape.Lasting.object ps).not_within_function
  ofClass _ _ name ps hw := absurd hw ((Shape.Lasting.object ps).not_within_instance name)
  reference _ _ _ := nofun
  react h ps hw := absurd hw (not_within_reactShape? (.object ps) h)
  global h ps hw := absurd hw (not_within_globalShape? (.object ps) h)
  arrayOf := namesDistinct_arrayOf
  object _ hn hp := namesDistinct_object.mpr ⟨hn, hp⟩
  union := namesDistinct_classify
  literals _ _ := namesDistinct_literals

theorem namesDistinct_applyDefault (defaults : Table Literal) {ps : List PropInfo}
    (h : (Shape.object ps).NamesDistinct) :
    (Shape.object (ps.map (Extraction.applyDefault defaults))).NamesDistinct := by
  have hkept (p : PropInfo) : (Extraction.applyDefault defaults p).name = p.name ∧
      (Extraction.applyDefault defaults p).shape = p.shape := by
    obtain ⟨n, r, s, d, doc, text⟩ := p
    unfold Extraction.applyDefault
    split <;> exact ⟨rfl, rfl⟩
  obtain ⟨hn, hp⟩ := namesDistinct_object.mp h
  refine namesDistinct_object.mpr ⟨?_, ?_⟩
  · rw [map_map]
    exact (map_congr_left fun p _ => (hkept p).1) ▸ hn
  · intro q hq
    obtain ⟨p, hpmem, rfl⟩ := mem_map.mp hq
    exact (hkept p).2 ▸ hp p hpmem

theorem component_namesDistinct {s : Setting} {id : Nat} {path : Path}
    {candidate : Extraction.Candidate} {c : Component}
    (h : Extraction.component s id path candidate = .ok c) :
    (Shape.object c.props).NamesDistinct ∧ ∀ shape ∈ c.definitions.values, shape.NamesDistinct := by
  unfold Extraction.component at h
  cases htype : candidate.props with
  | none =>
    simp only [htype] at h
    obtain rfl := Except.ok.inj h
    exact ⟨namesDistinct_object.mpr ⟨nodup_nil, forall_mem_nil _⟩,
      forall_mem_nil _⟩
  | some type =>
    simp only [htype] at h
    obtain ⟨hdefined, hanswer⟩ :=
      namesRule.resolveProps_holds s (.inline id type) namesRule.defined_empty
    generalize (resolveProps s (.inline id type)).run.run {} = resolved at h hdefined hanswer
    obtain ⟨answer, ledger⟩ := resolved
    cases answer with
    | error e => cases h
    | ok ps =>
      obtain rfl := Except.ok.inj h
      refine ⟨namesDistinct_applyDefault _ (hanswer ps rfl), ?_⟩
      intro shape hs
      obtain ⟨entry, he, rfl⟩ := mem_map.mp hs
      exact hdefined entry he

/-- Properties that stand together have distinct names: in whatever a new resolver answers or has
taken out, at any depth, and in the components of a file with their definitions. -/
theorem prop_names_distinct (s : Setting) (calls : List Call) :
    (∀ answer ∈ ((session s calls).run {}).1, ∀ shape ∈ answer.shapes, shape.NamesDistinct) ∧
      ∀ path components, Extraction.extract s path = .ok components → ∀ c ∈ components,
        (Shape.object c.props).NamesDistinct ∧
          ∀ shape ∈ c.definitions.values, shape.NamesDistinct := by
  refine ⟨namesRule.session_holds s calls namesRule.defined_empty, ?_⟩
  intro path components h c hc
  unfold Extraction.extract at h
  split at h
  · cases h
  · split at h
    · cases h
    · obtain ⟨candidate, -, hcandidate⟩ := exists_of_mem_right (mapM_eq_ok_iff.mp h) hc
      exact component_namesDistinct hcandidate

def overlappingText : String :=
  "function A(p: \x7b a: string, 'a': number \x7d | \x7b b: string, a: true \x7d) \x7b\x7d"

theorem overlapping_read :
    ∃ p, Project.ofSources {} {} [(⟨"/p.tsx"⟩, overlappingText)] = .ok p ∧
      (Extraction.extract ⟨p, 6⟩ ⟨"/p.tsx"⟩).toOption.any fun components =>
        decide (∃ c ∈ components, c.props.map PropInfo.name = ["a", "b"]) :=
  Project.exists_ok_of_any (by decide +kernel)

theorem prop_names_distinct_overlapping :
    ∃ p components, Project.ofSources {} {} [(⟨"/p.tsx"⟩, overlappingText)] = .ok p ∧
      Extraction.extract ⟨p, 6⟩ ⟨"/p.tsx"⟩ = .ok components ∧
      ∃ c ∈ components, c.props.map PropInfo.name = ["a", "b"] ∧
        (Shape.object c.props).NamesDistinct := by
  obtain ⟨p, hread, hp⟩ := overlapping_read
  obtain ⟨components, hextract, c, hc, hnames⟩ := Project.exists_ok_of_any hp
  exact ⟨p, components, hread, hextract, c, hc, hnames,
    ((prop_names_distinct ⟨p, 6⟩ []).2 _ _ hextract c hc).1⟩

end PropContract.Resolver
