import PropContract.Proofs.Shape.Canonical
import PropContract.Proofs.Value

/-!
What the making of a union means: it leaves the values of its members together as they are.
-/

namespace PropContract

open List

def Literal.equals : Literal → Value → Bool
  | .string s, .string t => s == t
  | .number a, .number b => a.same b
  | .boolean a, .boolean b => a == b
  | .null, .null => true
  | _, _ => false

theorem Double.same_congr {a b : Double} (h : a.same b = true) (c : Double) :
    a.same c = b.same c := by
  by_cases heq : a = b
  · rw [heq]
  · have hzero : a.isZero = true ∧ b.isZero = true := by simpa [Double.same, heq] using h
    have hne {x : Double} (hx : x.isZero = true) : x.same c = c.isZero := by
      by_cases hc : x = c
      · simp [Double.same, ← hc, hx]
      · simp [Double.same, hx, hc]
    rw [hne hzero.1, hne hzero.2]

theorem Literal.equals_congr {l l' : Literal} (h : l.same l' = true) (v : Value) :
    l.equals v = l'.equals v := by
  cases l with
  | number a =>
    cases l' with
    | number b => cases v <;> simp [Literal.equals, Double.same_congr h]
    | _ => simp [Literal.same] at h
  | _ => cases l' <;> simp_all [Literal.same]

theorem Literal.any_equals_congr {ls ls' : List Literal} (h : Literal.sameAll ls ls' = true)
    (v : Value) : (∃ l ∈ ls, l.equals v = true) ↔ ∃ l ∈ ls', l.equals v = true := by
  induction ls generalizing ls' with
  | nil =>
    cases ls' with
    | nil => exact Iff.rfl
    | cons => simp [Literal.sameAll] at h
  | cons l ls ih =>
    cases ls' with
    | nil => simp [Literal.sameAll] at h
    | cons l' ls' =>
      have hboth : l.same l' = true ∧ Literal.sameAll ls ls' = true := by
        simpa [Literal.sameAll] using h
      simp [Literal.equals_congr hboth.1, ih hboth.2]

namespace Shape

def isSealed : Shape → Bool
  | arrayOf _ | object _ | function | reference _ | element _ | «instance» _ => true
  | primitive _ | literal _ | oneOf _ | union _ => false

/-- A value is one of those that a shape stands for. The values of sealed shapes are given. -/
inductive Admits (given : Shape → Value → Prop) : Shape → Value → Prop where
  | primitive : k.holds v → Admits given (primitive k) v
  | literal : l.equals v → Admits given (literal l) v
  | oneOf : l ∈ values → l.equals v → Admits given (oneOf values) v
  | union : s ∈ members → Admits given s v → Admits given (union members) v
  | sealed : s.isSealed → given s v → Admits given s v

section Admits

variable {given : Shape → Value → Prop} {v : Value}

@[simp] theorem admits_primitive {k : Primitive} :
    Admits given (primitive k) v ↔ k.holds v = true := by
  constructor
  · rintro (h | h | h | h | ⟨h, -⟩)
    · exact h
    · cases h
  · exact .primitive

@[simp] theorem admits_literal {l : Literal} :
    Admits given (literal l) v ↔ l.equals v = true := by
  constructor
  · rintro (h | h | h | h | ⟨h, -⟩)
    · exact h
    · cases h
  · exact .literal

@[simp] theorem admits_oneOf {values : List Literal} :
    Admits given (oneOf values) v ↔ ∃ l ∈ values, l.equals v = true := by
  constructor
  · rintro (h | h | ⟨hl, h⟩ | h | ⟨h, -⟩)
    · exact ⟨_, hl, h⟩
    · cases h
  · rintro ⟨l, hl, h⟩
    exact .oneOf hl h

@[simp] theorem admits_union {members : List Shape} :
    Admits given (union members) v ↔ ∃ s ∈ members, Admits given s v := by
  constructor
  · rintro (h | h | h | ⟨hs, h⟩ | ⟨h, -⟩)
    · exact ⟨_, hs, h⟩
    · cases h
  · rintro ⟨s, hs, h⟩
    exact .union hs h

variable {s : Shape} {shapes : List Shape}

theorem admits_of_isSealed (hs : s.isSealed = true) : Admits given s v ↔ given s v := by
  constructor
  · intro h
    cases h with
    | sealed _ h => exact h
    | _ => cases hs
  · exact .sealed hs

theorem admits_any : Admits given any v :=
  .primitive rfl

theorem isSealed_congr {t : Shape} (h : s.same t = true) : t.isSealed = s.isSealed := by
  cases s <;> cases t <;> first | rfl | simp [Shape.same] at h

theorem admits_congr_of_isSealed (hgiven : ∀ s t, s.same t = true → ∀ v, given s v ↔ given t v)
    {t : Shape} (hs : s.isSealed = true) (h : s.same t = true) :
    Admits given s v ↔ Admits given t v := by
  rw [admits_of_isSealed hs, admits_of_isSealed (isSealed_congr h ▸ hs), hgiven s t h]

mutual

theorem admits_congr (hgiven : ∀ s t, s.same t = true → ∀ v, given s v ↔ given t v) :
    (s t : Shape) → s.same t = true → (Admits given s v ↔ Admits given t v)
  | .primitive k, t, h => by rw [primitive_same.mp h]
  | .literal l, t, h => by
    cases t with
    | literal l' => rw [admits_literal, admits_literal, Literal.equals_congr (same_literal l l' ▸ h)]
    | _ => simp [Shape.same] at h
  | .oneOf ls, t, h => by
    cases t with
    | oneOf ls' =>
      rw [Shape.same] at h
      rw [admits_oneOf, admits_oneOf, Literal.any_equals_congr h]
    | _ => simp [Shape.same] at h
  | .union ss, t, h => by
    cases t with
    | union ts =>
      rw [Shape.same] at h
      rw [admits_union, admits_union, admitsSome_congr hgiven ss ts h]
    | _ => simp [Shape.same] at h
  | .arrayOf _, _, h | .object _, _, h | .function, _, h | .reference _, _, h | .element _, _, h
  | .instance _, _, h => admits_congr_of_isSealed hgiven rfl h

theorem admitsSome_congr (hgiven : ∀ s t, s.same t = true → ∀ v, given s v ↔ given t v) :
    (ss ts : List Shape) → Shape.sameAll ss ts = true →
      ((∃ s ∈ ss, Admits given s v) ↔ ∃ t ∈ ts, Admits given t v)
  | [], [], _ => Iff.rfl
  | [], _ :: _, h | _ :: _, [], h => by simp [Shape.sameAll] at h
  | s :: ss, t :: ts, h => by
    have hboth : s.same t = true ∧ Shape.sameAll ss ts = true := by simpa [Shape.sameAll] using h
    simp [admits_congr hgiven s t hboth.1, admitsSome_congr hgiven ss ts hboth.2]

end

theorem exists_same_mem_foldl {kept : List Shape} (h : (∃ t ∈ kept, t.same s = true) ∨ s ∈ shapes) :
    ∃ t ∈ shapes.foldl (fun kept s => if s.isIn kept then kept else kept ++ [s]) kept,
      t.same s = true := by
  induction shapes generalizing kept with
  | nil => exact h.resolve_right not_mem_nil
  | cons first shapes ih =>
    rw [foldl_cons]
    apply ih
    by_cases hin : first.isIn kept = true
    · rw [if_pos hin]
      rcases h with h | h
      · exact .inl h
      · rcases mem_cons.mp h with rfl | h
        · exact .inl (any_eq_true.mp hin)
        · exact .inr h
    · rw [if_neg hin]
      rcases h with ⟨t, ht, hs⟩ | h
      · exact .inl ⟨t, mem_append_left _ ht, hs⟩
      · rcases mem_cons.mp h with rfl | h
        · exact .inl ⟨s, mem_append_right _ mem_cons_self, s.same_self⟩
        · exact .inr h

theorem exists_same_mem_distinct (h : s ∈ shapes) : ∃ t ∈ distinct shapes, t.same s = true :=
  exists_same_mem_foldl (.inr h)

theorem admits_distinct (hgiven : ∀ s t, s.same t = true → ∀ v, given s v ↔ given t v)
    (shapes : List Shape) :
    (∃ s ∈ distinct shapes, Admits given s v) ↔ ∃ s ∈ shapes, Admits given s v := by
  constructor
  · rintro ⟨s, hs, h⟩
    exact ⟨s, mem_distinct hs, h⟩
  · rintro ⟨s, hs, h⟩
    obtain ⟨t, ht, hsame⟩ := exists_same_mem_distinct hs
    exact ⟨t, ht, (admits_congr hgiven t s hsame).mpr h⟩

theorem holds_boolean_iff : Primitive.boolean.holds v = true ↔ ∃ b, v = .boolean b := by
  cases v <;> simp [Primitive.holds]

theorem equals_boolean_iff {b : Bool} : (Literal.boolean b).equals v = true ↔ v = .boolean b := by
  cases v <;> simp [Literal.equals, @eq_comm _ b]

theorem isBooleanLiteral_iff : s.isBooleanLiteral = true ↔ ∃ b, s = literal (.boolean b) := by
  constructor
  · intro h
    unfold isBooleanLiteral at h
    split at h
    · exact ⟨_, rfl⟩
    · cases h
  · rintro ⟨b, rfl⟩
    rfl

theorem mem_joinBooleans_of_both (ht : literal (.boolean true) ∈ shapes)
    (hf : literal (.boolean false) ∈ shapes) :
    s ∈ joinBooleans shapes ↔ (s ∈ shapes ∧ s.isBooleanLiteral = false) ∨ s = primitive .boolean := by
  have hboth : (isIn (literal (.boolean true)) shapes && isIn (literal (.boolean false)) shapes) =
      true := Bool.and_eq_true_iff.mpr ⟨isIn_boolean.mpr ht, isIn_boolean.mpr hf⟩
  have hrest : s ∈ shapes.filter (fun s => !s.isBooleanLiteral) ↔
      s ∈ shapes ∧ s.isBooleanLiteral = false := by simp
  unfold joinBooleans
  rw [if_pos hboth]
  dsimp only
  generalize shapes.filter (fun s => !s.isBooleanLiteral) = rest at hrest ⊢
  generalize (shapes.takeWhile fun s => !s.isBooleanLiteral).length = position
  by_cases hin : isIn (primitive .boolean) rest = true
  · rw [if_pos hin, ← hrest]
    refine ⟨.inl, ?_⟩
    rintro (h | rfl)
    · exact h
    · exact isIn_primitive.mp hin
  · rw [if_neg hin, ← hrest]
    nth_rewrite 3 [← take_append_drop position rest]
    simp only [mem_append, mem_cons]
    tauto

theorem joinBooleans_of_not_both
    (h : ¬ (literal (.boolean true) ∈ shapes ∧ literal (.boolean false) ∈ shapes)) :
    joinBooleans shapes = shapes := by
  unfold joinBooleans
  rw [if_neg]
  rwa [Bool.and_eq_true_iff, isIn_boolean, isIn_boolean]

theorem admits_joinBooleans (shapes : List Shape) :
    (∃ s ∈ joinBooleans shapes, Admits given s v) ↔ ∃ s ∈ shapes, Admits given s v := by
  by_cases hboth : literal (.boolean true) ∈ shapes ∧ literal (.boolean false) ∈ shapes
  · obtain ⟨ht, hf⟩ := hboth
    constructor
    · rintro ⟨s, hs, h⟩
      rcases (mem_joinBooleans_of_both ht hf).mp hs with ⟨hs, -⟩ | rfl
      · exact ⟨s, hs, h⟩
      · obtain ⟨b, rfl⟩ := holds_boolean_iff.mp (admits_primitive.mp h)
        cases b with
        | true => exact ⟨_, ht, admits_literal.mpr rfl⟩
        | false => exact ⟨_, hf, admits_literal.mpr rfl⟩
    · rintro ⟨s, hs, h⟩
      by_cases hb : s.isBooleanLiteral = true
      · obtain ⟨b, rfl⟩ := isBooleanLiteral_iff.mp hb
        refine ⟨primitive .boolean, (mem_joinBooleans_of_both ht hf).mpr (.inr rfl), ?_⟩
        exact admits_primitive.mpr
          (holds_boolean_iff.mpr ⟨b, equals_boolean_iff.mp (admits_literal.mp h)⟩)
      · exact ⟨s, (mem_joinBooleans_of_both ht hf).mpr (.inl ⟨hs, eq_false_of_ne_true hb⟩), h⟩
  · rw [joinBooleans_of_not_both hboth]

theorem holds_of_absorber? {k : Primitive} (hk : s.absorber? = some k) (h : Admits given s v) :
    k.holds v = true := by
  cases s with
  | literal l =>
    have hl := admits_literal.mp h
    cases l with
    | null => cases hk
    | _ =>
      obtain rfl := Option.some.inj hk
      cases v <;> first | rfl | simp [Literal.equals] at hl
  | _ => cases hk

theorem mem_absorb_iff :
    s ∈ absorb shapes ↔ s ∈ shapes ∧ ∀ k, s.absorber? = some k → primitive k ∉ shapes := by
  unfold absorb
  rw [mem_filter]
  refine and_congr_right fun _ => ?_
  cases s.absorber? with
  | none => simp
  | some k => simp [← isIn_primitive]

theorem admits_absorb (shapes : List Shape) :
    (∃ s ∈ absorb shapes, Admits given s v) ↔ ∃ s ∈ shapes, Admits given s v := by
  constructor
  · rintro ⟨s, hs, h⟩
    exact ⟨s, mem_absorb hs, h⟩
  · rintro ⟨s, hs, h⟩
    by_cases hkept : ∀ k, s.absorber? = some k → primitive k ∉ shapes
    · exact ⟨s, mem_absorb_iff.mpr ⟨hs, hkept⟩, h⟩
    · push Not at hkept
      obtain ⟨k, hk, hp⟩ := hkept
      refine ⟨primitive k, mem_absorb_iff.mpr ⟨hp, nofun⟩, ?_⟩
      exact admits_primitive.mpr (holds_of_absorber? hk h)

theorem admits_combine (hne : shapes ≠ []) :
    Admits given (combine shapes) v ↔ ∃ s ∈ shapes, Admits given s v := by
  match shapes with
  | [] => exact absurd rfl hne
  | [s] => simp [combine]
  | s :: t :: shapes =>
    rw [combine]
    split
    · rename_i l ls hlist
      split
      · rw [mapM_literal?.mp hlist]
        simp
      · exact admits_union
    · exact admits_union
    · simp

end Admits

section Stable

variable {shapes : List Shape}

theorem foldl_distinct_eq {kept : List Shape} (h : Distinct (kept ++ shapes)) :
    shapes.foldl (fun kept s => if s.isIn kept then kept else kept ++ [s]) kept = kept ++ shapes := by
  induction shapes generalizing kept with
  | nil => simp
  | cons s shapes ih =>
    have hnew : s.isIn kept = false := by
      rw [isIn, any_eq_false]
      intro t ht
      exact Bool.eq_false_iff.mp ((pairwise_append.mp h).2.2 t ht s mem_cons_self)
    rw [foldl_cons, hnew, if_neg Bool.false_ne_true, ih (by simpa using h)]
    simp

theorem distinct_eq_self (h : Distinct shapes) : distinct shapes = shapes :=
  foldl_distinct_eq h

theorem joinBooleans_eq_self (h : Unabsorbed shapes) : joinBooleans shapes = shapes :=
  joinBooleans_of_not_both fun hboth => h.notBoth hboth.1 hboth.2

theorem absorb_eq_self (h : Unabsorbed shapes) : absorb shapes = shapes := by
  rw [absorb, filter_eq_self]
  intro s hs
  have hkept : s ∈ absorb shapes := mem_absorb_iff.mpr ⟨hs, ?_⟩
  · exact (mem_filter.mp hkept).2
  · intro k hk hp
    cases s with
    | literal l =>
      cases l with
      | null => cases hk
      | string text =>
        obtain rfl := Option.some.inj hk
        exact h.strings hp text hs
      | number n =>
        obtain rfl := Option.some.inj hk
        exact h.numbers hp n hs
      | boolean b =>
        obtain rfl := Option.some.inj hk
        exact h.booleans hp b hs
    | _ => cases hk

theorem branches_combine (hne : shapes ≠ []) (hu : ∀ s ∈ shapes, ∀ members, s ≠ union members)
    (ho : ∀ s ∈ shapes, ∀ values, s ≠ oneOf values) : (combine shapes).branches = shapes := by
  match shapes with
  | [] => exact absurd rfl hne
  | [s] =>
    have hsu := hu s mem_cons_self
    have hso := ho s mem_cons_self
    cases s with
    | union members => exact absurd rfl (hsu members)
    | oneOf values => exact absurd rfl (hso values)
    | _ => rfl
  | s :: t :: shapes =>
    rw [combine]
    split
    · rename_i l ls hlist
      split
      · exact (mapM_literal?.mp hlist).symm
      · rfl
    · rfl
    · simp

theorem classify_eq_combine (hd : Distinct shapes) (hu : Unabsorbed shapes)
    (hany : shapes.any isAny = false) : classify shapes = combine shapes := by
  rw [classify, distinct_eq_self hd, hany, joinBooleans_eq_self hu, absorb_eq_self hu]
  rfl

theorem classify_cases (shapes : List Shape) :
    (any ∈ distinct shapes ∧ classify shapes = any) ∨
      (any ∉ distinct shapes ∧
        classify shapes = combine (absorb (joinBooleans (distinct shapes)))) := by
  have hany : (distinct shapes).any isAny = true ↔ any ∈ distinct shapes := by
    rw [any_eq_true]
    constructor
    · rintro ⟨s, hs, h⟩
      unfold isAny at h
      split at h
      · exact hs
      · cases h
    · exact fun h => ⟨any, h, rfl⟩
  rw [classify]
  by_cases h : (distinct shapes).any isAny = true
  · exact .inl ⟨hany.mp h, if_pos h⟩
  · exact .inr ⟨fun hin => h (hany.mpr hin), if_neg h⟩

theorem joinBooleans_ne_nil (hne : shapes ≠ []) : joinBooleans shapes ≠ [] := by
  by_cases hboth : literal (.boolean true) ∈ shapes ∧ literal (.boolean false) ∈ shapes
  · exact ne_nil_of_mem ((mem_joinBooleans_of_both hboth.1 hboth.2).mpr (.inr rfl))
  · rwa [joinBooleans_of_not_both hboth]

theorem absorb_ne_nil (hne : shapes ≠ []) : absorb shapes ≠ [] := by
  obtain ⟨s, hs⟩ := exists_mem_of_ne_nil shapes hne
  by_cases hkept : ∀ k, s.absorber? = some k → primitive k ∉ shapes
  · exact ne_nil_of_mem (mem_absorb_iff.mpr ⟨hs, hkept⟩)
  · push Not at hkept
    obtain ⟨k, -, hp⟩ := hkept
    exact ne_nil_of_mem (mem_absorb_iff.mpr ⟨hp, nofun⟩)

theorem steps_ne_nil (hne : shapes ≠ []) : absorb (joinBooleans (distinct shapes)) ≠ [] := by
  obtain ⟨s, hs⟩ := exists_mem_of_ne_nil shapes hne
  obtain ⟨t, ht, -⟩ := exists_same_mem_distinct hs
  exact absorb_ne_nil (joinBooleans_ne_nil (ne_nil_of_mem ht))

theorem mem_of_mem_steps {s : Shape} (hs : s ∈ absorb (joinBooleans (distinct shapes))) :
    s ∈ distinct shapes ∨ s = primitive .boolean :=
  mem_joinBooleans (mem_absorb hs)

theorem classify_steps (hany : any ∉ distinct shapes) :
    classify (absorb (joinBooleans (distinct shapes))) =
      combine (absorb (joinBooleans (distinct shapes))) := by
  apply classify_eq_combine
  · exact List.Pairwise.filter _ (distinct_joinBooleans (distinct_distinct shapes))
  · exact unabsorbed_absorb _
  · rw [any_eq_false]
    intro s hs h
    rcases mem_of_mem_steps hs with hs | rfl
    · unfold isAny at h
      split at h
      · exact hany hs
      · cases h
    · cases h

end Stable

/-- The shape of a union admits what one of its members admits; and if no member is itself a union
or a set of literals, the members of that shape make the same shape again. -/
theorem classify_faithful {given : Shape → Value → Prop}
    (hgiven : ∀ s t, s.same t = true → ∀ v, given s v ↔ given t v) {shapes : List Shape}
    (hne : shapes ≠ []) :
    (∀ v, Admits given (classify shapes) v ↔ ∃ s ∈ shapes, Admits given s v) ∧
      ((∀ s ∈ shapes, (∀ members, s ≠ union members) ∧ ∀ values, s ≠ oneOf values) →
        classify (classify shapes).branches = classify shapes) := by
  rcases classify_cases shapes with ⟨hany, heq⟩ | ⟨hany, heq⟩
  · rw [heq]
    refine ⟨fun v => ?_, fun _ => rfl⟩
    exact iff_of_true admits_any ⟨any, mem_distinct hany, admits_any⟩
  · rw [heq]
    refine ⟨fun v => ?_, fun hsingle => ?_⟩
    · rw [admits_combine (steps_ne_nil hne), admits_absorb, admits_joinBooleans,
        admits_distinct hgiven]
    · have hmember : ∀ s ∈ absorb (joinBooleans (distinct shapes)),
          (∀ members, s ≠ union members) ∧ ∀ values, s ≠ oneOf values := by
        intro s hs
        rcases mem_of_mem_steps hs with hs | rfl
        · exact hsingle s (mem_distinct hs)
        · exact ⟨nofun, nofun⟩
      rw [branches_combine (steps_ne_nil hne) (fun s hs => (hmember s hs).1)
        fun s hs => (hmember s hs).2]
      exact classify_steps hany

def crowdedMembers : List Shape :=
  [literal (.boolean true), literal (.string "a"), literal (.number (.zero false)), function,
    literal (.boolean false), primitive .string, literal (.number (.zero true))]

theorem classify_faithful_crowded :
    (∀ v, Admits (fun _ v => v.isObject = true) (classify crowdedMembers) v ↔
      ∃ s ∈ crowdedMembers, Admits (fun _ v => v.isObject = true) s v) ∧
    classify crowdedMembers = union [primitive .boolean, literal (.number (.zero false)), function,
      primitive .string] ∧
    classify (classify crowdedMembers).branches = classify crowdedMembers := by
  have h := @classify_faithful (fun _ v => v.isObject = true) (fun _ _ _ _ => Iff.rfl)
    crowdedMembers nofun
  refine ⟨h.1, ?_, h.2 (by simp [crowdedMembers])⟩
  simp [crowdedMembers, classify, distinct, isIn, Shape.same, Literal.same, Double.same,
    Double.zero, Double.isZero, isAny, joinBooleans, isBooleanLiteral, absorb, absorber?, combine,
    mapM_cons, literal?]

end Shape

end PropContract
