import PropContract.Proofs.Shape.Within

namespace PropContract

open List

theorem Double.same_self (d : Double) : d.same d = true := by
  simp [Double.same]

theorem Literal.same_self (v : Literal) : v.same v = true := by
  cases v with
  | string s => simp [Literal.same]
  | number d => exact Double.same_self d
  | boolean b => simp [Literal.same]
  | null => rfl

theorem Literal.sameAll_self (vs : List Literal) : Literal.sameAll vs vs = true := by
  induction vs with
  | nil => rfl
  | cons v vs ih => simp [Literal.sameAll, v.same_self, ih]

theorem Literal.sameOption_self (v : Option Literal) : Literal.sameOption v v = true := by
  cases v with
  | none => rfl
  | some v => exact v.same_self

mutual

theorem Shape.same_self : (s : Shape) → s.same s = true
  | .literal v => by simp [Shape.same, v.same_self]
  | .oneOf vs => by simp [Shape.same, Literal.sameAll_self]
  | .arrayOf s => by simp [Shape.same, s.same_self]
  | .object ps => by simp [Shape.same, PropInfo.sameAll_self ps]
  | .union ss => by simp [Shape.same, Shape.sameAll_self ss]
  | .primitive _ | .function | .reference _ | .element _ | .instance _ => by simp [Shape.same]

theorem Shape.sameAll_self : (ss : List Shape) → Shape.sameAll ss ss = true
  | [] => by simp [Shape.sameAll]
  | s :: ss => by simp [Shape.sameAll, s.same_self, Shape.sameAll_self ss]

theorem PropInfo.same_self : (p : PropInfo) → p.same p = true
  | .mk n r s d doc text => by simp [PropInfo.same, s.same_self, Literal.sameOption_self]

theorem PropInfo.sameAll_self : (ps : List PropInfo) → PropInfo.sameAll ps ps = true
  | [] => by simp [PropInfo.sameAll]
  | p :: ps => by simp [PropInfo.sameAll, p.same_self, PropInfo.sameAll_self ps]

end

namespace Shape

theorem same_literal (v w : Literal) : (literal v).same (literal w) = v.same w := by
  rw [Shape.same]

variable {s : Shape} {k : Primitive} {shapes : List Shape} {values : List Literal}

theorem same_primitive : s.same (primitive k) = true ↔ s = primitive k := by
  cases s <;> simp [Shape.same]

theorem primitive_same : (primitive k).same s = true ↔ s = primitive k := by
  cases s <;> simp [Shape.same, @eq_comm _ k]

theorem same_boolean {b : Bool} :
    s.same (literal (.boolean b)) = true ↔ s = literal (.boolean b) := by
  cases s with
  | literal v => cases v <;> simp [Shape.same, Literal.same]
  | _ => simp [Shape.same]

theorem isIn_primitive : isIn (primitive k) shapes = true ↔ primitive k ∈ shapes := by
  simp [isIn, same_primitive]

theorem isIn_boolean {b : Bool} :
    isIn (literal (.boolean b)) shapes = true ↔ literal (.boolean b) ∈ shapes := by
  simp [isIn, same_boolean]

structure CanonicalValues (values : List Literal) : Prop where
  several : 2 ≤ values.length
  distinct : values.Pairwise fun v w => v ≠ w ∧ v.same w = false
  oneKind : (∀ v ∈ values, ∃ s, v = .string s) ∨ ∀ v ∈ values, ∃ n, v = .number n

structure Unabsorbed (members : List Shape) : Prop where
  strings : primitive .string ∈ members → ∀ s, literal (.string s) ∉ members
  numbers : primitive .number ∈ members → ∀ n, literal (.number n) ∉ members
  booleans : primitive .boolean ∈ members → ∀ b, literal (.boolean b) ∉ members
  notBoth : literal (.boolean true) ∈ members → literal (.boolean false) ∉ members

structure Single (s : Shape) : Prop where
  notUnion : ∀ members, s ≠ union members
  notOneOf : ∀ values, s ≠ oneOf values
  notAny : s ≠ any

structure CanonicalMembers (members : List Shape) : Prop where
  several : 2 ≤ members.length
  distinct : members.Pairwise fun s t => s ≠ t ∧ s.same t = false
  single : ∀ s ∈ members, Single s
  unabsorbed : Unabsorbed members
  mixed : ∀ values : List Literal, members = values.map literal →
    ¬ ∀ v ∈ values, ∀ w ∈ values, v.sameKind w = true

def Tidy : Shape → Prop
  | union members => CanonicalMembers members
  | oneOf values => CanonicalValues values
  | _ => True

def Canonical (s : Shape) : Prop :=
  ∀ part, Within part s → Tidy part

theorem canonical_primitive (k : Primitive) : Canonical (primitive k) := by
  rintro part ⟨⟩
  trivial

theorem canonical_literal (v : Literal) : Canonical (literal v) := by
  rintro part ⟨⟩
  trivial

theorem canonical_function : Canonical function := by
  rintro part ⟨⟩
  trivial

theorem canonical_reference (name : String) : Canonical (reference name) := by
  rintro part ⟨⟩
  trivial

theorem canonical_element (k : ElementKind) : Canonical (element k) := by
  rintro part ⟨⟩
  trivial

theorem canonical_instance (name : String) : Canonical («instance» name) := by
  rintro part ⟨⟩
  trivial

theorem canonical_oneOf (h : CanonicalValues values) : Canonical (oneOf values) := by
  rintro part ⟨⟩
  exact h

theorem canonical_arrayOf : Canonical (arrayOf s) ↔ Canonical s := by
  constructor
  · exact fun h part hp => h part (.arrayOf hp)
  · intro h part hp
    cases hp with
    | refl => trivial
    | arrayOf hp => exact h part hp

theorem canonical_object {ps : List PropInfo} :
    Canonical (object ps) ↔ ∀ p ∈ ps, Canonical p.shape := by
  constructor
  · exact fun h p hp part hw => h part (.object hp hw)
  · intro h part hp
    cases hp with
    | refl => trivial
    | object hmem hp => exact h _ hmem part hp

theorem canonical_union {members : List Shape} (hm : CanonicalMembers members)
    (h : ∀ s ∈ members, Canonical s) : Canonical (union members) := by
  intro part hp
  cases hp with
  | refl => exact hm
  | union hmem hp => exact h _ hmem part hp

def Distinct (shapes : List Shape) : Prop :=
  shapes.Pairwise fun s t => s.same t = false

theorem Distinct.ne (h : Distinct shapes) :
    shapes.Pairwise fun s t => s ≠ t ∧ s.same t = false := by
  refine List.Pairwise.imp ?_ h
  intro s t hst
  refine ⟨?_, hst⟩
  rintro rfl
  simp [s.same_self] at hst

theorem distinct_foldl {kept : List Shape} (h : Distinct kept) :
    Distinct (shapes.foldl (fun kept s => if s.isIn kept then kept else kept ++ [s]) kept) := by
  induction shapes generalizing kept with
  | nil => exact h
  | cons s shapes ih =>
    apply ih
    dsimp only
    split
    · exact h
    · rename_i hs
      refine pairwise_append.mpr ⟨h, pairwise_singleton _ s, ?_⟩
      intro t ht u hu
      rw [mem_singleton.mp hu]
      simpa [isIn] using fun he => hs (any_eq_true.mpr ⟨t, ht, he⟩)

theorem distinct_distinct (shapes : List Shape) : Distinct (distinct shapes) :=
  distinct_foldl .nil

theorem distinct_joinBooleans (h : Distinct shapes) : Distinct (joinBooleans shapes) := by
  unfold joinBooleans
  dsimp only
  split
  · have hrest : Distinct (shapes.filter fun s => !s.isBooleanLiteral) := List.Pairwise.filter _ h
    generalize shapes.filter (fun s => !s.isBooleanLiteral) = rest at hrest ⊢
    generalize (shapes.takeWhile fun s => !s.isBooleanLiteral).length = position
    split
    · exact hrest
    · rename_i hb
      have hnot : ∀ s ∈ rest, s ≠ primitive .boolean :=
        fun s hs he => hb (isIn_primitive.mpr (he ▸ hs))
      rw [← take_append_drop position rest] at hrest
      obtain ⟨hbefore, hafter, hacross⟩ := pairwise_append.mp hrest
      refine pairwise_append.mpr ⟨hbefore, pairwise_cons.mpr ⟨?_, hafter⟩, ?_⟩
      · intro s hs
        exact Bool.eq_false_iff.mpr fun he =>
          hnot s (mem_of_mem_drop hs) (primitive_same.mp he)
      · intro s hs t ht
        rcases mem_cons.mp ht with rfl | ht
        · exact Bool.eq_false_iff.mpr fun he =>
            hnot s (mem_of_mem_take hs) (same_primitive.mp he)
        · exact hacross s hs t ht
  · exact h

theorem notBoth_joinBooleans (shapes : List Shape) :
    literal (.boolean true) ∈ joinBooleans shapes →
      literal (.boolean false) ∉ joinBooleans shapes := by
  intro ht hf
  unfold joinBooleans at ht hf
  dsimp only at ht hf
  split at ht
  · -- What is left has no boolean literal at all.
    have hrest : literal (.boolean true) ∉ shapes.filter fun s => !s.isBooleanLiteral := by
      simp [isBooleanLiteral]
    split at ht
    · exact hrest ht
    · rcases mem_append.mp ht with ht | ht
      · exact hrest (mem_of_mem_take ht)
      · rcases mem_cons.mp ht with he | ht
        · exact Shape.noConfusion he
        · exact hrest (mem_of_mem_drop ht)
  · rename_i hn
    rw [if_neg hn] at hf
    exact hn (Bool.and_eq_true_iff.mpr ⟨isIn_boolean.mpr ht, isIn_boolean.mpr hf⟩)

theorem primitive_not_mem_absorb (hs : s ∈ absorb shapes) (hk : s.absorber? = some k) :
    primitive k ∉ absorb shapes := by
  intro hp
  have hkeep := (mem_filter.mp hs).2
  simp only [hk, Bool.not_eq_true'] at hkeep
  exact Bool.eq_false_iff.mp hkeep (isIn_primitive.mpr (mem_absorb hp))

theorem unabsorbed_absorb (shapes : List Shape) : Unabsorbed (absorb (joinBooleans shapes)) where
  strings hp _ hs := primitive_not_mem_absorb hs rfl hp
  numbers hp _ hn := primitive_not_mem_absorb hn rfl hp
  booleans hp _ hb := primitive_not_mem_absorb hb rfl hp
  notBoth ht hf := notBoth_joinBooleans shapes (mem_absorb ht) (mem_absorb hf)

theorem mapM_literal? : shapes.mapM literal? = some values ↔ shapes = values.map literal := by
  induction shapes generalizing values with
  | nil => cases values <;> simp
  | cons s shapes ih =>
    cases s with
    | literal v =>
      cases values with
      | nil => simp [mapM_cons, literal?, Option.bind_eq_some_iff]
      | cons w values =>
        simpa [mapM_cons, literal?, Option.bind_eq_some_iff, ih] using and_comm
    | _ => cases values <;> simp [mapM_cons, literal?]

theorem canonicalValues_of_sameKind {v w : Literal} (hd : Distinct ((v :: w :: values).map literal))
    (hu : Unabsorbed ((v :: w :: values).map literal)) (hk : ∀ x ∈ w :: values, x.sameKind v = true)
    : CanonicalValues (v :: w :: values) := by
  refine ⟨by simp, ?_, ?_⟩
  · refine List.Pairwise.imp ?_ (pairwise_map.mp hd.ne)
    intro x y hxy
    exact ⟨fun he => hxy.1 (congrArg literal he), same_literal x y ▸ hxy.2⟩
  · have hw := hk w mem_cons_self
    have hvw : v.same w = false :=
      same_literal v w ▸ (pairwise_cons.mp (pairwise_map.mp hd)).1 w mem_cons_self
    cases v with
    | string s =>
      left
      refine forall_mem_cons.mpr ⟨⟨s, rfl⟩, fun x hx => ?_⟩
      have hx := hk x hx
      cases x <;> simp_all [Literal.sameKind]
    | number n =>
      right
      refine forall_mem_cons.mpr ⟨⟨n, rfl⟩, fun x hx => ?_⟩
      have hx := hk x hx
      cases x <;> simp_all [Literal.sameKind]
    | null => cases w <;> simp_all [Literal.sameKind, Literal.same]
    | boolean b =>
      cases w with
      | boolean c =>
        have hnot := hu.notBoth
        cases b <;> cases c <;> simp_all [Literal.same]
      | _ => simp [Literal.sameKind] at hw

theorem canonical_combine (hd : Distinct shapes) (hu : Unabsorbed shapes)
    (hs : ∀ s ∈ shapes, Single s) (hc : ∀ s ∈ shapes, Canonical s) :
    Canonical (combine shapes) := by
  match shapes with
  | [] => exact canonical_primitive .any
  | [s] => exact hc s (mem_singleton_self s)
  | s :: t :: shapes =>
    have hunion : (∀ values : List Literal, s :: t :: shapes = values.map literal →
        ¬ ∀ v ∈ values, ∀ w ∈ values, v.sameKind w = true) →
        Canonical (union (s :: t :: shapes)) :=
      fun hmixed => canonical_union ⟨by simp, hd.ne, hs, hu, hmixed⟩ hc
    rw [combine]
    split
    · rename_i v values hv
      have hlist := mapM_literal?.mp hv
      split
      · rename_i hk
        apply canonical_oneOf
        cases values with
        | nil => simp at hlist
        | cons w values =>
          rw [hlist] at hd hu
          exact canonicalValues_of_sameKind hd hu (by simpa using hk)
      · rename_i hk
        apply hunion
        intro values' hlist' hall
        obtain rfl : v :: values = values' :=
          Option.some.inj (hv.symm.trans (mapM_literal?.mpr hlist'))
        apply hk
        simp only [all_eq_true]
        exact fun x hx => hall x (mem_cons_of_mem v hx) v mem_cons_self
    · rename_i hnone
      apply hunion
      intro values hlist
      cases values with
      | nil => simp at hlist
      | cons v values => exact absurd (mapM_literal?.mpr hlist) (hnone v values)
    · simp

theorem single_primitive (h : k ≠ .any) : Single (primitive k) :=
  ⟨fun _ => nofun, fun _ => nofun, fun he => h (Shape.primitive.inj he)⟩

theorem canonical_classify (hc : ∀ s ∈ shapes, Canonical s)
    (hu : ∀ s ∈ shapes, ∀ members, s ≠ union members)
    (ho : ∀ s ∈ shapes, ∀ values, s ≠ oneOf values) : Canonical (classify shapes) := by
  unfold classify
  dsimp only
  split
  · exact canonical_primitive .any
  · rename_i hany
    have hmem : ∀ s ∈ absorb (joinBooleans (distinct shapes)),
        s ∈ distinct shapes ∨ s = primitive .boolean :=
      fun s hs => mem_joinBooleans (mem_absorb hs)
    apply canonical_combine
    · exact List.Pairwise.filter _ (distinct_joinBooleans (distinct_distinct shapes))
    · exact unabsorbed_absorb _
    · intro s hs
      rcases hmem s hs with hs | rfl
      · have hin := mem_distinct hs
        refine ⟨hu s hin, ho s hin, ?_⟩
        rintro rfl
        exact hany (any_eq_true.mpr ⟨any, hs, rfl⟩)
      · exact single_primitive nofun
    · intro s hs
      rcases hmem s hs with hs | rfl
      · exact hc s (mem_distinct hs)
      · exact canonical_primitive .boolean

theorem branches_of_canonical {branch : Shape} (h : Canonical s) (hb : branch ∈ s.branches) :
    Canonical branch ∧ (∀ members, branch ≠ union members) ∧ ∀ values, branch ≠ oneOf values := by
  unfold branches at hb
  split at hb
  · rename_i members
    have hm : CanonicalMembers members := h _ (.refl _)
    have hsingle := hm.single branch hb
    exact ⟨fun part hp => h part (.union hb hp), hsingle.notUnion, hsingle.notOneOf⟩
  · obtain ⟨v, -, rfl⟩ := mem_map.mp hb
    exact ⟨canonical_literal v, fun _ => nofun, fun _ => nofun⟩
  · rename_i hnu hno
    obtain rfl := mem_singleton.mp hb
    exact ⟨h, hnu, hno⟩

theorem canonical_classify_branches (h : ∀ s ∈ shapes, Canonical s) :
    Canonical (classify (shapes.flatMap branches)) := by
  have hbranch : ∀ b ∈ shapes.flatMap branches, Canonical b ∧ (∀ members, b ≠ union members) ∧
      ∀ values, b ≠ oneOf values := by
    intro b hb
    obtain ⟨s, hs, hb⟩ := mem_flatMap.mp hb
    exact branches_of_canonical (h s hs) hb
  exact canonical_classify (fun b hb => (hbranch b hb).1) (fun b hb => (hbranch b hb).2.1)
    fun b hb => (hbranch b hb).2.2

theorem canonical_classify_literals (values : List Literal) :
    Canonical (classify (values.map literal)) := by
  apply canonical_classify
  · rintro s hs
    obtain ⟨v, -, rfl⟩ := mem_map.mp hs
    exact canonical_literal v
  · rintro s hs
    obtain ⟨v, -, rfl⟩ := mem_map.mp hs
    exact fun _ => nofun
  · rintro s hs
    obtain ⟨v, -, rfl⟩ := mem_map.mp hs
    exact fun _ => nofun

theorem canonicalMembers_text : CanonicalMembers [primitive .string, primitive .number] where
  several := Nat.le_refl 2
  distinct := by simp [Shape.same]
  single := by
    intro s hs
    rcases mem_cons.mp hs with rfl | hs
    · exact single_primitive nofun
    · exact mem_singleton.mp hs ▸ single_primitive nofun
  unabsorbed := ⟨by simp, by simp, by simp, by simp⟩
  mixed values h := by cases values <;> simp at h

theorem canonical_reactShape? {type : String} (h : Library.reactShape? type = some s) :
    Canonical s := by
  rcases reactShape?_cases h with ⟨k, rfl⟩ | rfl | rfl | rfl
  · exact canonical_element k
  · apply canonical_union canonicalMembers_text
    intro s hs
    rcases mem_cons.mp hs with rfl | hs
    · exact canonical_primitive .string
    · exact mem_singleton.mp hs ▸ canonical_primitive .number
  · exact canonical_primitive .object
  · exact canonical_function

theorem canonical_globalShape? {type : String} (h : Library.globalShape? type = some s) :
    Canonical s := by
  rcases globalShape?_cases h with rfl | rfl | ⟨k, rfl⟩
  · exact canonical_instance type
  · exact canonical_function
  · exact canonical_primitive k

end Shape

end PropContract
