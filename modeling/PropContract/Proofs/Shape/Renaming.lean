import Mathlib.Data.Set.Function
import PropContract.Proofs.Shape.Within

namespace PropContract

open List

mutual

def Shape.rename (ρ : String → String) : Shape → Shape
  | .primitive kind => .primitive kind
  | .literal value => .literal value
  | .oneOf values => .oneOf values
  | .arrayOf element => .arrayOf (element.rename ρ)
  | .object props => .object (PropInfo.renameAll ρ props)
  | .union members => .union (Shape.renameAll ρ members)
  | .function => .function
  | .reference name => .reference (ρ name)
  | .element kind => .element kind
  | .instance name => .instance name

def Shape.renameAll (ρ : String → String) : List Shape → List Shape
  | [] => []
  | s :: ss => s.rename ρ :: Shape.renameAll ρ ss

def PropInfo.rename (ρ : String → String) : PropInfo → PropInfo
  | .mk name required shape default doc typeText =>
    .mk name required (shape.rename ρ) default doc typeText

def PropInfo.renameAll (ρ : String → String) : List PropInfo → List PropInfo
  | [] => []
  | p :: ps => p.rename ρ :: PropInfo.renameAll ρ ps

end

variable {ρ σ : String → String} {N : Set String}

theorem PropInfo.renameAll_eq_map (ps : List PropInfo) :
    PropInfo.renameAll ρ ps = ps.map (PropInfo.rename ρ) := by
  induction ps with
  | nil => rfl
  | cons p ps ih => rw [PropInfo.renameAll, ih, map_cons]

theorem Shape.renameAll_eq_map (ss : List Shape) :
    Shape.renameAll ρ ss = ss.map (Shape.rename ρ) := by
  induction ss with
  | nil => rfl
  | cons s ss ih => rw [Shape.renameAll, ih, map_cons]

def Shape.names (s : Shape) : Set String :=
  { name | s.Mentions name }

theorem Shape.names_arrayOf (s : Shape) : (arrayOf s).names = s.names :=
  Set.ext fun _ => Shape.mentions_arrayOf

theorem Shape.names_object_subset {ps : List PropInfo} :
    (object ps).names ⊆ N ↔ ∀ p ∈ ps, p.shape.names ⊆ N := by
  constructor
  · exact fun h p hp name hm => h (Shape.mentions_object.mpr ⟨p, hp, hm⟩)
  · intro h name hm
    obtain ⟨p, hp, hm⟩ := Shape.mentions_object.mp hm
    exact h p hp hm

theorem Shape.names_union_subset {ss : List Shape} :
    (union ss).names ⊆ N ↔ ∀ s ∈ ss, s.names ⊆ N := by
  constructor
  · exact fun h s hs name hm => h (Shape.mentions_union.mpr ⟨s, hs, hm⟩)
  · intro h name hm
    obtain ⟨s, hs, hm⟩ := Shape.mentions_union.mp hm
    exact h s hs hm

mutual

theorem Shape.rename_congr (h : Set.EqOn ρ σ N) :
    (s : Shape) → s.names ⊆ N → s.rename ρ = s.rename σ
  | .arrayOf s, hs => by
    rw [Shape.rename, Shape.rename, Shape.rename_congr h s (Shape.names_arrayOf s ▸ hs)]
  | .object ps, hs => by
    rw [Shape.rename, Shape.rename,
      PropInfo.renameAll_congr h ps (Shape.names_object_subset.mp hs)]
  | .union ss, hs => by
    rw [Shape.rename, Shape.rename, Shape.renameAll_congr h ss (Shape.names_union_subset.mp hs)]
  | .reference name, hs => by
    rw [Shape.rename, Shape.rename, h (hs (Shape.mentions_reference.mpr rfl))]
  | .primitive _, _ | .literal _, _ | .oneOf _, _ | .function, _ | .element _, _
  | .instance _, _ => rfl

theorem Shape.renameAll_congr (h : Set.EqOn ρ σ N) :
    (ss : List Shape) → (∀ s ∈ ss, s.names ⊆ N) → Shape.renameAll ρ ss = Shape.renameAll σ ss
  | [], _ => rfl
  | s :: ss, hs => by
    obtain ⟨hs, hss⟩ := forall_mem_cons.mp hs
    rw [Shape.renameAll, Shape.renameAll, Shape.rename_congr h s hs, Shape.renameAll_congr h ss hss]

theorem PropInfo.rename_congr (h : Set.EqOn ρ σ N) :
    (p : PropInfo) → p.shape.names ⊆ N → p.rename ρ = p.rename σ
  | .mk _ _ s _ _ _, hs => by
    rw [PropInfo.rename, PropInfo.rename, Shape.rename_congr h s hs]

theorem PropInfo.renameAll_congr (h : Set.EqOn ρ σ N) :
    (ps : List PropInfo) → (∀ p ∈ ps, p.shape.names ⊆ N) →
      PropInfo.renameAll ρ ps = PropInfo.renameAll σ ps
  | [], _ => rfl
  | p :: ps, hs => by
    obtain ⟨hp, hps⟩ := forall_mem_cons.mp hs
    rw [PropInfo.renameAll, PropInfo.renameAll, PropInfo.rename_congr h p hp,
      PropInfo.renameAll_congr h ps hps]

end

mutual

theorem Shape.same_rename (h : Set.InjOn ρ N) : (s t : Shape) → s.names ⊆ N → t.names ⊆ N →
    (s.rename ρ).same (t.rename ρ) = s.same t
  | .arrayOf s, t, hs, ht => by
    cases t with
    | arrayOf t =>
      simp only [Shape.rename, Shape.same]
      exact Shape.same_rename h s t (Shape.names_arrayOf s ▸ hs) (Shape.names_arrayOf t ▸ ht)
    | _ => simp [Shape.rename, Shape.same]
  | .object ps, t, hs, ht => by
    cases t with
    | object qs =>
      simp only [Shape.rename, Shape.same]
      exact PropInfo.sameAll_rename h ps qs (Shape.names_object_subset.mp hs)
        (Shape.names_object_subset.mp ht)
    | _ => simp [Shape.rename, Shape.same]
  | .union ss, t, hs, ht => by
    cases t with
    | union ts =>
      simp only [Shape.rename, Shape.same]
      exact Shape.sameAll_rename h ss ts (Shape.names_union_subset.mp hs)
        (Shape.names_union_subset.mp ht)
    | _ => simp [Shape.rename, Shape.same]
  | .reference a, t, hs, ht => by
    cases t with
    | reference b =>
      have hab : ρ a = ρ b ↔ a = b :=
        h.eq_iff (hs (Shape.mentions_reference.mpr rfl)) (ht (Shape.mentions_reference.mpr rfl))
      simp only [Shape.rename, Shape.same]
      rw [Bool.eq_iff_iff, beq_iff_eq, beq_iff_eq, hab]
    | _ => simp [Shape.rename, Shape.same]
  | .primitive _, t, _, _ | .literal _, t, _, _ | .oneOf _, t, _, _ | .function, t, _, _
  | .element _, t, _, _ | .instance _, t, _, _ => by
    cases t <;> simp [Shape.rename, Shape.same]

theorem Shape.sameAll_rename (h : Set.InjOn ρ N) : (ss ts : List Shape) →
    (∀ s ∈ ss, s.names ⊆ N) → (∀ t ∈ ts, t.names ⊆ N) →
      Shape.sameAll (Shape.renameAll ρ ss) (Shape.renameAll ρ ts) = Shape.sameAll ss ts
  | [], [], _, _ => rfl
  | [], _ :: _, _, _ | _ :: _, [], _, _ => by simp [Shape.renameAll, Shape.sameAll]
  | s :: ss, t :: ts, hs, ht => by
    obtain ⟨hs, hss⟩ := forall_mem_cons.mp hs
    obtain ⟨ht, hts⟩ := forall_mem_cons.mp ht
    simp only [Shape.renameAll, Shape.sameAll]
    rw [Shape.same_rename h s t hs ht, Shape.sameAll_rename h ss ts hss hts]

theorem PropInfo.same_rename (h : Set.InjOn ρ N) : (p q : PropInfo) →
    p.shape.names ⊆ N → q.shape.names ⊆ N → (p.rename ρ).same (q.rename ρ) = p.same q
  | .mk _ _ s _ _ _, .mk _ _ t _ _ _, hs, ht => by
    simp only [PropInfo.rename, PropInfo.same]
    rw [Shape.same_rename h s t hs ht]

theorem PropInfo.sameAll_rename (h : Set.InjOn ρ N) : (ps qs : List PropInfo) →
    (∀ p ∈ ps, p.shape.names ⊆ N) → (∀ q ∈ qs, q.shape.names ⊆ N) →
      PropInfo.sameAll (PropInfo.renameAll ρ ps) (PropInfo.renameAll ρ qs) =
        PropInfo.sameAll ps qs
  | [], [], _, _ => rfl
  | [], _ :: _, _, _ | _ :: _, [], _, _ => by simp [PropInfo.renameAll, PropInfo.sameAll]
  | p :: ps, q :: qs, hp, hq => by
    obtain ⟨hp, hps⟩ := forall_mem_cons.mp hp
    obtain ⟨hq, hqs⟩ := forall_mem_cons.mp hq
    simp only [PropInfo.renameAll, PropInfo.sameAll]
    rw [PropInfo.same_rename h p q hp hq, PropInfo.sameAll_rename h ps qs hps hqs]

end

namespace Shape

section Union

variable {shapes : List Shape}

variable (s : Shape)

theorem isBooleanLiteral_rename : (s.rename ρ).isBooleanLiteral = s.isBooleanLiteral := by
  cases s <;> rfl

theorem isAny_rename : (s.rename ρ).isAny = s.isAny := by
  cases s <;> rfl

theorem absorber?_rename : (s.rename ρ).absorber? = s.absorber? := by
  cases s <;> rfl

theorem literal?_rename : (s.rename ρ).literal? = s.literal? := by
  cases s <;> rfl

theorem branches_rename : (s.rename ρ).branches = s.branches.map (rename ρ) := by
  cases s with
  | union members => exact renameAll_eq_map members
  | oneOf values => simp [rename, branches]
  | _ => rfl

theorem names_primitive (k : Primitive) : (primitive k).names = ∅ :=
  Set.eq_empty_of_forall_notMem fun name => (Lasting.reference name).not_within_primitive k

theorem names_literal (v : Literal) : (literal v).names = ∅ :=
  Set.eq_empty_of_forall_notMem fun name => (Lasting.reference name).not_within_literal v

variable (h : Set.InjOn ρ N)

include h

theorem isIn_rename {s : Shape} (hs : s.names ⊆ N) (hN : ∀ t ∈ shapes, t.names ⊆ N) :
    isIn (s.rename ρ) (shapes.map (rename ρ)) = isIn s shapes := by
  simp only [isIn, any_map]
  rw [Bool.eq_iff_iff, any_eq_true, any_eq_true]
  refine exists_congr fun t => and_congr_right fun ht => ?_
  rw [Function.comp_apply, same_rename h t s (hN t ht) hs]

theorem isIn_primitive_rename (k : Primitive) (hN : ∀ t ∈ shapes, t.names ⊆ N) :
    isIn (primitive k) (shapes.map (rename ρ)) = isIn (primitive k) shapes :=
  isIn_rename (s := primitive k) h (names_primitive k ▸ Set.empty_subset N) hN

theorem isIn_boolean_rename (b : Bool) (hN : ∀ t ∈ shapes, t.names ⊆ N) :
    isIn (literal (.boolean b)) (shapes.map (rename ρ)) = isIn (literal (.boolean b)) shapes :=
  isIn_rename (s := literal (.boolean b)) h (names_literal (.boolean b) ▸ Set.empty_subset N) hN

theorem distinct_rename (hN : ∀ t ∈ shapes, t.names ⊆ N) :
    distinct (shapes.map (rename ρ)) = (distinct shapes).map (rename ρ) := by
  -- The shapes that are kept grow along the list, so they are part of the induction.
  have hfold (kept : List Shape) (hk : ∀ t ∈ kept, t.names ⊆ N) :
      (shapes.map (rename ρ)).foldl
          (fun kept s => if s.isIn kept then kept else kept ++ [s]) (kept.map (rename ρ)) =
        (shapes.foldl (fun kept s => if s.isIn kept then kept else kept ++ [s]) kept).map
          (rename ρ) := by
    induction shapes generalizing kept with
    | nil => rfl
    | cons s shapes ih =>
      obtain ⟨hs, hN⟩ := forall_mem_cons.mp hN
      rw [map_cons, foldl_cons, foldl_cons, isIn_rename h hs hk]
      split
      · exact ih hN kept hk
      · have hk' : ∀ t ∈ kept ++ [s], t.names ⊆ N := by
          intro t ht
          rcases mem_append.mp ht with ht | ht
          · exact hk t ht
          · exact mem_singleton.mp ht ▸ hs
        rw [← ih hN (kept ++ [s]) hk', map_append]
        rfl
  exact hfold [] (forall_mem_nil _)

theorem joinBooleans_rename (hN : ∀ t ∈ shapes, t.names ⊆ N) :
    joinBooleans (shapes.map (rename ρ)) = (joinBooleans shapes).map (rename ρ) := by
  have hrest : ∀ t ∈ shapes.filter (fun s => !s.isBooleanLiteral), t.names ⊆ N :=
    fun t ht => hN t (mem_filter.mp ht).1
  have hfilter : (shapes.map (rename ρ)).filter (fun s => !s.isBooleanLiteral) =
      (shapes.filter fun s => !s.isBooleanLiteral).map (rename ρ) := by
    simp only [filter_map, Function.comp_def, isBooleanLiteral_rename]
  have hplace : ((shapes.map (rename ρ)).takeWhile fun s => !s.isBooleanLiteral).length =
      (shapes.takeWhile fun s => !s.isBooleanLiteral).length := by
    simp only [takeWhile_map, Function.comp_def, isBooleanLiteral_rename, length_map]
  unfold joinBooleans
  dsimp only
  rw [isIn_boolean_rename h true hN, isIn_boolean_rename h false hN, hfilter, hplace,
    isIn_primitive_rename h .boolean hrest]
  split
  · split
    · rfl
    · rw [map_append, map_take, map_cons, map_drop]
      rfl
  · rfl

theorem absorb_rename (hN : ∀ t ∈ shapes, t.names ⊆ N) :
    absorb (shapes.map (rename ρ)) = (absorb shapes).map (rename ρ) := by
  unfold absorb
  rw [filter_map]
  congr 1
  apply filter_congr
  intro s _
  simp only [Function.comp_apply, absorber?_rename]
  split
  · rw [isIn_primitive_rename h _ hN]
  · rfl

omit h in
theorem mapM_literal?_rename (shapes : List Shape) :
    (shapes.map (rename ρ)).mapM literal? = shapes.mapM literal? := by
  induction shapes with
  | nil => rfl
  | cons s shapes ih => rw [map_cons, mapM_cons, mapM_cons, literal?_rename, ih]

omit h in
theorem combine_rename (shapes : List Shape) :
    combine (shapes.map (rename ρ)) = (combine shapes).rename ρ := by
  match shapes with
  | [] => rfl
  | [s] => rfl
  | s :: t :: shapes =>
    have hu : union ((s :: t :: shapes).map (rename ρ)) = (union (s :: t :: shapes)).rename ρ := by
      rw [rename, renameAll_eq_map]
    have hl := mapM_literal?_rename (ρ := ρ) (s :: t :: shapes)
    rw [map_cons, map_cons] at hl hu ⊢
    unfold combine
    dsimp only
    rw [hl, hu]
    split
    · split <;> rfl
    · rfl

theorem classify_rename (hN : ∀ t ∈ shapes, t.names ⊆ N) :
    classify (shapes.map (rename ρ)) = (classify shapes).rename ρ := by
  have hd : ∀ t ∈ distinct shapes, t.names ⊆ N := fun t ht => hN t (mem_distinct ht)
  have hj : ∀ t ∈ joinBooleans (distinct shapes), t.names ⊆ N := by
    intro t ht
    rcases mem_joinBooleans ht with ht | rfl
    · exact hd t ht
    · exact names_primitive .boolean ▸ Set.empty_subset N
  have hany : ((distinct shapes).map (rename ρ)).any isAny = (distinct shapes).any isAny := by
    simp only [any_map, Function.comp_def, isAny_rename]
  unfold classify
  dsimp only
  rw [distinct_rename h hN, hany]
  split
  · rfl
  · rw [joinBooleans_rename h hd, absorb_rename h hj, combine_rename]

end Union

end Shape

end PropContract
