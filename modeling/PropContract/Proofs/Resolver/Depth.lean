import PropContract.Proofs.Project.Reading
import PropContract.Proofs.Resolver.Answers
import PropContract.Proofs.Resolver.Questions

/-!
What the limit of depth does: it bounds how many objects are nested in a shape, and nothing else.
-/

namespace PropContract

open List

mutual

def Shape.nesting : Shape → Nat
  | .arrayOf element => element.nesting
  | .object props => PropInfo.nestingAll props + 1
  | .union members => Shape.nestingAll members
  | .primitive _ | .literal _ | .oneOf _ | .function | .reference _ | .element _ | .instance _ => 0

def Shape.nestingAll : List Shape → Nat
  | [] => 0
  | s :: ss => max s.nesting (Shape.nestingAll ss)

def PropInfo.nestingAll : List PropInfo → Nat
  | [] => 0
  | .mk _ _ s _ _ _ :: ps => max s.nesting (PropInfo.nestingAll ps)

end

namespace Shape

variable {k : Nat}

variable {shapes : List Shape}

theorem nestingAll_le_iff : nestingAll shapes ≤ k ↔ ∀ s ∈ shapes, s.nesting ≤ k := by
  induction shapes with
  | nil => simp [nestingAll]
  | cons s shapes ih => rw [nestingAll, Nat.max_le, ih, forall_mem_cons]

theorem nestingAll_props_le_iff {ps : List PropInfo} :
    PropInfo.nestingAll ps ≤ k ↔ ∀ p ∈ ps, p.shape.nesting ≤ k := by
  induction ps with
  | nil => simp [PropInfo.nestingAll]
  | cons p ps ih =>
    obtain ⟨_, _, s, _, _, _⟩ := p
    rw [PropInfo.nestingAll, Nat.max_le, ih, forall_mem_cons]
    rfl

theorem nesting_object_le_iff {ps : List PropInfo} :
    (object ps).nesting ≤ k + 1 ↔ ∀ p ∈ ps, p.shape.nesting ≤ k := by
  rw [nesting, Nat.add_le_add_iff_right, nestingAll_props_le_iff]

theorem nesting_union_le_iff : (union shapes).nesting ≤ k ↔ ∀ s ∈ shapes, s.nesting ≤ k := by
  rw [nesting, nestingAll_le_iff]

theorem nesting_combine_le (h : ∀ s ∈ shapes, s.nesting ≤ k) : (combine shapes).nesting ≤ k := by
  unfold combine
  split
  · exact Nat.zero_le k
  · exact h _ (mem_singleton_self _)
  · split
    · split
      · exact Nat.zero_le k
      · exact nesting_union_le_iff.mpr h
    · exact nesting_union_le_iff.mpr h

theorem nesting_classify_le (h : ∀ s ∈ shapes, s.nesting ≤ k) : (classify shapes).nesting ≤ k := by
  unfold classify
  dsimp only
  split
  · exact Nat.zero_le k
  · apply nesting_combine_le
    intro s hs
    rcases mem_joinBooleans (mem_absorb hs) with hs | rfl
    · exact h s (mem_distinct hs)
    · exact Nat.zero_le k

theorem nesting_le_of_mem_branches {s branch : Shape} (hb : branch ∈ s.branches)
    (h : s.nesting ≤ k) : branch.nesting ≤ k := by
  unfold branches at hb
  split at hb
  · exact nesting_union_le_iff.mp h branch hb
  · obtain ⟨v, -, rfl⟩ := mem_map.mp hb
    exact Nat.zero_le k
  · exact mem_singleton.mp hb ▸ h

theorem nesting_library {name : String} {s : Shape}
    (h : Library.reactShape? name = some s ∨ Library.globalShape? name = some s) :
    s.nesting = 0 := by
  rcases h with h | h
  · rcases reactShape?_cases h with ⟨k, rfl⟩ | rfl | rfl | rfl <;> rfl
  · rcases globalShape?_cases h with rfl | rfl | ⟨k, rfl⟩ <;> rfl

end Shape

namespace Resolver

/-- The number of objects that may be nested below a depth. At the top there is room for one,
whatever the limit. -/
def room (limit depth : Nat) : Nat :=
  max limit 1 - depth

theorem room_succ {limit depth : Nat} (h : depth = 0 ∨ depth < limit) :
    room limit (depth + 1) + 1 = room limit depth := by
  unfold room
  omega

theorem room_le_top (limit depth : Nat) : room limit depth ≤ room limit 0 := by
  unfold room
  omega

def nestingRule : ShapeRule where
  holds limit depth s := s.nesting ≤ room limit depth
  atTop h := Nat.le_trans h (room_le_top _ _)
  primitive _ _ _ := Nat.zero_le _
  literal _ _ _ := Nat.zero_le _
  function _ _ := Nat.zero_le _
  ofClass _ _ _ := Nat.zero_le _
  reference _ _ _ := Nat.zero_le _
  react h := (Shape.nesting_library (.inl h)).symm ▸ Nat.zero_le _
  global h := (Shape.nesting_library (.inr h)).symm ▸ Nat.zero_le _
  arrayOf := Iff.rfl
  object h _ hp := by
    rw [← room_succ h]
    exact Shape.nesting_object_le_iff.mpr hp
  union h := by
    apply Shape.nesting_classify_le
    intro branch hb
    obtain ⟨s, hs, hb⟩ := mem_flatMap.mp hb
    exact Shape.nesting_le_of_mem_branches hb (h s hs)
  literals _ _ values := by
    apply Shape.nesting_classify_le
    intro s hs
    obtain ⟨v, -, rfl⟩ := mem_map.mp hs
    exact Nat.zero_le _

end Resolver

def PropInfo.outline : PropInfo → PropInfo
  | .mk name required _ default doc typeText => .mk name required .any default doc typeText

namespace Resolver

def Member.outline (p : Project) (m : Member) : PropInfo :=
  .mk m.name (!m.isOptional && !(p.options.nullChecks && admitsNullish p m.type)) .any none m.doc
    m.typeText

theorem Tells.outline_eq {p : Project} {m : Member} {q : PropInfo} (h : Tells p m q) :
    q.outline = m.outline p := by
  obtain ⟨name, required, shape, default, doc, text⟩ := q
  obtain ⟨rfl, rfl, rfl, rfl, rfl⟩ := h
  rfl

def outlines (answer : Except ResolveError (List PropInfo)) : Except ResolveError (List PropInfo) :=
  answer.map (List.map PropInfo.outline)

variable {s : Setting}

theorem limitedProps_outline (E : Expanding) (ms : List Member) (l : Ledger) :
    ((limitedProps s E ms).run l).1.map PropInfo.outline = ms.map (Member.outline s.project) := by
  have htells := propsOf_tells (s := s) (shapeWithin s stepLimit) E 1 ms l
  unfold limitedProps
  generalize ((propsOf s (shapeWithin s stepLimit) E 1 ms).run l).1 = props at htells ⊢
  induction htells with
  | nil => rfl
  | cons hm _ ih => rw [map_cons, map_cons, hm.outline_eq, ih]

def declaredSubject (s : Setting) (d : DeclRef) : Except ResolveError (List Member) :=
  if (s.project.declarations d).isEmpty then .error (.unknownSymbol d.name (pathAt s d.file))
  else if (s.project.declarations d).any Declared.isType then .ok (rootMembers s d)
  else .error (.notAType d.name (pathAt s d.file))

theorem declaredProps_outlines (d : DeclRef) (l : Ledger) :
    outlines ((declaredProps s d).run.run l).1 =
      (declaredSubject s d).map (List.map (Member.outline s.project)) := by
  unfold declaredSubject
  by_cases hnone : (s.project.declarations d).isEmpty = true
  · unfold declaredProps
    simp only [hnone, if_true]
    rfl
  · by_cases htype : (s.project.declarations d).any Declared.isType = true
    · rw [declaredProps_fst d l htype, if_neg hnone, if_pos htype]
      exact congrArg Except.ok (limitedProps_outline [d] (rootMembers s d) l)
    · unfold declaredProps
      simp only [hnone, htype]
      rfl

def subject (s : Setting) : Symbol → Except ResolveError (List Member)
  | .declared d => declaredSubject s d
  | .named file name =>
    match s.project.resolveName file name with
    | some (.declared d) => declaredSubject s d
    | some (.outside ..) => .ok []
    | some (.namespace _) | some (.outsideNamespace _) => .error (.notAType name (pathAt s file))
    | none => .error (.unknownSymbol name (pathAt s file))
  | .inline file type =>
    match declaredType? s file type with
    | some d => declaredSubject s d
    | none => .ok ((membersWithin s.project stepLimit [] (.written type (.file file))).getD [])

theorem resolveProps_outlines (symbol : Symbol) (l : Ledger) :
    outlines ((resolveProps s symbol).run.run l).1 =
      (subject s symbol).map (List.map (Member.outline s.project)) := by
  cases symbol with
  | declared d => exact declaredProps_outlines d l
  | inline file type =>
    simp only [resolveProps, inlineProps, subject]
    cases declaredType? s file type with
    | some d => exact declaredProps_outlines d l
    | none => exact congrArg Except.ok (limitedProps_outline [] _ l)
  | named file name =>
    simp only [resolveProps, subject]
    cases s.project.resolveName file name with
    | none => rfl
    | some found =>
      cases found with
      | declared d => exact declaredProps_outlines d l
      | outside | «namespace» | outsideNamespace => rfl

theorem subject_maxDepth (limit : Nat) (symbol : Symbol) :
    subject { s with maxDepth := limit } symbol = subject s symbol := by
  cases symbol <;> rfl

/-- The limit of depth bounds nesting and nothing else. The object of the properties that are
answered counts as one, so that in the shape of a property one object less is nested than the limit
says, and none if it says zero; a definition may be one more object itself. Under any two limits a
question fails with the same error or has properties that tell the same in the same order. -/
theorem maxDepth_bounds_nesting_alone (s : Setting) (calls : List Call) :
    (∀ answer ∈ ((session s calls).run {}).1,
      (∀ props, answer = .props (.ok props) → ∀ prop ∈ props,
        prop.shape.nesting ≤ s.maxDepth - 1) ∧
      ∀ table, answer = .definitions table → ∀ shape ∈ table.values,
        shape.nesting ≤ max s.maxDepth 1) ∧
      ∀ (limit : Nat) (symbol : Symbol) (l l' : Ledger),
        outlines ((resolveProps s symbol).run.run l).1 =
          outlines ((resolveProps { s with maxDepth := limit } symbol).run.run l').1 := by
  constructor
  · intro answer ha
    have hshapes := nestingRule.session_holds s calls nestingRule.defined_empty answer ha
    constructor
    · rintro props rfl prop hprop
      have hobject : (Shape.object props).nesting ≤ room s.maxDepth 0 :=
        hshapes _ (mem_singleton_self _)
      rw [← room_succ (.inl rfl)] at hobject
      have hprops := Shape.nesting_object_le_iff.mp hobject prop hprop
      unfold room at hprops
      omega
    · rintro table rfl shape hshape
      exact hshapes shape hshape
  · intro limit symbol l l'
    rw [resolveProps_outlines, resolveProps_outlines]
    exact congrArg _ (subject_maxDepth limit symbol).symm

def treeText : String :=
  "interface Tree \x7b child: \x7b next: Tree; size?: \x7b width: number \x7d \x7d \x7d\n"

def isTree : Project → Bool
  | ⟨⟨false, none, _, _, _, _⟩, [⟨_, _, _, _, ⟨[("Tree", [.interface ⟨"Tree", [], [],
      [.property ⟨_, _, .bare "child", false, none⟩ _ (some (.object [
        .property ⟨_, _, .bare "next", false, none⟩ _ (some (.reference ["Tree"] [])),
        .property ⟨_, _, .bare "size", true, none⟩ _ (some (.object [
          .property ⟨_, _, .bare "width", false, none⟩ _ (some (.keyword .number))]))]))]⟩])],
      _, _, _, _⟩, _⟩]⟩ => true
  | _ => false

theorem tree_read : ∃ p, Project.ofSources {} {} [(⟨"/a.ts"⟩, treeText)] = .ok p ∧ isTree p :=
  Project.exists_ok_of_any (by decide +kernel)

theorem tree_answers {p : Project} (h : isTree p) :
    ∃ props table, ((session ⟨p, 2⟩ [.resolve (.declared ⟨0, "Tree"⟩), .take]).run {}).1 =
        [.props (.ok props), .definitions table] ∧
      props.map (fun prop => prop.shape.nesting) = [1] ∧ table.values.map Shape.nesting = [2] := by
  unfold isTree at h
  split at h
  · exact ⟨_, _, rfl, rfl, rfl⟩
  · cases h

theorem maxDepth_bounds_nesting_alone_tree :
    ∃ p props table, Project.ofSources {} {} [(⟨"/a.ts"⟩, treeText)] = .ok p ∧
      ((session ⟨p, 2⟩ [.resolve (.declared ⟨0, "Tree"⟩), .take]).run {}).1 =
        [.props (.ok props), .definitions table] ∧
      (props.map (fun prop => prop.shape.nesting) = [1] ∧
        ∀ prop ∈ props, prop.shape.nesting ≤ 2 - 1) ∧
      table.values.map Shape.nesting = [2] ∧ ∀ shape ∈ table.values, shape.nesting ≤ max 2 1 := by
  obtain ⟨p, hread, hp⟩ := tree_read
  obtain ⟨props, table, hanswers, hprops, htable⟩ := tree_answers hp
  have hbounds := (maxDepth_bounds_nesting_alone ⟨p, 2⟩
    [.resolve (.declared ⟨0, "Tree"⟩), .take]).1
  rw [hanswers] at hbounds
  exact ⟨p, props, table, hread, hanswers,
    ⟨hprops, (hbounds _ mem_cons_self).1 props rfl⟩,
    htable, (hbounds _ (mem_cons_of_mem _ (mem_singleton_self _))).2 table rfl⟩

end Resolver

end PropContract
