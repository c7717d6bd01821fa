import PropContract.Proofs.Sorting
import PropContract.Proofs.Validator.Acceptance

/-!
No definition is expanded inside itself, and the stack is left as it was found, so that no property
notices the others.
-/

namespace PropContract

open List StateT

namespace Validator.InPlace

structure Work where
  expanding : List String := []
  paths : List (List String) := []

abbrev Working := StateT Work Option

mutual

def shape (o : ValidatorOptions) (refer : String → Working Validator) : Shape → Working Validator
  | .primitive kind => return plain (primitiveName kind)
  | .literal l => return oneOf [l]
  | .oneOf ls => return oneOf ls
  | .arrayOf e => if e.isAny then return plain "array" else return arrayOf (← shape o refer e)
  | .object [] => return plain "object"
  | .object (p :: ps) => return Validator.shape (← fields o refer (p :: ps))
  | .union members => return union o (← branches o refer members)
  | .function => return plain "func"
  | .reference name => refer name
  | .element kind => return plain (elementName kind)
  | .instance name => return instanceOf name

def branches (o : ValidatorOptions) (refer : String → Working Validator) :
    List Shape → Working (List Branch)
  | [] => return []
  | .literal l :: rest => return .inl l :: (← branches o refer rest)
  | s :: rest => return .inr (← shape o refer s) :: (← branches o refer rest)

def fields (o : ValidatorOptions) (refer : String → Working Validator) :
    List PropInfo → Working (List ValidatorField)
  | [] => return []
  | .mk name required s _ _ _ :: rest =>
    return .mk name required (← shape o refer s) :: (← fields o refer rest)

end

def isExpanding (name : String) : Working Bool := do
  return (← get).expanding.contains name

def expand {α : Type} (name : String) (body : Working α) : Working α := do
  modify fun w => ⟨name :: w.expanding, w.paths ++ [name :: w.expanding]⟩
  let a ← body
  modify fun w => { w with expanding := w.expanding.tail }
  return a

def reference (o : ValidatorOptions) (definitions : Table Shape) : Nat → String → Working Validator
  | 0, _ => failure
  | n + 1, name => do
    if ← isExpanding name then return plain "object"
    match definitions.get? name with
    | some s => expand name (shape o (reference o definitions n) s)
    | none => return plain "object"

def IsPath (definitions : Table Shape) (E path : List String) : Prop :=
  ∃ names : List String, path = names ++ E ∧ names.Nodup ∧
    ∀ name ∈ names, name ∉ E ∧ name ∈ definitions.keys

def Gives {α : Type} (definitions : Table Shape) (E : List String) (x : Working α) (a : α) : Prop :=
  ∀ paths, ∃ more, x.run ⟨E, paths⟩ = some (a, ⟨E, paths ++ more⟩) ∧
    ∀ path ∈ more, IsPath definitions E path

variable {α β : Type} {definitions : Table Shape} {E : List String}

theorem gives_pure (a : α) : Gives definitions E (pure a) a :=
  fun paths => ⟨[], by rw [append_nil]; rfl, nofun⟩

theorem Gives.bind {x : Working α} {f : α → Working β} {a : α} {b : β}
    (hx : Gives definitions E x a) (hf : Gives definitions E (f a) b) :
    Gives definitions E (x >>= f) b := by
  intro paths
  obtain ⟨first, hfirst, hpaths⟩ := hx paths
  obtain ⟨rest, hrest, hpaths'⟩ := hf (paths ++ first)
  refine ⟨first ++ rest, ?_, forall_mem_append.mpr ⟨hpaths, hpaths'⟩⟩
  rw [run_bind, hfirst, ← append_assoc]
  exact hrest

theorem gives_isExpanding (name : String) :
    Gives definitions E (isExpanding name) (E.contains name) :=
  fun paths => ⟨[], by rw [append_nil]; rfl, nofun⟩

theorem gives_mapM {f : α → Working β} {g : α → β} (h : ∀ a, Gives definitions E (f a) (g a))
    (as : List α) : Gives definitions E (as.mapM f) (as.map g) := by
  induction as with
  | nil => exact gives_pure []
  | cons a as ih =>
    rw [mapM_cons]
    exact (h a).bind (ih.bind (gives_pure _))

theorem gives_expand {name : String} {x : Working α} {a : α}
    (hname : name ∉ E) (hmem : name ∈ definitions.keys)
    (h : Gives definitions (name :: E) x a) : Gives definitions E (expand name x) a := by
  intro paths
  obtain ⟨more, hrun, hpaths⟩ := h (paths ++ [name :: E])
  refine ⟨(name :: E) :: more, ?_, forall_mem_cons.mpr ⟨?_, fun path hpath => ?_⟩⟩
  · rw [expand, run_bind]
    simp only [run_modify, Option.pure_def, Option.bind_eq_bind, Option.bind_some]
    rw [run_bind, hrun]
    simp
  · exact ⟨[name], rfl, nodup_singleton _, by simp [hname, hmem]⟩
  · obtain ⟨names, rfl, hnodup, hnames⟩ := hpaths path hpath
    have hnew : name ∉ names := fun hin => (hnames name hin).1 mem_cons_self
    refine ⟨names ++ [name], by simp, hnodup.append (nodup_singleton _) (by simpa), ?_⟩
    refine forall_mem_append.mpr ⟨fun n hn => ?_, by simp [hname, hmem]⟩
    exact ⟨not_mem_of_not_mem_cons (hnames n hn).1, (hnames n hn).2⟩

section

variable {o : ValidatorOptions} {refer : String → Working Validator} {refer' : String → Validator}

mutual

theorem gives_shape (h : ∀ name, Gives definitions E (refer name) (refer' name)) :
    (s : Shape) → Gives definitions E (shape o refer s) (ofShape o refer' s)
  | .primitive _ | .literal _ | .oneOf _ | .object [] | .function | .element _ | .instance _ =>
    gives_pure _
  | .arrayOf e => by
    rw [shape, ofShape]
    split
    · exact gives_pure _
    · exact (gives_shape h e).bind (gives_pure _)
  | .object (p :: ps) => (gives_fields h (p :: ps)).bind (gives_pure _)
  | .union members => (gives_branches h members).bind (gives_pure _)
  | .reference name => h name

theorem gives_branches (h : ∀ name, Gives definitions E (refer name) (refer' name)) :
    (ss : List Shape) → Gives definitions E (branches o refer ss) (branchesOf o refer' ss)
  | [] => gives_pure _
  | s :: rest => by
    have hrest := gives_branches h rest
    have hs := gives_shape h s
    cases s with
    | literal l => exact hrest.bind (gives_pure _)
    | _ => exact hs.bind (hrest.bind (gives_pure _))

theorem gives_fields (h : ∀ name, Gives definitions E (refer name) (refer' name)) :
    (ps : List PropInfo) → Gives definitions E (fields o refer ps) (ofProps o refer' ps)
  | [] => gives_pure _
  | .mk _ _ s _ _ _ :: rest =>
    (gives_shape h s).bind ((gives_fields h rest).bind (gives_pure _))

end

end

theorem gives_reference {o : ValidatorOptions} {n : Nat} (hn : Enough definitions n E)
    (name : String) :
    Gives definitions E (reference o definitions n name) (ofReference o definitions n E name) := by
  induction n generalizing E name with
  | zero => exact absurd hn (Nat.not_lt_zero _)
  | succ n ih =>
    -- An expansion takes a step, and leaves one definition fewer that can be expanded.
    rw [reference, ofReference]
    refine (gives_isExpanding name).bind ?_
    split
    · exact gives_pure _
    · rename_i hname
      have hname : name ∉ E := by simpa using hname
      cases hs : definitions.get? name with
      | none => exact gives_pure _
      | some s =>
        exact gives_expand hname (mem_map_of_mem (Table.mem_of_get? hs))
          (gives_shape (ih (hn.expand hs hname)) s)

end Validator.InPlace

namespace Validator

theorem ofReference_eq {o : ValidatorOptions} {definitions : Table Shape} {n m : Nat}
    {E : List String} (hn : Enough definitions n E) (hm : Enough definitions m E) :
    ofReference o definitions n E = ofReference o definitions m E := by
  induction n generalizing m E with
  | zero => exact absurd hn (Nat.not_lt_zero _)
  | succ n ih =>
    obtain _ | m := m
    · exact absurd hm (Nat.not_lt_zero _)
    · funext name
      rw [ofReference, ofReference]
      split
      · rfl
      · rename_i hname
        have hname : name ∉ E := by simpa using hname
        cases hs : definitions.get? name with
        | none => rfl
        | some s => exact congrArg (ofShape o · s) (ih (hn.expand hs hname) (hm.expand hs hname))

section

variable {o o' : ValidatorOptions} {refer : String → Validator}

theorem union_congr (h : text o' = text o) : union o' = union o := by
  have hadd : addBranch o' = addBranch o := by
    funext literals kept branch
    cases branch with
    | inl l => rfl
    | inr v => rw [addBranch, addBranch, h]
  funext branches
  rw [union, union, hadd]

mutual

theorem ofShape_congr (h : text o' = text o) :
    (s : Shape) → ofShape o' refer s = ofShape o refer s
  | .primitive _ | .literal _ | .oneOf _ | .object [] | .function | .reference _ | .element _
  | .instance _ => rfl
  | .arrayOf e => by rw [ofShape, ofShape, ofShape_congr h e]
  | .object (p :: ps) => by rw [ofShape, ofShape, ofProps_congr h (p :: ps)]
  | .union members => by rw [ofShape, ofShape, union_congr h, branchesOf_congr h members]

theorem branchesOf_congr (h : text o' = text o) :
    (ss : List Shape) → branchesOf o' refer ss = branchesOf o refer ss
  | [] => rfl
  | s :: rest => by
    have hs := ofShape_congr h s
    have hrest := branchesOf_congr h rest
    cases s <;> simp only [branchesOf, hs, hrest]

theorem ofProps_congr (h : text o' = text o) :
    (ps : List PropInfo) → ofProps o' refer ps = ofProps o refer ps
  | [] => rfl
  | .mk _ _ s _ _ _ :: rest => by rw [ofProps, ofProps, ofShape_congr h s, ofProps_congr h rest]

end

theorem ofReference_congr (h : text o' = text o) (definitions : Table Shape) (n : Nat)
    (E : List String) : ofReference o' definitions n E = ofReference o definitions n E := by
  induction n generalizing E with
  | zero => rfl
  | succ n ih =>
    funext name
    simp only [ofReference, ih, ofShape_congr h]

end

end Validator

namespace Block

open Validator InPlace

variable {o : ValidatorOptions} {c : Component}

def beforeCheck (o : ValidatorOptions) (p : PropInfo) : String :=
  docText o p ++ typeComment o p ++ "  " ++ Quoted.key o.quotes p.name ++ ": "

def entriesInPlace (o : ValidatorOptions) (c : Component) (n : Nat) :
    Working (List (String × String)) :=
  (ordered o c).mapM fun p => do
    let v ← InPlace.shape o (reference o c.definitions n) p.shape
    return (p.name, beforeCheck o p ++ v.text o ++ requiredText p.required ++ ",\n")

theorem gives_entriesInPlace {n : Nat} (hn : c.definitions.length < n) :
    Gives c.definitions [] (entriesInPlace o c n) (entries o c) := by
  refine gives_mapM (fun p => ?_) (ordered o c)
  have hn := enough_of_length_lt hn []
  have hshape : Gives _ [] (InPlace.shape o (reference o c.definitions n) p.shape) _ :=
    gives_shape (gives_reference hn) p.shape
  rw [ofReference_eq hn (enough_start _)] at hshape
  exact hshape.bind (gives_pure _)

theorem entry_sortProps (b : Bool) (p : PropInfo) :
    entry { o with sortProps := b } c p = entry o c p := by
  have htext : Validator.text { o with sortProps := b } = Validator.text o := by
    delta Validator.text
    rfl
  simp only [entry, Validator.ofComponent, ofReference_congr htext, ofShape_congr htext, htext]
  rfl

theorem ordered_perm (o : ValidatorOptions) (c : Component) : (ordered o c).Perm c.props := by
  unfold ordered
  split
  · exact mergeSort_perm _ _
  · exact Perm.refl _

theorem isOrder :
    (∀ p q r : PropInfo, decide (p.name ≤ q.name) → decide (q.name ≤ r.name) →
      decide (p.name ≤ r.name)) ∧
    ∀ p q : PropInfo, decide (p.name ≤ q.name) || decide (q.name ≤ p.name) := by
  constructor
  · intro p q r
    simpa using String.le_trans
  · intro p q
    simpa using String.le_total p.name q.name

theorem ordered_pairwise (h : o.sortProps) : (ordered o c).Pairwise fun p q => p.name ≤ q.name := by
  have hsorted := pairwise_mergeSort isOrder.1 isOrder.2 c.props
  simpa [ordered, h] using hsorted

theorem filter_ordered (name : String) :
    (ordered o c).filter (fun p => p.name = name) = c.props.filter fun p => p.name = name := by
  unfold ordered
  split
  · exact filter_mergeSort isOrder.1 isOrder.2 (fun p q hp hq => by simp_all) _
  · rfl

/-- Making validators ends, with definitions that are cyclic or missing too. On every path a
definition is expanded at most once, and the stack is left as it was found; so an entry depends on
its property, the definitions and the options alone. Sorting keeps the order within one name. -/
theorem entries_rendered (o : ValidatorOptions) (c : Component) (n : Nat)
    (hn : c.definitions.length < n) :
    (∀ (s : Shape) (w : Work), ∃ paths,
      (InPlace.shape o (reference o c.definitions n) s).run w =
        some (ofShape o (ofReference o c.definitions n w.expanding) s,
          { w with paths := w.paths ++ paths }) ∧
      ∀ path ∈ paths, IsPath c.definitions w.expanding path) ∧
    (∃ paths, (entriesInPlace o c n).run {} = some (entries o c, { paths }) ∧
      ∀ path ∈ paths, path.Nodup ∧ path ⊆ c.definitions.keys) ∧
    (∀ c' : Component, c'.definitions = c.definitions →
      entries o c' = (ordered o c').map fun p => (p.name, entry o c p)) ∧
    (entries { o with sortProps := true } c).Pairwise (fun e e' => e.1 ≤ e'.1) ∧
    ∀ name, (entries { o with sortProps := true } c).filter (fun e => e.1 = name) =
      (entries { o with sortProps := false } c).filter fun e => e.1 = name := by
  have hsorts (b : Bool) : entries { o with sortProps := b } c =
      (ordered { o with sortProps := b } c).map fun p => (p.name, entry o c p) :=
    map_congr_left fun p _ => by rw [entry_sortProps]
  refine ⟨fun s w => ?_, ?_, fun c' hc => ?_, ?_, fun name => ?_⟩
  · exact gives_shape (gives_reference (enough_of_length_lt hn w.expanding)) s w.paths
  · obtain ⟨paths, hrun, hpaths⟩ := gives_entriesInPlace hn []
    refine ⟨paths, hrun, fun path hpath => ?_⟩
    obtain ⟨names, rfl, hnodup, hnames⟩ := hpaths path hpath
    rw [append_nil]
    exact ⟨hnodup, fun name hname => (hnames name hname).2⟩
  · refine map_congr_left fun p _ => ?_
    rw [entry, entry, Validator.ofComponent, Validator.ofComponent, hc]
  · rw [hsorts, pairwise_map]
    exact ordered_pairwise rfl
  · rw [hsorts, hsorts, filter_map, filter_map]
    exact congrArg _ ((filter_ordered name).trans (filter_ordered name).symm)

def tree : Component where
  name := "Tree"
  origin := default
  kind := .function
  props := [.mk "root" true (.reference "Node") none none none,
    .mk "last" false (.reference "Leaf") none none none]
  definitions := [("Leaf", .union [.reference "Node", .reference "Lost"]),
    ("Node", .object [.mk "left" false (.reference "Leaf") none none none])]

theorem entries_rendered_tree :
    tree.definitions.length < 3 ∧
      ∃ paths, (entriesInPlace {} tree 3).run {} = some (entries {} tree, { paths }) ∧
        ∀ path ∈ paths, path.Nodup ∧ path ⊆ ["Leaf", "Node"] :=
  ⟨by decide, (entries_rendered {} tree 3 (by decide)).2.1⟩

end Block

end PropContract
