import Mathlib.Logic.Relation
import PropContract.Project.Resolution

/-!
Where a name can lead: chains of passages that end at an answer or at a dead end, and the
depth-first search along them.
-/

namespace PropContract

open List

inductive Edge where
  | start
  | imported
  | exportedLocal
  | passedOn
  | star
  deriving DecidableEq, Repr

structure Passage where
  edge : Edge
  place : Visit
  deriving DecidableEq, Repr

inductive Junction where
  | answer (r : Resolution)
  | passages (list : List Passage)
  deriving DecidableEq, Repr

namespace Project

def junction (p : Project) : Visit → Junction
  | .name file name =>
    if (p.scopeOf file).locals.contains name then .answer (.declared ⟨file, name⟩)
    else
      match (p.scopeOf file).imports.get? name with
      | some ⟨module, .named other⟩ =>
        match p.moduleOf? file module with
        | some target => .passages [⟨.imported, .exported target other⟩]
        | none => .answer (.outside module other)
      | some ⟨module, .namespace⟩ =>
        match p.moduleOf? file module with
        | some target => .answer (.namespace target)
        | none => .answer (.outsideNamespace module)
      | none =>
        match p.global? name with
        | some d => .answer (.declared d)
        | none => .passages []
  | .exported file name =>
    match (p.scopeOf file).exports.get? name with
    | some (.local other) => .passages [⟨.exportedLocal, .name file other⟩]
    | some (.named module other) =>
      match p.moduleOf? file module with
      | some target => .passages [⟨.passedOn, .exported target other⟩]
      | none => .answer (.outside module other)
    | some (.namespace module) =>
      match p.moduleOf? file module with
      | some target => .answer (.namespace target)
      | none => .answer (.outsideNamespace module)
    | none =>
      if name = "default" then .passages []
      else .passages ((p.scopeOf file).starExports.filterMap fun module =>
        (p.moduleOf? file module).map fun target => ⟨.star, .exported target name⟩)

def LeadsTo (p : Project) (x y : Visit) : Prop :=
  ∃ next, p.junction x = .passages next ∧ ∃ e ∈ next, e.place = y

def Reaches (p : Project) (x : Visit) : Prop :=
  ∃ y r, Relation.ReflTransGen p.LeadsTo x y ∧ p.junction y = .answer r

end Project

/-- The path of a search behind a passage; `counts` says whether the place behind it counts as
being on the path. -/
def Passage.extend (counts : Passage → Bool) (e : Passage) (path : List Visit) : List Visit :=
  if counts e then e.place :: path else path

/-- The depth-first search through some passages from the end of a path. It leaves out the
passages that count and lead back to the path, and nothing else. -/
inductive DepthFirst (p : Project) (counts : Passage → Bool) :
    List Visit → List Passage → Option Resolution → Prop where
  | deadEnd (path : List Visit) : DepthFirst p counts path [] none
  | pruned : counts e → e.place ∈ path → DepthFirst p counts path rest r →
      DepthFirst p counts path (e :: rest) r
  | answer : (counts e → e.place ∉ path) → p.junction e.place = .answer r →
      DepthFirst p counts path (e :: rest) (some r)
  | found : (counts e → e.place ∉ path) → p.junction e.place = .passages further →
      DepthFirst p counts (e.extend counts path) further (some r) →
      DepthFirst p counts path (e :: rest) (some r)
  | missed : (counts e → e.place ∉ path) → p.junction e.place = .passages further →
      DepthFirst p counts (e.extend counts path) further none → DepthFirst p counts path rest r →
      DepthFirst p counts path (e :: rest) r

inductive Alive (p : Project) (counts : Passage → Bool) (path : List Visit) : Visit → Prop where
  | answer : p.junction x = .answer r → Alive p counts path x
  | passage : p.junction x = .passages further → e ∈ further → (counts e → e.place ∉ path) →
      Alive p counts path e.place → Alive p counts path x

namespace Alive

variable {p : Project} {counts : Passage → Bool} {path : List Visit} {x y : Visit}

theorem anti {path' : List Visit} (hs : path ⊆ path') (h : Alive p counts path' x) :
    Alive p counts path x := by
  induction h with
  | answer hj => exact .answer hj
  | passage hj he hc _ ih => exact .passage hj he (fun h hm => hc h (hs hm)) ih

theorem avoid (y : Visit) (h : Alive p counts path x) :
    Alive p counts (y :: path) x ∨ Alive p counts (y :: path) y := by
  induction h with
  | answer hj => exact .inl (.answer hj)
  | @passage x next e hj he hc _ ih =>
    rcases ih with ih | ih
    · by_cases hy : e.place = y
      · exact .inr (hy ▸ ih)
      · refine .inl (.passage hj he ?_ ih)
        intro h hm
        rcases mem_cons.mp hm with hm | hm
        · exact hy hm
        · exact hc h hm
    · exact .inr ih

theorem avoid_self (h : Alive p counts path x) : Alive p counts (x :: path) x :=
  (h.avoid x).elim id id

theorem extend (e : Passage) (h : Alive p counts path e.place) :
    Alive p counts (e.extend counts path) e.place := by
  unfold Passage.extend
  split
  · exact h.avoid_self
  · exact h

theorem of_extend {e : Passage} (h : Alive p counts (e.extend counts path) x) :
    Alive p counts path x := by
  unfold Passage.extend at h
  split at h
  · exact h.anti (subset_cons_self _ _)
  · exact h

theorem iff_reaches : Alive p counts [] x ↔ p.Reaches x := by
  constructor
  · intro h
    induction h with
    | @answer x r hj => exact ⟨x, r, .refl, hj⟩
    | passage hj he _ _ ih =>
      obtain ⟨y, r, hchain, hy⟩ := ih
      exact ⟨y, r, .head ⟨_, hj, _, he, rfl⟩ hchain, hy⟩
  · rintro ⟨y, r, hchain, hy⟩
    induction hchain using Relation.ReflTransGen.head_induction_on with
    | refl => exact .answer hy
    | head hstep _ ih =>
      obtain ⟨next, hj, e, he, rfl⟩ := hstep
      exact .passage hj he (fun _ => not_mem_nil) ih

end Alive

namespace DepthFirst

variable {p : Project} {counts : Passage → Bool} {path : List Visit} {es : List Passage}

theorem alive {r : Resolution} (h : DepthFirst p counts path es (some r)) :
    ∃ e ∈ es, (counts e → e.place ∉ path) ∧ Alive p counts path e.place := by
  generalize hr : some r = found at h
  induction h with
  | deadEnd => cases hr
  | pruned _ _ _ ih =>
    obtain ⟨e, he, ha⟩ := ih hr
    exact ⟨e, mem_cons_of_mem _ he, ha⟩
  | answer hc hj => exact ⟨_, mem_cons_self, hc, .answer hj⟩
  | found hc hj _ ih =>
    obtain ⟨e, he, hce, ha⟩ := ih hr
    refine ⟨_, mem_cons_self, hc, .of_extend (.passage hj he hce ha)⟩
  | missed _ _ _ _ _ ih =>
    obtain ⟨e, he, ha⟩ := ih hr
    exact ⟨e, mem_cons_of_mem _ he, ha⟩

theorem not_alive (h : DepthFirst p counts path es none) :
    ∀ e ∈ es, (counts e → e.place ∉ path) → ¬ Alive p counts path e.place := by
  generalize hr : (none : Option Resolution) = found at h
  induction h with
  | deadEnd => exact forall_mem_nil _
  | pruned hc hm _ ih =>
    refine forall_mem_cons.mpr ⟨?_, ih hr⟩
    exact fun hn => absurd hm (hn hc)
  | answer => cases hr
  | found => cases hr
  | missed _ hj _ _ ihnext ihrest =>
    refine forall_mem_cons.mpr ⟨?_, ihrest hr⟩
    intro _ ha
    -- A chain from here could start over without coming back, and one of the passages would do.
    cases ha.extend with
    | answer hj' => cases hj.symm.trans hj'
    | passage hj' he hce ha =>
      cases hj.symm.trans hj'
      exact ihnext rfl _ he hce ha

theorem not_alive_of_passages {x : Visit} (hj : p.junction x = .passages es)
    (h : DepthFirst p counts path es none) : ¬ Alive p counts path x := by
  intro ha
  cases ha with
  | answer hj' => cases hj.symm.trans hj'
  | passage hj' he hc ha =>
    cases hj.symm.trans hj'
    exact h.not_alive _ he hc ha

theorem unique {r r' : Option Resolution} (h : DepthFirst p counts path es r)
    (h' : DepthFirst p counts path es r') : r = r' := by
  induction h generalizing r' with
  | deadEnd =>
    cases h'
    rfl
  | pruned hc hm _ ih =>
    cases h' with
    | pruned _ _ h' => exact ih h'
    | answer hn => exact absurd hm (hn hc)
    | found hn => exact absurd hm (hn hc)
    | missed hn => exact absurd hm (hn hc)
  | answer hn hj =>
    cases h' with
    | pruned hc hm => exact absurd hm (hn hc)
    | answer _ hj' =>
      cases hj.symm.trans hj'
      rfl
    | found _ hj' => cases hj.symm.trans hj'
    | missed _ hj' => cases hj.symm.trans hj'
  | found hn hj _ ih =>
    cases h' with
    | pruned hc hm => exact absurd hm (hn hc)
    | answer _ hj' => cases hj.symm.trans hj'
    | found _ hj' h' =>
      cases hj.symm.trans hj'
      exact ih h'
    | missed _ hj' h' =>
      cases hj.symm.trans hj'
      cases ih h'
  | missed hn hj _ _ ih ihrest =>
    cases h' with
    | pruned hc hm => exact absurd hm (hn hc)
    | answer _ hj' => cases hj.symm.trans hj'
    | found _ hj' h' =>
      cases hj.symm.trans hj'
      cases ih h'
    | missed _ _ _ h' => exact ihrest h'

theorem exists_answer {r : Resolution} (h : DepthFirst p counts path es (some r)) :
    ∃ x, p.junction x = .answer r := by
  generalize hr : some r = found at h
  induction h with
  | deadEnd => cases hr
  | pruned _ _ _ ih => exact ih hr
  | answer _ hj =>
    cases hr
    exact ⟨_, hj⟩
  | found _ _ _ ih => exact ih hr
  | missed _ _ _ _ _ ih => exact ih hr

end DepthFirst

end PropContract
