import Mathlib.Data.List.Nodup
import PropContract.Proofs.Injection.Survey
import PropContract.Proofs.Lists
import PropContract.Injection.Basic

namespace PropContract.Injection

open Syntax Survey List

def matching (found : Findings) (c : Component) : List Candidate :=
  found.candidates.filter fun k => k.name == c.name && k.fingerprint.accepts c.kind

def existingOf (found : Findings) (c : Component) : List Existing :=
  found.existing.filter fun x => x.component == c.name

def retained (o : InjectOptions) (found : Findings) (c : Component) : List HandWritten :=
  if o.conflict = .merge then (existingOf found c).flatMap Existing.entries else []

def blockFor (o : InjectOptions) (found : Findings) (k : Candidate) (c : Component) : String :=
  withoutEnd (mergedBlock o.validators (usedPart o k c) (retained o found c))

inductive Change where
  | append (c : Component) (k : Candidate)
  | replace (c : Component) (k : Candidate) (x : Existing)
  | remove (c : Component) (x : Existing)
  | imports (e : Edit)

namespace Change

def edit (o : InjectOptions) (source : String) (found : Findings) : Change → Edit
  | append c k => Edit.insert k.stop ("\n\n" ++ blockFor o found k c)
  | replace c k x => ⟨x.span, blockFor o found k c⟩
  | remove _ x => Edit.delete (widen source x.span)
  | imports e => e

def block? : Change → Option Component
  | append c _ | replace c _ _ => some c
  | _ => none

def taken? : Change → Option Existing
  | replace _ _ x | remove _ x => some x
  | _ => none

end Change

def isStatement (x : Existing) : Bool :=
  x.place = .statement

def plan (c : Component) (k : Candidate) (xs : List Existing) : List Change :=
  match xs.dropWhile (!isStatement ·) with
  | [] => xs.map (.remove c) ++ [.append c k]
  | x :: others =>
    (xs.takeWhile (!isStatement ·)).map (.remove c) ++ .replace c k x :: others.map (.remove c)

def componentChanges (found : Findings) (c : Component) : List Change :=
  (matching found c).flatMap fun k => plan c k (existingOf found c)

def changes (o : InjectOptions) (found : Findings) (d : Document) : List Change :=
  d.components.flatMap (componentChanges found) ++ (importEdits o found).map .imports

theorem plan_block? (c : Component) (k : Candidate) (xs : List Existing) :
    (plan c k xs).filterMap Change.block? = [c] := by
  have hremoved : ∀ ys : List Existing,
      (ys.map (Change.remove c)).filterMap Change.block? = [] := by
    intro ys
    simp [Change.block?]
  unfold plan
  split <;> simp [filterMap_append, hremoved, Change.block?]

theorem plan_taken? (c : Component) (k : Candidate) (xs : List Existing) :
    (plan c k xs).filterMap Change.taken? = xs := by
  have hremoved : ∀ ys : List Existing,
      (ys.map (Change.remove c)).filterMap Change.taken? = ys := by
    intro ys
    simp [Change.taken?, filterMap_map, Function.comp_def]
  unfold plan
  split
  · simp [filterMap_append, hremoved, Change.taken?]
  · rename_i x others hx
    simp only [filterMap_append, filterMap_cons, Change.taken?, hremoved]
    rw [← hx, takeWhile_append_dropWhile]

def Planned (o : InjectOptions) (found : Findings) (d : Document) : Change → Prop
  | .append c k => c ∈ d.components ∧ k ∈ matching found c
  | .replace c k x => c ∈ d.components ∧ k ∈ matching found c ∧
    (existingOf found c).find? isStatement = some x
  | .remove c x => c ∈ d.components ∧ x ∈ existingOf found c
  | .imports e => e ∈ importEdits o found

variable {c : Component} {found : Findings} {text : String}

theorem mem_plan {k : Candidate} {xs : List Existing} {change : Change} (h : change ∈ plan c k xs) :
    (∃ x ∈ xs, change = .remove c x) ∨ change = .append c k ∨
      ∃ x, xs.find? isStatement = some x ∧ change = .replace c k x := by
  have hremoved : ∀ ys : List Existing, (∀ y ∈ ys, y ∈ xs) → change ∈ ys.map (Change.remove c) →
      ∃ x ∈ xs, change = .remove c x := by
    intro ys hys hmem
    obtain ⟨y, hy, rfl⟩ := mem_map.mp hmem
    exact ⟨y, hys y hy, rfl⟩
  unfold plan at h
  split at h
  · rcases mem_append.mp h with h | h
    · exact .inl (hremoved xs (fun _ hy => hy) h)
    · exact .inr (.inl (mem_singleton.mp h))
  · rename_i x others hx
    have hothers : ∀ y ∈ others, y ∈ xs := fun y hy =>
      (dropWhile_sublist (!isStatement ·)).subset (hx ▸ mem_cons_of_mem x hy)
    rcases mem_append.mp h with h | h
    · exact .inl (hremoved _ (fun y hy => (takeWhile_sublist _).subset hy) h)
    · rcases mem_cons.mp h with rfl | h
      · refine .inr (.inr ⟨x, ?_, rfl⟩)
        rw [find?_eq_head?_dropWhile_not, hx, head?_cons]
      · exact .inl (hremoved others hothers h)

theorem planned_of_mem {o : InjectOptions} {d : Document} {change : Change}
    (h : change ∈ changes o found d) : Planned o found d change := by
  rcases mem_append.mp h with h | h
  · obtain ⟨c, hc, h⟩ := mem_flatMap.mp h
    obtain ⟨k, hk, h⟩ := mem_flatMap.mp h
    rcases mem_plan h with ⟨x, hx, rfl⟩ | rfl | ⟨x, hx, rfl⟩
    · exact ⟨hc, hx⟩
    · exact ⟨hc, hk⟩
    · exact ⟨hc, hk, hx⟩
  · obtain ⟨e, he, rfl⟩ := mem_map.mp h
    exact he

section Matched

variable {o : InjectOptions} {found : Findings} {d : Document}
  (hmatched : ∀ c ∈ d.components, (matching found c).length = 1)

include hmatched

theorem changes_block? : (changes o found d).filterMap Change.block? = d.components := by
  have himports : ((importEdits o found).map Change.imports).filterMap Change.block? = [] := by
    simp [Change.block?]
  rw [changes, filterMap_append, himports, append_nil, filterMap_flatMap]
  conv_rhs => rw [← flatMap_singleton' d.components]
  refine flatMap_congr fun c hc => ?_
  obtain ⟨k, hk⟩ := length_eq_one_iff.mp (hmatched c hc)
  rw [componentChanges, hk, flatMap_singleton, plan_block?]

theorem changes_taken? :
    (changes o found d).filterMap Change.taken? = d.components.flatMap (existingOf found) := by
  have himports : ((importEdits o found).map Change.imports).filterMap Change.taken? = [] := by
    simp [Change.taken?]
  rw [changes, filterMap_append, himports, append_nil, filterMap_flatMap]
  refine flatMap_congr fun c hc => ?_
  obtain ⟨k, hk⟩ := length_eq_one_iff.mp (hmatched c hc)
  rw [componentChanges, hk, flatMap_singleton, plan_taken?]

end Matched

theorem replaceExisting_true (source block : String) (xs : List Existing) :
    replaceExisting source block true xs =
      (xs.map fun x => Edit.delete (widen source x.span), true) := by
  induction xs with
  | nil => rfl
  | cons x xs ih => simp [replaceExisting, ih]

theorem replaceExisting_false (source block : String) (xs : List Existing) :
    replaceExisting source block false xs =
      match xs.dropWhile (!isStatement ·) with
      | [] => (xs.map fun x => Edit.delete (widen source x.span), false)
      | x :: others =>
        ((xs.takeWhile (!isStatement ·)).map (fun x => Edit.delete (widen source x.span)) ++
          ⟨x.span, withoutEnd block⟩ :: others.map fun x => Edit.delete (widen source x.span),
          true) := by
  induction xs with
  | nil => rfl
  | cons x xs ih =>
    cases hx : x.place with
    | statement => simp [replaceExisting, replaceExisting_true, isStatement, hx]
    | classMember =>
      have hmember : isStatement x = false := by simp [isStatement, hx]
      simp only [dropWhile_cons, takeWhile_cons, hmember, Bool.not_false, if_true,
        replaceExisting, hx, reduceCtorEq, decide_false, Bool.false_and,
        Bool.false_eq_true, if_false, ih]
      split <;> simp

/-- When an injection is not refused: the names of components differ, each component has one
candidate, and validators that are there may be rewritten. -/
structure Injectable (o : InjectOptions) (found : Findings) (d : Document) : Prop where
  distinct : (d.components.map Component.name).Nodup
  matched : ∀ c ∈ d.components, (matching found c).length = 1
  allowed : o.conflict ≠ .fail ∨ ∀ c ∈ d.components, existingOf found c = []

def Accepted (o : InjectOptions) (found : Findings) (d : Document) (c : Component) : Prop :=
  (d.components.filter fun k => k.name == c.name).length ≤ 1 ∧ (matching found c).length = 1 ∧
    (o.conflict ≠ .fail ∨ existingOf found c = [])

def placedEdits (source block : String) (k : Candidate) (xs : List Existing) : List Edit :=
  let edits := replaceExisting source block false xs
  if edits.2 then edits.1 else edits.1 ++ [appended k block]

theorem mergedBlock_nil (o : ValidatorOptions) (c : Component) :
    mergedBlock o c [] = Block.ofComponent o c := by
  simp [mergedBlock, keptEntries, Block.ofComponent]

theorem map_edit_plan (o : InjectOptions) (source : String) (found : Findings) (c : Component)
    (k : Candidate) (xs : List Existing) :
    (plan c k xs).map (Change.edit o source found) =
      placedEdits source (mergedBlock o.validators (usedPart o k c) (retained o found c)) k xs := by
  have hremoved : ∀ ys : List Existing,
      (ys.map (Change.remove c)).map (Change.edit o source found) =
        ys.map fun x => Edit.delete (widen source x.span) := fun ys => map_map
  unfold placedEdits plan
  rw [replaceExisting_false]
  split
  · simp only [map_append, hremoved]
    rfl
  · simp only [map_append, map_cons, hremoved]
    rfl

theorem candidateFor_eq (found : Findings) (c : Component) :
    candidateFor found c =
      match matching found c with
      | [] => .error (.notFound c.name)
      | [k] => .ok k
      | ks => .error (.ambiguous c.name ks.length) := rfl

theorem existingOf_eq (found : Findings) (c : Component) :
    (found.existing.filter fun x => x.component == c.name) = existingOf found c := rfl

theorem componentEdits_of_accepted {o : InjectOptions} {source : String} {d : Document}
    (h : Accepted o found d c) :
    componentEdits o source found d c =
      .ok ((componentChanges found c).map (Change.edit o source found)) := by
  obtain ⟨hcount, hmatched, hallowed⟩ := h
  obtain ⟨k, hk⟩ := length_eq_one_iff.mp hmatched
  have hcandidate : candidateFor found c = .ok k := by rw [candidateFor_eq, hk]
  have hchanges : componentChanges found c = plan c k (existingOf found c) := by
    simp [componentChanges, hk]
  rw [hchanges, map_edit_plan]
  unfold componentEdits
  simp only [hcandidate, Nat.not_lt.mpr hcount, if_false, existingOf_eq]
  cases hxs : existingOf found c with
  | nil =>
    have hretained : retained o found c = [] := by simp [retained, hxs]
    rw [hretained, mergedBlock_nil]
    rfl
  | cons x xs =>
    cases hconflict : o.conflict with
    | fail => simp [hconflict, hxs] at hallowed
    | replace =>
      have hretained : retained o found c = [] := by simp [retained, hconflict]
      rw [hretained]
      rfl
    | merge =>
      have hretained : retained o found c = (x :: xs).flatMap Existing.entries := by
        simp [retained, hconflict, hxs]
      rw [hretained]
      rfl

def Refusal (e : InjectError) : Prop :=
  ∀ components cause, e ≠ .edit components cause

section

variable {o : InjectOptions} {source : String} {d : Document}

theorem componentEdits_of_error {e : InjectError}
    (hcount : ¬ 1 < (d.components.filter fun k => k.name == c.name).length)
    (he : candidateFor found c = .error e) : componentEdits o source found d c = .error e := by
  unfold componentEdits
  simp only [hcount, if_false]
  rw [he]
  rfl

theorem componentEdits_of_existing {k : Candidate} {x : Existing} {xs : List Existing}
    (hcount : ¬ 1 < (d.components.filter fun k => k.name == c.name).length)
    (hk : matching found c = [k]) (hconflict : o.conflict = .fail)
    (hxs : existingOf found c = x :: xs) : componentEdits o source found d c =
      .error (.existing c.name (Position.of source x.span.start)) := by
  have hcandidate : candidateFor found c = .ok k := by rw [candidateFor_eq, hk]
  unfold componentEdits
  simp only [hcount, if_false]
  rw [hcandidate, existingOf_eq, hxs, hconflict]
  rfl

theorem componentEdits_of_not_accepted (h : ¬ Accepted o found d c) :
    ∃ e, componentEdits o source found d c = .error e ∧ Refusal e := by
  by_cases hcount : 1 < (d.components.filter fun k => k.name == c.name).length
  · refine ⟨.ambiguous c.name (d.components.filter fun k => k.name == c.name).length, ?_,
      by simp [Refusal]⟩
    unfold componentEdits
    simp only [hcount, if_true]
    rfl
  match hk : matching found c with
  | [] =>
    have hcandidate : candidateFor found c = .error (.notFound c.name) := by
      rw [candidateFor_eq, hk]
    exact ⟨_, componentEdits_of_error hcount hcandidate, by simp [Refusal]⟩
  | k :: k' :: ks =>
    have hcandidate : candidateFor found c = .error (.ambiguous c.name (ks.length + 2)) := by
      rw [candidateFor_eq, hk]
      rfl
    exact ⟨_, componentEdits_of_error hcount hcandidate, by simp [Refusal]⟩
  | [k] =>
    have hconflict : o.conflict = .fail ∧ existingOf found c ≠ [] := by
      simp only [Accepted, hk, length_singleton] at h
      grind
    obtain ⟨x, xs, hxs⟩ := exists_cons_of_ne_nil hconflict.2
    exact ⟨_, componentEdits_of_existing hcount hk hconflict.1 hxs, by simp [Refusal]⟩

end

theorem nodup_names_iff (cs : List Component) :
    (cs.map Component.name).Nodup ↔
      ∀ c ∈ cs, (cs.filter fun k => k.name == c.name).length ≤ 1 := by
  rw [nodup_iff_count_le_one]
  have hcount : ∀ name, (cs.map Component.name).count name =
      (cs.filter fun k => k.name == name).length := by
    intro name
    rw [count_eq_countP, countP_map, countP_eq_length_filter]
    rfl
  constructor
  · intro h c _
    rw [← hcount]
    exact h c.name
  · intro h name
    by_cases hname : name ∈ cs.map Component.name
    · obtain ⟨c, hc, rfl⟩ := mem_map.mp hname
      rw [hcount]
      exact h c hc
    · rw [count_eq_zero_of_not_mem hname]
      exact Nat.zero_le 1

theorem injectable_iff (o : InjectOptions) (found : Findings) (d : Document) :
    Injectable o found d ↔ ∀ c ∈ d.components, Accepted o found d c := by
  constructor
  · rintro ⟨hdistinct, hmatched, hallowed⟩ c hc
    refine ⟨(nodup_names_iff d.components).mp hdistinct c hc, hmatched c hc, ?_⟩
    exact hallowed.imp id fun h => h c hc
  · intro h
    refine ⟨(nodup_names_iff d.components).mpr fun c hc => (h c hc).1, fun c hc => (h c hc).2.1, ?_⟩
    by_cases hconflict : o.conflict = .fail
    · exact .inr fun c hc => (h c hc).2.2.resolve_left (not_not_intro hconflict)
    · exact .inl hconflict

def answer (d : Document) : Except EditError String → Except InjectError String
  | .ok text => .ok text
  | .error e => .error (.edit (", ".intercalate (d.components.map Component.name)) e)

theorem answer_eq_ok_iff {d : Document} {r : Except EditError String} :
    answer d r = .ok text ↔ r = .ok text := by
  cases r <;> simp [answer]

variable {o : InjectOptions} {d : Document} {source : String} {items : List Item}

theorem inject_eq (hd : d.components ≠ [])
    (hparse : Grammar.parseModule (dialect o) source = .ok items) :
    inject o d source =
      (d.components.mapM (componentEdits o source (ofItems source items) d)).bind fun edits =>
        answer d (Edit.apply (edits.flatten ++ importEdits o (ofItems source items)) source) := by
  have hempty : d.components.isEmpty = false := by simpa using hd
  have hsurvey : survey o source = .ok (ofItems source items) := by
    unfold survey
    rw [hparse]
  rw [inject, hempty, hsurvey]
  refine congrArg (Except.bind _) (funext fun edits => ?_)
  cases Edit.apply (edits.flatten ++ importEdits o (ofItems source items)) source with
  | error e => rfl
  | ok text => rfl

theorem map_edit_changes (o : InjectOptions) (source : String) (found : Findings) (d : Document) :
    (changes o found d).map (Change.edit o source found) =
      (d.components.map fun c =>
        (componentChanges found c).map (Change.edit o source found)).flatten ++
      importEdits o found := by
  have himports : ((importEdits o found).map Change.imports).map (Change.edit o source found) =
      importEdits o found := by
    rw [map_map]
    exact map_id _
  rw [changes, map_append, himports, map_flatMap, flatMap_def]

theorem inject_of_injectable (hd : d.components ≠ [])
    (hparse : Grammar.parseModule (dialect o) source = .ok items)
    (h : Injectable o (ofItems source items) d) :
    inject o d source =
      answer d (Edit.apply ((changes o (ofItems source items) d).map
        (Change.edit o source (ofItems source items))) source) := by
  have haccepted := (injectable_iff o (ofItems source items) d).mp h
  have hedits : d.components.mapM (componentEdits o source (ofItems source items) d) =
      .ok (d.components.map fun c => (componentChanges (ofItems source items) c).map
        (Change.edit o source (ofItems source items))) :=
    mapM_eq_ok fun c hc => componentEdits_of_accepted (haccepted c hc)
  rw [inject_eq hd hparse, hedits, map_edit_changes]
  rfl

theorem parseModule_of_inject (hd : d.components ≠ []) (h : inject o d source = .ok text) :
    ∃ items, Grammar.parseModule (dialect o) source = .ok items := by
  have hempty : d.components.isEmpty = false := by simpa using hd
  cases hparse : Grammar.parseModule (dialect o) source with
  | ok items => exact ⟨items, rfl⟩
  | error e =>
    have hsurvey : survey o source = .error (.malformed (Position.of source e.offset)) := by
      unfold survey
      rw [hparse]
    rw [inject, hempty, hsurvey] at h
    cases h

theorem inject_of_not_injectable (hd : d.components ≠ [])
    (hparse : Grammar.parseModule (dialect o) source = .ok items)
    (h : ¬ Injectable o (ofItems source items) d) :
    ∃ e, inject o d source = .error e ∧ Refusal e := by
  rw [injectable_iff] at h
  push Not at h
  obtain ⟨c, hc, hrefused⟩ := h
  have hcases : ∀ c, (∃ edits, componentEdits o source (ofItems source items) d c = .ok edits) ∨
      ∃ e, componentEdits o source (ofItems source items) d c = .error e ∧ Refusal e := by
    intro c
    by_cases hc : Accepted o (ofItems source items) d c
    · exact .inl ⟨_, componentEdits_of_accepted hc⟩
    · exact .inr (componentEdits_of_not_accepted hc)
  obtain ⟨e, he, hrefusal⟩ := mapM_eq_error hcases hc
    ((componentEdits_of_not_accepted hrefused).imp fun _ h => h.1)
  exact ⟨e, by rw [inject_eq hd hparse, he]; rfl, hrefusal⟩

theorem inject_eq_ok_iff (hd : d.components ≠ [])
    (hparse : Grammar.parseModule (dialect o) source = .ok items) :
    inject o d source = .ok text ↔
      Injectable o (ofItems source items) d ∧
        Edit.apply ((changes o (ofItems source items) d).map
          (Change.edit o source (ofItems source items))) source = .ok text := by
  by_cases h : Injectable o (ofItems source items) d
  · rw [inject_of_injectable hd hparse h, answer_eq_ok_iff]
    exact ⟨fun happly => ⟨h, happly⟩, fun happly => happly.2⟩
  · obtain ⟨e, he, -⟩ := inject_of_not_injectable hd hparse h
    simp [he, h]

end PropContract.Injection
