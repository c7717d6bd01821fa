import Mathlib.Data.List.Forall2
import PropContract.Proofs.Resolver.Unfolding

namespace PropContract.Resolver

open Syntax List

def rootMembers (s : Setting) (d : DeclRef) : List Member :=
  (declMembers s.project (membersWithin s.project stepLimit [d])
    (pathMembers s.project (membersWithin s.project stepLimit) (declaredCount s.project + 1) [d])
    d []).getD []

inductive Describes (s : Setting) : Symbol → Expanding → List Member → Prop where
  | declared : IsAbout s symbol d → Describes s symbol [d] (rootMembers s d)
  | outside : s.project.resolveName file name = some (.outside module imported) →
      Describes s (.named file name) [] []
  | written : declaredType? s file type = none →
      Describes s (.inline file type) []
        ((membersWithin s.project stepLimit [] (.written type (.file file))).getD [])

/-- A property says what a member says. It is required unless the member is optional, or null is
told apart and the type of the member admits it. -/
structure Tells (p : Project) (m : Member) (q : PropInfo) : Prop where
  name : q.name = m.name
  required : q.required = (!m.isOptional && !(p.options.nullChecks && admitsNullish p m.type))
  default : q.default = none
  doc : q.doc = m.doc
  typeText : q.typeText = m.typeText

section Questions

variable {s : Setting}

theorem propsOf_tells (shape : ShapeOf) (E : Expanding) (depth : Nat) (ms : List Member)
    (l : Ledger) :
    Forall₂ (Tells s.project) ms ((propsOf s shape E depth ms).run l).1 := by
  unfold propsOf
  induction ms generalizing l with
  | nil => exact .nil
  | cons m ms ih =>
    rw [mapM_cons]
    exact .cons ⟨rfl, rfl, rfl, rfl, rfl⟩ (ih _)

theorem declaredProps_fst (d : DeclRef) (l : Ledger)
    (htype : (s.project.declarations d).any Declared.isType = true) :
    ((declaredProps s d).run.run l).1 = .ok ((limitedProps s [d] (rootMembers s d)).run l).1 := by
  have hsome : (s.project.declarations d).isEmpty = false := by
    cases hd : s.project.declarations d with
    | nil => simp [hd] at htype
    | cons => rfl
  unfold declaredProps
  simp only [hsome, htype, Bool.not_true, Bool.false_eq_true, if_false]
  rfl

theorem declaredProps_eq_ok {d : DeclRef} {l : Ledger} {props : List PropInfo}
    (h : ((declaredProps s d).run.run l).1 = .ok props) :
    props = ((limitedProps s [d] (rootMembers s d)).run l).1 := by
  by_cases htype : (s.project.declarations d).any Declared.isType = true
  · rw [declaredProps_fst d l htype] at h
    exact (Except.ok.inj h).symm
  · unfold declaredProps at h
    simp only [Bool.eq_false_iff.mpr htype, Bool.not_false, if_true] at h
    by_cases hnone : (s.project.declarations d).isEmpty = true
    · simp only [hnone, if_true] at h
      cases h
    · simp only [hnone] at h
      cases h

theorem any_isType_of_declaredType? {file : Nat} {type : TypeExpr} {d : DeclRef}
    (h : declaredType? s file type = some d) :
    (s.project.declarations d).any Declared.isType = true := by
  obtain ⟨name, -, h⟩ := Option.bind_eq_some_iff.mp h
  unfold Project.typeNamed? at h
  split at h
  · by_cases htype : (s.project.declarations ‹_›).any Declared.isType = true
    · rw [if_pos htype] at h
      exact Option.some.inj h ▸ htype
    · rw [if_neg htype] at h
      cases h
  · cases h

theorem inlineProps_fst (file : Nat) (type : TypeExpr) (l : Ledger) :
    ∃ E ms, Describes s (.inline file type) E ms ∧
      ((inlineProps s file type).run.run l).1 = .ok ((limitedProps s E ms).run l).1 := by
  cases hd : declaredType? s file type with
  | some d =>
    refine ⟨[d], rootMembers s d, .declared (.inline hd), ?_⟩
    rw [← declaredProps_fst d l (any_isType_of_declaredType? hd), inlineProps, hd]
  | none =>
    refine ⟨[], _, .written hd, ?_⟩
    rw [inlineProps, hd]
    rfl

theorem exists_inline_answer (s : Setting) (file : Nat) (type : TypeExpr) (l : Ledger) :
    ∃ props l', (resolveProps s (.inline file type)).run.run l = (.ok props, l') := by
  obtain ⟨E, ms, -, h⟩ := inlineProps_fst (s := s) file type l
  exact ⟨_, _, Prod.ext h rfl⟩

section

variable {symbol : Symbol} {l : Ledger} {props : List PropInfo}
  (h : ((resolveProps s symbol).run.run l).1 = .ok props)

include h

theorem exists_describes :
    ∃ E ms, Describes s symbol E ms ∧ props = ((limitedProps s E ms).run l).1 := by
  cases symbol with
  | declared d => exact ⟨[d], _, .declared .declared, declaredProps_eq_ok h⟩
  | inline file type =>
    obtain ⟨E, ms, hms, hprops⟩ := inlineProps_fst (s := s) file type l
    exact ⟨E, ms, hms, Except.ok.inj (h.symm.trans hprops)⟩
  | named file name =>
    simp only [resolveProps] at h
    cases hname : s.project.resolveName file name with
    | none =>
      rw [hname] at h
      cases h
    | some found =>
      rw [hname] at h
      cases found with
      | declared d => exact ⟨[d], _, .declared (.named hname), declaredProps_eq_ok h⟩
      | outside module imported =>
        refine ⟨[], [], .outside hname, ?_⟩
        cases h
        rfl
      | «namespace» | outsideNamespace => cases h

theorem answer_tells :
    ∃ E ms, Describes s symbol E ms ∧ Forall₂ (Tells s.project) ms props := by
  obtain ⟨E, ms, hms, rfl⟩ := exists_describes h
  exact ⟨E, ms, hms, propsOf_tells _ E 1 ms l⟩

end

end Questions

end PropContract.Resolver
