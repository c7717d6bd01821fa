import PropContract.Extraction
import PropContract.Proofs.Grammar.Items
import PropContract.Proofs.Injection.Plan

namespace PropContract.Injection

open Syntax Survey List

/-- What a name at the top level is given, where that may be a component. -/
inductive Holder where
  | function (isAmbient : Bool) (f : Function)
  | classBased (c : ClassBody)
  | binding (type : Option TypeExpr) (init : Option Expr)

namespace Holder

def ofDeclarator? : Declarator → Option (String × Holder)
  | .mk (.name name type) init => some (name, .binding type init)
  | _ => none

def ofDeclaration : Declaration → List (String × Holder)
  | .function name isAmbient f => [(name, .function isAmbient f)]
  | .class name c => [(name, .classBased c)]
  | .vars kind ds => if kind.isResource then [] else ds.filterMap ofDeclarator?
  | _ => []

def ofItem (item : Item) : List (String × Holder) :=
  (declaration? item).toList.flatMap ofDeclaration

def isDefined : Holder → Bool
  | function isAmbient f => !isAmbient && f.hasBody
  | classBased _ => true
  | binding _ init => init.isSome

def isReceived (hasType : Bool) (e : Expr) : Bool :=
  match e.unwrap with
  | .arrow f => f.params.length ≤ 2
  | .function f => f.hasBody && f.params.length ≤ 2
  | .class _ => !hasType
  | .call .. => !isRequire e
  | _ => false

/-- Whether validators can be given to what is held: a function or a class that is declared, or a
variable with a function of at most two parameters, a class, or a call that imports nothing. A
variable with the type of a component holds a function component, so it takes no class. -/
def receives : Holder → Bool
  | function .. | classBased _ => true
  | binding type init =>
    (init.map (isReceived (type.bind Extraction.componentType?).isSome)).getD false

def fingerprintOf? (e : Expr) : Option Fingerprint :=
  if isRequire e then none
  else
    match e.unwrap with
    | .arrow f => some (.function f.params.length)
    | .function f => if f.hasBody then some (.function f.params.length) else none
    | .class _ => some .classBased
    | .call .. => some .call
    | _ => none

def fingerprint? : Holder → Option Fingerprint
  | function isAmbient f =>
    if !isAmbient && f.hasBody then some (.function f.params.length) else none
  | classBased _ => some .classBased
  | binding _ init => init.bind fingerprintOf?

def usageOf? (e : Expr) : Option (List String) :=
  match e.unwrap with
  | .arrow f | .function f => Usage.ofFunction? f
  | .call _ _ args => Usage.ofCall? args
  | _ => none

def usage? : Holder → Option (List String)
  | function _ f => Usage.ofFunction? f
  | classBased _ => none
  | binding _ init => init.bind usageOf?

def candidate? (name : String) : Holder → Option Extraction.Candidate
  | function _ f => Extraction.functionCandidate? name f
  | classBased c => Extraction.classCandidate? name c
  | binding type init => Extraction.variableCandidate? (.mk (.name name type) init)

end Holder

def holders (items : List Item) : List (String × Holder) :=
  items.flatMap Holder.ofItem

def valuesOf (name : String) (items : List Item) : List Holder :=
  ((holders items).filter (·.1 == name)).map Prod.snd

def holdersOf (c : Component) (items : List Item) : List Holder :=
  (valuesOf c.name items).filter fun v => v.fingerprint?.any (·.accepts c.kind)

def faceOf (k : Candidate) : String × Fingerprint × Option (List String) :=
  (k.name, k.fingerprint, k.used)

def face? (h : String × Holder) : Option (String × Fingerprint × Option (List String)) :=
  h.2.fingerprint?.map (h.1, ·, h.2.usage?)

theorem map_faceOf_variableCandidate? (stop : Nat) (d : Declarator) :
    (variableCandidate? stop d).map faceOf = (Holder.ofDeclarator? d).bind face? := by
  obtain ⟨target, init⟩ := d
  cases target with
  | name name type =>
    cases init with
    | none => rfl
    | some e =>
      simp only [variableCandidate?, Holder.ofDeclarator?, face?, Holder.fingerprint?,
        Holder.fingerprintOf?, Holder.usage?, Holder.usageOf?, Option.bind_some]
      by_cases hr : isRequire e
      · simp [hr]
      · simp only [hr, Bool.false_eq_true, if_false]
        cases e.unwrap with
        | function f => by_cases hbody : f.hasBody <;> simp [functionCandidate?, faceOf, hbody]
        | _ => rfl
  | _ => rfl

theorem map_faceOf_functionCandidate? (name : String) (stop : Nat) (f : Function) :
    (functionCandidate? name stop f).toList.map faceOf =
      [(name, Holder.function false f)].filterMap face? := by
  by_cases hbody : f.hasBody <;>
    simp [functionCandidate?, faceOf, face?, Holder.fingerprint?, Holder.usage?, hbody]

theorem map_faceOf_declaredCandidates (stop : Nat) (d : Declaration) :
    (declaredCandidates stop d).map faceOf = (Holder.ofDeclaration d).filterMap face? := by
  cases d with
  | function name isAmbient f =>
    cases isAmbient with
    | true => rfl
    | false => exact map_faceOf_functionCandidate? name stop f
  | vars kind ds =>
    by_cases hk : kind.isResource
    · simp [declaredCandidates, Holder.ofDeclaration, hk]
    · simp only [declaredCandidates, Holder.ofDeclaration, hk, Bool.false_eq_true, if_false,
        map_filterMap, filterMap_filterMap]
      exact filterMap_congr fun d _ => map_faceOf_variableCandidate? stop d
  | _ => rfl

theorem map_faceOf_candidatesOf {item : Item} (hitem : Grammar.Regular item.kind) :
    (candidatesOf item).map faceOf = (Holder.ofItem item).filterMap face? := by
  obtain ⟨span, doc, kind⟩ := item
  have hdeclaration (d : Declaration) : (declaredCandidates span.stop d).map faceOf =
      ([d].flatMap Holder.ofDeclaration).filterMap face? := by
    rw [flatMap_singleton, map_faceOf_declaredCandidates]
  cases kind with
  | statement s =>
    cases s with
    | declaration d => exact hdeclaration d
    | _ => rfl
  | exportDeclaration d => exact hdeclaration d
  | exportDefault d =>
    cases d with
    | function name isAmbient f =>
      cases isAmbient with
      | true => cases hitem
      | false => exact map_faceOf_functionCandidate? name span.stop f
    | «class» name c => rfl
    | interface i => rfl
    | _ => cases hitem
  | _ => rfl

section

variable {items : List Item} (hitems : ∀ item ∈ items, Grammar.Regular item.kind)
include hitems

theorem map_faceOf_candidates (source : String) :
    (ofItems source items).candidates.map faceOf = (holders items).filterMap face? := by
  rw [ofItems_eq, map_flatMap, holders, filterMap_flatMap]
  exact flatMap_congr fun item hi => map_faceOf_candidatesOf (hitems item hi)

theorem map_used_matching (source : String) (c : Component) :
    (matching (ofItems source items) c).map Candidate.used =
      (holdersOf c items).map Holder.usage? := by
  have hfaces : (matching (ofItems source items) c).map Candidate.used =
      (((ofItems source items).candidates.map faceOf).filter fun f =>
        f.1 == c.name && f.2.1.accepts c.kind).map (·.2.2) := by
    rw [matching, filter_map, map_map]
    rfl
  rw [hfaces, map_faceOf_candidates hitems source, holdersOf, valuesOf]
  induction holders items with
  | nil => rfl
  | cons h hs ih =>
    cases hf : h.2.fingerprint? with
    | none => by_cases hname : h.1 = c.name <;> simp [face?, hname, hf, ih]
    | some f =>
      by_cases hname : h.1 = c.name <;> by_cases haccepts : f.accepts c.kind <;>
        simp [face?, hname, hf, haccepts, ih]

theorem length_matching (source : String) (c : Component) :
    (matching (ofItems source items) c).length = (holdersOf c items).length := by
  simpa using congrArg List.length (map_used_matching hitems source c)

end

end PropContract.Injection
