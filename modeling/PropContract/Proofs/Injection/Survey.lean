import Mathlib.Data.List.Flatten
import Mathlib.Data.List.TakeWhile
import PropContract.Injection.Survey

namespace PropContract.Survey

open Syntax Option

def variableClass? : Declarator → Option (String × ClassBody)
  | .mk (.name name _) (some e) =>
    if isRequire e then none
    else
      match e.unwrap with
      | .class c => some (name, c)
      | _ => none
  | _ => none

def namedClasses : Declaration → List (String × ClassBody)
  | .class name c => [(name, c)]
  | .vars kind ds => if kind.isResource then [] else ds.filterMap variableClass?
  | _ => []

def variableName? : Declarator → Option String
  | .mk (.name name _) _ => some name
  | _ => none

def componentNames : Declaration → List String
  | .class name _ | .function name _ _ => [name]
  | .vars _ ds => ds.filterMap variableName?
  | _ => []

def declaration? (item : Item) : Option Declaration :=
  match item.kind with
  | .statement (.declaration d) | .exportDeclaration d | .exportDefault d => some d
  | _ => none

def classesOf (item : Item) : List (String × ClassBody) :=
  match item.kind with
  | .statement (.declaration d) | .exportDeclaration d => namedClasses d
  | .exportDefault (.class name c) => [(name, c)]
  | _ => []

def heldBy (source : String) (c : String × ClassBody) : List Existing :=
  c.2.members.filterMap (ofMember? source c.1)

def validators (source : String) (item : Item) : List Existing :=
  match item.kind with
  | .statement (.expr e) => (assigned? source item.span e).toList
  | _ => (classesOf item).flatMap (heldBy source)

def propertySpan? : ClassMember → Option Span
  | .property span .. => some span
  | _ => none

def memberSpans (item : Item) : List Span :=
  (classesOf item).flatMap fun c => c.2.members.filterMap propertySpan?

def assigns (name : String) (item : Item) : Bool :=
  match item.kind with
  | .statement (.expr (.assign true (.member (.name n) "propTypes") _)) => n == name
  | _ => false

/-- A span in an item holds validators of a name: the item assigns them, or a class of that name
has them in a static property. -/
inductive Holds (item : Item) (name : String) : Span → Prop
  | statement
      (h : item.kind = .statement (.expr (.assign true (.member (.name name) "propTypes") value))) :
      Holds item name item.span
  | member (hc : (name, c) ∈ classesOf item)
      (hm : .property span true (.named "propTypes") type value decorators ∈ c.members) :
      Holds item name span

def isAnchor (item : Item) : Bool :=
  match item.kind with
  | .statement (.expr (.string _)) | .imports .. => true
  | _ => (declaration? item).isSome

variable {x : Existing} {source name : String} {item : Item} {k : Candidate} {stop : Nat}

theorem ofMember?_eq_some {m : ClassMember} (h : ofMember? source name m = some x) :
    ∃ type value decorators, m = .property x.span true (.named "propTypes") type value decorators ∧
      x.place = .classMember ∧ x.component = name := by
  unfold ofMember? at h
  split at h
  · obtain rfl := Option.some.inj h
    exact ⟨_, _, _, rfl, rfl, rfl⟩
  · simp at h

theorem heldBy_spans (source : String) (c : String × ClassBody) :
    ((heldBy source c).map Existing.span).Sublist (c.2.members.filterMap propertySpan?) := by
  unfold heldBy
  induction c.2.members with
  | nil => exact .slnil
  | cons m ms ih =>
    cases hx : ofMember? source c.1 m with
    | none =>
      rw [List.filterMap_cons_none hx]
      exact ih.trans ((List.sublist_cons_self m ms).filterMap propertySpan?)
    | some x =>
      obtain ⟨type, value, decorators, hm, -⟩ := ofMember?_eq_some hx
      have hspan : propertySpan? m = some x.span := by rw [hm]; rfl
      rw [List.filterMap_cons_some hx, List.filterMap_cons_some hspan, List.map_cons]
      exact ih.cons_cons x.span

theorem holds_of_mem_heldBy {c : String × ClassBody} (hc : c ∈ classesOf item)
    (hx : x ∈ heldBy source c) : x.place = .classMember ∧ Holds item x.component x.span := by
  obtain ⟨m, hm, hx⟩ := List.mem_filterMap.mp hx
  obtain ⟨type, value, decorators, rfl, hplace, hcomponent⟩ := ofMember?_eq_some hx
  rw [hcomponent]
  exact ⟨hplace, .member hc hm⟩

theorem validators_cases (source : String) (item : Item) :
    (∃ x value, validators source item = [x] ∧ x.place = .statement ∧ x.span = item.span ∧
        item.kind =
          .statement (.expr (.assign true (.member (.name x.component) "propTypes") value))) ∨
      ((validators source item).map Existing.span).Sublist (memberSpans item) ∧
        (∀ x ∈ validators source item, x.place = .classMember ∧ Holds item x.component x.span) ∧
        ∀ name, assigns name item = false := by
  unfold validators
  split
  · rename_i e hkind
    unfold assigned?
    split
    · rename_i component value
      exact .inl ⟨_, value, rfl, rfl, rfl, hkind⟩
    · rename_i hother
      refine .inr ⟨by simp, by simp, fun name => ?_⟩
      unfold assigns
      split
      · rename_i n value hkind'
        rw [hkind, ItemKind.statement.injEq, Stmt.expr.injEq] at hkind'
        exact absurd hkind' (hother n value)
      · rfl
  · rename_i hother
    refine .inr ⟨?_, ?_, fun name => ?_⟩
    · rw [List.map_flatMap]
      exact List.Sublist.flatMap_right _ fun c _ => heldBy_spans source c
    · intro x hx
      obtain ⟨c, hc, hx⟩ := List.mem_flatMap.mp hx
      exact holds_of_mem_heldBy hc hx
    · unfold assigns
      split
      · rename_i n value hkind
        exact absurd hkind (hother _)
      · rfl

theorem holds_of_mem_validators (h : x ∈ validators source item) :
    Holds item x.component x.span := by
  rcases validators_cases source item with ⟨y, value, hy, -, hspan, hkind⟩ | ⟨-, hmembers, -⟩
  · obtain rfl : x = y := by simpa [hy] using h
    rw [hspan]
    exact .statement hkind
  · exact (hmembers x h).2

theorem exists_mem_validators (source : String) {span : Span} (h : Holds item name span) :
    ∃ x ∈ validators source item, x.component = name := by
  cases h with
  | @statement value hkind =>
    refine ⟨⟨name, item.span, .statement, entriesOf source value⟩, ?_, rfl⟩
    simp [validators, hkind, assigned?]
  | @member c span type value decorators hc hm =>
    refine ⟨⟨name, span, .classMember, (value.map (entriesOf source)).getD []⟩, ?_, rfl⟩
    unfold validators
    split
    · rename_i e hkind
      simp [classesOf, hkind] at hc
    · exact List.mem_flatMap.mpr ⟨_, hc, List.mem_filterMap.mpr ⟨_, hm, rfl⟩⟩

def functionCandidate? (name : String) (stop : Nat) (f : Function) : Option Candidate :=
  if f.hasBody then
    some { name, fingerprint := .function f.params.length, stop, used := Usage.ofFunction? f }
  else none

def variableCandidate? (stop : Nat) : Declarator → Option Candidate
  | .mk (.name name _) (some e) =>
    if isRequire e then none
    else
      match e.unwrap with
      | .arrow f =>
        some { name, fingerprint := .function f.params.length, stop, used := Usage.ofFunction? f }
      | .function f => functionCandidate? name stop f
      | .class _ => some { name, fingerprint := .classBased, stop }
      | .call _ _ args => some { name, fingerprint := .call, stop, used := Usage.ofCall? args }
      | _ => none
  | _ => none

def declaredCandidates (stop : Nat) : Declaration → List Candidate
  | .function name isAmbient f =>
    if isAmbient then [] else (functionCandidate? name stop f).toList
  | .class name _ => [{ name, fingerprint := .classBased, stop }]
  | .vars kind ds => if kind.isResource then [] else ds.filterMap (variableCandidate? stop)
  | _ => []

def targetOf : Declarator → Pattern
  | .mk target _ => target

def directNames : Pattern → List String
  | .name n _ => [n]
  | .object members _ => members.filterMap memberName?
  | _ => []

def seenIn : Declaration → List String
  | .function name _ _ | .class name _ => [name]
  | .vars kind ds => if kind.isResource then [] else ds.flatMap fun d => directNames (targetOf d)
  | _ => []

def isGivenRequire : Declarator → Bool
  | .mk _ init => init.any isRequire

def isNamed : Declarator → Bool
  | .mk (.name ..) _ => true
  | _ => false

def givesRequire : Declaration → Bool
  | .vars kind ds => !kind.isResource && ds.any isGivenRequire
  | _ => false

def namesRequire : Declaration → Bool
  | .vars kind ds => !kind.isResource && ds.any fun d => isNamed d && isGivenRequire d
  | _ => false

def Findings.more (found : Findings) (ks : List Candidate) (xs : List Existing)
    (names : List String) (calls : Bool) : Findings :=
  { found with
    candidates := found.candidates ++ ks
    existing := found.existing ++ xs
    bindings := found.bindings ++ names
    usesRequire := found.usesRequire || calls }

theorem more_nothing (found : Findings) : found.more [] [] [] false = found := by
  simp [Findings.more]

theorem more_more (found : Findings) (ks ks' : List Candidate) (xs xs' : List Existing)
    (names names' : List String) (calls calls' : Bool) :
    (found.more ks xs names calls).more ks' xs' names' calls' =
      found.more (ks ++ ks') (xs ++ xs') (names ++ names') (calls || calls') := by
  simp [Findings.more, Bool.or_assoc]

theorem foldl_addExisting (found : Findings) (es : List Existing) :
    es.foldl Findings.addExisting found = { found with existing := found.existing ++ es } := by
  induction es generalizing found with
  | nil => simp
  | cons e es ih => simp [ih, Findings.addExisting]

theorem addFunction_eq (name : String) (stop : Nat) (f : Function) (found : Findings) :
    addFunction name stop f found =
      found.more (functionCandidate? name stop f).toList [] [] false := by
  unfold addFunction functionCandidate?
  split <;> simp [Findings.more, Findings.addCandidate]

theorem addClass_eq (source name : String) (stop : Nat) (c : ClassBody) (found : Findings) :
    addClass source name stop c found =
      found.more [{ name, fingerprint := .classBased, stop }] (heldBy source (name, c)) [] false := by
  rw [addClass, foldl_addExisting]
  simp [Findings.more, Findings.addCandidate, heldBy]

section

variable (source : String) (stop : Nat) (found : Findings)

theorem addDeclarator_eq (d : Declarator) : addDeclarator source stop found d =
      (found.more (variableCandidate? stop d).toList
        ((variableClass? d).toList.flatMap (heldBy source)) (directNames (targetOf d))
        (isNamed d && isGivenRequire d), isGivenRequire d) := by
  obtain ⟨target, init⟩ := d
  cases target with
  | name name type =>
    cases init with
    | none => simp [addDeclarator, Findings.more, Findings.bind, variableCandidate?,
        variableClass?, targetOf, directNames, isGivenRequire]
    | some e =>
      by_cases hr : isRequire e
      · simp [addDeclarator, Findings.more, Findings.bind, variableCandidate?, variableClass?,
          targetOf, directNames, isGivenRequire, isNamed, hr]
      · simp only [addDeclarator, variableCandidate?, variableClass?, isGivenRequire, isNamed, hr,
          any_some, Bool.false_eq_true, if_false, Bool.and_false]
        cases e.unwrap <;>
          simp [addFunction_eq, addClass_eq, Findings.more, Findings.bind, Findings.addCandidate,
            targetOf, directNames]
  | object members type =>
    cases init <;> simp [addDeclarator, Findings.more, Findings.bind, variableCandidate?,
      variableClass?, targetOf, directNames, isGivenRequire, isNamed]
  | _ =>
    cases init <;> simp [addDeclarator, Findings.more, variableCandidate?, variableClass?,
      targetOf, directNames, isGivenRequire, isNamed]

theorem addDeclarators_eq (ds : List Declarator) : addDeclarators source stop found ds =
      (found.more (ds.filterMap (variableCandidate? stop))
        ((ds.filterMap variableClass?).flatMap (heldBy source))
        (ds.flatMap fun d => directNames (targetOf d))
        (ds.any fun d => isNamed d && isGivenRequire d), ds.any isGivenRequire) := by
  induction ds generalizing found with
  | nil => simp [addDeclarators, more_nothing]
  | cons d ds ih =>
    have hcons : ∀ {α : Type} (f : Declarator → Option α),
        (d :: ds).filterMap f = (f d).toList ++ ds.filterMap f := by
      intro α f
      cases hf : f d <;> simp [hf]
    simp only [addDeclarators, addDeclarator_eq, ih, more_more, hcons, List.flatMap_append,
      List.flatMap_cons, List.any_cons]

theorem addDeclaration_eq (d : Declaration) : addDeclaration source stop found d =
      (found.more (declaredCandidates stop d) ((namedClasses d).flatMap (heldBy source)) (seenIn d)
        (namesRequire d), givesRequire d) := by
  cases d with
  | function name isAmbient f =>
    cases isAmbient <;> simp [addDeclaration, addFunction_eq, Findings.more, Findings.bind,
      declaredCandidates, namedClasses, seenIn, namesRequire, givesRequire]
  | «class» name c =>
    simp [addDeclaration, addClass_eq, Findings.more, Findings.bind, declaredCandidates,
      namedClasses, seenIn, namesRequire, givesRequire]
  | vars kind ds =>
    by_cases hk : kind.isResource
    · simp [addDeclaration, more_nothing, declaredCandidates, namedClasses, seenIn, namesRequire,
        givesRequire, hk]
    · simp [addDeclaration, addDeclarators_eq, declaredCandidates, namedClasses, seenIn,
        namesRequire, givesRequire, hk]
  | _ => simp [addDeclaration, more_nothing, declaredCandidates, namedClasses, seenIn,
      namesRequire, givesRequire]

end

def candidatesOf (item : Item) : List Candidate :=
  match item.kind with
  | .statement (.declaration d) | .exportDeclaration d => declaredCandidates item.span.stop d
  | .exportDefault (.function name _ f) => (functionCandidate? name item.span.stop f).toList
  | .exportDefault (.class name _) =>
    [{ name, fingerprint := .classBased, stop := item.span.stop }]
  | _ => []

def seenNames (item : Item) : List String :=
  match item.kind with
  | .imports _ specifiers => specifiers.map ImportSpecifier.localName
  | .statement (.declaration d) | .exportDeclaration d => seenIn d
  | _ => []

def isModuleItem (item : Item) : Bool :=
  match item.kind with
  | .statement _ => false
  | _ => true

def usesCalls (item : Item) : Bool :=
  match item.kind with
  | .statement (.declaration d) | .exportDeclaration d => namesRequire d
  | .statement (.expr e) => exports e
  | _ => false

def bindsRequire (item : Item) : Bool :=
  match item.kind with
  | .statement (.declaration d) => givesRequire d
  | _ => false

def isImporting (item : Item) : Bool :=
  match item.kind with
  | .imports .. => true
  | _ => bindsRequire item

theorem addItem_eq (source : String) (found : Findings) (item : Item) :
    addItem source found item =
      { found.more (candidatesOf item) (validators source item) (seenNames item)
          (usesCalls item) with
        lastImport := if isImporting item then some item.span.stop else found.lastImport
        isModule := found.isModule || isModuleItem item } := by
  obtain ⟨span, doc, kind⟩ := item
  cases kind with
  | statement s =>
    cases s with
    | declaration d =>
      cases hg : givesRequire d <;>
        simp [addItem, addDeclaration_eq, Findings.more, candidatesOf, validators, classesOf,
          seenNames, usesCalls, isImporting, bindsRequire, isModuleItem, hg]
    | expr e =>
      cases he : exports e <;> cases hx : assigned? source span e <;>
        simp [addItem, Findings.more, Findings.addExisting, candidatesOf, validators, seenNames,
          usesCalls, isImporting, bindsRequire, isModuleItem, he, hx]
    | _ => simp [addItem, Findings.more, candidatesOf, validators, classesOf, seenNames, usesCalls,
        isImporting, bindsRequire, isModuleItem]
  | exportDefault d =>
    cases d <;> simp [addItem, addFunction_eq, addClass_eq, Findings.more, candidatesOf, validators,
      classesOf, seenNames, usesCalls, isImporting, bindsRequire, isModuleItem]
  | _ => simp [addItem, addDeclaration_eq, Findings.more, Findings.bind, candidatesOf, validators,
      classesOf, seenNames, usesCalls, isImporting, bindsRequire, isModuleItem]

theorem foldl_addItem_eq (source : String) (found : Findings) (items : List Item) :
    items.foldl (addItem source) found =
      { found.more (items.flatMap candidatesOf) (items.flatMap (validators source))
          (items.flatMap seenNames) (items.any usesCalls) with
        lastImport := ((items.filter isImporting).getLast?.map fun item => item.span.stop).or
          found.lastImport
        isModule := found.isModule || items.any isModuleItem } := by
  induction items generalizing found with
  | nil => simp [Findings.more]
  | cons item items ih =>
    rw [List.foldl_cons, ih, addItem_eq, List.filter_cons]
    cases isImporting item with
    | false => simp [Findings.more, Bool.or_assoc]
    | true =>
      cases hlast : (items.filter isImporting).getLast? <;>
        simp [Findings.more, Bool.or_assoc, List.getLast?_cons, hlast]

theorem addItem_of_isDirective (source : String) (found : Findings) (h : isDirective item) :
    addItem source found item = found := by
  unfold isDirective at h
  split at h
  · simp [addItem, exports, assigned?, *]
  · simp at h

theorem ofItems_eq (source : String) (items : List Item) :
    ofItems source items =
      { candidates := items.flatMap candidatesOf
        existing := items.flatMap (validators source)
        bindings := items.flatMap seenNames
        lastImport := (items.filter isImporting).getLast?.map fun item => item.span.stop
        prologue := (items.takeWhile isDirective).getLast?.map fun item => item.span.stop
        isModule := items.any isModuleItem
        usesRequire := items.any usesCalls } := by
  have hprologue : ∀ found : Findings,
      (items.takeWhile isDirective).foldl (addItem source) found = found := fun found =>
    List.foldlRecOn (motive := (· = found)) _ _ rfl fun _ hfound item hi =>
      (addItem_of_isDirective source _ (List.mem_takeWhile_imp hi)).trans hfound
  have hsplit : items.takeWhile isDirective ++ items.drop (items.takeWhile isDirective).length =
      items := List.prefix_iff_eq_append.mp (List.takeWhile_prefix _)
  let start : Findings :=
    { prologue := (items.takeWhile isDirective).getLast?.map fun item => item.span.stop }
  have hall : (items.takeWhile isDirective ++ items.drop (items.takeWhile isDirective).length).foldl
      (addItem source) start = ofItems source items := by
    rw [List.foldl_append, hprologue]
    rfl
  rw [← hall, hsplit, foldl_addItem_eq]
  simp [Findings.more, start]

theorem ofItems_existing (source : String) (items : List Item) :
    (ofItems source items).existing = items.flatMap (validators source) := by
  rw [ofItems_eq]

theorem ofItems_bindings (source : String) (items : List Item) :
    (ofItems source items).bindings = items.flatMap seenNames := by
  rw [ofItems_eq]

def Declares (item : Item) (name : String) : Prop :=
  ∃ d, declaration? item = some d ∧ name ∈ componentNames d

theorem of_functionCandidate? {f : Function} (h : functionCandidate? name stop f = some k) :
    k.name = name ∧ k.stop = stop := by
  unfold functionCandidate? at h
  split at h <;> simp at h
  simp [← h]

theorem of_variableCandidate? {d : Declarator} (h : variableCandidate? stop d = some k) :
    variableName? d = some k.name ∧ k.stop = stop := by
  unfold variableCandidate? at h
  split at h
  · split at h
    · cases h
    · split at h <;> try simp at h
      case h_2 f _ =>
        obtain ⟨hname, hstop⟩ := of_functionCandidate? h
        exact ⟨congrArg some hname.symm, hstop⟩
      all_goals simp [← h, variableName?]
  · cases h

theorem of_mem_declaredCandidates {d : Declaration} (h : k ∈ declaredCandidates stop d) :
    k.name ∈ componentNames d ∧ k.stop = stop := by
  cases d with
  | function name isAmbient f =>
    cases isAmbient with
    | true => cases h
    | false => simpa [componentNames] using of_functionCandidate? (mem_toList.mp h)
  | «class» name c => simp_all [declaredCandidates, componentNames]
  | vars kind ds =>
    cases hk : kind.isResource with
    | true => simp [declaredCandidates, hk] at h
    | false =>
      simp only [declaredCandidates, hk, Bool.false_eq_true, if_false, List.mem_filterMap] at h
      obtain ⟨d, hd, h⟩ := h
      obtain ⟨hname, hstop⟩ := of_variableCandidate? h
      exact ⟨List.mem_filterMap.mpr ⟨d, hd, hname⟩, hstop⟩
  | _ => cases h

theorem of_mem_candidatesOf (h : k ∈ candidatesOf item) :
    Declares item k.name ∧ k.stop = item.span.stop := by
  have hdeclared {d : Declaration} (hd : declaration? item = some d)
      (h : k.name ∈ componentNames d ∧ k.stop = item.span.stop) :
      Declares item k.name ∧ k.stop = item.span.stop := ⟨⟨d, hd, h.1⟩, h.2⟩
  obtain ⟨span, doc, kind⟩ := item
  cases kind with
  | statement s =>
    cases s with
    | declaration d => exact hdeclared rfl (of_mem_declaredCandidates h)
    | _ => cases h
  | exportDeclaration d => exact hdeclared rfl (of_mem_declaredCandidates h)
  | exportDefault d =>
    refine hdeclared rfl ?_
    cases d with
    | function name isAmbient f =>
      simpa [componentNames] using of_functionCandidate? (mem_toList.mp h)
    | «class» name c => simp_all [candidatesOf, componentNames]
    | _ => cases h
  | _ => cases h

theorem exists_mem_candidatesOf {items : List Item} (h : k ∈ (ofItems source items).candidates) :
    ∃ item ∈ items, k ∈ candidatesOf item := by
  rwa [ofItems_eq, List.mem_flatMap] at h

theorem isAnchor_of_isImporting (h : isImporting item = true) : isAnchor item := by
  obtain ⟨span, doc, kind⟩ := item
  cases kind with
  | statement s => cases s <;> first | rfl | cases h
  | _ => first | rfl | cases h

theorem isAnchor_of_isDirective (h : isDirective item) : isAnchor item := by
  unfold isDirective at h
  split at h
  · simp [isAnchor, *]
  · simp at h

theorem ofItems_anchored {items : List Item} {n : Nat}
    (h : (ofItems source items).lastImport = some n ∨ (ofItems source items).prologue = some n) :
    ∃ item ∈ items, isAnchor item ∧ n = item.span.stop := by
  rw [ofItems_eq] at h
  simp only [map_eq_some_iff] at h
  rcases h with ⟨item, hlast, rfl⟩ | ⟨item, hlast, rfl⟩
  · obtain ⟨hitem, himports⟩ := List.mem_filter.mp (List.mem_of_getLast? hlast)
    exact ⟨item, hitem, isAnchor_of_isImporting himports, rfl⟩
  · have hmem := List.mem_of_getLast? hlast
    exact ⟨item, (List.takeWhile_sublist _).subset hmem,
      isAnchor_of_isDirective (List.mem_takeWhile_imp hmem), rfl⟩

end PropContract.Survey
