import PropContract.Proofs.Injection.Conflict
import PropContract.Proofs.Text.Insertion

/-!
When a line of import is added. Three forms of bound names are not seen: the name of a default
export, variables deep in a pattern, and variables of a `using` declaration.
-/

namespace PropContract.Survey

open Syntax

mutual

def patternNames : Pattern → List String
  | .name n _ => [n]
  | .object members _ => memberNamesAll members
  | .array elements _ => patternNamesAll elements
  | .assign target _ => patternNames target
  | .rest target _ => patternNames target
  | .expr _ => []

def memberNames : PatternMember → List String
  | .keyed _ value => patternNames value
  | .shorthand name _ => [name]
  | .rest target => patternNames target

def patternNamesAll : List Pattern → List String
  | [] => []
  | q :: qs => patternNames q ++ patternNamesAll qs

def memberNamesAll : List PatternMember → List String
  | [] => []
  | m :: ms => memberNames m ++ memberNamesAll ms

end

theorem memberNamesAll_eq (ms : List PatternMember) :
    memberNamesAll ms = ms.flatMap memberNames := by
  induction ms with
  | nil => rfl
  | cons m ms ih => rw [memberNamesAll, ih, List.flatMap_cons]

def nestedNames (m : PatternMember) : List String :=
  if (memberName? m).isSome then [] else memberNames m

def deepNames : Pattern → List String
  | .name _ _ => []
  | .object members _ => members.flatMap nestedNames
  | q => patternNames q

def declaredNames : Declaration → List String
  | .function name _ _ | .class name _ => [name]
  | .vars _ ds => ds.flatMap fun d => patternNames (targetOf d)
  | _ => []

def overlookedIn : Declaration → List String
  | .vars kind ds =>
    if kind.isResource then ds.flatMap fun d => patternNames (targetOf d)
    else ds.flatMap fun d => deepNames (targetOf d)
  | _ => []

def boundNames (item : Item) : List String :=
  match item.kind with
  | .imports _ specifiers => specifiers.map ImportSpecifier.localName
  | .statement (.declaration d) | .exportDeclaration d | .exportDefault d => declaredNames d
  | _ => []

def overlookedNames (item : Item) : List String :=
  match item.kind with
  | .statement (.declaration d) | .exportDeclaration d => overlookedIn d
  | .exportDefault d => declaredNames d
  | _ => []

theorem memberNames_of_memberName? {m : PatternMember} {n : String} (h : memberName? m = some n) :
    memberNames m = [n] := by
  unfold memberName? at h
  split at h <;> simp_all [memberNames, patternNames]

variable {name : String}

theorem mem_memberNames_iff {m : PatternMember} :
    name ∈ memberNames m ↔ memberName? m = some name ∨ name ∈ nestedNames m := by
  unfold nestedNames
  cases h : memberName? m with
  | some n => simp [memberNames_of_memberName? h, eq_comm]
  | none => simp

theorem mem_patternNames_iff {q : Pattern} :
    name ∈ patternNames q ↔ name ∈ directNames q ∨ name ∈ deepNames q := by
  cases q with
  | name n type => simp [patternNames, directNames, deepNames]
  | object members type =>
    simp only [patternNames, directNames, deepNames, memberNamesAll_eq, List.mem_flatMap,
      List.mem_filterMap, mem_memberNames_iff]
    grind
  | _ => simp [directNames, deepNames]

theorem mem_declaredNames_iff {d : Declaration} :
    name ∈ declaredNames d ↔ name ∈ seenIn d ∨ name ∈ overlookedIn d := by
  cases d with
  | vars kind ds =>
    simp only [declaredNames, seenIn, overlookedIn]
    split
    · simp
    · simp only [List.mem_flatMap, mem_patternNames_iff]
      grind
  | _ => simp [declaredNames, seenIn, overlookedIn]

theorem mem_boundNames_iff {item : Item} :
    name ∈ boundNames item ↔ name ∈ seenNames item ∨ name ∈ overlookedNames item := by
  obtain ⟨span, doc, kind⟩ := item
  cases kind with
  | statement s => cases s <;> simp [boundNames, seenNames, overlookedNames, mem_declaredNames_iff]
  | exportDeclaration d => exact mem_declaredNames_iff
  | _ => simp [boundNames, seenNames, overlookedNames]

end PropContract.Survey

namespace PropContract.Injection

open Syntax Survey

variable {o : InjectOptions} {d : Document} {source text : String} {items : List Item}

def LineAdded (line without text : String) : Prop :=
  ∃ pre post, without = pre ++ post ∧
    (text = pre ++ ("\n" ++ line) ++ post ∨ text = pre ++ (line ++ "\n") ++ post)

theorem LineAdded.ne {line without : String} (h : LineAdded line without text) :
    text ≠ without := by
  obtain ⟨pre, post, rfl, rfl | rfl⟩ := h
  all_goals
    intro heq
    have hlength := congrArg String.length heq
    simp only [String.length_append] at hlength
    have hbreak : "\n".length = 1 := by decide
    omega

theorem inject_eq_ok_iff_edits (hd : d.components ≠ [])
    (hparse : Grammar.parseModule (dialect o) source = .ok items) :
    inject o d source = .ok text ↔
      ∃ edits, d.components.mapM (componentEdits o source (ofItems source items) d) = .ok edits ∧
        Edit.apply (edits.flatten ++ importEdits o (ofItems source items)) source = .ok text := by
  rw [inject_eq hd hparse]
  cases d.components.mapM (componentEdits o source (ofItems source items) d) with
  | error e => simp [Except.bind]
  | ok edits => simp [Except.bind, answer_eq_ok_iff]

theorem exists_importEdits_eq {found : Findings} (hensure : o.ensureImport = true)
    (hbound : o.validators.importedName ∉ found.bindings) :
    ∃ n inserted, importEdits o found = [Edit.insert n inserted] ∧
      (inserted = "\n" ++ importLine o.validators found ∨
        inserted = importLine o.validators found ++ "\n") := by
  unfold importEdits
  simp only [hensure, List.contains_eq_mem, hbound, decide_false, Bool.not_false, Bool.and_true,
    if_true]
  split
  · exact ⟨_, _, rfl, .inl rfl⟩
  · exact ⟨_, _, rfl, .inr rfl⟩

theorem inject_imports (hd : d.components ≠ []) (hensure : o.ensureImport = true)
    (hparse : Grammar.parseModule (dialect o) source = .ok items)
    (h : inject o d source = .ok text) :
    ∃ without, inject { o with ensureImport := false } d source = .ok without ∧
      ((∃ item ∈ items, o.validators.importedName ∈ seenNames item) ∧ text = without ∨
        (∀ item ∈ items, o.validators.importedName ∉ seenNames item) ∧
          LineAdded (importLine o.validators (ofItems source items)) without text) := by
  obtain ⟨edits, hedits, happly⟩ := (inject_eq_ok_iff_edits hd hparse).mp h
  have hwithout {text' : String} (h' : Edit.apply edits.flatten source = .ok text') :
      inject { o with ensureImport := false } d source = .ok text' := by
    refine (inject_eq_ok_iff_edits (o := { o with ensureImport := false }) hd hparse).mpr
      ⟨edits, hedits, ?_⟩
    simpa [importEdits] using h'
  have hseen : o.validators.importedName ∈ (ofItems source items).bindings ↔
      ∃ item ∈ items, o.validators.importedName ∈ seenNames item := by
    rw [ofItems_bindings, List.mem_flatMap]
  by_cases hbound : o.validators.importedName ∈ (ofItems source items).bindings
  · refine ⟨text, hwithout ?_, .inl ⟨hseen.mp hbound, rfl⟩⟩
    simpa [importEdits, hbound] using happly
  · obtain ⟨n, inserted, himport, hline⟩ := exists_importEdits_eq hensure hbound
    rw [himport] at happly
    obtain ⟨pre, post, hblocks, rfl⟩ := Edit.apply_append_insertion happly
    refine ⟨_, hwithout hblocks, .inr ⟨?_, pre, post, rfl, ?_⟩⟩
    · exact fun item hitem hname => hbound (hseen.mpr ⟨item, hitem, hname⟩)
    · exact hline.imp (fun h => by rw [h]) (fun h => by rw [h])

/-- The text of an injection that is to add the import is the one without it, with the line put in
at one place exactly if no item binds the name in a form that is seen. An item that binds a name in
any form binds it in one that is seen, or in one of those that are overlooked. -/
theorem import_added_iff (o : InjectOptions) (d : Document) (source text : String)
    (hd : d.components ≠ []) (hensure : o.ensureImport = true)
    (h : inject o d source = .ok text) :
    ∃ items without, Grammar.parseModule (dialect o) source = .ok items ∧
      inject { o with ensureImport := false } d source = .ok without ∧
      (LineAdded (importLine o.validators (ofItems source items)) without text ↔
        ∀ item ∈ items, o.validators.importedName ∉ seenNames item) ∧
      (text = without ↔ ∃ item ∈ items, o.validators.importedName ∈ seenNames item) ∧
      ∀ item ∈ items, ∀ name,
        name ∈ boundNames item ↔ name ∈ seenNames item ∨ name ∈ overlookedNames item := by
  obtain ⟨items, hparse⟩ := parseModule_of_inject hd h
  obtain ⟨without, hwithout, htext⟩ := inject_imports hd hensure hparse h
  refine ⟨items, without, hparse, hwithout, ?_, ?_, fun _ _ _ => mem_boundNames_iff⟩
  · rcases htext with ⟨⟨item, hitem, hname⟩, rfl⟩ | ⟨hnone, hadded⟩
    · exact ⟨fun hadded => absurd rfl hadded.ne, fun hnone => absurd hname (hnone item hitem)⟩
    · exact ⟨fun _ => hnone, fun _ => hadded⟩
  · rcases htext with ⟨hseen, htext⟩ | ⟨hnone, hadded⟩
    · exact ⟨fun _ => hseen, fun _ => htext⟩
    · exact ⟨fun htext => absurd htext hadded.ne,
        fun ⟨item, hitem, hname⟩ => absurd hname (hnone item hitem)⟩

def oneComponent : Document :=
  ⟨[{ name := "A", origin := default, kind := .function, props := [] }]⟩

structure Ready (source : String) (items : List Item) : Prop where
  placed : WellPlaced source items
  matched : ∀ c ∈ oneComponent.components, (matching (ofItems source items) c).length = 1
  free : ∀ c ∈ oneComponent.components, (existingOf (ofItems source items) c).length = 0

instance (source : String) (items : List Item) : Decidable (Ready source items) :=
  decidable_of_iff (WellPlaced source items ∧
      (∀ c ∈ oneComponent.components, (matching (ofItems source items) c).length = 1) ∧
      ∀ c ∈ oneComponent.components, (existingOf (ofItems source items) c).length = 0)
    ⟨fun ⟨placed, matched, free⟩ => ⟨placed, matched, free⟩,
      fun ⟨placed, matched, free⟩ => ⟨placed, matched, free⟩⟩

theorem Ready.injected (h : Ready source items)
    (hparse : Grammar.parseModule (dialect {}) source = .ok items) :
    ∃ text, inject {} oneComponent source = .ok text :=
  exists_inject_eq h.placed (by simp [oneComponent]) hparse
    ⟨by decide, h.matched, .inr fun c hc => List.eq_nil_of_length_eq_zero (h.free c hc)⟩

def importingModule : String :=
  "import PropTypes from 'prop-types';\nfunction A(props) \x7b\x7d\n"

theorem import_added_iff_importing :
    ∃ text, inject {} oneComponent importingModule = .ok text ∧
      inject { ensureImport := false } oneComponent importingModule = .ok text := by
  obtain ⟨items, hparse, hready, hseen⟩ : ∃ items,
      Grammar.parseModule (dialect {}) importingModule = .ok items ∧
        Ready importingModule items ∧ ∃ item ∈ items, "PropTypes" ∈ seenNames item :=
    Project.exists_ok_of_any (by decide +kernel)
  obtain ⟨text, hinject⟩ := hready.injected hparse
  obtain ⟨items', without, hparse', hwithout, -, htext, -⟩ :=
    import_added_iff {} oneComponent importingModule text (by simp [oneComponent]) rfl hinject
  obtain rfl : items = items' := Except.ok.inj (hparse.symm.trans hparse')
  exact ⟨text, hinject, htext.mpr hseen ▸ hwithout⟩

def exportingModule : String :=
  "export default class PropTypes \x7b\x7d\nfunction A(props) \x7b\x7d\n"

/-- The name of a default export is bound, and yet a line of import with that name is added. -/
theorem default_export_imported_again :
    ∃ items text without, Grammar.parseModule (dialect {}) exportingModule = .ok items ∧
      (∃ item ∈ items, "PropTypes" ∈ boundNames item) ∧
      inject {} oneComponent exportingModule = .ok text ∧
      inject { ensureImport := false } oneComponent exportingModule = .ok without ∧
      LineAdded "import PropTypes from 'prop-types';" without text := by
  obtain ⟨items, hparse, hready, hbound, hunseen, hline⟩ : ∃ items,
      Grammar.parseModule (dialect {}) exportingModule = .ok items ∧
        Ready exportingModule items ∧
        (∃ item ∈ items, "PropTypes" ∈ boundNames item) ∧
        (¬ ∃ item ∈ items, "PropTypes" ∈ seenNames item) ∧
        importLine {} (ofItems exportingModule items) = "import PropTypes from 'prop-types';" :=
    Project.exists_ok_of_any (by decide +kernel)
  obtain ⟨text, hinject⟩ := hready.injected hparse
  obtain ⟨without, hwithout, htext⟩ := inject_imports (by simp [oneComponent]) rfl hparse hinject
  rcases htext with ⟨hseen, -⟩ | ⟨-, hadded⟩
  · exact absurd hseen hunseen
  · exact ⟨items, text, without, hparse, hbound, hinject, hwithout, hline ▸ hadded⟩

end PropContract.Injection
