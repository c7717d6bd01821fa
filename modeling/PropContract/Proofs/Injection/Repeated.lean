import PropContract.Proofs.Injection.Conflict
import PropContract.Proofs.Injection.Holders

/-!
Injecting a document once more. The statement of an assignment does not cover the comment before
it, so the text stays as it is exactly when blocks have no comment.
-/

namespace PropContract.Injection

open Syntax Survey Text List

theorem trimEnd_append {xs ys : List Char} (h : ∃ c ∈ ys, isBlank c = false) :
    trimEnd (xs ++ ys) = xs ++ trimEnd ys := by
  have hne : (ys.reverse.dropWhile isBlank).isEmpty = false := by
    obtain ⟨c, hc, hblank⟩ := h
    cases hys : ys.reverse.dropWhile isBlank with
    | nil =>
      rw [dropWhile_eq_nil_iff] at hys
      rw [hys c (mem_reverse.mpr hc)] at hblank
      cases hblank
    | cons c cs => rfl
  simp [trimEnd, dropEndWhile, dropWhile_append, hne]

theorem wrap_eq (o : ValidatorOptions) (name : String) (entries : List String) :
    Block.wrap o name entries = Block.commentText o ++ Block.wrap {} name entries := by
  simp [Block.wrap, Block.commentText, String.append_assoc]

theorem mem_wrap (name : String) (entries : List String) :
    ';' ∈ (Block.wrap {} name entries).toList := by
  unfold Block.wrap
  split <;> simp [String.toList_append]

theorem withoutEnd_wrap (o : ValidatorOptions) (name : String) (entries : List String) :
    withoutEnd (Block.wrap o name entries) =
      Block.commentText o ++ withoutEnd (Block.wrap {} name entries) := by
  rw [wrap_eq, withoutEnd, String.toList_append,
    trimEnd_append ⟨';', mem_wrap name entries, by decide⟩, String.ofList_append,
    String.ofList_toList, withoutEnd]

def readPart (o : InjectOptions) (used : Option (List String)) (c : Component) : Component :=
  usedPart o { name := c.name, fingerprint := .call, stop := 0, used } c

def assignmentFor (o : InjectOptions) (used : Option (List String)) (c : Component) : String :=
  withoutEnd (Block.wrap {} c.name ((Block.entries o.validators (readPart o used c)).map Prod.snd))

theorem usedPart_name (o : InjectOptions) (k : Candidate) (c : Component) :
    (usedPart o k c).name = c.name := by
  unfold usedPart
  split <;> rfl

theorem blockFor_of_replace {o : InjectOptions} (h : o.conflict = .replace) (found : Findings)
    (k : Candidate) (c : Component) :
    blockFor o found k c = Block.commentText o.validators ++ assignmentFor o k.used c := by
  have hretained : retained o found c = [] := by simp [retained, h]
  rw [blockFor, hretained, mergedBlock_nil, Block.ofComponent, usedPart_name, withoutEnd_wrap]
  rfl

def isStaticValidators : ClassMember → Bool
  | .property _ true (.named "propTypes") .. => true
  | _ => false

def holdsMember (name : String) (item : Item) : Bool :=
  (classesOf item).any fun k => k.1 == name && k.2.members.any isStaticValidators

/-- How a text is read that an injection has written: what the names of the components are given
reads the properties that it read before, each component has one statement with validators, whose
text is the assignment of its block, no class of its name holds any, and the name of the import is
there if it is wanted. -/
structure ReadBack (o : InjectOptions) (d : Document) (items : List Item) (text : String)
    (items' : List Item) : Prop where
  declared : ∀ c ∈ d.components,
    (holdersOf c items').map Holder.usage? = (holdersOf c items).map Holder.usage?
  assigned : ∀ c ∈ d.components,
    (items'.filter (assigns c.name)).map (fun item => item.span.slice? text) =
      (holdersOf c items).map fun v => some (assignmentFor o v.usage? c)
  freed : ∀ c ∈ d.components, ∀ item ∈ items', holdsMember c.name item = false
  imported : o.ensureImport → o.validators.importedName ∈ items'.flatMap seenNames

instance (o : InjectOptions) (d : Document) (items : List Item) (text : String)
    (items' : List Item) : Decidable (ReadBack o d items text items') :=
  decidable_of_iff (_ ∧ _ ∧ _ ∧ _)
    ⟨fun h => ⟨h.1, h.2.1, h.2.2.1, h.2.2.2⟩, fun h => ⟨h.1, h.2, h.3, h.4⟩⟩

theorem holdsMember_of_holds {item : Item} {name : String} {span : Span}
    (h : Holds item name span) :
    assigns name item ∨ holdsMember name item := by
  cases h with
  | statement hkind => simp [assigns, hkind]
  | member hc hm =>
    exact .inr (any_eq_true.mpr ⟨_, hc, by simpa using ⟨_, hm, rfl⟩⟩)

theorem map_existingOf {items : List Item} {c : Component} (text : String)
    (h : ∀ item ∈ items, holdsMember c.name item = false) :
    (existingOf (ofItems text items) c).map (fun x => (x.place, x.span)) =
      (items.filter (assigns c.name)).map fun item => (.statement, item.span) := by
  rw [existingOf, ofItems_existing]
  induction items with
  | nil => rfl
  | cons item items ih =>
    rw [flatMap_cons, filter_append, map_append, ih fun i hi => h i (mem_cons_of_mem _ hi)]
    rcases validators_cases text item with ⟨x, value, hx, hplace, hspan, hkind⟩ | ⟨-, hx, hother⟩
    · by_cases hname : x.component = c.name <;>
        simp [hx, assigns, hkind, hname, hplace, hspan]
    · have hnone : (validators text item).filter (·.component == c.name) = [] := by
        refine filter_eq_nil_iff.mpr fun x hmem hname => ?_
        have hheld := holdsMember_of_holds (beq_iff_eq.mp hname ▸ (hx x hmem).2)
        simp [hother, h item mem_cons_self] at hheld
      rw [hnone, filter_cons_of_neg (by simp [hother])]
      rfl

section

variable {o : InjectOptions} {d : Document} {source text : String} {items items' : List Item}
  (hparse : Grammar.parseModule (dialect o) source = .ok items)
  (hparse' : Grammar.parseModule (dialect o) text = .ok items')
  (h : ReadBack o d items text items')

include hparse hparse' h

theorem ReadBack.used_matching {c : Component} (hc : c ∈ d.components) :
    (matching (ofItems text items') c).map Candidate.used =
      (matching (ofItems source items) c).map Candidate.used := by
  rw [map_used_matching (Grammar.regular_of_parseModule hparse'), h.declared c hc,
    map_used_matching (Grammar.regular_of_parseModule hparse)]

theorem ReadBack.injectable (hconflict : o.conflict = .replace)
    (hfirst : Injectable o (ofItems source items) d) : Injectable o (ofItems text items') d := by
  refine ⟨hfirst.distinct, fun c hc => ?_, .inl (by simp [hconflict])⟩
  rw [← hfirst.matched c hc, ← length_map, h.used_matching hparse hparse' hc, length_map]

theorem ReadBack.componentChanges_eq (hfirst : Injectable o (ofItems source items) d)
    {c : Component} (hc : c ∈ d.components) :
    ∃ k x, componentChanges (ofItems text items') c = [.replace c k x] ∧
      x.span.slice? text = some (assignmentFor o k.used c) := by
  obtain ⟨k, hk⟩ := length_eq_one_iff.mp (hfirst.matched c hc)
  have hused := map_used_matching (Grammar.regular_of_parseModule hparse) source c
  have hdeclared := h.used_matching hparse hparse' hc
  rw [hk, map_singleton] at hused hdeclared
  obtain ⟨v, hv, hvk⟩ := map_eq_singleton_iff.mp hused.symm
  obtain ⟨k', hk', hkk'⟩ := map_eq_singleton_iff.mp hdeclared
  have hassigned := h.assigned c hc
  rw [hv, map_singleton] at hassigned
  obtain ⟨item, hitem, hslice⟩ := map_eq_singleton_iff.mp hassigned
  have hplaces := map_existingOf text (h.freed c hc)
  rw [hitem, map_singleton] at hplaces
  obtain ⟨x, hx, hplace⟩ := map_eq_singleton_iff.mp hplaces
  obtain ⟨hplace, hspan⟩ := Prod.mk.inj hplace
  have hstatement : isStatement x := by simp [isStatement, hplace]
  refine ⟨k', x, ?_, ?_⟩
  · simp [componentChanges, hk', hx, plan, hstatement]
  · rw [hspan, hslice, hvk, hkk']

omit hparse hparse' in
theorem ReadBack.changes_eq : changes o (ofItems text items') d =
    d.components.flatMap (componentChanges (ofItems text items')) := by
  have himports : importEdits o (ofItems text items') = [] := by
    have himported := h.imported
    rw [importEdits, ofItems_bindings]
    exact if_neg (by simpa using himported)
  rw [changes, himports, map_nil, append_nil]

theorem ReadBack.leads (hconflict : o.conflict = .replace)
    (hfirst : Injectable o (ofItems source items) d) :
    ∀ e ∈ (changes o (ofItems text items') d).map (Change.edit o text (ofItems text items')),
      Edit.Leads (Block.commentText o.validators) text e := by
  intro e he
  obtain ⟨change, hchange, rfl⟩ := mem_map.mp he
  rw [h.changes_eq] at hchange
  obtain ⟨c, hc, hchange⟩ := mem_flatMap.mp hchange
  obtain ⟨k, x, hchanges, hslice⟩ := h.componentChanges_eq hparse hparse' hfirst hc
  obtain rfl : change = .replace c k x := mem_singleton.mp (hchanges ▸ hchange)
  exact ⟨assignmentFor o k.used c, hslice, blockFor_of_replace hconflict _ k c⟩

theorem ReadBack.length_changes (hfirst : Injectable o (ofItems source items) d) :
    (changes o (ofItems text items') d).length = d.components.length := by
  have hone : ∀ c ∈ d.components, (componentChanges (ofItems text items') c).length = 1 := by
    intro c hc
    obtain ⟨k, x, hchanges, -⟩ := h.componentChanges_eq hparse hparse' hfirst hc
    rw [hchanges]
    rfl
  rw [h.changes_eq, length_flatMap, map_congr_left hone]
  simp

theorem ReadBack.exists_inject_eq (hd : d.components ≠ []) (hplaced : WellPlaced text items')
    (hconflict : o.conflict = .replace) (hfirst : Injectable o (ofItems source items) d) :
    ∃ text', inject o d text = .ok text' ∧
      text'.length =
        text.length + d.components.length * (Block.commentText o.validators).length ∧
      (Block.commentText o.validators = "" → text' = text) := by
  obtain ⟨text', htext'⟩ := Injection.exists_inject_eq hplaced hd hparse'
    (h.injectable hparse hparse' hconflict hfirst)
  obtain ⟨hlength, hsame⟩ := Edit.length_of_leads (h.leads hparse hparse' hconflict hfirst)
    ((inject_eq_ok_iff hd hparse').mp htext').2
  rw [length_map, h.length_changes hparse hparse' hfirst] at hlength
  exact ⟨text', htext', hlength, hsame⟩

end

/-- Where the text of a first injection is read as it was written, a second injection gives a text
too, with the comment before each block once more. The two texts are the same exactly when there is
no comment, or nothing to write. -/
theorem inject_again {o : InjectOptions} {d : Document} {source text : String}
    {items items' : List Item} (hconflict : o.conflict = .replace)
    (hfirst : inject o d source = .ok text)
    (hparse : Grammar.parseModule (dialect o) source = .ok items)
    (hparse' : Grammar.parseModule (dialect o) text = .ok items')
    (hplaced : WellPlaced text items')
    (hread : ReadBack o d items text items') :
    ∃ text', inject o d text = .ok text' ∧
      text'.length =
        text.length + d.components.length * (Block.commentText o.validators).length ∧
      (text' = text ↔ d.components = [] ∨ Block.commentText o.validators = "") := by
  by_cases hd : d.components = []
  · exact ⟨text, by simp [inject, hd], by simp [hd], by simp [hd]⟩
  have hinjectable := ((inject_eq_ok_iff hd hparse).mp hfirst).1
  obtain ⟨text', htext', hlength, hsame⟩ :=
    hread.exists_inject_eq hparse hparse' hd hplaced hconflict hinjectable
  refine ⟨text', htext', hlength, ?_, fun h => hsame (h.resolve_left hd)⟩
  rintro rfl
  have hzero : d.components.length * (Block.commentText o.validators).length = 0 := by omega
  exact (Nat.mul_eq_zero.mp hzero).imp length_eq_zero_iff.mp String.length_eq_zero_iff.mp

def isReadBack (o : InjectOptions) (d : Document) (source : String) (edits : List Edit)
    (text : String) : Bool :=
  (Grammar.parseModule (dialect o) source).toOption.any fun items =>
    (Grammar.parseModule (dialect o) text).toOption.any fun items' =>
      decide (((d.components.map Component.name).Nodup ∧
        ∀ c ∈ d.components, (matching (ofItems source items) c).length = 1) ∧
        (changes o (ofItems source items) d).map (Change.edit o source (ofItems source items)) =
          edits ∧
        WellPlaced text items' ∧ ReadBack o d items text items')

theorem of_isReadBack {o : InjectOptions} {d : Document} {source text : String} {edits : List Edit}
    (h : isReadBack o d source edits text) (hd : d.components ≠ [])
    (hconflict : o.conflict = .replace) (happly : Edit.apply edits source = .ok text) :
    ∃ items items', Grammar.parseModule (dialect o) source = .ok items ∧
      Grammar.parseModule (dialect o) text = .ok items' ∧
      Injectable o (ofItems source items) d ∧ inject o d source = .ok text ∧
      WellPlaced text items' ∧ ReadBack o d items text items' := by
  unfold isReadBack at h
  cases hparse : Grammar.parseModule (dialect o) source with
  | error e =>
    rw [hparse] at h
    cases h
  | ok items =>
    cases hparse' : Grammar.parseModule (dialect o) text with
    | error e =>
      rw [hparse, hparse'] at h
      cases h
    | ok items' =>
      rw [hparse, hparse'] at h
      obtain ⟨⟨hdistinct, hmatched⟩, hedits, hplaced, hread⟩ := of_decide_eq_true h
      have hinjectable : Injectable o (ofItems source items) d :=
        ⟨hdistinct, hmatched, .inl (by simp [hconflict])⟩
      refine ⟨items, items', rfl, rfl, hinjectable, ?_, hplaced, hread⟩
      rw [inject_eq_ok_iff hd hparse, hedits]
      exact ⟨hinjectable, happly⟩

def textProp (name : String) : PropInfo :=
  .mk name false (.primitive .string) none none none

def mixedModule : String :=
  "class A extends C \x7b\n  static propTypes = \x7b\x7d;\n\x7d\n" ++
    "const B = (\x7b y \x7d) => y;\nB.propTypes = \x7b z: 1 \x7d;\n"

def mixedDocument : Document :=
  ⟨[⟨"A", default, .classBased, [textProp "x"], []⟩,
    ⟨"B", default, .function, [textProp "y", textProp "z"], []⟩]⟩

def mixedOptions : InjectOptions :=
  { conflict := .replace, includeUnused := false, validators := { importedName := "T" } }

def mixedEdits : List Edit :=
  [⟨⟨20, 45⟩, ""⟩,
    ⟨⟨46, 46⟩, "\n\nA.propTypes = \x7b\n  x: T.string,\n\x7d;"⟩,
    ⟨⟨71, 94⟩, "B.propTypes = \x7b\n  y: T.string,\n\x7d;"⟩,
    ⟨⟨0, 0⟩, "import T from 'prop-types';\n"⟩]

def mixedText : String :=
  "import T from 'prop-types';\nclass A extends C \x7b\n\x7d\n\n" ++
    "A.propTypes = \x7b\n  x: T.string,\n\x7d;\nconst B = (\x7b y \x7d) => y;\n" ++
    "B.propTypes = \x7b\n  y: T.string,\n\x7d;\n"

theorem mixedEdits_apply : Edit.apply mixedEdits mixedModule = .ok mixedText := by
  have hsorted : Edit.sorted mixedEdits =
      [⟨⟨0, 0⟩, "import T from 'prop-types';\n"⟩] ++ mixedEdits.take 3 := by
    simp [Edit.sorted, mixedEdits, List.mergeSort, Edit.before]
  rw [Edit.apply, hsorted]
  decide +kernel

/-- Without a comment the second text is the first one. -/
theorem inject_again_mixed :
    inject mixedOptions mixedDocument mixedModule = .ok mixedText ∧
      inject mixedOptions mixedDocument mixedText = .ok mixedText := by
  have hd : mixedDocument.components ≠ [] := cons_ne_nil _ _
  have hread : isReadBack mixedOptions mixedDocument mixedModule mixedEdits mixedText := by
    decide +kernel
  obtain ⟨items, items', hparse, hparse', -, hfirst, hplaced, hread⟩ :=
    of_isReadBack hread hd rfl mixedEdits_apply
  obtain ⟨text', hagain, -, hsame⟩ := inject_again rfl hfirst hparse hparse' hplaced hread
  have hcomment : Block.commentText mixedOptions.validators = "" := rfl
  rw [hsame.mpr (.inr hcomment)] at hagain
  exact ⟨hfirst, hagain⟩

def remarkOptions : InjectOptions :=
  { conflict := .replace, validators := { importedName := "T", comment := some "generated" } }

def remarkDocument : Document :=
  ⟨[⟨"A", default, .function, [textProp "x"], []⟩]⟩

def remarkModule : String :=
  "function A(props) \x7b\x7d\n"

def remarkEdits : List Edit :=
  [⟨⟨20, 20⟩, "\n\n// generated\nA.propTypes = \x7b\n  x: T.string,\n\x7d;"⟩,
    ⟨⟨0, 0⟩, "import T from 'prop-types';\n"⟩]

def remarkText : String :=
  "import T from 'prop-types';\nfunction A(props) \x7b\x7d\n\n// generated\n" ++
    "A.propTypes = \x7b\n  x: T.string,\n\x7d;\n"

/-- A comment before a block is written once more. -/
theorem inject_again_ne_of_comment :
    ∃ text', inject remarkOptions remarkDocument remarkModule = .ok remarkText ∧
      inject remarkOptions remarkDocument remarkText = .ok text' ∧
      text'.length = remarkText.length + "// generated\n".length := by
  have hd : remarkDocument.components ≠ [] := cons_ne_nil _ _
  have hread : isReadBack remarkOptions remarkDocument remarkModule remarkEdits remarkText := by
    decide +kernel
  have hsorted : Edit.sorted remarkEdits = remarkEdits.reverse := by
    simp [Edit.sorted, remarkEdits, List.mergeSort, Edit.before]
  have happly : Edit.apply remarkEdits remarkModule = .ok remarkText := by
    rw [Edit.apply, hsorted]
    decide +kernel
  obtain ⟨items, items', hparse, hparse', hinjectable, hfirst, hplaced, hread⟩ :=
    of_isReadBack hread hd rfl happly
  obtain ⟨text', hagain, hlength, -⟩ :=
    hread.exists_inject_eq hparse hparse' hd hplaced rfl hinjectable
  have hcomment : Block.commentText remarkOptions.validators = "// generated\n" := by
    decide +kernel
  have hone : remarkDocument.components.length = 1 := rfl
  rw [hcomment, hone, Nat.one_mul] at hlength
  exact ⟨text', hfirst, hagain, hlength⟩

end PropContract.Injection
