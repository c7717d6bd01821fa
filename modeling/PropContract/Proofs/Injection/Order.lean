import Mathlib.Data.List.Infix
import PropContract.Proofs.Injection.Frame
import PropContract.Proofs.Injection.ImportForm

namespace PropContract.Survey

open Syntax

def anchor? (items : List Item) : Option Item :=
  (items.filter isImporting).getLast? <|> (items.takeWhile isDirective).getLast?

variable {item : Item} {items : List Item}

theorem isDirective_of_isImporting (h : isImporting item = true) : isDirective item = false := by
  unfold isDirective
  split
  · simp [isImporting, bindsRequire, *] at h
  · rfl

theorem isImporting_iff (h : isModuleItem item = false) :
    isImporting item = true ↔ ∃ target, Requires item target := by
  rw [← bindsRequire_iff]
  unfold isImporting
  split
  · simp [isModuleItem, *] at h
  · rfl

theorem ofItems_anchor (source : String) (items : List Item) :
    ((ofItems source items).lastImport <|> (ofItems source items).prologue) =
      (anchor? items).map fun item => item.span.stop := by
  rw [ofItems_eq, anchor?]
  cases (items.filter isImporting).getLast? <;> rfl

theorem of_anchor? (h : anchor? items = some item) :
    item ∈ items ∧ isImporting item = true ∨
      (items.takeWhile isDirective).getLast? = some item := by
  unfold anchor? at h
  cases himport : (items.filter isImporting).getLast? with
  | some item' =>
    rw [himport] at h
    obtain rfl : item' = item := Option.some.inj h
    exact .inl (List.mem_filter.mp (List.mem_of_getLast? himport))
  | none =>
    rw [himport] at h
    exact .inr h

theorem mem_of_anchor? (h : anchor? items = some item) : item ∈ items := by
  rcases of_anchor? h with ⟨hitem, -⟩ | hlast
  · exact hitem
  · exact (List.takeWhile_sublist _).subset (List.mem_of_getLast? hlast)

theorem anchor?_eq_none_iff :
    anchor? items = none ↔
      items.takeWhile isDirective = [] ∧ ∀ item ∈ items, isImporting item = false := by
  simp [anchor?, and_comm]

section Seat

variable {items earlier later : List Item} {seat : Item} (hitems : items = earlier ++ seat :: later)

include hitems

theorem anchor?_of_importing (h : ∃ item ∈ seat :: later, isImporting item = true) :
    ∃ item ∈ seat :: later, anchor? items = some item := by
  obtain ⟨item, hitem, himports⟩ := h
  have hne : (seat :: later).filter isImporting ≠ [] :=
    List.ne_nil_of_mem (List.mem_filter.mpr ⟨hitem, himports⟩)
  refine ⟨_, List.mem_of_mem_filter (List.getLast_mem hne), ?_⟩
  rw [anchor?, hitems, List.filter_append, List.getLast?_append,
    List.getLast?_eq_some_getLast hne]
  rfl

theorem mem_earlier_of_anchor? (hdirective : isDirective seat = false)
    (h : ∀ item ∈ seat :: later, isImporting item = false) {item : Item}
    (hanchor : anchor? items = some item) : item ∈ earlier := by
  have hnone : (seat :: later).filter isImporting = [] :=
    List.filter_eq_nil_iff.mpr fun item hi => by simp [h item hi]
  have hdirectives : items.takeWhile isDirective = earlier.takeWhile isDirective := by
    rw [hitems, List.takeWhile_append]
    split
    · rename_i hall
      rw [List.takeWhile_cons_of_neg (by simp [hdirective]), List.append_nil,
        (List.takeWhile_prefix _).eq_of_length hall]
    · rfl
  rw [anchor?, hdirectives, hitems, List.filter_append, hnone, List.append_nil] at hanchor
  exact mem_of_anchor? hanchor

end Seat

end PropContract.Survey

namespace PropContract.Injection

open Syntax Survey

variable {o : InjectOptions} {d : Document} {source text : String} {items : List Item}

structure Layout (o : InjectOptions) (d : Document) (source : String) (items : List Item)
    (text : String) (order : List (Purpose × Edit)) : Prop where
  spliced : ∃ p : Patch, p.before = source.toList ∧ p.after = text.toList ∧
    p.edits = order.map Prod.snd
  serves : ∀ change ∈ order, Serves o d source items change.1 change.2
  blocks : (order.filterMap fun change => change.1.block?).Perm d.components
  imports : order.countP (fun change => change.1.isImport) ≤ 1

def StandsBefore (order : List (Purpose × Edit)) (p q : Purpose) : Prop :=
  [p, q].Sublist (order.map Prod.fst)

def Change.marked (o : InjectOptions) (source : String) (found : Findings) (change : Change) :
    Purpose × Edit :=
  (change.purpose, change.edit o source found)

def markedBefore (a b : Purpose × Edit) : Bool :=
  Edit.before a.2 b.2

theorem markedBefore_trans (a b c : Purpose × Edit) (hab : markedBefore a b)
    (hbc : markedBefore b c) : markedBefore a c :=
  Edit.before_trans a.2 b.2 c.2 hab hbc

theorem markedBefore_total (a b : Purpose × Edit) : markedBefore a b || markedBefore b a :=
  Edit.before_total a.2 b.2

def textOrder (o : InjectOptions) (d : Document) (source : String) (items : List Item) :
    List (Purpose × Edit) :=
  ((changes o (ofItems source items) d).map
    (Change.marked o source (ofItems source items))).mergeSort markedBefore

theorem map_snd_textOrder (o : InjectOptions) (d : Document) (source : String)
    (items : List Item) :
    (textOrder o d source items).map Prod.snd =
      Edit.sorted ((changes o (ofItems source items) d).map
        (Change.edit o source (ofItems source items))) := by
  rw [textOrder, List.map_mergeSort (r := markedBefore) (s := Edit.before) fun _ _ _ _ => rfl,
    List.map_map]
  rfl

theorem mem_textOrder {change : Change} (h : change ∈ changes o (ofItems source items) d) :
    change.marked o source (ofItems source items) ∈ textOrder o d source items :=
  List.mem_mergeSort.mpr (List.mem_map_of_mem h)

theorem layout_textOrder (hd : d.components ≠ [])
    (hparse : Grammar.parseModule (dialect o) source = .ok items) (horiented : Oriented items)
    (hinject : inject o d source = .ok text) :
    Layout o d source items text (textOrder o d source items) := by
  obtain ⟨h, happly⟩ := (inject_eq_ok_iff hd hparse).mp hinject
  obtain ⟨⟨p, hedits, hbefore, hafter⟩, hserves⟩ := exists_patch_of_apply horiented rfl happly
  have hperm := List.mergeSort_perm ((changes o (ofItems source items) d).map
    (Change.marked o source (ofItems source items))) markedBefore
  refine ⟨?_, fun w hw => ?_, ?_, ?_⟩
  · exact ⟨p, hbefore, hafter, hedits.trans (map_snd_textOrder o d source items).symm⟩
  · obtain ⟨change, hc, rfl⟩ := List.mem_map.mp (hperm.mem_iff.mp hw)
    exact hserves change hc
  · refine (hperm.filterMap _).trans ?_
    rw [List.filterMap_map, ← changes_block? (o := o) h.matched]
    exact List.Perm.of_eq (List.filterMap_congr fun change _ => change.block?_purpose)
  · rw [textOrder, hperm.countP_eq, List.countP_map]
    exact countP_isImport_le o (ofItems source items) d

section Pairs

variable {a b : Change}
  (h : [a, b].Sublist (changes o (ofItems source items) d))

include h

theorem standsBefore_of_before
    (hab : Edit.before (a.edit o source (ofItems source items))
      (b.edit o source (ofItems source items))) :
    StandsBefore (textOrder o d source items) a.purpose b.purpose := by
  have hmarked : markedBefore (a.marked o source (ofItems source items))
      (b.marked o source (ofItems source items)) := hab
  exact (List.pair_sublist_mergeSort markedBefore_trans markedBefore_total hmarked
    (h.map (Change.marked o source (ofItems source items)))).map Prod.fst

theorem standsBefore_of_not_before
    (hab : ¬ Edit.before (a.edit o source (ofItems source items))
      (b.edit o source (ofItems source items))) :
    StandsBefore (textOrder o d source items) b.purpose a.purpose := by
  have hmarked := h.map (Change.marked o source (ofItems source items))
  have hsorted := List.pairwise_mergeSort markedBefore_trans markedBefore_total
    ((changes o (ofItems source items) d).map (Change.marked o source (ofItems source items)))
  have hne : a.marked o source (ofItems source items) ≠
      b.marked o source (ofItems source items) := by
    intro heq
    have hedit : a.edit o source (ofItems source items) =
      b.edit o source (ofItems source items) := congrArg Prod.snd heq
    rw [hedit] at hab
    simpa [hab] using Edit.before_total (b.edit o source (ofItems source items))
      (b.edit o source (ofItems source items))
  exact (pair_sublist_of_not hsorted (List.mem_mergeSort.mpr (hmarked.subset (by simp)))
    (List.mem_mergeSort.mpr (hmarked.subset (by simp))) hne hab).map Prod.fst

end Pairs

def Purpose.isImportOrBlock (c : Component) (p : Purpose) : Bool :=
  p.isImport || (p.block?.map fun c' => c'.name == c.name).getD false

variable {c : Component}

theorem Layout.not_both {order : List (Purpose × Edit)} (h : Layout o d source items text order)
    (hnames : (d.components.map Component.name).Nodup) (hc : c ∈ d.components)
    (hfirst : StandsBefore order .imports (.block c)) :
    ¬ StandsBefore order (.block c) .imports := by
  intro hlast
  have hblocks := h.blocks.countP_eq fun c' => c'.name == c.name
  rw [List.countP_filterMap, List.countP_eq_length_filter (l := d.components)] at hblocks
  have hlength : ((order.map Prod.fst).filter (Purpose.isImportOrBlock c)).length ≤ 2 := by
    rw [← List.countP_eq_length_filter, List.countP_map]
    have hsum := Nat.add_le_add h.imports
      (hblocks.trans_le ((nodup_names_iff d.components).mp hnames c hc))
    exact Nat.le_trans (countP_or_le _ _ order) hsum
  have hline : Purpose.isImportOrBlock c .imports = true := rfl
  have hblock : Purpose.isImportOrBlock c (.block c) = true := by
    simp [Purpose.isImportOrBlock, Purpose.block?]
  have hfirst' := hfirst.filter (Purpose.isImportOrBlock c)
  have hlast' := hlast.filter (Purpose.isImportOrBlock c)
  simp only [List.filter_cons, List.filter_nil, hline, hblock, if_true] at hfirst' hlast'
  cases (hfirst'.eq_of_length_le hlength).trans (hlast'.eq_of_length_le hlength).symm

structure InSequence (items : List Item) : Prop extends Oriented items where
  filled : ∀ item ∈ items, item.span.start < item.span.stop
  ascending : items.Pairwise fun a b => a.span.stop ≤ b.span.start

def importPoint (items : List Item) : Nat :=
  (anchor? items).elim 0 fun item => item.span.stop

def importEdit (o : InjectOptions) (source : String) (items : List Item) : Edit :=
  let line := importLine o.validators (ofItems source items)
  (anchor? items).elim ⟨⟨0, 0⟩, line ++ "\n"⟩ fun item =>
    ⟨⟨item.span.stop, item.span.stop⟩, "\n" ++ line⟩

theorem importEdit_span (o : InjectOptions) (source : String) (items : List Item) :
    (importEdit o source items).span = ⟨importPoint items, importPoint items⟩ := by
  unfold importEdit importPoint
  cases anchor? items <;> rfl

theorem importEdit_text (o : InjectOptions) (source : String) (items : List Item) :
    (importEdit o source items).text = "\n" ++ importLine o.validators (ofItems source items) ∨
      (importEdit o source items).text = importLine o.validators (ofItems source items) ++ "\n" := by
  unfold importEdit
  cases anchor? items with
  | none => exact .inr rfl
  | some item => exact .inl rfl

theorem importEdits_eq (source : String) (horiented : Oriented items)
    (hensure : o.ensureImport = true)
    (hunseen : ∀ item ∈ items, o.validators.importedName ∉ seenNames item) :
    importEdits o (ofItems source items) = [importEdit o source items] := by
  have hbound : o.validators.importedName ∉ (ofItems source items).bindings := by
    rw [ofItems_bindings, List.mem_flatMap]
    rintro ⟨item, hitem, hname⟩
    exact hunseen item hitem hname
  unfold importEdits importEdit
  simp only [hensure, List.contains_eq_mem, hbound, decide_false, Bool.not_false, Bool.and_true,
    if_true, ofItems_anchor]
  cases hanchor : anchor? items with
  | none => rfl
  | some item =>
    have hlimit := (horiented.item item (mem_of_anchor? hanchor)).2
    simp [Edit.insert, Span.ofOffsets, Nat.mod_eq_of_lt hlimit]

theorem of_mem_importEdits (horiented : Oriented items) {e : Edit}
    (h : e ∈ importEdits o (ofItems source items)) :
    o.ensureImport = true ∧ (∀ item ∈ items, o.validators.importedName ∉ seenNames item) ∧
      e = importEdit o source items := by
  have hadded : o.ensureImport = true ∧
      ∀ item ∈ items, o.validators.importedName ∉ seenNames item := by
    unfold importEdits at h
    split at h
    · rename_i hcond
      simpa [ofItems_bindings] using hcond
    · cases h
  rw [importEdits_eq source horiented hadded.1 hadded.2, List.mem_singleton] at h
  exact ⟨hadded.1, hadded.2, h⟩

/-- The item that the block of a component goes to: the first one that assigns validators to it, or
else the one that declares its candidate. -/
inductive Seats (source : String) (items : List Item) (c : Component) (seat : Item) : Prop
  | assigned (h : items.find? (assigns c.name) = some seat)
  | declared {k : Candidate} (hnone : items.find? (assigns c.name) = none)
      (hk : k ∈ matching (ofItems source items) c) (hseat : seat ∈ items)
      (hdeclares : Declares seat c.name) (hstop : k.stop = seat.span.stop)

theorem isDirective_of_assigns {name : String} {item : Item} (h : assigns name item = true) :
    isDirective item = false := by
  unfold assigns at h
  split at h
  · simp [isDirective, *]
  · cases h

theorem isDirective_of_declares {name : String} {item : Item} (h : Declares item name) :
    isDirective item = false := by
  obtain ⟨d, hd, -⟩ := h
  unfold isDirective
  split
  · rename_i text hkind
    simp [declaration?, hkind] at hd
  · rfl

theorem find?_assigns_eq_none (h : (existingOf (ofItems source items) c).find? isStatement = none) :
    items.find? (assigns c.name) = none := by
  rw [existingOf, ofItems_existing] at h
  rw [List.find?_eq_none] at h ⊢
  intro item hitem hassigns
  rcases validators_find? source c.name item with ⟨hno, -⟩ | ⟨-, x, hx, -⟩
  · simp [hno] at hassigns
  · have hmem := List.mem_filter.mp (List.mem_of_find?_eq_some hx)
    exact h x (List.mem_filter.mpr ⟨List.mem_flatMap.mpr ⟨item, hitem, hmem.1⟩, hmem.2⟩)
      (List.find?_some hx)

namespace Seats

variable {c : Component} {seat : Item}

theorem mem (h : Seats source items c seat) : seat ∈ items := by
  cases h with
  | assigned h => exact List.mem_of_find?_eq_some h
  | declared _ _ hseat _ _ => exact hseat

theorem not_isDirective (h : Seats source items c seat) : isDirective seat = false := by
  cases h with
  | assigned h => exact isDirective_of_assigns (List.find?_some h)
  | declared _ _ _ hdeclares _ => exact isDirective_of_declares hdeclares

theorem declares (h : Seats source items c seat)
    (hnone : existingOf (ofItems source items) c = []) : Declares seat c.name := by
  cases h with
  | assigned h =>
    have hempty : (existingOf (ofItems source items) c).find? isStatement = none := by simp [hnone]
    simp [find?_assigns_eq_none hempty] at h
  | declared _ _ _ hdeclares _ => exact hdeclares

end Seats

theorem exists_mem_plan (c : Component) (k : Candidate) (xs : List Existing) :
    (∃ x, xs.find? isStatement = some x ∧ .replace c k x ∈ plan c k xs) ∨
      xs.find? isStatement = none ∧ .append c k ∈ plan c k xs := by
  rw [List.find?_eq_head?_dropWhile_not]
  unfold plan
  split
  · rename_i hnone
    exact .inr ⟨by rw [hnone]; rfl, by simp⟩
  · rename_i x others hx
    exact .inl ⟨x, by rw [hx]; rfl, by simp⟩

theorem exists_seat (horiented : Oriented items) (h : Injectable o (ofItems source items) d)
    (hc : c ∈ d.components) :
    ∃ change ∈ d.components.flatMap (componentChanges (ofItems source items)), ∃ seat,
      change.purpose = .block c ∧ Seats source items c seat ∧
      ((change.edit o source (ofItems source items)).span = seat.span ∨
        (change.edit o source (ofItems source items)).span =
          ⟨seat.span.stop, seat.span.stop⟩) := by
  obtain ⟨k, hk⟩ := List.length_eq_one_iff.mp (h.matched c hc)
  have hmatching : k ∈ matching (ofItems source items) c := by simp [hk]
  have hmem {change : Change} (hchange : change ∈ plan c k (existingOf (ofItems source items) c)) :
      change ∈ d.components.flatMap (componentChanges (ofItems source items)) :=
    List.mem_flatMap.mpr ⟨c, hc, List.mem_flatMap.mpr ⟨k, hmatching, hchange⟩⟩
  rcases exists_mem_plan c k (existingOf (ofItems source items) c) with
    ⟨x, hx, hchange⟩ | ⟨hnone, hchange⟩
  · obtain ⟨seat, hseat, hspan⟩ := find?_assigns hx
    exact ⟨_, hmem hchange, seat, rfl, .assigned hseat, .inl hspan⟩
  · obtain ⟨seat, hseat, hdeclares, hstop⟩ := exists_declares hmatching
    exact ⟨_, hmem hchange, seat, rfl,
      .declared (find?_assigns_eq_none hnone) hmatching hseat hdeclares hstop,
      .inr (by rw [append_edit horiented o source _ c hseat hstop])⟩

section Placed

variable {earlier later : List Item} {seat : Item} (hsequence : InSequence items)
  (hitems : items = earlier ++ seat :: later)

include hsequence hitems

theorem le_importPoint (h : ∃ item ∈ seat :: later, isImporting item = true) :
    seat.span.stop ≤ importPoint items := by
  obtain ⟨item, hitem, hanchor⟩ := anchor?_of_importing hitems h
  have hascending := hsequence.ascending
  rw [hitems] at hascending
  have hlater := (List.pairwise_cons.mp (List.pairwise_append.mp hascending).2.1).1
  rw [importPoint, hanchor, Option.elim_some]
  rcases List.mem_cons.mp hitem with rfl | hmem
  · exact Nat.le_refl _
  · have hspan := (hsequence.item item (hitems ▸ List.mem_append_right _ hitem)).1
    exact Nat.le_trans (hlater item hmem) hspan

theorem importPoint_le (hdirective : isDirective seat = false)
    (h : ∀ item ∈ seat :: later, isImporting item = false) :
    importPoint items ≤ seat.span.start := by
  have hascending := hsequence.ascending
  rw [hitems] at hascending
  unfold importPoint
  cases hanchor : anchor? items with
  | none => exact Nat.zero_le _
  | some item =>
    exact (List.pairwise_append.mp hascending).2.2 item
      (mem_earlier_of_anchor? hitems hdirective h hanchor) seat List.mem_cons_self

theorem before_importEdit_iff (o : InjectOptions) (source : String)
    (hdirective : isDirective seat = false) {e : Edit}
    (he : e.span = seat.span ∨ e.span = ⟨seat.span.stop, seat.span.stop⟩) :
    Edit.before e (importEdit o source items) = true ↔
      ∃ item ∈ seat :: later, isImporting item = true := by
  have hfilled := hsequence.filled seat (hitems ▸ List.mem_append_right _ List.mem_cons_self)
  by_cases h : ∃ item ∈ seat :: later, isImporting item = true
  · have hle := le_importPoint hsequence hitems h
    refine iff_of_true ?_ h
    rcases he with he | he <;> simp [Edit.before, importEdit_span, he] <;> omega
  · have hle := importPoint_le hsequence hitems hdirective (by simpa using h)
    refine iff_of_false ?_ h
    rcases he with he | he <;> simp [Edit.before, importEdit_span, he] <;> omega

end Placed

theorem standsBefore_iff (hd : d.components ≠ [])
    (hparse : Grammar.parseModule (dialect o) source = .ok items) (hsequence : InSequence items)
    (hinject : inject o d source = .ok text) (hensure : o.ensureImport = true)
    (hunseen : ∀ item ∈ items, o.validators.importedName ∉ seenNames item) (hc : c ∈ d.components) :
    ∃ earlier seat later, items = earlier ++ seat :: later ∧ Seats source items c seat ∧
      (StandsBefore (textOrder o d source items) .imports (.block c) ↔
        ∀ item ∈ seat :: later, isImporting item = false) ∧
      (StandsBefore (textOrder o d source items) (.block c) .imports ↔
        ∃ item ∈ seat :: later, isImporting item = true) := by
  have hinjectable := ((inject_eq_ok_iff hd hparse).mp hinject).1
  have hlayout := layout_textOrder hd hparse hsequence.toOriented hinject
  obtain ⟨change, hchange, seat, hpurpose, hseat, hspan⟩ :=
    exists_seat hsequence.toOriented hinjectable hc
  obtain ⟨earlier, later, hitems⟩ := List.append_of_mem hseat.mem
  have hpair : [change, .imports (importEdit o source items)].Sublist
      (changes o (ofItems source items) d) := by
    rw [changes, importEdits_eq source hsequence.toOriented hensure hunseen]
    exact (List.singleton_sublist.mpr hchange).append (List.Sublist.refl _)
  have hbefore := before_importEdit_iff hsequence hitems o source hseat.not_isDirective hspan
  refine ⟨earlier, seat, later, hitems, hseat, ?_⟩
  by_cases h : ∃ item ∈ seat :: later, isImporting item = true
  · have hlast : StandsBefore (textOrder o d source items) (.block c) .imports :=
      hpurpose ▸ standsBefore_of_before hpair (hbefore.mpr h)
    refine ⟨iff_of_false ?_ (by grind), iff_of_true hlast h⟩
    exact fun hfirst => hlayout.not_both hinjectable.distinct hc hfirst hlast
  · have hfirst : StandsBefore (textOrder o d source items) .imports (.block c) :=
      hpurpose ▸ standsBefore_of_not_before hpair (fun hab => h (hbefore.mp hab))
    refine ⟨iff_of_true hfirst (by simpa using h), iff_of_false ?_ h⟩
    exact hlayout.not_both hinjectable.distinct hc hfirst

/-- An injection that adds the line by a call writes it after the last item that gives such a call
to a variable, and each block to the item of its component. So the line stands before a block
exactly if neither this item nor a later one gives such a call, and after the block otherwise. -/
theorem require_before_block_iff (o : InjectOptions) (d : Document) (source text without : String)
    (items : List Item) (hparse : Grammar.parseModule (dialect o) source = .ok items)
    (hsequence : InSequence items) (hinject : inject o d source = .ok text)
    (hwithout : inject { o with ensureImport := false } d source = .ok without)
    (hadded : LineAdded (requireLine o.validators) without text) :
    ∃ order, Layout o d source items text order ∧
      (∃ e, (Purpose.imports, e) ∈ order ∧
        (e.text = "\n" ++ requireLine o.validators ∨ e.text = requireLine o.validators ++ "\n")) ∧
      ∀ c ∈ d.components, ∃ earlier seat later, items = earlier ++ seat :: later ∧
        Seats source items c seat ∧
        (StandsBefore order .imports (.block c) ↔
          ∀ item ∈ seat :: later, ∀ target, ¬ Requires item target) ∧
        (StandsBefore order (.block c) .imports ↔
          ∃ item ∈ seat :: later, ∃ target, Requires item target) := by
  have hd : d.components ≠ [] := by
    intro hd
    have hsource : text = source ∧ without = source := by
      simp_all [inject]
    exact hadded.ne (hsource.1.trans hsource.2.symm)
  have hensure : o.ensureImport = true := by
    by_contra hensure
    have hsame : { o with ensureImport := false } = o := by
      cases o
      simp_all
    rw [hsame, hinject] at hwithout
    exact hadded.ne (Except.ok.inj hwithout)
  obtain ⟨hunseen, hcall⟩ := (lineAdded_iff hd hensure hparse hinject hwithout).1.mp hadded
  have htext := importEdit_text o source items
  rw [importLine_eq, hcall, if_pos rfl] at htext
  have hstatement := ((importsByCall_iff source items).mp hcall).1
  have hline : Change.imports (importEdit o source items) ∈ changes o (ofItems source items) d := by
    simp [changes, importEdits_eq source hsequence.toOriented hensure hunseen]
  refine ⟨textOrder o d source items, layout_textOrder hd hparse hsequence.toOriented hinject,
    ⟨_, mem_textOrder hline, htext⟩, fun c hc => ?_⟩
  obtain ⟨earlier, seat, later, hitems, hseat, hfirst, hlast⟩ :=
    standsBefore_iff hd hparse hsequence hinject hensure hunseen hc
  have hrequires : ∀ item ∈ seat :: later,
      isImporting item = true ↔ ∃ target, Requires item target := fun item hitem =>
    isImporting_iff (hstatement item (hitems ▸ List.mem_append_right _ hitem))
  refine ⟨earlier, seat, later, hitems, hseat, hfirst.trans ?_, hlast.trans ?_⟩
  · refine forall₂_congr fun item hitem => ?_
    rw [← Bool.not_eq_true, hrequires item hitem, not_exists]
  · exact exists_congr fun item => and_congr_right fun hitem => hrequires item hitem

instance (item : Item) (name : String) : Decidable (Declares item name) :=
  decidable_of_iff ((declaration? item).any fun d => decide (name ∈ componentNames d)) (by
    simp [Declares, Option.any_eq_true])

def betweenModule : String :=
  "class A \x7b\x7d\nconst x = require('x');\nfunction B(props) \x7b\x7d\n"

theorem require_before_block_iff_between :
    ∃ items text order, Grammar.parseModule (dialect {}) betweenModule = .ok items ∧
      InSequence items ∧ inject {} crowdedDocument betweenModule = .ok text ∧
      Layout {} crowdedDocument betweenModule items text order ∧
      ∀ c ∈ crowdedDocument.components,
        (c.name = "A" → StandsBefore order (.block c) .imports) ∧
        (c.name = "B" → StandsBefore order .imports (.block c)) := by
  -- A call follows the item that declares the first component, and none the second one.
  obtain ⟨items, hparse, hplaced, hfilled, hmatched, hfree, hunseen, hcall, hfirst, hlast⟩ : ∃ items,
      Grammar.parseModule (dialect {}) betweenModule = .ok items ∧
        WellPlaced betweenModule items ∧ (∀ item ∈ items, item.span.start < item.span.stop) ∧
        (∀ c ∈ crowdedDocument.components,
          (matching (ofItems betweenModule items) c).length = 1) ∧
        (∀ c ∈ crowdedDocument.components,
          (existingOf (ofItems betweenModule items) c).length = 0) ∧
        (∀ item ∈ items, "PropTypes" ∉ seenNames item) ∧
        (ofItems betweenModule items).importsByCall = true ∧
        (∀ rest ∈ items.tails, ∀ seat ∈ rest.take 1, Declares seat "A" →
          ∃ item ∈ rest, bindsRequire item = true) ∧
        ∀ rest ∈ items.tails, ∀ seat ∈ rest.take 1, Declares seat "B" →
          ∀ item ∈ rest, bindsRequire item = false :=
    Project.exists_ok_of_any (by decide +kernel)
  have hsequence : InSequence items := ⟨hplaced.oriented, hfilled, hplaced.ascending⟩
  have hnone : ∀ c ∈ crowdedDocument.components, existingOf (ofItems betweenModule items) c = [] :=
    fun c hc => List.eq_nil_of_length_eq_zero (hfree c hc)
  have hd : crowdedDocument.components ≠ [] := by simp [crowdedDocument]
  obtain ⟨text, hinject⟩ :=
    exists_inject_eq (o := {}) hplaced hd hparse ⟨by decide, hmatched, .inr hnone⟩
  obtain ⟨without, hwithout, -⟩ := inject_imports hd rfl hparse hinject
  have hadded := (lineAdded_iff hd rfl hparse hinject hwithout).1.mpr ⟨hunseen, hcall⟩
  obtain ⟨order, hlayout, -, hblocks⟩ := require_before_block_iff {} crowdedDocument betweenModule
    text without items hparse hsequence hinject hwithout hadded
  refine ⟨items, text, order, hparse, hsequence, hinject, hlayout, fun c hc => ?_⟩
  obtain ⟨earlier, seat, later, hitems, hseat, hline, hblock⟩ := hblocks c hc
  have hdeclares := hseat.declares (hnone c hc)
  have hrest : seat :: later ∈ items.tails := (List.mem_tails _ _).mpr ⟨earlier, hitems.symm⟩
  refine ⟨fun hname => hblock.mpr ?_, fun hname => hline.mpr fun item hitem target hrequires => ?_⟩
  · obtain ⟨item, hitem, hbinds⟩ := hfirst _ hrest seat (by simp) (hname ▸ hdeclares)
    exact ⟨item, hitem, bindsRequire_iff.mp hbinds⟩
  · have hbinds := bindsRequire_iff.mpr ⟨target, hrequires⟩
    simp [hlast _ hrest seat (by simp) (hname ▸ hdeclares) item hitem] at hbinds

theorem Ready.inject_eq {edits : List Edit} (h : Ready source items)
    (hparse : Grammar.parseModule (dialect {}) source = .ok items)
    (hedits : (changes {} (ofItems source items) oneComponent).map
      (Change.edit {} source (ofItems source items)) = edits)
    (happly : Edit.apply edits source = .ok text) :
    inject {} oneComponent source = .ok text :=
  (inject_eq_ok_iff (by simp [oneComponent]) hparse).mpr
    ⟨⟨by decide, h.matched, .inr fun c hc => List.eq_nil_of_length_eq_zero (h.free c hc)⟩,
      hedits ▸ happly⟩

def trailingModule : String :=
  "function A(props) \x7b\x7d\nconst x = require('x');\n"

def trailingEdits : List Edit :=
  [⟨⟨20, 20⟩, "\n\nA.propTypes = \x7b\x7d;"⟩,
    ⟨⟨44, 44⟩, "\nconst PropTypes = require('prop-types');"⟩]

/-- The line by a call comes only after the block that needs it. -/
theorem block_before_trailing_require :
    inject {} oneComponent trailingModule =
      .ok ("function A(props) \x7b\x7d\n\nA.propTypes = \x7b\x7d;\nconst x = require('x');\n" ++
        "const PropTypes = require('prop-types');\n") := by
  obtain ⟨items, hparse, hready, hedits⟩ : ∃ items,
      Grammar.parseModule (dialect {}) trailingModule = .ok items ∧ Ready trailingModule items ∧
        (changes {} (ofItems trailingModule items) oneComponent).map
          (Change.edit {} trailingModule (ofItems trailingModule items)) = trailingEdits :=
    Project.exists_ok_of_any (by decide +kernel)
  have hsorted : Edit.sorted trailingEdits = trailingEdits := by
    simp [Edit.sorted, trailingEdits, List.mergeSort, Edit.before]
  refine hready.inject_eq hparse hedits ?_
  rw [Edit.apply, hsorted]
  decide +kernel

end PropContract.Injection
