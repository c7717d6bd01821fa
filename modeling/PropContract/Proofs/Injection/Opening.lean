import PropContract.Proofs.Injection.Order

/-!
How a text begins: with a hashbang and with directives. Where there is no directive and no import,
the line of import goes before the hashbang.
-/

namespace PropContract.Injection

open Syntax Survey Text List Option

variable {o : InjectOptions} {d : Document} {source text : String} {items : List Item}

def hashbang : List Char → List Char
  | '#' :: '!' :: cs =>
    '#' :: '!' :: (cs.takeWhile (!isLineEnd ·) ++ (cs.dropWhile (!isLineEnd ·)).take 1)
  | _ => []

theorem hashbang_isPrefix (cs : List Char) : hashbang cs <+: cs := by
  unfold hashbang
  split
  · rename_i cs
    refine cons_prefix_cons.mpr ⟨rfl, cons_prefix_cons.mpr ⟨rfl, ?_⟩⟩
    conv_rhs => rw [← takeWhile_append_dropWhile (p := (!isLineEnd ·)) (l := cs)]
    exact (prefix_append_right_inj _).mpr (List.take_prefix 1 _)
  · exact nil_prefix

theorem head?_of_hashbang {cs : List Char} (h : hashbang cs ≠ []) : cs.head? = some '#' := by
  unfold hashbang at h
  split at h
  · rfl
  · exact absurd rfl h

theorem hashbang_ends {cs : List Char} (h : hashbang cs ≠ []) :
    hashbang cs = cs ∨ ∃ c, (hashbang cs).getLast? = some c ∧ isLineEnd c = true := by
  unfold hashbang at h ⊢
  split at h
  · rename_i cs
    cases hrest : cs.dropWhile (!isLineEnd ·) with
    | nil =>
      refine .inl ?_
      conv_rhs => rw [← takeWhile_append_dropWhile (p := (!isLineEnd ·)) (l := cs), hrest]
      rfl
    | cons c rest =>
      have hend := head?_dropWhile_not (!isLineEnd ·) cs
      rw [hrest] at hend
      exact .inr ⟨c, by simp [getLast?_cons], by simpa using hend⟩
  · exact absurd rfl h

/-- Where the start of a module ends: with its last directive, or with the hashbang. -/
def openingStop (source : String) (items : List Item) : Nat :=
  (items.takeWhile isDirective).getLast?.elim (byteLength (hashbang source.toList)) fun item =>
    item.span.stop

section Placed

variable (hplaced : WellPlaced source items)
  (hopened : ∀ item ∈ items, byteLength (hashbang source.toList) ≤ item.span.start)

include hplaced

theorem isBoundary_openingStop :
    ∃ start rest, source.toList = start ++ rest ∧ byteLength start = openingStop source items := by
  unfold openingStop
  cases hlast : (items.takeWhile isDirective).getLast? with
  | none =>
    obtain ⟨rest, hrest⟩ := hashbang_isPrefix source.toList
    exact ⟨_, rest, hrest.symm, rfl⟩
  | some item =>
    have hitem := (takeWhile_sublist _).subset (mem_of_getLast? hlast)
    obtain ⟨c, hc, -⟩ := (hplaced.solid item hitem).exists_last
    exact isBoundary_iff.mp (isBoundary_of_charBefore? hc)

/-- What goes with a removed span does not reach back into the start of the module: that ends with a
directive, or with the end of a line. -/
theorem openingStop_le_widen {span : Span} (hsolid : Solid source span)
    (hle : openingStop source items ≤ span.start) :
    openingStop source items ≤ (widen source span).start := by
  unfold openingStop at hle ⊢
  cases hlast : (items.takeWhile isDirective).getLast? with
  | some item =>
    rw [hlast] at hle
    have hitem := (takeWhile_sublist _).subset (mem_of_getLast? hlast)
    obtain ⟨c, hc, hblank⟩ := (hplaced.solid item hitem).exists_last
    exact hsolid.le_widen_start hc hblank hle
  | none =>
    rw [hlast] at hle
    simp only [elim_none] at hle ⊢
    by_contra hlt
    have hne : hashbang source.toList ≠ [] := by
      intro hnil
      simp [hnil, byteLength] at hlt
    obtain ⟨rest, hrest⟩ := hashbang_isPrefix source.toList
    rcases hashbang_ends hne with hall | ⟨c, hc, hend⟩
    · obtain ⟨c, hc, -⟩ := hsolid.exists_first
      have := lt_of_charAfter? hc
      rw [hall] at hle
      omega
    · rw [← charBefore?_eq hrest.symm] at hc
      have hindent := hsolid.extends_widen.charBefore (by omega) hle hc
      simp only [isIndent, Bool.or_eq_true, decide_eq_true_eq] at hindent
      rcases hindent with rfl | rfl <;> simp [isLineEnd] at hend

include hopened

theorem openingStop_le {item : Item} (hitem : item ∈ items)
    (hdirective : isDirective item = false) :
    openingStop source items ≤ item.span.start := by
  unfold openingStop
  cases hlast : (items.takeWhile isDirective).getLast? with
  | none => exact hopened item hitem
  | some directive =>
    have hsplit : items.takeWhile isDirective ++ items.dropWhile isDirective = items :=
      takeWhile_append_dropWhile
    have hascending := hplaced.ascending
    rw [← hsplit] at hascending hitem
    have hafter : item ∈ items.dropWhile isDirective := by
      refine (mem_append.mp hitem).resolve_left fun hmem => ?_
      simp [mem_takeWhile_imp hmem] at hdirective
    exact (pairwise_append.mp hascending).2.2 directive (mem_of_getLast? hlast) item hafter

theorem openingStop_le_edit {change : Change} (h : Planned o (ofItems source items) d change)
    (himport : change.purpose.isImport = false) :
    openingStop source items ≤ (change.edit o source (ofItems source items)).span.start := by
  cases change with
  | append c k =>
    obtain ⟨item, hitem, hdeclares, hstop⟩ := exists_declares h.2
    have hstart := openingStop_le hplaced hopened hitem (isDirective_of_declares hdeclares)
    rw [append_edit hplaced.oriented o source _ c hitem hstop]
    exact Nat.le_trans hstart (hplaced.solid item hitem).1
  | replace c k x =>
    obtain ⟨item, hitem, hspan⟩ := find?_assigns h.2.2
    change openingStop source items ≤ x.span.start
    rw [hspan]
    exact openingStop_le hplaced hopened (mem_of_find?_eq_some hitem)
      (isDirective_of_assigns (find?_some hitem))
  | remove c x =>
    have hmem := mem_of_mem_filter h.2
    rw [ofItems_existing, mem_flatMap] at hmem
    obtain ⟨item, hitem, hx⟩ := hmem
    have hdirective : isDirective item = false := by
      unfold isDirective
      split
      · simp [validators, assigned?, *] at hx
      · rfl
    obtain ⟨hsolid, -, hstart, -⟩ := hplaced.validator hitem hx
    exact openingStop_le_widen hplaced hsolid
      (Nat.le_trans (openingStop_le hplaced hopened hitem hdirective) hstart)
  | imports e => cases himport

theorem openingStop_le_importPoint {item : Item} (h : anchor? items = some item) :
    openingStop source items ≤ importPoint items := by
  rw [importPoint, h, elim_some]
  rcases of_anchor? h with ⟨hitem, himporting⟩ | hlast
  · exact Nat.le_trans
      (openingStop_le hplaced hopened hitem (isDirective_of_isImporting himporting))
      (hplaced.solid item hitem).1
  · rw [openingStop, hlast]
    exact Nat.le_refl _

end Placed

/-- The line of import goes before a hashbang: it is added, and there is neither a directive nor
an import that it can go after. -/
structure Displaced (o : InjectOptions) (d : Document) (source : String) (items : List Item) :
    Prop where
  components : d.components ≠ []
  ensured : o.ensureImport = true
  unseen : ∀ item ∈ items, o.validators.importedName ∉ seenNames item
  line : hashbang source.toList ≠ []
  undirected : items.takeWhile isDirective = []
  unimported : ∀ item ∈ items, isImporting item = false

theorem head?_importLine (o : ValidatorOptions) (found : Findings) :
    (importLine o found).toList.head? = some 'c' ∨ (importLine o found).toList.head? = some 'i' := by
  rw [importLine_eq]
  split
  · exact .inl (by simp [requireLine])
  · exact .inr (by simp [importFromLine])

section Opening

variable {start rest : List Char} (hd : d.components ≠ [])
  (hparse : Grammar.parseModule (dialect o) source = .ok items)
  (hplaced : WellPlaced source items)
  (hopened : ∀ item ∈ items, byteLength (hashbang source.toList) ≤ item.span.start)
  (hinject : inject o d source = .ok text) (hsource : source.toList = start ++ rest)
  (hstart : byteLength start = openingStop source items)

include hd hparse hplaced hopened hinject hsource hstart

theorem isPrefix_of_not_displaced (h : ¬ Displaced o d source items) : start <+: text.toList := by
  obtain ⟨-, happly⟩ := (inject_eq_ok_iff hd hparse).mp hinject
  refine Edit.isPrefix_of_apply hsource (forall_mem_map.mpr fun change hc =>
    edit_oriented hplaced.oriented (planned_of_mem hc)) ?_ happly
  rw [hstart]
  refine forall_mem_map.mpr fun change hc => ?_
  have hplanned := planned_of_mem hc
  cases himport : change.purpose.isImport with
  | false => exact openingStop_le_edit hplaced hopened hplanned himport
  | true =>
    cases change with
    | imports e =>
      obtain ⟨hensure, hunseen, rfl⟩ := of_mem_importEdits hplaced.oriented hplanned
      rw [Change.edit, importEdit_span]
      cases hanchor : anchor? items with
      | some item => exact openingStop_le_importPoint hplaced hopened hanchor
      | none =>
        obtain ⟨hundirected, hunimported⟩ := anchor?_eq_none_iff.mp hanchor
        have hline : hashbang source.toList = [] := by
          by_contra hline
          exact h ⟨hd, hensure, hunseen, hline, hundirected, hunimported⟩
        simp [openingStop, hundirected, hline, byteLength]
    | _ => cases himport

theorem isPrefix_of_displaced (h : Displaced o d source items) :
    (importLine o.validators (ofItems source items) ++ "\n").toList ++ start <+: text.toList ∧
      ¬ start <+: text.toList := by
  obtain ⟨-, happly⟩ := (inject_eq_ok_iff hd hparse).mp hinject
  have himport : importEdit o source items =
      ⟨⟨0, 0⟩, importLine o.validators (ofItems source items) ++ "\n"⟩ := by
    simp [importEdit, anchor?_eq_none_iff.mpr ⟨h.undirected, h.unimported⟩]
  rw [changes, importEdits_eq source hplaced.oriented h.ensured h.unseen, himport,
    map_append] at happly
  have hplanned : ∀ change ∈ d.components.flatMap (componentChanges (ofItems source items)),
      Planned o (ofItems source items) d change := fun change hc =>
    planned_of_mem (mem_append_left _ hc)
  have hafter : ∀ e ∈ (d.components.flatMap (componentChanges (ofItems source items))).map
      (Change.edit o source (ofItems source items)), byteLength start ≤ e.span.start := by
    rw [hstart]
    exact forall_mem_map.mpr fun change hc =>
      openingStop_le_edit hplaced hopened (hplanned change hc) (not_isImport_of_mem hc)
  have hne : start ≠ [] := by
    rintro rfl
    have hempty := hstart.symm
    simp only [openingStop, h.undirected, getLast?_nil, elim_none] at hempty
    exact h.line (byteLength_eq_zero hempty)
  have hpos : 0 < byteLength start := by
    by_contra hzero
    exact hne (byteLength_eq_zero (by omega))
  obtain ⟨without, hwithout, rfl⟩ := Edit.apply_append_leading
    (fun e he => Nat.lt_of_lt_of_le hpos (hafter e he)) happly
  have hkept : start <+: without.toList :=
    Edit.isPrefix_of_apply hsource (forall_mem_map.mpr fun change hc =>
      edit_oriented hplaced.oriented (hplanned change hc)) hafter hwithout
  rw [String.toList_append (t := without)]
  refine ⟨(prefix_append_right_inj _).mpr hkept, ?_⟩
  rintro ⟨others, hothers⟩
  obtain ⟨c, cs, rfl⟩ := exists_cons_of_ne_nil hne
  have hhash := head?_of_hashbang h.line
  have hfirst := congrArg List.head? hothers
  rw [hsource] at hhash
  simp only [String.toList_append, append_assoc, cons_append, head?_append,
    head?_cons] at hhash hfirst
  rcases head?_importLine o.validators (ofItems source items) with hline | hline
  all_goals
    rw [hline, some_or] at hfirst
    exact absurd (hfirst.symm.trans hhash) (by decide)

end Opening

/-- A module begins with a hashbang, if it has one, and with its directives. The text of an
injection begins in the same way exactly if no line of import has to go to its start, before the
hashbang; otherwise the old start follows after the line of import. -/
theorem opening_isPrefix_iff (o : InjectOptions) (d : Document) (source text : String)
    (items : List Item) (hparse : Grammar.parseModule (dialect o) source = .ok items)
    (hplaced : WellPlaced source items)
    (hopened : ∀ item ∈ items, byteLength (hashbang source.toList) ≤ item.span.start)
    (hinject : inject o d source = .ok text) :
    ∃ start rest, source.toList = start ++ rest ∧ byteLength start = openingStop source items ∧
      (start <+: text.toList ↔ ¬ Displaced o d source items) ∧
      (Displaced o d source items →
        (importLine o.validators (ofItems source items) ++ "\n").toList ++ start <+:
          text.toList) := by
  obtain ⟨start, rest, hsource, hstart⟩ := isBoundary_openingStop hplaced
  refine ⟨start, rest, hsource, hstart, ?_⟩
  by_cases h : Displaced o d source items
  · obtain ⟨hline, hlost⟩ :=
      isPrefix_of_displaced h.components hparse hplaced hopened hinject hsource hstart h
    exact ⟨iff_of_false hlost (not_not_intro h), fun _ => hline⟩
  · refine ⟨iff_of_true ?_ h, fun h' => absurd h' h⟩
    by_cases hd : d.components = []
    · have htext : source = text := by simpa [inject, hd] using hinject
      rw [← htext, hsource]
      exact prefix_append start rest
    · exact isPrefix_of_not_displaced hd hparse hplaced hopened hinject hsource hstart h

def scriptModule : String :=
  "#!/usr/bin/env node\n'use strict';\nA.propTypes = \x7b\x7d;\nfunction A(props) \x7b\x7d\n" ++
    "A.propTypes = \x7b\x7d;\n"

theorem opening_isPrefix_iff_script :
    ∃ items text, Grammar.parseModule (dialect { conflict := .replace }) scriptModule = .ok items ∧
      WellPlaced scriptModule items ∧
      (∀ item ∈ items, byteLength (hashbang scriptModule.toList) ≤ item.span.start) ∧
      inject { conflict := .replace } oneComponent scriptModule = .ok text ∧
      "#!/usr/bin/env node\n'use strict';".toList <+: text.toList := by
  obtain ⟨items, hparse, hplaced, hopened, hmatched, hdirective, hstop⟩ : ∃ items,
      Grammar.parseModule (dialect { conflict := .replace }) scriptModule = .ok items ∧
        WellPlaced scriptModule items ∧
        (∀ item ∈ items, byteLength (hashbang scriptModule.toList) ≤ item.span.start) ∧
        (∀ c ∈ oneComponent.components, (matching (ofItems scriptModule items) c).length = 1) ∧
        (items.takeWhile isDirective).length = 1 ∧ openingStop scriptModule items = 33 :=
    Project.exists_ok_of_any (by decide +kernel)
  obtain ⟨text, hinject⟩ := exists_inject_eq (o := { conflict := .replace }) hplaced
    (by simp [oneComponent]) hparse ⟨by decide, hmatched, .inl (by decide)⟩
  obtain ⟨start, rest, hsource, hstart, hkept, -⟩ := opening_isPrefix_iff { conflict := .replace }
    oneComponent scriptModule text items hparse hplaced hopened hinject
  have hopening : start = "#!/usr/bin/env node\n'use strict';".toList := by
    have hcut := cut?_eq_some_iff.mpr ⟨hsource, hstart.trans hstop⟩
    have hfirst : (cut? 33 scriptModule.toList).map Prod.fst =
        some "#!/usr/bin/env node\n'use strict';".toList := by decide +kernel
    rw [hcut] at hfirst
    exact Option.some.inj hfirst
  refine ⟨items, text, hparse, hplaced, hopened, hinject, hopening ▸ hkept.mpr fun h => ?_⟩
  simp [h.undirected] at hdirective

def bareScript : String :=
  "#!/usr/bin/env node\nfunction A(props) \x7b\x7d\n"

def bareScriptEdits : List Edit :=
  [⟨⟨40, 40⟩, "\n\nA.propTypes = \x7b\x7d;"⟩, ⟨⟨0, 0⟩, "import PropTypes from 'prop-types';\n"⟩]

/-- The hashbang does not stay in the first line. -/
theorem system_line_displaced :
    inject {} oneComponent bareScript =
      .ok ("import PropTypes from 'prop-types';\n#!/usr/bin/env node\n" ++
        "function A(props) \x7b\x7d\n\nA.propTypes = \x7b\x7d;\n") := by
  obtain ⟨items, hparse, hready, hedits⟩ : ∃ items,
      Grammar.parseModule (dialect {}) bareScript = .ok items ∧ Ready bareScript items ∧
        (changes {} (ofItems bareScript items) oneComponent).map
          (Change.edit {} bareScript (ofItems bareScript items)) = bareScriptEdits :=
    Project.exists_ok_of_any (by decide +kernel)
  have hsorted : Edit.sorted bareScriptEdits = bareScriptEdits.reverse := by
    simp [Edit.sorted, bareScriptEdits, List.mergeSort, Edit.before]
  refine hready.inject_eq hparse hedits ?_
  rw [Edit.apply, hsorted]
  decide +kernel

end PropContract.Injection
