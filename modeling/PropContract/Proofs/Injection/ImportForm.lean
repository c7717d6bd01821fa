import PropContract.Proofs.Injection.Imports

/-!
In which form the validators are imported. A variable pattern that is given a call of `require` is
overlooked.
-/

namespace PropContract.Survey

open Syntax List

/-- A call of `require`, or a call that is given one. What is put around a call, parentheses or a
type, does not matter. -/
inductive RequireCall : Expr → Prop
  | direct (types : List TypeExpr) (args : List Expr) :
      RequireCall (.call (.name "require") types args)
  | helper (harg : arg ∈ args) (h : RequireCall arg) : RequireCall (.call callee types args)
  | paren (h : RequireCall e) : RequireCall (.paren e)
  | cast (h : RequireCall e) : RequireCall (.cast e type)

theorem anyRequire_eq (es : List Expr) : anyRequire es = es.any isRequire := by
  induction es with
  | nil => rfl
  | cons e es ih =>
    rw [any_cons, ← ih]
    cases e <;> rfl

theorem isRequireName_iff {e : Expr} : isRequireName e = true ↔ e = .name "require" := by
  unfold isRequireName
  split
  · simp
  · rename_i hother
    simpa using hother

theorem requireCall_of_isRequire : ∀ e : Expr, isRequire e = true → RequireCall e
  | .paren e, h => .paren (requireCall_of_isRequire e h)
  | .cast e _, h => .cast (requireCall_of_isRequire e h)
  | .call callee types args, h => by
    rw [isRequire, Bool.or_eq_true, isRequireName_iff, anyRequire_eq] at h
    rcases h with rfl | h
    · exact .direct types args
    · obtain ⟨arg, harg, h⟩ := any_eq_true.mp h
      have := sizeOf_lt_of_mem harg
      exact .helper harg (requireCall_of_isRequire arg h)

theorem isRequire_iff {e : Expr} : isRequire e = true ↔ RequireCall e := by
  refine ⟨requireCall_of_isRequire e, fun h => ?_⟩
  induction h with
  | direct types args => rfl
  | helper harg _ ih =>
    rw [isRequire, anyRequire_eq, any_eq_true.mpr ⟨_, harg, ih⟩, Bool.or_true]
  | paren _ ih => exact ih
  | cast _ ih => exact ih

/-- An expression that exports something: an assignment to `module.exports` or to a member of the
exports, in a chain of assignments or among the parts of a sequence, or a call that is given the
exports first. -/
inductive Exporting : Expr → Prop
  | assign (h : isExportTarget target = true) : Exporting (.assign plain target value)
  | chained (h : Exporting value) : Exporting (.assign plain target value)
  | part (hpart : part ∈ parts) (h : Exporting part) : Exporting (.sequence parts)
  | call (h : isExports arg.unspread = true) : Exporting (.call callee types (arg :: args))

theorem anyExports_eq (es : List Expr) : anyExports es = es.any exports := by
  induction es with
  | nil => rfl
  | cons e es ih => rw [anyExports, any_cons, ih]

theorem exporting_of_exports : ∀ e : Expr, exports e = true → Exporting e
  | .assign _ target value, h => by
    rw [exports, Bool.or_eq_true] at h
    rcases h with h | h
    · exact .assign h
    · exact .chained (exporting_of_exports value h)
  | .call _ _ (arg :: _), h => .call h
  | .sequence parts, h => by
    rw [exports, anyExports_eq] at h
    obtain ⟨part, hpart, h⟩ := any_eq_true.mp h
    have := sizeOf_lt_of_mem hpart
    exact .part hpart (exporting_of_exports part h)

theorem exports_iff {e : Expr} : exports e = true ↔ Exporting e := by
  refine ⟨exporting_of_exports e, fun h => ?_⟩
  induction h with
  | assign h => rw [exports, h, Bool.true_or]
  | chained _ ih => rw [exports, ih, Bool.or_true]
  | part hpart _ ih => rw [exports, anyExports_eq, any_eq_true.mpr ⟨_, hpart, ih⟩]
  | call h => exact h

/-- A variable, or a pattern of variables, that an item declares is given a call of `require`. -/
inductive Requires (item : Item) (target : Pattern) : Prop
  | intro (hkind : item.kind = .statement (.declaration (.vars kind ds)))
      (hvariable : kind.isResource = false) (hd : .mk target (some e) ∈ ds) (h : RequireCall e)

inductive Exports (item : Item) : Prop
  | intro (hkind : item.kind = .statement (.expr e)) (h : Exporting e)

theorem bindsRequire_iff {item : Item} :
    bindsRequire item = true ↔ ∃ target, Requires item target := by
  constructor
  · intro h
    unfold bindsRequire at h
    split at h
    · rename_i d hkind
      cases d with
      | vars kind ds =>
        simp only [givesRequire, Bool.and_eq_true, Bool.not_eq_true', any_eq_true] at h
        obtain ⟨hvariable, ⟨target, init⟩, hd, hgiven⟩ := h
        cases init with
        | none => cases hgiven
        | some e => exact ⟨target, hkind, hvariable, hd, isRequire_iff.mp hgiven⟩
      | _ => cases h
    · cases h
  · rintro ⟨target, hkind, hvariable, hd, h⟩
    simp only [bindsRequire, hkind, givesRequire, hvariable, Bool.not_false, Bool.true_and]
    exact any_eq_true.mpr ⟨_, hd, isRequire_iff.mpr h⟩

theorem usesCalls_iff {item : Item} (hitem : isModuleItem item = false) :
    usesCalls item = true ↔ (∃ name type, Requires item (.name name type)) ∨ Exports item := by
  constructor
  · intro h
    unfold usesCalls at h
    split at h
    · rename_i d hkind
      cases d with
      | vars kind ds =>
        simp only [namesRequire, Bool.and_eq_true, Bool.not_eq_true', any_eq_true] at h
        obtain ⟨hvariable, ⟨target, init⟩, hd, hnamed, hgiven⟩ := h
        cases target with
        | name name type =>
          cases init with
          | none => cases hgiven
          | some e => exact .inl ⟨name, type, hkind, hvariable, hd, isRequire_iff.mp hgiven⟩
        | _ => cases hnamed
      | _ => cases h
    · simp [isModuleItem, *] at hitem
    · rename_i e hkind
      exact .inr ⟨hkind, exports_iff.mp h⟩
    · cases h
  · rintro (⟨name, type, hkind, hvariable, hd, h⟩ | ⟨hkind, h⟩)
    · simp only [usesCalls, hkind, namesRequire, hvariable, Bool.not_false, Bool.true_and]
      exact any_eq_true.mpr ⟨_, hd, by simp [isNamed, isGivenRequire, isRequire_iff.mpr h]⟩
    · simp only [usesCalls, hkind]
      exact exports_iff.mpr h

theorem importsByCall_iff (source : String) (items : List Item) :
    (ofItems source items).importsByCall = true ↔
      (∀ item ∈ items, isModuleItem item = false) ∧
        ∃ item ∈ items, (∃ name type, Requires item (.name name type)) ∨ Exports item := by
  have hfound : (ofItems source items).importsByCall = true ↔
      (∀ item ∈ items, isModuleItem item = false) ∧ ∃ item ∈ items, usesCalls item = true := by
    simp [ofItems_eq, Findings.importsByCall]
  exact hfound.trans (and_congr_right fun hstatement =>
    exists_congr fun item => and_congr_right fun hitem => usesCalls_iff (hstatement item hitem))

end PropContract.Survey

namespace PropContract.Injection

open Syntax Survey

variable {o : InjectOptions} {d : Document} {source text : String} {items : List Item}

def requireLine (o : ValidatorOptions) : String :=
  "const " ++ o.importedName ++ " = require(" ++ Quoted.encode o.quotes "prop-types" ++ ");"

def importFromLine (o : ValidatorOptions) : String :=
  "import " ++ o.importedName ++ " from " ++ Quoted.encode o.quotes "prop-types" ++ ";"

theorem importLine_eq (o : ValidatorOptions) (found : Findings) :
    importLine o found = if found.importsByCall then requireLine o else importFromLine o := rfl

theorem LineAdded.length {line without : String} (h : LineAdded line without text) :
    text.length = without.length + line.length + 1 := by
  have hbreak : "\n".length = 1 := by decide
  obtain ⟨pre, post, rfl, rfl | rfl⟩ := h
  all_goals
    simp only [String.length_append]
    omega

theorem not_lineAdded_both {without : String}
    (h : LineAdded (requireLine o.validators) without text)
    (h' : LineAdded (importFromLine o.validators) without text) : False := by
  have hlength := h.length
  have hlength' := h'.length
  simp only [requireLine, importFromLine, String.length_append] at hlength hlength'
  have hwords : "const ".length = 6 ∧ " = require(".length = 11 ∧ ");".length = 2 ∧
      "import ".length = 7 ∧ " from ".length = 6 ∧ ";".length = 1 := by decide
  omega

theorem lineAdded_iff {without : String} (hd : d.components ≠ []) (hensure : o.ensureImport = true)
    (hparse : Grammar.parseModule (dialect o) source = .ok items)
    (h : inject o d source = .ok text)
    (hwithout : inject { o with ensureImport := false } d source = .ok without) :
    (LineAdded (requireLine o.validators) without text ↔
      (∀ item ∈ items, o.validators.importedName ∉ seenNames item) ∧
        (ofItems source items).importsByCall = true) ∧
    (LineAdded (importFromLine o.validators) without text ↔
      (∀ item ∈ items, o.validators.importedName ∉ seenNames item) ∧
        (ofItems source items).importsByCall = false) := by
  obtain ⟨without', hwithout', htext⟩ := inject_imports hd hensure hparse h
  obtain rfl : without' = without := Except.ok.inj (hwithout'.symm.trans hwithout)
  rcases htext with ⟨⟨item, hitem, hname⟩, rfl⟩ | ⟨hunseen, hadded⟩
  · have hseen : ¬ ∀ item ∈ items, o.validators.importedName ∉ seenNames item :=
      fun hunseen => hunseen item hitem hname
    exact ⟨⟨fun hadded => absurd rfl hadded.ne, fun h => absurd h.1 hseen⟩,
      fun hadded => absurd rfl hadded.ne, fun h => absurd h.1 hseen⟩
  · rw [importLine_eq] at hadded
    cases hline : (ofItems source items).importsByCall with
    | true =>
      rw [hline, if_pos rfl] at hadded
      exact ⟨⟨fun _ => ⟨hunseen, rfl⟩, fun _ => hadded⟩,
        fun hother => (not_lineAdded_both hadded hother).elim, fun h => absurd h.2 (by simp)⟩
    | false =>
      rw [hline, if_neg (by simp)] at hadded
      exact ⟨⟨fun hother => (not_lineAdded_both hother hadded).elim, fun h => absurd h.2 (by simp)⟩,
        fun _ => ⟨hunseen, rfl⟩, fun _ => hadded⟩

/-- The line that an injection adds is the one by a call exactly if no item imports or exports and
one of them gives a call of `require` to a variable with a name, or exports something by an
assignment; in any other module it is an import. -/
theorem import_form_iff (o : InjectOptions) (d : Document) (source text : String)
    (hd : d.components ≠ []) (hensure : o.ensureImport = true)
    (h : inject o d source = .ok text) :
    ∃ items without, Grammar.parseModule (dialect o) source = .ok items ∧
      inject { o with ensureImport := false } d source = .ok without ∧
      (LineAdded (requireLine o.validators) without text ↔
        (∀ item ∈ items, o.validators.importedName ∉ seenNames item) ∧
        (∀ item ∈ items, isModuleItem item = false) ∧
        ∃ item ∈ items, (∃ name type, Requires item (.name name type)) ∨ Exports item) ∧
      (LineAdded (importFromLine o.validators) without text ↔
        (∀ item ∈ items, o.validators.importedName ∉ seenNames item) ∧
        ((∃ item ∈ items, isModuleItem item = true) ∨
          ∀ item ∈ items, (∀ name type, ¬ Requires item (.name name type)) ∧ ¬ Exports item)) := by
  obtain ⟨items, hparse⟩ := parseModule_of_inject hd h
  obtain ⟨without, hwithout, -⟩ := inject_imports hd hensure hparse h
  refine ⟨items, without, hparse, hwithout, ?_⟩
  have hcalls := importsByCall_iff source items
  have hmodule : (ofItems source items).importsByCall = false ↔
      (∃ item ∈ items, isModuleItem item = true) ∨
        ∀ item ∈ items, (∀ name type, ¬ Requires item (.name name type)) ∧ ¬ Exports item := by
    rw [← Bool.not_eq_true, hcalls, not_and_or]
    simp
  rw [← hcalls, ← hmodule]
  exact lineAdded_iff hd hensure hparse h hwithout

def helpedModule : String :=
  "const react = __importDefault(require('react'));\nfunction A(props) \x7b\x7d\n"

theorem import_form_iff_helped :
    ∃ text without, inject {} oneComponent helpedModule = .ok text ∧
      inject { ensureImport := false } oneComponent helpedModule = .ok without ∧
      LineAdded "const PropTypes = require('prop-types');" without text := by
  obtain ⟨items, hparse, hready, hunseen, hmodule, item, hitem, hcalls⟩ : ∃ items,
      Grammar.parseModule (dialect {}) helpedModule = .ok items ∧
        Ready helpedModule items ∧ (∀ item ∈ items, "PropTypes" ∉ seenNames item) ∧
        (∀ item ∈ items, isModuleItem item = false) ∧ ∃ item ∈ items, usesCalls item = true :=
    Project.exists_ok_of_any (by decide +kernel)
  obtain ⟨text, hinject⟩ := hready.injected hparse
  obtain ⟨items', without, hparse', hwithout, hform, -⟩ :=
    import_form_iff {} oneComponent helpedModule text (by simp [oneComponent]) rfl hinject
  obtain rfl : items = items' := Except.ok.inj (hparse.symm.trans hparse')
  exact ⟨text, without, hinject, hwithout,
    hform.mpr ⟨hunseen, hmodule, item, hitem, (usesCalls_iff (hmodule item hitem)).mp hcalls⟩⟩

def destructuringModule : String :=
  "const \x7b a \x7d = require('x');\nfunction A(props) \x7b\x7d\n"

/-- Nothing but a call imports something here, and yet a line of import is added. -/
theorem destructured_require_overlooked :
    ∃ items text without, Grammar.parseModule (dialect {}) destructuringModule = .ok items ∧
      (∀ item ∈ items, isModuleItem item = false) ∧
      (∃ item ∈ items, ∃ target, Requires item target) ∧
      inject {} oneComponent destructuringModule = .ok text ∧
      inject { ensureImport := false } oneComponent destructuringModule = .ok without ∧
      LineAdded "import PropTypes from 'prop-types';" without text ∧
      ¬ LineAdded "const PropTypes = require('prop-types');" without text := by
  obtain ⟨items, hparse, hready, hunseen, hmodule, ⟨item, hitem, hbinds⟩, hline⟩ : ∃ items,
      Grammar.parseModule (dialect {}) destructuringModule = .ok items ∧
        Ready destructuringModule items ∧ (¬ ∃ item ∈ items, "PropTypes" ∈ seenNames item) ∧
        (∀ item ∈ items, isModuleItem item = false) ∧
        (∃ item ∈ items, bindsRequire item = true) ∧
        importLine {} (ofItems destructuringModule items) = importFromLine {} :=
    Project.exists_ok_of_any (by decide +kernel)
  obtain ⟨text, hinject⟩ := hready.injected hparse
  obtain ⟨without, hwithout, htext⟩ := inject_imports (by simp [oneComponent]) rfl hparse hinject
  rcases htext with ⟨hseen, -⟩ | ⟨-, hadded⟩
  · exact absurd hseen hunseen
  · have hadded : LineAdded (importFromLine {}) without text := hline ▸ hadded
    exact ⟨items, text, without, hparse, hmodule, ⟨item, hitem, bindsRequire_iff.mp hbinds⟩,
      hinject, hwithout, hadded, fun hother => not_lineAdded_both (o := {}) hother hadded⟩

end PropContract.Injection
