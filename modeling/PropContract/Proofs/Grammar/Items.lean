import PropContract.Grammar.Items

/-!
What the items of a module can be. Every item is put together at the end of the rule that reads it,
so a property of items is proved from the last steps of the rules alone.
-/

namespace PropContract.Grammar

open Syntax

variable {α β : Type}

def Yields (p : α → Prop) (parser : Parser α) : Prop :=
  ∀ mode s a s', parser mode s = .ok (a, s') → p a

namespace Yields

variable {p : α → Prop}

theorem pure {a : α} (h : p a) : Yields p (pure a) := by
  intro mode s b s' hb
  cases hb
  exact h

theorem bind {q : β → Prop} {parser : Parser β} {next : β → Parser α} (hparser : Yields q parser)
    (h : ∀ b, q b → Yields p (next b)) : Yields p (parser >>= next) := by
  intro mode s a s' ha
  change (parser mode s).bind (fun r => next r.1 mode r.2) = .ok (a, s') at ha
  cases hb : parser mode s with
  | error e =>
    rw [hb] at ha
    cases ha
  | ok r =>
    rw [hb] at ha
    exact h r.1 (hparser mode s r.1 r.2 hb) mode r.2 a s' ha

theorem after {parser : Parser β} {next : β → Parser α} (h : ∀ b, Yields p (next b)) :
    Yields p (parser >>= next) :=
  bind (q := fun _ => True) (fun _ _ _ _ _ => trivial) fun b _ => h b

theorem bindOption {q : β → Prop} {parser : Parser (Option β)} {next : Option β → Parser α}
    (hparser : Yields (∀ b ∈ ·, q b) parser) (hnone : Yields p (next none))
    (hsome : ∀ b, q b → Yields p (next (some b))) : Yields p (parser >>= next) := by
  refine bind hparser fun o ho => ?_
  cases o with
  | none => exact hnone
  | some b => exact hsome b (ho b rfl)

theorem afterOption {parser : Parser (Option β)} {next : Option β → Parser α}
    (hnone : Yields p (next none)) (hsome : ∀ b, Yields p (next (some b))) :
    Yields p (parser >>= next) :=
  bindOption (q := fun _ => True) (fun _ _ _ _ _ _ _ => trivial) hnone fun b _ => hsome b

theorem ite {c : Prop} [Decidable c] {parser parser' : Parser α} (h : Yields p parser)
    (h' : Yields p parser') : Yields p (if c then parser else parser') := by
  split
  · exact h
  · exact h'

theorem failAt (offset : Nat) : Yields p (failAt offset) := by
  intro mode s a s' h
  cases h

theorem unexpected : Yields p unexpected :=
  after fun _ => failAt _

theorem many {step : Parser (Option α)} (h : Yields (∀ a ∈ ·, p a) step) :
    Yields (∀ a ∈ ·, p a) (many step) := by
  refine after fun mode => ?_
  induction mode.fuel with
  | zero => exact unexpected
  | succ n ih =>
    refine bind h fun first hfirst => ?_
    cases first with
    | none => exact pure (by simp)
    | some a =>
      refine bind ih fun rest hrest => pure ?_
      simpa using ⟨hfirst a rfl, hrest⟩

end Yields

def isDefault : Declaration → Bool
  | .function _ isAmbient _ => !isAmbient
  | .class .. | .interface _ => true
  | _ => false

def Regular : ItemKind → Prop
  | .exportDefault d => isDefault d
  | _ => True

namespace Rules

variable (g : Rules) (decorators : List Expr)

theorem importEquals_yields (name : String) : Yields Regular (importEquals name) := by
  unfold importEquals
  -- Steps are matched as they are written; to unfold them would be to run the parser.
  repeat' with_reducible first
    | refine Yields.pure ?_
    | refine Yields.after fun _ => ?_
    | refine Yields.ite ?_ ?_
  all_goals exact trivial

theorem importItem_yields : Yields Regular g.importItem := by
  unfold importItem
  refine .after fun _ => .after fun _ => .ite ?_ ?_
  · exact .after fun _ => .after fun _ => .pure trivial
  · refine .after fun start => ?_
    cases start with
    | equals name => exact importEquals_yields name
    | bindings typesOnly first => exact .after fun _ => .after fun _ => .pure trivial

theorem exportNames_yields (typesOnly : Bool) : Yields Regular (g.exportNames typesOnly) := by
  unfold exportNames
  repeat' with_reducible first
    | refine Yields.pure ?_
    | refine Yields.after fun _ => ?_
    | refine Yields.ite ?_ ?_
  all_goals exact trivial

theorem exportStar_yields : Yields Regular g.exportStar := by
  unfold exportStar
  repeat' with_reducible first
    | refine Yields.pure ?_
    | refine Yields.after fun _ => ?_
    | refine Yields.ite ?_ ?_
  all_goals exact trivial

theorem defaultClass_yields (isAbstract : Bool) :
    Yields Regular (g.defaultClass isAbstract decorators) := by
  unfold defaultClass
  refine .after fun _ => .after fun name => .after fun c => ?_
  cases name with
  | none => exact .pure trivial
  | some n => exact .pure rfl

theorem defaultFunction_yields : Yields Regular g.defaultFunction := by
  unfold defaultFunction
  refine .after fun r => ?_
  obtain ⟨name, f⟩ := r
  cases name with
  | none => exact .pure trivial
  | some n => exact .pure rfl

theorem exportDefault_yields : Yields Regular (g.exportDefault decorators) := by
  unfold exportDefault
  repeat' with_reducible first
    | exact g.defaultClass_yields _ _
    | exact g.defaultFunction_yields
    | refine Yields.pure ?_
    | refine Yields.after fun _ => ?_
    | refine Yields.ite ?_ ?_
  all_goals first | exact trivial | rfl

theorem typedExport?_yields : Yields (∀ kind ∈ ·, Regular kind) g.typedExport? := by
  have hnone : ∀ kind ∈ (none : Option ItemKind), Regular kind := by
    rintro kind ⟨⟩
  have hsome : ∀ kind, Regular kind → ∀ kind' ∈ some kind, Regular kind' := by
    rintro kind h kind' ⟨⟩
    exact h
  unfold typedExport?
  repeat' with_reducible first
    | exact Yields.pure hnone
    | refine Yields.pure (hsome _ ?_)
    | exact Yields.bind (importEquals_yields _) fun _ hkind => .pure (hsome _ hkind)
    | refine Yields.after fun _ => ?_
    | refine Yields.ite ?_ ?_
  all_goals exact trivial

theorem plainExport_yields : Yields Regular (g.plainExport decorators) := by
  unfold plainExport
  repeat' first
    | with_reducible exact g.exportDefault_yields _
    | with_reducible exact g.exportStar_yields
    | with_reducible exact g.exportNames_yields _
    | with_reducible refine Yields.pure ?_
    | refine Yields.afterOption ?_ fun _ => ?_
    | with_reducible refine Yields.after fun _ => ?_
    | with_reducible refine Yields.ite ?_ ?_
  all_goals exact trivial

theorem exportItem_yields : Yields Regular (g.exportItem decorators) := by
  unfold exportItem
  repeat' first
    | with_reducible refine Yields.pure ?_
    | exact Yields.bindOption g.typedExport?_yields (g.plainExport_yields _) fun _ h => .pure h
    | refine Yields.afterOption ?_ fun _ => ?_
    | with_reducible refine Yields.after fun _ => ?_
    | with_reducible refine Yields.ite ?_ ?_
  all_goals exact trivial

theorem itemRule_yields : Yields (fun item => Regular item.kind) g.itemRule := by
  unfold itemRule
  repeat' with_reducible first
    | refine Yields.pure ?_
    | refine Yields.bind (g.exportItem_yields _) fun _ _ => .after fun _ => .pure ?_
    | refine Yields.bind g.importItem_yields fun _ _ => .after fun _ => .pure ?_
    | refine Yields.after fun _ => ?_
    | refine Yields.ite ?_ ?_
  all_goals first | exact trivial | assumption

end Rules

theorem rules_yields (n : Nat) : Yields (fun item => Regular item.kind) (rules n).item := by
  cases n with
  | zero => exact .unexpected
  | succ n => exact Rules.itemRule_yields _

theorem items_yields (n : Nat) : Yields (∀ item ∈ ·, Regular item.kind) (items (rules n)) := by
  have hnone : ∀ item ∈ (none : Option Item), Regular item.kind := by
    rintro item ⟨⟩
  have hsome : ∀ item : Item, Regular item.kind → ∀ item' ∈ some item, Regular item'.kind := by
    rintro item h item' ⟨⟩
    exact h
  unfold items
  refine .bind (q := (∀ item ∈ ·, Regular item.kind)) (.many (.after fun _ => .ite ?_ ?_))
    fun found hfound => .after fun s => ?_
  · exact .pure hnone
  · exact .bind (rules_yields n) fun item hitem => .pure (hsome item hitem)
  · cases s.pending with
    | none => exact .pure hfound
    | some e => exact .failAt e.offset

theorem regular_of_parseModule {dialect : Dialect} {text : String} {found : List Item}
    (h : parseModule dialect text = .ok found) : ∀ item ∈ found, Regular item.kind := by
  unfold parseModule at h
  dsimp only at h
  split at h
  · rename_i found' s hitems
    cases h
    exact items_yields _ _ _ _ _ hitems
  · cases h

end PropContract.Grammar
