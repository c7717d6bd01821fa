import PropContract.Resolver.Props

/-!
Answers in which the step limit has no part: they are the same whatever the unsettled answers
below them are.
-/

namespace PropContract.Resolver

inductive Query where
  | members (expanding : Expanding) (type : Ty)
  | shape (expanding : Expanding) (type : Ty) (depth : Nat) (ledger : Ledger)

namespace Query

def Answer : Query → Type
  | members .. => Option (List Member)
  | shape .. => Shape × Ledger

def type : Query → Ty
  | members _ t | shape _ t _ _ => t

end Query

abbrev Answers := (q : Query) → q.Answer

def Answers.members (f : Answers) : MembersOf :=
  fun expanding t => f (.members expanding t)

def Answers.shape (f : Answers) : ShapeOf :=
  fun expanding t depth l => f (.shape expanding t depth l)

def answerStep (s : Setting) (f : Answers) : Answers
  | .members expanding t => membersStep s.project f.members expanding t
  | .shape expanding t depth l => (shapeStep s f.shape f.members expanding t depth).run l

def answersWithin (s : Setting) (n : Nat) : Answers
  | .members expanding t => membersWithin s.project n expanding t
  | .shape expanding t depth l => (shapeWithin s n expanding t depth).run l

theorem answersWithin_succ (s : Setting) (n : Nat) (q : Query) :
    answersWithin s (n + 1) q = answerStep s (answersWithin s n) q := by
  cases q <;> rfl

/-- The limit `n` has no part in the answer: it rests on settled answers alone. -/
def Settled (s : Setting) : Nat → Query → Prop
  | 0, _ => False
  | n + 1, q => ∀ f : Answers, (∀ q', Settled s n q' → f q' = answersWithin s n q') →
      answerStep s f q = answersWithin s (n + 1) q

/-- Answers that may differ from those at most `n` steps deep where these are not settled. -/
def Backs (s : Setting) (n : Nat) (f : Answers) : Prop :=
  ∀ q, Settled s n q → f q = answersWithin s n q

/-- What is found with answers at most `n` steps deep needs no more than the settled ones. -/
def Rests (s : Setting) (n : Nat) {α : Type} (run : Answers → α) : Prop :=
  ∀ f, Backs s n f → run f = run (answersWithin s n)

variable {s : Setting} {n : Nat} {f : Answers} {q : Query}

theorem Backs.of_succ_of_settled (h : Backs s (n + 1) f) (hstays : ∀ q, Settled s n q →
      Settled s (n + 1) q ∧ answersWithin s (n + 1) q = answersWithin s n q) : Backs s n f :=
  fun q hq => (h q (hstays q hq).1).trans (hstays q hq).2

theorem Settled.succ (h : Settled s n q) :
    Settled s (n + 1) q ∧ answersWithin s (n + 1) q = answersWithin s n q := by
  induction n generalizing q with
  | zero => exact h.elim
  | succ n ih =>
    have hbacks {f : Answers} (hf : Backs s (n + 1) f) : Backs s n f :=
      hf.of_succ_of_settled fun _ => ih
    have hsame : answersWithin s (n + 2) q = answersWithin s (n + 1) q := by
      rw [answersWithin_succ]
      exact h _ (hbacks fun _ _ => rfl)
    exact ⟨fun f hf => (h f (hbacks hf)).trans hsame.symm, hsame⟩

theorem Backs.of_succ (h : Backs s (n + 1) f) : Backs s n f :=
  h.of_succ_of_settled fun _ => Settled.succ

theorem settled_of_forall (h : ∀ f g, answerStep s f q = answerStep s g q) : Settled s (n + 1) q :=
  fun f _ => (h f _).trans (answersWithin_succ s n q).symm

theorem Settled.step_eq (h : Settled s n q) (hf : Backs s n f) : answerStep s f q = f q := by
  cases n with
  | zero => exact h.elim
  | succ n => exact (h f hf.of_succ).trans (hf q h).symm

end PropContract.Resolver
