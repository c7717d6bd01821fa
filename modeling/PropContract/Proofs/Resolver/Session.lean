import PropContract.Proofs.Resolver.References

namespace PropContract.Resolver

open List

inductive Call where
  | resolve (symbol : Symbol)
  | take

inductive Answer where
  | props (result : Except ResolveError (List PropInfo))
  | definitions (table : Table Shape)

def Call.run (s : Setting) : Call → StateM Ledger Answer
  | resolve symbol => do return .props (← (resolveProps s symbol).run)
  | take => do return .definitions (← takeDefinitions)

def session (s : Setting) (calls : List Call) : StateM Ledger (List Answer) :=
  calls.mapM (Call.run s)

def Defines (table : Table Shape) (shapes : List Shape) : Prop :=
  ∀ shape ∈ shapes, ∀ name, shape.Mentions name → name ∈ table.keys

/-- Each table that is taken out defines the references in itself and in the properties that were
answered since the last one; `pending` are those properties. -/
def ReferencesDefined : List PropInfo → List Answer → Prop
  | _, [] => True
  | pending, .props (.ok ps) :: rest => ReferencesDefined (pending ++ ps) rest
  | pending, .props (.error _) :: rest => ReferencesDefined pending rest
  | pending, .definitions table :: rest =>
    Defines table (pending.map PropInfo.shape) ∧ Defines table table.values ∧
      ReferencesDefined [] rest

variable {l : Ledger}

theorem mem_keys_of_owed {name : String} (h : Ledger.Owed [] l name) :
    name ∈ l.definitions.keys := by
  rcases h with h | ⟨d, hd, -⟩
  · exact h
  · exact absurd hd not_mem_nil

theorem defines_own_values (hl : l.Closed []) : Defines l.definitions l.definitions.values := by
  intro shape hs name hm
  obtain ⟨entry, he, rfl⟩ := mem_map.mp hs
  exact mem_keys_of_owed (hl.definitions entry he name hm)

variable (s : Setting)

theorem call_closed (c : Call) (hl : l.Closed []) :
    ((c.run s).run l).2.Closed [] ∧ l.NamesGrow ((c.run s).run l).2 := by
  cases c with
  | take => exact ⟨⟨hl.names.of_names_eq rfl, forall_mem_nil _⟩, prefix_refl _⟩
  | resolve symbol =>
    obtain ⟨hg, hl', -⟩ := referenceLaw.resolveProps_keeps s symbol hl
    exact ⟨hl', hg.names⟩

theorem session_cons (c : Call) (calls : List Call) (l : Ledger) : (session s (c :: calls)).run l =
      (((c.run s).run l).1 :: ((session s calls).run ((c.run s).run l).2).1,
        ((session s calls).run ((c.run s).run l).2).2) := by
  rw [session, mapM_cons]
  rfl

theorem session_append (calls more : List Call) (l : Ledger) :
    ((session s (calls ++ more)).run l).2 =
      ((session s more).run ((session s calls).run l).2).2 := by
  induction calls generalizing l with
  | nil => rfl
  | cons c calls ih => simp only [cons_append, session_cons, ih]

theorem session_closed (calls : List Call) (hl : l.Closed []) :
    ((session s calls).run l).2.Closed [] ∧ l.NamesGrow ((session s calls).run l).2 := by
  induction calls generalizing l with
  | nil => exact ⟨hl, prefix_refl _⟩
  | cons c calls ih =>
    obtain ⟨hc, hg⟩ := call_closed s c hl
    obtain ⟨hr, hg'⟩ := ih hc
    rw [session_cons]
    exact ⟨hr, hg.trans hg'⟩

theorem session_defines (calls : List Call) (pending : List PropInfo) (l : Ledger)
    (hl : l.Closed []) (hp : Defines l.definitions (pending.map PropInfo.shape)) :
    ReferencesDefined pending ((session s calls).run l).1 := by
  induction calls generalizing pending l with
  | nil => trivial
  | cons c calls ih =>
    rw [session_cons]
    have hc := (call_closed s c hl).1
    cases c with
    | take => exact ⟨hp, defines_own_values hl, ih [] _ hc (by simp [Defines])⟩
    | resolve symbol =>
      obtain ⟨hg, -, ha⟩ := referenceLaw.resolveProps_keeps s symbol hl
      have hold : Defines ((resolveProps s symbol).run.run l).2.definitions
          (pending.map PropInfo.shape) :=
        fun shape hs name hm => hg.definitions name (hp shape hs name hm)
      change ReferencesDefined pending (.props ((resolveProps s symbol).run.run l).1 :: _)
      cases hr : ((resolveProps s symbol).run.run l).1 with
      | error e => exact ih pending _ hc hold
      | ok ps =>
        refine ih (pending ++ ps) _ hc ?_
        intro shape hs name hm
        rw [map_append] at hs
        rcases mem_append.mp hs with hs | hs
        · exact hold shape hs name hm
        · obtain ⟨p, hp, rfl⟩ := mem_map.mp hs
          exact mem_keys_of_owed (ha ps hr name (Shape.mentions_object.mpr ⟨p, hp, hm⟩))

theorem closed_empty : Ledger.Closed [] {} :=
  ⟨Ledger.wellNamed_empty, forall_mem_nil _⟩

/-- Whatever is asked of a new resolver, in any order: every table that is taken out of it has
among its keys every reference in itself and in the answers since the last one, and two different
declarations never have the same name, neither at one time nor at two. -/
theorem references_closed (s : Setting) (calls more : List Call) :
    ReferencesDefined [] ((session s calls).run {}).1 ∧
      ∀ d e name, ((session s calls).run {}).2.nameOf? d = some name →
        ((session s (calls ++ more)).run {}).2.nameOf? e = some name → d = e := by
  refine ⟨session_defines s calls [] {} closed_empty (by simp [Defines]), ?_⟩
  intro d e name hd he
  have hl := (session_closed s calls closed_empty).1
  obtain ⟨hl', hg⟩ := session_closed s more hl
  rw [← session_append] at hl' hg
  exact Ledger.eq_of_nameOf? hl'.names (Ledger.nameOf?_of_namesGrow hg hd) he

end PropContract.Resolver
