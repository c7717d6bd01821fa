import PropContract.Proofs.Project.Reading
import PropContract.Proofs.Resolver.Opening
import PropContract.Proofs.Resolver.Questions

/-!
Types that admit null. Three things hide a null: an alias that is not written as a union, the type
of a member under its key, and an alias that has been opened already, with another meaning.
-/

namespace PropContract.Resolver

open Syntax Relation List

/-- A type admits null or undefined: it is one of them, or it leads to a type that admits them,
through parentheses, a union, a type parameter, an alias or the key of a member. -/
inductive Admits (p : Project) (members : Ty → Option (List Member)) : Ty → Prop where
  | nullish : isNullish t = true → Admits p members t
  | opened : Opens p (fun _ _ => True) t u → Admits p members u → Admits p members t
  | indexed : indexed? p members (.written object env) (.written index env) = some u →
      Admits p members u → Admits p members (.written (.indexed object index) env)

/-- What hides that a type admits null, once all is opened that is opened. -/
inductive Hides (p : Project) (members : Ty → Option (List Member)) (root : Ty) : Prop where
  | byAlias : Reaches p (Fresh []) root t → Names p t d args → aliasOf? p d = some a →
      isUnion a.type = false → Admits p members t → Hides p members root
  | byKey : Reaches p (Fresh []) root (.written (.indexed object index) env) →
      Admits p members (.written (.indexed object index) env) → Hides p members root
  | byMeaning : isNullish u = true → Varies p root u → Hides p members root

section Null

variable {p : Project} {members : Ty → Option (List Member)}

theorem isPlain_of_isNullish {t : Ty} (h : isNullish t = true) : isPlain t = true := by
  unfold isNullish at h
  split at h
  · rfl
  · rfl
  · cases h

theorem Reaches.admits {may : DeclRef → TypeAlias → Prop} {t u : Ty} (h : Reaches p may t u)
    (hu : Admits p members u) : Admits p members t := by
  induction h using ReflTransGen.head_induction_on with
  | refl => exact hu
  | head hstep _ ih => exact .opened (hstep.mono fun _ _ _ => trivial) ih

theorem admits_of_admitsNullish {t : Ty} (h : admitsNullish p t = true) :
    Admits p members t := by
  obtain ⟨u, hu, hnull⟩ := any_eq_true.mp h
  exact (reaches_of_mem_flatten hu).admits (.nullish hnull)

theorem Hides.of_opens {t u : Ty} (hstep : Opens p (Fresh []) t u) (h : Hides p members u) :
    Hides p members t := by
  cases h with
  | byAlias hr hn ha hunion hadmits => exact .byAlias (.head hstep hr) hn ha hunion hadmits
  | byKey hr hadmits => exact .byKey (.head hstep hr) hadmits
  | byMeaning hnull hvaries =>
    obtain ⟨t₁, t₂, d, a, args, args', hr, hn, hr', hlast⟩ := hvaries
    exact .byMeaning hnull ⟨t₁, t₂, d, a, args, args', .head hstep hr, hn, .head hstep hr', hlast⟩

theorem Admits.reaches_or_hides {t : Ty} (h : Admits p members t) :
    (∃ u, isNullish u = true ∧ Reaches p (Fresh []) t u) ∨ Hides p members t := by
  induction h with
  | nullish hnull => exact .inl ⟨_, hnull, .refl⟩
  | indexed hu hadmits => exact .inr (.byKey .refl (.indexed hu hadmits))
  | @opened t u hstep hadmits ih =>
    by_cases hopen : Opens p (Fresh []) t u
    · rcases ih with ⟨v, hnull, hr⟩ | hhides
      · exact .inl ⟨v, hnull, .head hopen hr⟩
      · exact .inr (hhides.of_opens hopen)
    · -- Only an alias that is not written as a union is left closed.
      cases hstep with
      | paren => exact absurd .paren hopen
      | branch ht => exact absurd (.branch ht) hopen
      | among ht => exact absurd (.among ht) hopen
      | param hl => exact absurd (.param hl) hopen
      | @named _ d args a hn ha _ =>
        have hunion : isUnion a.type = false := by
          by_contra hunion
          exact hopen (.named hn ha ⟨by simpa using hunion, not_mem_nil⟩)
        exact .inr (.byAlias .refl hn ha hunion (.opened (.named hn ha trivial) hadmits))

theorem Admits.admitsNullish_or_hides {t : Ty} (h : Admits p members t) :
    admitsNullish p t = true ∨ Hides p members t := by
  rcases h.reaches_or_hides with ⟨u, hnull, hr⟩ | hhides
  · rcases mem_flatten_of_reaches (isPlain_of_isNullish hnull) hr with hu | hvaries
    · exact .inl (any_eq_true.mpr ⟨u, hu, hnull⟩)
    · exact .inr (.byMeaning hnull hvaries)
  · exact .inr hhides

theorem Tells.required_eq_false_iff {m : Member} {q : PropInfo} (h : Tells p m q)
    (hnull : p.options.nullChecks = true) :
    q.required = false ↔ m.isOptional = true ∨ admitsNullish p m.type = true := by
  rw [h.required, hnull]
  cases m.isOptional <;> cases admitsNullish p m.type <;> simp

end Null

/-- Where null is told apart, only a member that is optional or admits null gives an optional
property, and all of them do, unless something hides the null. -/
theorem nullable_optional_unless_hidden {s : Setting} {symbol : Symbol} {l : Ledger}
    {props : List PropInfo} (hnull : s.project.options.nullChecks = true)
    (h : ((resolveProps s symbol).run.run l).1 = .ok props) :
    ∃ E ms, Describes s symbol E ms ∧
      Forall₂ (fun m q => q.name = m.name ∧ (m.isOptional = true → q.required = false) ∧
        ∀ E', (q.required = false → m.isOptional = true ∨
            Admits s.project (membersWithin s.project stepLimit E') m.type) ∧
          (Admits s.project (membersWithin s.project stepLimit E') m.type →
            q.required = false ∨
              Hides s.project (membersWithin s.project stepLimit E') m.type)) ms props := by
  obtain ⟨E, ms, hms, htells⟩ := answer_tells h
  refine ⟨E, ms, hms, htells.imp fun m q hq => ?_⟩
  have hrequired := hq.required_eq_false_iff hnull
  refine ⟨hq.name, fun hoptional => hrequired.mpr (.inl hoptional), fun E' => ⟨?_, ?_⟩⟩
  · exact fun hfalse => (hrequired.mp hfalse).imp id admits_of_admitsNullish
  · exact fun hadmits => hadmits.admitsNullish_or_hides.imp (fun ha => hrequired.mpr (.inr ha)) id

def maybeText : String :=
  "type Maybe = string | null;\ntype M = Maybe;\ninterface P \x7b a: Maybe; b: M \x7d\n"

def isMaybe : Project → Bool
  | ⟨⟨true, none, _, _, _, _⟩, [⟨_, _, _, _, ⟨[
      ("Maybe", [.typeAlias ⟨"Maybe", [], .union [.keyword .string, .keyword .null]⟩]),
      ("M", [.typeAlias ⟨"M", [], .reference ["Maybe"] []⟩]),
      ("P", [.interface ⟨"P", [], [], [
        .property ⟨_, _, .bare "a", false, none⟩ _ (some (.reference ["Maybe"] [])),
        .property ⟨_, _, .bare "b", false, none⟩ _ (some (.reference ["M"] []))]⟩])],
      _, _, _, _⟩, _⟩]⟩ => true
  | _ => false

theorem maybe_read :
    ∃ p, Project.ofSources {} { strict := true } [(⟨"/a.ts"⟩, maybeText)] = .ok p ∧ isMaybe p :=
  Project.exists_ok_of_any (by decide +kernel)

section Maybe

variable {p : Project} (hp : isMaybe p)
include hp

theorem nullChecks_maybe : p.options.nullChecks = true := by
  unfold isMaybe at hp
  split at hp
  · rfl
  · cases hp

theorem maybe_answer :
    ∃ q q', ((resolveProps ⟨p, 6⟩ (.named 0 "P")).run.run {}).1 = .ok [q, q'] ∧
      q.required = false ∧ q'.required = true := by
  unfold isMaybe at hp
  split at hp
  · exact ⟨_, _, rfl, rfl, rfl⟩
  · cases hp

theorem eq_rootMembers_maybe {E : Expanding} {ms : List Member}
    (h : Describes ⟨p, 6⟩ (.named 0 "P") E ms) : ms = rootMembers ⟨p, 6⟩ ⟨0, "P"⟩ := by
  unfold isMaybe at hp
  split at hp
  · cases h with
    | declared habout =>
      cases habout with
      | named hd => rw [← Resolution.declared.inj (Option.some.inj hd)]
    | outside h => cases h
  · cases hp

theorem admits_maybe (members : Ty → Option (List Member)) (args : List Ty) :
    Admits p members (.written (.reference ["Maybe"] []) ((Env.file 0).bindParams [] args)) := by
  have hunion (env : Env) :
      Admits p members (.written (.union [.keyword .string, .keyword .null]) env) :=
    .opened (.branch (mem_cons_of_mem _ (mem_singleton_self _))) (.nullish rfl)
  unfold isMaybe at hp
  split at hp
  · exact .opened (.named ⟨["Maybe"], [], _, rfl, rfl, rfl⟩ rfl trivial) (hunion _)
  · cases hp

theorem rootMembers_maybe :
    ∃ m m', rootMembers ⟨p, 6⟩ ⟨0, "P"⟩ = [m, m'] ∧
      ∀ members, Admits p members m.type ∧ Admits p members m'.type := by
  have hmaybe := admits_maybe hp
  unfold isMaybe at hp
  split at hp
  · exact ⟨_, _, rfl, fun members => ⟨hmaybe members [],
      .opened (.named ⟨["M"], [], _, rfl, rfl, rfl⟩ rfl trivial) (hmaybe members [])⟩⟩
  · cases hp

end Maybe

theorem nullable_optional_unless_hidden_maybe :
    ∃ p, Project.ofSources {} { strict := true } [(⟨"/a.ts"⟩, maybeText)] = .ok p ∧
      p.options.nullChecks = true ∧
      ∃ m m' q q', rootMembers ⟨p, 6⟩ ⟨0, "P"⟩ = [m, m'] ∧
        ((resolveProps ⟨p, 6⟩ (.named 0 "P")).run.run {}).1 = .ok [q, q'] ∧
        q.required = false ∧ q'.required = true ∧
        ∀ E, Hides p (membersWithin p stepLimit E) m'.type := by
  obtain ⟨p, hread, hp⟩ := maybe_read
  obtain ⟨q, q', hanswer, hq, hq'⟩ := maybe_answer hp
  obtain ⟨m, m', hm, hadmits⟩ := rootMembers_maybe hp
  obtain ⟨E, ms, hms, htold⟩ := nullable_optional_unless_hidden (nullChecks_maybe hp) hanswer
  rw [eq_rootMembers_maybe hp hms, hm] at htold
  refine ⟨p, hread, nullChecks_maybe hp, m, m', q, q', hm, hanswer, hq, hq', fun E' => ?_⟩
  cases htold with
  | cons _ htold =>
    cases htold with
    | cons htold _ =>
      refine ((htold.2.2 E').2 (hadmits _).2).resolve_left ?_
      simp [hq']

/-- All members admit null, and one of them gives a property that is required. -/
theorem alias_of_alias_required :
    ∃ p, Project.ofSources {} { strict := true } [(⟨"/a.ts"⟩, maybeText)] = .ok p ∧
      p.options.nullChecks = true ∧
      (∀ E ms, Describes ⟨p, 6⟩ (.named 0 "P") E ms → ∀ m ∈ ms,
        Admits p (membersWithin p stepLimit []) m.type) ∧
      ∃ props, ((resolveProps ⟨p, 6⟩ (.named 0 "P")).run.run {}).1 = .ok props ∧
        ∃ q ∈ props, q.required = true := by
  obtain ⟨p, hread, hp⟩ := maybe_read
  obtain ⟨q, q', hanswer, -, hq'⟩ := maybe_answer hp
  obtain ⟨m, m', hm, hadmits⟩ := rootMembers_maybe hp
  refine ⟨p, hread, nullChecks_maybe hp, fun E ms hms => ?_, _, hanswer, q', by simp, hq'⟩
  rw [eq_rootMembers_maybe hp hms, hm]
  simp [hadmits]

end PropContract.Resolver
