import PropContract.Proofs.Project.Reading
import PropContract.Proofs.Shape.Meaning
import PropContract.Resolver.Props

/-!
The shapes of enums. A member that is given by no literal adds nothing, and the next one is counted
as if it were not there.
-/

namespace PropContract

open Syntax List Shape

namespace Syntax.Expr

inductive Means : Expr → Literal → Prop where
  | string (v : String) : Means (.string v) (.string v)
  | number (v : Double) : Means (.number v) (.number v)
  | boolean (v : Bool) : Means (.boolean v) (.boolean v)
  | null : Means .null .null
  | template (text : String) : Means (.template [text] []) (.string (Lexer.resolve text))
  | negative (h : Means e (.number v)) : Means (.negate e) (.number v.neg)
  | paren (h : Means e v) : Means (.paren e) v

inductive HasEscapes : Expr → Prop where
  | template (h : Lexer.resolve text ≠ text) : HasEscapes (.template [text] [])
  | paren (h : HasEscapes e) : HasEscapes (.paren e)

variable {e : Expr} {v : Literal}

theorem Means.literal?_eq (h : e.Means v) :
    (¬ e.HasEscapes ∨ ∃ x, v = .number x) → e.literal? = some v := by
  induction h with
  | string | number | boolean | null => exact fun _ => rfl
  | template text =>
    rintro (hplain | ⟨x, hx⟩)
    · have htext : Lexer.resolve text = text := not_not.mp fun h => hplain (.template h)
      rw [htext, literal?]
      simp [String.join]
    · cases hx
  | negative h ih =>
    intro _
    rw [literal?, ih (.inr ⟨_, rfl⟩)]
    rfl
  | paren h ih =>
    intro hplain
    rw [literal?]
    exact ih (hplain.imp_left fun hplain h => hplain (.paren h))

end Syntax.Expr

namespace Resolver

/-- The member at a place of an enum has a value: that of a literal, or one more than the number
before it. The first one is zero. -/
inductive EnumValue (ms : List EnumMember) : Nat → Literal → Prop where
  | first (hm : ms[0]? = some (.mk name isQuoted none)) : EnumValue ms 0 (.number (.zero false))
  | next (h : EnumValue ms k (.number x)) (hm : ms[k + 1]? = some (.mk name isQuoted none)) :
      EnumValue ms (k + 1) (.number x.addOne)
  | literal (hm : ms[k]? = some (.mk name isQuoted (some e))) (h : e.Means v) : EnumValue ms k v

def EscapesAt (ms : List EnumMember) (k : Nat) : Prop :=
  ∃ name isQuoted e, ms[k]? = some (.mk name isQuoted (some e)) ∧ e.HasEscapes

def memberValue? (next : Double) : EnumMember → Option (String × Literal)
  | .mk name _ none => some (name, .number next)
  | .mk name _ (some e) => e.literal?.map fun v => (name, v)

def following (next : Double) (m : EnumMember) : Double :=
  match memberValue? next m with
  | some (_, .number n) => n.addOne
  | _ => next

theorem enumEntries_cons (next : Double) (m : EnumMember) (ms : List EnumMember) :
    enumEntries next (m :: ms) =
      (memberValue? next m).toList ++ enumEntries (following next m) ms := by
  obtain ⟨name, isQuoted, init⟩ := m
  cases init with
  | none => rfl
  | some e =>
    simp only [enumEntries, following, memberValue?]
    rcases e.literal? with _ | (_ | _ | _ | _) <;> rfl

def counter (ms : List EnumMember) (k : Nat) : Double :=
  (ms.take k).foldl following (.zero false)

variable {k : Nat} {ms : List EnumMember} {entry : String × Literal} {d : DeclRef}

theorem counter_succ {m : EnumMember} (hm : ms[k]? = some m) :
    counter ms (k + 1) = following (counter ms k) m := by
  rw [counter, take_add_one, hm, foldl_append]
  rfl

theorem mem_enumEntries_iff {next : Double} :
    entry ∈ enumEntries next ms ↔ ∃ k m, ms[k]? = some m ∧
      memberValue? ((ms.take k).foldl following next) m = some entry := by
  induction ms generalizing next with
  | nil => simp [enumEntries]
  | cons m ms ih =>
    rw [enumEntries_cons, mem_append, Option.mem_toList, ih]
    constructor
    · rintro (h | ⟨k, m', hm', h⟩)
      · exact ⟨0, m, rfl, h⟩
      · exact ⟨k + 1, m', hm', h⟩
    · rintro ⟨_ | k, m', hm', h⟩
      · cases hm'
        exact .inl h
      · exact .inr ⟨k, m', hm', h⟩

theorem EnumValue.read {v : Literal} (h : EnumValue ms k v) :
    ∃ m, ms[k]? = some m ∧
      ((¬ EscapesAt ms k ∨ ∃ x, v = .number x) →
        ∃ name, memberValue? (counter ms k) m = some (name, v)) := by
  induction h with
  | first hm => exact ⟨_, hm, fun _ => ⟨_, rfl⟩⟩
  | @next k x name isQuoted h hm ih =>
    obtain ⟨m, hbefore, hread⟩ := ih
    obtain ⟨other, hentry⟩ := hread (.inr ⟨x, rfl⟩)
    refine ⟨_, hm, fun _ => ⟨name, ?_⟩⟩
    rw [counter_succ hbefore, following, hentry]
    rfl
  | @literal k v name isQuoted e hm h =>
    refine ⟨_, hm, fun hplain => ⟨name, ?_⟩⟩
    have hliteral := h.literal?_eq (hplain.imp_left fun hplain he => hplain ⟨_, _, _, hm, he⟩)
    rw [memberValue?, hliteral]
    rfl

theorem EnumValue.mem_entries {v : Literal} (h : EnumValue ms k v) (hplain : ¬ EscapesAt ms k) :
    ∃ name, (name, v) ∈ enumEntries (.zero false) ms := by
  obtain ⟨m, hm, hread⟩ := h.read
  obtain ⟨name, hentry⟩ := hread (.inl hplain)
  exact ⟨name, mem_enumEntries_iff.mpr ⟨k, m, hm, hentry⟩⟩

theorem exists_enumValue_of_mem (h : ∀ k < ms.length, (∃ v, EnumValue ms k v) ∧ ¬ EscapesAt ms k)
    (he : entry ∈ enumEntries (.zero false) ms) : ∃ k, EnumValue ms k entry.2 := by
  obtain ⟨k, m, hm, hentry⟩ := mem_enumEntries_iff.mp he
  obtain ⟨⟨v, hv⟩, hplain⟩ := h k (List.getElem?_eq_some_iff.mp hm).1
  obtain ⟨m', hm', hread⟩ := hv.read
  obtain ⟨name, hread⟩ := hread (.inl hplain)
  rw [hm, Option.some.injEq] at hm'
  subst hm'
  rw [counter, hentry, Option.some.injEq] at hread
  subst hread
  exact ⟨k, hv⟩

theorem enumEntries_ne_nil (h : ∀ k < ms.length, (∃ v, EnumValue ms k v) ∧ ¬ EscapesAt ms k)
    (hne : ms ≠ []) : enumEntries (.zero false) ms ≠ [] := by
  obtain ⟨⟨v, hv⟩, hplain⟩ := h 0 (length_pos_iff.mpr hne)
  obtain ⟨name, hmem⟩ := hv.mem_entries hplain
  exact ne_nil_of_mem hmem

theorem admits_classify_literals {given : Shape → Value → Prop}
    (hgiven : ∀ s t, s.same t = true → ∀ v, given s v ↔ given t v)
    {entries : List (String × Literal)} (hne : entries ≠ []) (w : Value) :
    Shape.Admits given (.classify (entries.map fun entry => .literal entry.2)) w ↔
      ∃ entry ∈ entries, entry.2.equals w = true := by
  obtain ⟨hany, -⟩ | ⟨-, heq⟩ := classify_cases (entries.map fun entry => .literal entry.2)
  · obtain ⟨entry, -, hentry⟩ := mem_map.mp (mem_distinct hany)
    cases hentry
  · have hshapes : (entries.map fun entry => Shape.literal entry.2) ≠ [] := by simpa using hne
    rw [heq, admits_combine (steps_ne_nil hshapes), admits_absorb,
      admits_joinBooleans, admits_distinct hgiven]
    simp

theorem enumMembers?_eq_some_iff {declared : Declared} :
    enumMembers? declared = some ms ↔ declared = .enum ms := by
  cases declared <;> simp [enumMembers?]

def enumReadings (p : Project) (d : DeclRef) : List (String × Literal) :=
  ((p.declarations d).filterMap enumMembers?).flatMap (enumEntries (.zero false))

theorem mem_enumReadings {p : Project} :
    entry ∈ enumReadings p d ↔
      ∃ ms, .enum ms ∈ p.declarations d ∧ entry ∈ enumEntries (.zero false) ms := by
  simp [enumReadings, enumMembers?_eq_some_iff]

theorem enumValues?_of_enum {p : Project} (h : .enum ms ∈ p.declarations d) :
    enumValues? p d = some (enumReadings p d) := by
  have hms : ms ∈ (p.declarations d).filterMap enumMembers? :=
    mem_filterMap.mpr ⟨_, h, rfl⟩
  rw [enumValues?, enumReadings]
  split
  · rename_i hnil
    rw [hnil] at hms
    cases hms
  · rfl

theorem shapeWithin_enum {s : Setting} {env : Env} {path : List String}
    (hname : lookup s.project env path = .decl d)
    (hinterface : (s.project.declarations d).any isInterface = false)
    (halias : aliasOf? s.project d = none) (henum : .enum ms ∈ s.project.declarations d) (n : Nat)
    (E : Expanding) (args : List TypeExpr) (depth : Nat) (l : Ledger) :
    (shapeWithin s (n + 1) E (.written (.reference path args) env) depth).run l =
      (.classify ((enumReadings s.project d).map fun entry => .literal entry.2), l) := by
  change (referenceShape s _ _ E depth env path (env.all args)).run l = _
  simp only [referenceShape, hname, declShape, hinterface, halias, enumValues?_of_enum henum]
  rfl

/-- The name of an enum has a shape that admits the value of every member that has one, in every
declaration of the enum; and if every member has one, it admits nothing else. Templates are read
without resolving their escapes. -/
theorem enum_shape_admits_members {s : Setting} {env : Env} {path : List String} {d : DeclRef}
    (hname : lookup s.project env path = .decl d)
    (hinterface : (s.project.declarations d).any isInterface = false)
    (halias : aliasOf? s.project d = none) (henum : (s.project.declarations d).any isEnum = true)
    {given : Shape → Value → Prop}
    (hgiven : ∀ s t, s.same t = true → ∀ v, given s v ↔ given t v) (n : Nat) (E : Expanding)
    (args : List TypeExpr) (depth : Nat) (l : Ledger) :
    ∃ shape, (shapeWithin s (n + 1) E (.written (.reference path args) env) depth).run l =
        (shape, l) ∧
      (∀ ms, .enum ms ∈ s.project.declarations d → ∀ k v, EnumValue ms k v → ¬ EscapesAt ms k →
        ∀ w, v.equals w = true → Shape.Admits given shape w) ∧
      ((∀ ms, .enum ms ∈ s.project.declarations d → ∀ k < ms.length,
          (∃ v, EnumValue ms k v) ∧ ¬ EscapesAt ms k) →
        (∃ ms, .enum ms ∈ s.project.declarations d ∧ ms ≠ []) →
        ∀ w, Shape.Admits given shape w →
          ∃ ms k v, .enum ms ∈ s.project.declarations d ∧ EnumValue ms k v ∧
            v.equals w = true) := by
  obtain ⟨declared, hdeclared, hisEnum⟩ := any_eq_true.mp henum
  obtain ⟨members, rfl⟩ : ∃ ms, declared = .enum ms := by
    cases declared <;> simp_all [isEnum]
  refine ⟨_, shapeWithin_enum hname hinterface halias hdeclared n E args depth l, ?_, ?_⟩
  · intro ms hms k v hv hplain w hw
    obtain ⟨name, hentry⟩ := hv.mem_entries hplain
    have hread := mem_enumReadings.mpr ⟨ms, hms, hentry⟩
    exact (admits_classify_literals hgiven (ne_nil_of_mem hread) w).mpr ⟨_, hread, hw⟩
  · rintro hall ⟨ms, hms, hne⟩ w hw
    obtain ⟨entry, hentry⟩ := exists_mem_of_ne_nil _ (enumEntries_ne_nil (hall ms hms) hne)
    have hread := mem_enumReadings.mpr ⟨ms, hms, hentry⟩
    obtain ⟨entry, hentry, hequals⟩ :=
      (admits_classify_literals hgiven (ne_nil_of_mem hread) w).mp hw
    obtain ⟨ms, hms, hentry⟩ := mem_enumReadings.mp hentry
    obtain ⟨k, hk⟩ := exists_enumValue_of_mem (hall ms hms) hentry
    exact ⟨ms, k, entry.2, hms, hk, hequals⟩

def enumText : String :=
  "enum Level \x7b Low, Mid = 5, High \x7d\nenum Level \x7b Off = 'off' \x7d\n" ++
    "enum Flag \x7b A, B = 1 << 2, C \x7d\n"

def levels : List Declared :=
  [.enum [.mk "Low" false none, .mk "Mid" false (some (.number (.ofNat 5))), .mk "High" false none],
    .enum [.mk "Off" false (some (.string "off"))]]

def flags : List Declared :=
  [.enum [.mk "A" false none,
    .mk "B" false (some (.binary "<<" (.number (.ofNat 1)) (.number (.ofNat 2)))),
    .mk "C" false none]]

def hasEnums : Project → Bool
  | ⟨_, [⟨_, _, _, _, ⟨[
      ("Level", [.enum [.mk "Low" false none, .mk "Mid" false (some (.number mid)),
        .mk "High" false none], .enum [.mk "Off" false (some (.string "off"))]]),
      ("Flag", [.enum [.mk "A" false none,
        .mk "B" false (some (.binary "<<" (.number one) (.number two))), .mk "C" false none]])],
      _, _, _, _⟩, _⟩]⟩ => mid = .ofNat 5 ∧ one = .ofNat 1 ∧ two = .ofNat 2
  | _ => false

theorem enums_read : ∃ p, Project.ofSources {} {} [(⟨"/a.ts"⟩, enumText)] = .ok p ∧
    (lookup p (.file 0) ["Level"] = .decl ⟨0, "Level"⟩ ∧ p.declarations ⟨0, "Level"⟩ = levels) ∧
    lookup p (.file 0) ["Flag"] = .decl ⟨0, "Flag"⟩ ∧ p.declarations ⟨0, "Flag"⟩ = flags := by
  obtain ⟨p, hp, h⟩ : ∃ p, Project.ofSources {} {} [(⟨"/a.ts"⟩, enumText)] = .ok p ∧ hasEnums p :=
    Project.exists_ok_of_any (by decide +kernel)
  refine ⟨p, hp, ?_⟩
  clear hp
  unfold hasEnums at h
  split at h
  · obtain ⟨rfl, rfl, rfl⟩ := of_decide_eq_true h
    exact ⟨⟨rfl, rfl⟩, rfl, rfl⟩
  · cases h

theorem enum_shape_admits_members_levels :
    ∃ p shape, Project.ofSources {} {} [(⟨"/a.ts"⟩, enumText)] = .ok p ∧
      (shapeWithin ⟨p, 6⟩ stepLimit [] (.written (.reference ["Level"] []) (.file 0)) 1).run {} =
        (shape, {}) ∧
      Shape.Admits (fun _ _ => False) shape (.number (.ofNat 6)) ∧
      Shape.Admits (fun _ _ => False) shape (.string "off") := by
  obtain ⟨p, hp, ⟨hname, hd⟩, -⟩ := enums_read
  obtain ⟨shape, hrun, hadmits, -⟩ := enum_shape_admits_members (s := ⟨p, 6⟩) hname
    (by rw [hd]; rfl) (by rw [aliasOf?, hd]; rfl) (by rw [hd]; rfl)
    (fun _ _ _ _ => (Iff.rfl : False ↔ False)) 95 [] [] 1 {}
  rw [hd] at hadmits
  refine ⟨p, shape, hp, hrun, ?_, ?_⟩
  · refine hadmits _ mem_cons_self 2 _ (.next (.literal rfl (.number _)) rfl) ?_ _
      (by decide +kernel)
    rintro ⟨_, _, _, hm, -⟩
    cases hm
  · refine hadmits _ (mem_cons_of_mem _ mem_cons_self) 0 _ (.literal rfl (.string "off"))
      ?_ _ rfl
    rintro ⟨_, _, _, hm, hescapes⟩
    cases hm
    cases hescapes

/-- The second member is four and the third one five. The shape admits neither of them. -/
theorem shifted_flags_missing :
    ∃ p shape, Project.ofSources {} {} [(⟨"/a.ts"⟩, enumText)] = .ok p ∧
      (shapeWithin ⟨p, 6⟩ stepLimit [] (.written (.reference ["Flag"] []) (.file 0)) 1).run {} =
        (shape, {}) ∧
      ¬ Shape.Admits (fun _ _ => True) shape (.number (.ofNat 4)) ∧
      ¬ Shape.Admits (fun _ _ => True) shape (.number (.ofNat 5)) := by
  obtain ⟨p, hp, -, hname, hd⟩ := enums_read
  have hrun := shapeWithin_enum (s := ⟨p, 6⟩) hname (by rw [hd]; rfl) (by rw [aliasOf?, hd]; rfl)
    (by rw [hd]; exact mem_cons_self) 95 [] [] 1 {}
  have hread : enumReadings p ⟨0, "Flag"⟩ =
      [("A", .number (.zero false)), ("C", .number (.ofNat 1))] := by
    rw [enumReadings, hd]
    decide +kernel
  rw [hread] at hrun
  refine ⟨p, _, hp, hrun, ?_, ?_⟩
  · rw [admits_classify_literals (fun _ _ _ _ => Iff.rfl) (by simp)]
    decide +kernel
  · rw [admits_classify_literals (fun _ _ _ _ => Iff.rfl) (by simp)]
    decide +kernel

end Resolver

end PropContract
