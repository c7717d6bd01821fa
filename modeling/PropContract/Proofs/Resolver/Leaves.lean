import PropContract.Proofs.Resolver.Opening

namespace PropContract.Resolver

open Syntax Relation List

def IsLeaf (p : Project) : Ty → Prop
  | .union _ | .written (.paren _) _ | .written (.union _) _ => False
  | .written (.reference path _) env => ∀ t, lookup p env path ≠ .param t
  | _ => True

variable {p : Project} {t u : Ty} {d : DeclRef} {seen : Seen} {w w' w'' : Walk}

theorem isLeaf_of_opening? (h : opening? p seen t = none) : IsLeaf p t := by
  cases t with
  | union ts => cases h
  | written t env =>
    cases t with
    | paren | union => cases h
    | reference path types =>
      intro t hl
      rw [opening?_param hl] at h
      cases h
    | _ => trivial
  | _ => trivial

theorem mem_seen_of_opening? {args : List Ty} {a : TypeAlias} (h : opening? p seen t = none)
    (hn : Names p t d args) (ha : aliasOf? p d = some a) (hunion : isUnion a.type = true) :
    d ∈ seen := by
  by_contra hd
  exact not_opens_of_opening? h _ (.named hn ha ⟨hunion, hd⟩)

namespace Walk

theorem Runs.acc (h : Runs p w w') (hend : w'.rest = []) : Acc (fun v v' => Step p v' v) w := by
  induction h using ReflTransGen.head_induction_on with
  | refl =>
    refine ⟨_, fun v hstep => ?_⟩
    cases hstep <;> cases hend
  | head hstep _ ih => exact ⟨_, fun v hstep' => hstep.unique hstep' ▸ ih⟩

def Expands (p : Project) (w w' : Walk) (d : DeclRef) : Prop :=
  ∃ t ts seen found args a, Names p t d args ∧ aliasOf? p d = some a ∧
    Runs p w ⟨t :: ts, seen, found⟩ ∧
    Step p ⟨t :: ts, seen, found⟩ ⟨aliasBody d a args :: ts, d :: seen, found⟩ ∧
    Runs p ⟨aliasBody d a args :: ts, d :: seen, found⟩ w'

theorem Expands.tail (h : Expands p w w' d) (hstep : Step p w' w'') : Expands p w w'' d := by
  obtain ⟨t, ts, seen, found, args, a, hn, ha, hbefore, hopen, hafter⟩ := h
  exact ⟨t, ts, seen, found, args, a, hn, ha, hbefore, hopen, hafter.tail hstep⟩

theorem Runs.mem_seen (h : Runs p w w') (hd : d ∈ w'.seen) : d ∈ w.seen ∨ Expands p w w' d := by
  induction h with
  | refl => exact .inl hd
  | tail hrun hstep ih =>
    have hlater := fun hd => (ih hd).imp_right fun h => h.tail hstep
    cases hstep with
    | leaf => exact hlater hd
    | opened hopen =>
      obtain ⟨-, ⟨rfl, -⟩ | ⟨d', args, a, hn, ha, -, rfl, rfl⟩⟩ := opening?_cases hopen
      · exact hlater hd
      · rcases mem_cons.mp hd with rfl | hd
        · exact .inr ⟨_, _, _, _, args, a, hn, ha, hrun, .opened hopen, .refl⟩
        · exact hlater hd

/-- A leaf is found where it comes next, after the leaves that stand before it. -/
theorem Runs.exists_found {before after : List Ty} (h : Runs p w w') (hw : w.found = [])
    (hfound : w'.found = before ++ u :: after) :
    ∃ ts seen, Runs p w ⟨u :: ts, seen, before⟩ ∧ opening? p seen u = none := by
  -- The run is read from its end: the last step that found a leaf found the last one.
  induction h generalizing after with
  | refl =>
    rw [hw] at hfound
    simp at hfound
  | tail hrun hstep ih =>
    cases hstep with
    | @leaf t ts found seen hleaf =>
      rcases eq_nil_or_concat after with rfl | ⟨after', t', rfl⟩
      · obtain ⟨rfl, ⟨⟩⟩ := append_inj' hfound rfl
        exact ⟨ts, seen, hrun, hleaf⟩
      · rw [concat_eq_append, ← cons_append, ← append_assoc] at hfound
        exact ih (append_inj_left' hfound rfl)
    | opened => exact ih hfound

end Walk

/-- No run goes on for ever, and one ends with the members of the union. Each of them is a leaf; one
that names a union comes after an expansion of that name. -/
theorem flatten_true_leaves (p : Project) (t : Ty) :
    Acc (fun v v' => Walk.Step p v' v) ⟨[t], [], []⟩ ∧
    (∃ seen, Walk.Runs p ⟨[t], [], []⟩ ⟨[], seen, flatten p t⟩) ∧
    ∀ before u after, flatten p t = before ++ u :: after → IsLeaf p u ∧
      ∃ ts seen, Walk.Runs p ⟨[t], [], []⟩ ⟨u :: ts, seen, before⟩ ∧
        ∀ d args a, Names p u d args → aliasOf? p d = some a → isUnion a.type = true →
          Walk.Expands p ⟨[t], [], []⟩ ⟨u :: ts, seen, before⟩ d := by
  obtain ⟨seen, hrun⟩ := exists_run p t
  refine ⟨Walk.Runs.acc hrun rfl, ⟨seen, hrun⟩, fun before u after hflat => ?_⟩
  obtain ⟨ts, seen', hnext, hleaf⟩ := Walk.Runs.exists_found hrun rfl hflat
  refine ⟨isLeaf_of_opening? hleaf, ts, seen', hnext, fun d args a hn ha hunion => ?_⟩
  have hd := mem_seen_of_opening? hleaf hn ha hunion
  exact (Walk.Runs.mem_seen hnext hd).resolve_left not_mem_nil

end PropContract.Resolver
