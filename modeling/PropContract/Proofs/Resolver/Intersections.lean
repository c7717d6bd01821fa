import PropContract.Proofs.Resolver.Members

/-!
The members of nested intersections: the first occurrence of a name gives its place and the last
one its meaning, however parentheses stand.
-/

namespace PropContract

open List Table

variable {found : List (List Member)}

theorem Table.keys_foldl_put {α β : Type} (key : β → String) (value : Table α → β → α)
    (xs : List β) :
    (xs.foldl (fun (t : Table α) x => t.put (key x) (value t x)) []).keys =
      (xs.map key).eraseDups := by
  induction xs using List.reverseRecOn with
  | nil => rfl
  | append_singleton xs x ih =>
    rw [foldl_append, foldl_cons, foldl_nil, keys_put, ih, map_append,
      map_singleton, eraseDups_concat]
    simp only [mem_eraseDups]

theorem Table.ext_get? {α : Type} {t t' : Table α} (hkeys : t.keys = t'.keys)
    (hdistinct : t.keys.Nodup) (hget : ∀ name, t.get? name = t'.get? name) : t = t' := by
  induction t generalizing t' with
  | nil =>
    cases t' with
    | nil => rfl
    | cons => simp [keys] at hkeys
  | cons entry rest ih =>
    cases t' with
    | nil => simp [keys] at hkeys
    | cons entry' rest' =>
      obtain ⟨key, value⟩ := entry
      obtain ⟨key', value'⟩ := entry'
      obtain ⟨rfl, hrest⟩ : key = key' ∧ keys rest = keys rest' := by simpa [keys] using hkeys
      obtain ⟨hnew, hdistinct⟩ := nodup_cons.mp hdistinct
      have hvalue : value = value' := by simpa [get?] using hget key
      rw [hvalue, ih hrest hdistinct fun name => ?_]
      by_cases hname : key = name
      · subst hname
        rw [get?_eq_none_of_not_mem hnew, get?_eq_none_of_not_mem (hrest ▸ hnew)]
      · simpa [get?, hname] using hget name

namespace Resolver

open Syntax

section Merge

theorem merge_append (table : Table Member) (ms ms' : List Member) :
    merge table (ms ++ ms') = merge (merge table ms) ms' :=
  foldl_append

variable (ms : List Member)

theorem keys_merge : (merge [] ms).keys = (ms.map Member.name).eraseDups :=
  keys_foldl_put Member.name (fun _ m => m) ms

theorem get?_merge (name : String) :
    (merge [] ms).get? name = ms.reverse.find? fun m => m.name == name := by
  induction ms using List.reverseRecOn with
  | nil => rfl
  | append_singleton ms m ih =>
    rw [merge_append, merge, foldl_cons, foldl_nil, get?_put, ih,
      reverse_append, reverse_singleton, singleton_append]
    by_cases hm : m.name = name
    · rw [if_pos hm, find?_cons_of_pos (by simpa using hm)]
    · rw [if_neg hm, find?_cons_of_neg (by simpa using hm)]

theorem names_merge : (merge [] ms).values.map Member.name = (ms.map Member.name).eraseDups := by
  have hkeys : (merge [] ms).values.map Member.name = (merge [] ms).keys := by
    simp only [Table.values, Table.keys, map_map]
    exact map_congr_left (keyed_merge (.nil _) ms).told
  rw [hkeys, keys_merge]

theorem find?_values_merge (name : String) :
    ((merge [] ms).values.reverse.find? fun m => m.name == name) =
      ms.reverse.find? fun m => m.name == name := by
  have hkeyed : (merge [] ms).Keyed Member.name := keyed_merge (.nil _) ms
  rw [← get?_merge ms name]
  cases hget : (merge [] ms).get? name with
  | none =>
    rw [find?_eq_none]
    intro m hm hname
    obtain ⟨entry, hentry, rfl⟩ := mem_map.mp (mem_reverse.mp hm)
    rw [beq_iff_eq, hkeyed.told entry hentry] at hname
    rw [← hname, get?_of_mem hkeyed.distinct hentry] at hget
    cases hget
  | some m =>
    have hentry := mem_of_get? hget
    have hm : m ∈ (merge [] ms).values := mem_map_of_mem hentry
    cases hfind : (merge [] ms).values.reverse.find? fun m => m.name == name with
    | none =>
      have hnone := find?_eq_none.mp hfind m (mem_reverse.mpr hm)
      exact absurd (beq_iff_eq.mpr (hkeyed.told _ hentry)) hnone
    | some m' =>
      obtain ⟨entry, hentry', rfl⟩ :=
        mem_map.mp (mem_reverse.mp (mem_of_find?_eq_some hfind))
      have hname : entry.1 = name :=
        (hkeyed.told entry hentry').symm.trans (by simpa using find?_some hfind)
      have hsame := get?_of_mem hkeyed.distinct hentry'
      rw [hname, hget] at hsame
      exact hsame.symm

theorem merge_values (ms ms' : List Member) :
    merge [] (ms ++ (merge [] ms').values) = merge [] (ms ++ ms') := by
  apply ext_get?
  · rw [keys_merge, keys_merge, map_append, map_append, names_merge,
      eraseDups_append_eraseDups]
  · exact (keyed_merge (.nil _) _).distinct
  · intro name
    rw [get?_merge, get?_merge, reverse_append, reverse_append, find?_append,
      find?_append, find?_values_merge]

end Merge

def together (found : List (List Member)) : Option (List Member) :=
  if found.isEmpty then none else some (merge [] found.flatten).values

theorem intersectionMembers_eq (members : Ty → Option (List Member)) (parts : List Ty) :
    intersectionMembers members parts = together (parts.filterMap members) := by
  have hfold (found : List (List Member)) (table : Table Member) :
      found.foldl merge table = merge table found.flatten := by
    induction found generalizing table with
    | nil => rfl
    | cons ms found ih => rw [foldl_cons, ih, flatten_cons, merge_append]
  unfold intersectionMembers together
  dsimp only
  rw [hfold]

theorem together_eq_none_iff :
    together found = none ↔ found = [] := by
  cases found <;> simp [together]

theorem together_of_ne_nil (h : found ≠ []) :
    together found = some (merge [] found.flatten).values := by
  simp [together, h]

theorem together_singleton {ms : List Member} (h : NamesApart ms) : together [ms] = some ms := by
  let entries : Table Member := ms.map fun m => (m.name, m)
  have hentries : merge [] ms = entries := by
    have hkeys : entries.keys.Nodup := by
      rw [Table.keys, map_map]
      exact h
    rw [← ofEntries_of_nodup hkeys, Table.ofEntries, Table.putAll, foldl_map]
    rfl
  rw [together, flatten_singleton, hentries, Table.values, map_map]
  exact congrArg some (map_id ms)

variable (groups : List (List (List Member)))

theorem merge_groups (ms : List Member) : merge [] (ms ++ (groups.filterMap together).flatten) =
      merge [] (ms ++ groups.flatten.flatten) := by
  induction groups generalizing ms with
  | nil => rfl
  | cons found groups ih =>
    by_cases hfound : found = []
    · subst hfound
      exact ih ms
    · rw [filterMap_cons_some (together_of_ne_nil hfound), flatten_cons,
        ← append_assoc, ih, merge_append, merge_values, ← merge_append, flatten_cons,
        flatten_append, append_assoc]

theorem together_groups : together (groups.filterMap together) = together groups.flatten := by
  have hempty : groups.filterMap together = [] ↔ groups.flatten = [] := by
    simp [filterMap_eq_nil_iff, together_eq_none_iff]
  by_cases hflat : groups.flatten = []
  · rw [hempty.mpr hflat, hflat]
  · rw [together_of_ne_nil hflat, together_of_ne_nil (mt hempty.mp hflat),
      ← nil_append (List.flatten _), merge_groups]
    rfl

mutual

def conjuncts : TypeExpr → List TypeExpr
  | .paren t => conjuncts t
  | .intersection ts => conjunctsAll ts
  | t => [t]

def conjunctsAll : List TypeExpr → List TypeExpr
  | [] => []
  | t :: ts => conjuncts t ++ conjunctsAll ts

end

section Nest

variable (p : Project) (E : Expanding) (env : Env)

mutual

/-- With `n` steps every leaf is reached, and more steps would find no other members there. -/
def ReachesLeaves : TypeExpr → Nat → Prop
  | .paren t, n => 0 < n ∧ ReachesLeaves t (n - 1)
  | .intersection ts, n => 0 < n ∧ ReachesAllLeaves ts (n - 1)
  | t, n => ∀ m, n ≤ m → membersWithin p m E (.written t env) = membersWithin p n E (.written t env)

def ReachesAllLeaves : List TypeExpr → Nat → Prop
  | [], _ => True
  | t :: ts, n => ReachesLeaves t n ∧ ReachesAllLeaves ts n

end

def conjunctMembers (n : Nat) (t : TypeExpr) : List (List Member) :=
  (conjuncts t).filterMap fun leaf => membersWithin p n E (.written leaf env)

variable {p E env}

theorem membersWithin_leaf {t : TypeExpr} {n m : Nat} (hleaf : conjuncts t = [t])
    (h : ∀ m, n ≤ m → membersWithin p m E (.written t env) = membersWithin p n E (.written t env))
    (hm : n ≤ m) :
    membersWithin p n E (.written t env) = together (conjunctMembers p E env m t) := by
  rw [conjunctMembers, hleaf, ← h m hm]
  cases hfound : membersWithin p m E (.written t env) with
  | none => simp [hfound, together]
  | some ms =>
    simp only [filterMap_cons, hfound, filterMap_nil]
    exact (together_singleton (membersWithin_apart p m E _ _ hfound)).symm

theorem conjunctsAll_eq (ts : List TypeExpr) : conjunctsAll ts = ts.flatMap conjuncts := by
  induction ts with
  | nil => rfl
  | cons t ts ih => rw [conjunctsAll, ih, flatMap_cons]

theorem conjunctMembers_intersection (m : Nat) (ts : List TypeExpr) :
    conjunctMembers p E env m (.intersection ts) =
      (ts.map (conjunctMembers p E env m)).flatten := by
  rw [conjunctMembers, conjuncts, conjunctsAll_eq, filterMap_flatMap]
  rfl

mutual

theorem membersWithin_nest (t : TypeExpr) {n m : Nat} (h : ReachesLeaves p E env t n) (hm : n ≤ m) :
    membersWithin p n E (.written t env) = together (conjunctMembers p E env m t) := by
  match t, n, h with
  | .paren t, n + 1, h => exact membersWithin_nest t h.2 (Nat.le_of_succ_le hm)
  | .intersection ts, n + 1, h =>
    have hparts : (env.all ts).filterMap (membersWithin p n E) =
        (ts.map (conjunctMembers p E env m)).filterMap together :=
      filterMap_nest ts h.2 (Nat.le_of_succ_le hm)
    change intersectionMembers (membersWithin p n E) (env.all ts) = _
    rw [intersectionMembers_eq, hparts, together_groups, conjunctMembers_intersection]
  | .keyword _, n, h | .this, n, h | .string _, n, h | .number _, n, h | .boolean _, n, h
  | .bigint, n, h | .template .., n, h | .reference .., n, h | .query .., n, h | .object _, n, h
  | .array _, n, h | .tuple .., n, h | .optional _, n, h | .rest _, n, h | .union _, n, h
  | .conditional .., n, h | .infer .., n, h | .operator .., n, h | .indexed .., n, h
  | .mapped .., n, h | .callable .., n, h | .predicate .., n, h =>
    exact membersWithin_leaf rfl h hm
termination_by structural t

theorem filterMap_nest (ts : List TypeExpr) {n m : Nat} (h : ReachesAllLeaves p E env ts n)
    (hm : n ≤ m) : (env.all ts).filterMap (membersWithin p n E) =
      (ts.map (conjunctMembers p E env m)).filterMap together := by
  match ts with
  | [] => rfl
  | t :: ts =>
    have hfirst := membersWithin_nest t h.1 hm
    have hrest := filterMap_nest ts h.2 hm
    rw [Env.all] at hrest ⊢
    rw [map_cons, map_cons, filterMap_cons, filterMap_cons, hfirst, hrest]
termination_by structural ts

end

theorem last_of_mem_together {ms : List Member}
    (h : together found = some ms) {m : Member} (hm : m ∈ ms) :
    ∃ before after, found.flatten = before ++ m :: after ∧
      ∀ other ∈ after, other.name ≠ m.name := by
  have hfound : found ≠ [] := fun hnil => by simp [hnil, together] at h
  rw [together_of_ne_nil hfound, Option.some.injEq] at h
  subst h
  obtain ⟨entry, hentry, rfl⟩ := mem_map.mp hm
  have hkeyed : (merge [] found.flatten).Keyed Member.name := keyed_merge (.nil _) _
  have hlast := get?_of_mem hkeyed.distinct hentry
  rw [get?_merge, ← hkeyed.told entry hentry, find?_eq_some_iff_append] at hlast
  obtain ⟨-, after, before, hsplit, hafter⟩ := hlast
  refine ⟨before.reverse, after.reverse, ?_, fun other hother => ?_⟩
  · rw [← reverse_inj, hsplit]
    simp
  · simpa using hafter other (mem_reverse.mp hother)

theorem names_together {ms : List Member} (h : together found = some ms) :
    ms.map Member.name = (found.flatten.map Member.name).eraseDups := by
  have hfound : found ≠ [] := fun hnil => by simp [hnil, together] at h
  rw [together_of_ne_nil hfound, Option.some.injEq] at h
  rw [← h, names_merge]

/-- A nested intersection has no members exactly if no leaf has any. Else its names are those of
the leaves, in the order of their first occurrence from left to right, each with the meaning of its
last occurrence; so where the parentheses stand makes no difference. -/
theorem nested_intersection_members {n : Nat} {t : TypeExpr} (h : ReachesLeaves p E env t n) :
    (membersWithin p n E (.written t env) = none ↔
        ∀ leaf ∈ conjuncts t, membersWithin p n E (.written leaf env) = none) ∧
      (∀ ms, membersWithin p n E (.written t env) = some ms →
        ms.map Member.name =
            ((conjunctMembers p E env n t).flatten.map Member.name).eraseDups ∧
          ∀ m ∈ ms, ∃ before after,
            (conjunctMembers p E env n t).flatten = before ++ m :: after ∧
              ∀ other ∈ after, other.name ≠ m.name) ∧
      ∀ t', conjuncts t' = conjuncts t → ReachesLeaves p E env t' n →
        membersWithin p n E (.written t' env) = membersWithin p n E (.written t env) := by
  have hnest := membersWithin_nest t h (Nat.le_refl n)
  refine ⟨?_, fun ms hms => ?_, fun t' hleaves h' => ?_⟩
  · rw [hnest, together_eq_none_iff, conjunctMembers, filterMap_eq_nil_iff]
  · rw [hnest] at hms
    exact ⟨names_together hms, fun m hm => last_of_mem_together hms hm⟩
  · rw [hnest, membersWithin_nest t' h' (Nat.le_refl n), conjunctMembers, conjunctMembers, hleaves]

end Nest

def plainMember (name : String) (isOptional : Bool) (type : TypeExpr) : TypeMember :=
  .property ⟨⟨0, 0⟩, ⟨0, 0⟩, .bare name, isOptional, none⟩ ⟨0, 0⟩ (some type)

def overlapFirst : TypeExpr :=
  .object [plainMember "a" false (.keyword .string), plainMember "b" false (.keyword .number)]

def overlapSecond : TypeExpr :=
  .object [plainMember "b" false (.keyword .boolean)]

def overlapThird : TypeExpr :=
  .object [plainMember "c" false (.keyword .string), plainMember "a" false (.keyword .bigint)]

theorem reachesLeaves_object {p : Project} {E : Expanding} {env : Env} {n : Nat} (hn : 0 < n)
    (ms : List TypeMember) : ReachesLeaves p E env (.object ms) n := by
  intro m hm
  obtain ⟨n, rfl⟩ := Nat.exists_eq_succ_of_ne_zero (Nat.ne_of_gt hn)
  obtain ⟨m, rfl⟩ := Nat.exists_eq_succ_of_ne_zero (Nat.ne_of_gt (Nat.lt_of_lt_of_le hn hm))
  rfl

theorem nested_intersection_members_overlap :
    (membersWithin {} 96 [] (.written (.intersection [overlapFirst,
        .paren (.intersection [overlapSecond, overlapThird])]) (.file 0)) =
      membersWithin {} 96 [] (.written (.intersection [
        .paren (.intersection [overlapFirst, overlapSecond]), overlapThird]) (.file 0))) ∧
    ∃ ms, membersWithin {} 96 [] (.written (.intersection [
        .paren (.intersection [overlapFirst, overlapSecond]), overlapThird]) (.file 0)) = some ms ∧
      ms.map Member.name = ["a", "b", "c"] := by
  have hleft : ReachesLeaves {} [] (.file 0) (.intersection [
      .paren (.intersection [overlapFirst, overlapSecond]), overlapThird]) 96 :=
    ⟨by decide, ⟨by decide, by decide, reachesLeaves_object (by decide) _,
      reachesLeaves_object (by decide) _, trivial⟩, reachesLeaves_object (by decide) _, trivial⟩
  have hright : ReachesLeaves {} [] (.file 0) (.intersection [overlapFirst,
      .paren (.intersection [overlapSecond, overlapThird])]) 96 :=
    ⟨by decide, reachesLeaves_object (by decide) _, ⟨by decide, by decide,
      reachesLeaves_object (by decide) _, reachesLeaves_object (by decide) _, trivial⟩, trivial⟩
  obtain ⟨-, hms, hsame⟩ := nested_intersection_members hleft
  refine ⟨hsame _ rfl hright, ?_⟩
  obtain ⟨ms, hfound⟩ := Option.isSome_iff_exists.mp (show (membersWithin {} 96 []
    (.written (.intersection [.paren (.intersection [overlapFirst, overlapSecond]), overlapThird])
      (.file 0))).isSome = true from rfl)
  exact ⟨ms, hfound, (hms ms hfound).1.trans (by decide)⟩

end Resolver

end PropContract
