import PropContract.Proofs.Resolver.Intersections
import PropContract.Proofs.Resolver.Unfolding

namespace PropContract.Resolver

open Syntax List Table

def occurrences (name : String) (ms : List Member) : List Member :=
  ms.filter fun m => m.name == name

structure Joined.Sums (name : String) (ms : List Member) (j : Joined) : Prop where
  told : j.first.name = name
  count : j.count = (occurrences name ms).length
  allRequired : j.allRequired = (occurrences name ms).all fun m => !m.isOptional
  types : j.types = (occurrences name ms).map Member.type

namespace Joined.Sums

variable {name : String} {ms : List Member} {j : Joined}

theorem start {m : Member} (h : occurrences m.name ms = []) : (Joined.start m).Sums m.name ms := by
  constructor <;> simp [Joined.start, h]

theorem add (h : j.Sums name ms) {m : Member} (hm : m.name = name) :
    (j.add m).Sums name (ms ++ [m]) := by
  have hsplit : occurrences name (ms ++ [m]) = occurrences name ms ++ [m] := by
    simp [occurrences, hm]
  constructor
  · exact h.told
  · simp [Joined.add, hsplit, h.count]
  · simp [Joined.add, hsplit, h.allRequired]
  · simp [Joined.add, hsplit, h.types]

theorem skip (h : j.Sums name ms) {m : Member} (hm : m.name ≠ name) :
    j.Sums name (ms ++ [m]) := by
  have hsame : occurrences name (ms ++ [m]) = occurrences name ms := by
    simp [occurrences, hm]
  exact ⟨h.told, hsame ▸ h.count, hsame ▸ h.allRequired, hsame ▸ h.types⟩

end Joined.Sums

theorem keys_joined (ms : List Member) :
    (ms.foldl joinMember []).keys = (ms.map Member.name).eraseDups :=
  keys_foldl_put Member.name
    (fun t m => ((t.get? m.name).getD (Joined.start m)).add m) ms

variable {name : String} {branch : List Member} {branches : List (List Member)}

theorem occurrences_eq_nil {ms : List Member} (h : (ms.foldl joinMember []).get? name = none) :
    occurrences name ms = [] := by
  have hnew : name ∉ (ms.foldl joinMember []).keys := by
    rw [← contains_iff_mem_keys, Table.contains, h]
    exact Bool.false_ne_true
  rw [keys_joined, mem_eraseDups, mem_map] at hnew
  rw [occurrences, filter_eq_nil_iff]
  exact fun m hm hname => hnew ⟨m, hm, beq_iff_eq.mp hname⟩

theorem sums_joined (ms : List Member) {j : Joined}
    (h : (ms.foldl joinMember []).get? name = some j) : j.Sums name ms := by
  induction ms using List.reverseRecOn generalizing name j with
  | nil => cases h
  | append_singleton ms m ih =>
    rw [foldl_append, foldl_cons, foldl_nil, joinMember, get?_put] at h
    by_cases hm : m.name = name
    · rw [if_pos hm, Option.some.injEq] at h
      subst h hm
      have hold : (((ms.foldl joinMember []).get? m.name).getD (.start m)).Sums m.name ms := by
        cases hget : (ms.foldl joinMember []).get? m.name with
        | none => exact .start (occurrences_eq_nil hget)
        | some j => exact ih hget
      exact hold.add rfl
    · rw [if_neg hm] at h
      exact (ih h).skip hm

def held? (name : String) (branch : List Member) : Option Member :=
  branch.find? fun m => m.name == name

theorem occurrences_of_apart (name : String) (h : NamesApart branch) :
    occurrences name branch = (held? name branch).toList := by
  induction branch with
  | nil => rfl
  | cons m branch ih =>
    obtain ⟨hm, hbranch⟩ := nodup_cons.mp h
    by_cases hname : m.name = name
    · subst hname
      have hrest : occurrences m.name branch = [] := by
        rw [occurrences, filter_eq_nil_iff]
        intro other hother hsame
        exact hm (mem_map.mpr ⟨other, hother, beq_iff_eq.mp hsame⟩)
      have hfirst : occurrences m.name (m :: branch) = m :: occurrences m.name branch := by
        simp [occurrences]
      simp [hfirst, hrest, held?]
    · have hskip : occurrences name (m :: branch) = occurrences name branch := by
        simp [occurrences, hname]
      have hheld : held? name (m :: branch) = held? name branch := by
        simp [held?, hname]
      rw [hskip, hheld, ih hbranch]

theorem held?_of_mem (h : NamesApart branch) {m : Member} (hm : m ∈ branch) :
    held? m.name branch = some m := by
  have hoccurs : m ∈ occurrences m.name branch := mem_filter.mpr ⟨hm, beq_self_eq_true _⟩
  rwa [occurrences_of_apart _ h, Option.mem_toList] at hoccurs

theorem mem_of_held? {m : Member} (h : held? name branch = some m) : m ∈ branch ∧ m.name = name :=
  ⟨mem_of_find?_eq_some h, by simpa using find?_some h⟩

theorem occurrences_flatten (h : ∀ branch ∈ branches, NamesApart branch) :
    occurrences name branches.flatten = branches.filterMap (held? name) := by
  induction branches with
  | nil => rfl
  | cons branch branches ih =>
    have hfirst := occurrences_of_apart name (h branch mem_cons_self)
    have hrest := ih fun b hb => h b (mem_cons_of_mem branch hb)
    rw [occurrences] at hfirst hrest
    rw [flatten_cons, occurrences, filter_append, hfirst, hrest, filterMap_cons]
    cases held? name branch <;> rfl

theorem required_iff (h : ∀ branch ∈ branches, NamesApart branch) {j : Joined}
    (hj : j.Sums name branches.flatten) :
    (j.count == branches.length && j.allRequired) = true ↔
      ∀ branch ∈ branches, ∃ m ∈ branch, m.name = name ∧ m.isOptional = false := by
  have hcount : j.count = branches.length ↔
      ∀ branch ∈ branches, (held? name branch).isSome = true := by
    rw [hj.count, occurrences_flatten h, filterMap_length_eq_length]
  rw [Bool.and_eq_true, beq_iff_eq, hcount, hj.allRequired, occurrences_flatten h, all_eq_true]
  constructor
  · rintro ⟨hheld, hrequired⟩ branch hbranch
    obtain ⟨m, hm⟩ := Option.isSome_iff_exists.mp (hheld branch hbranch)
    have hmember := hrequired m (mem_filterMap.mpr ⟨branch, hbranch, hm⟩)
    obtain ⟨hmem, hname⟩ := mem_of_held? hm
    exact ⟨m, hmem, hname, by simpa using hmember⟩
  · intro hall
    constructor
    · intro branch hbranch
      obtain ⟨m, hm, rfl, -⟩ := hall branch hbranch
      rw [held?_of_mem (h branch hbranch) hm]
      rfl
    · intro m hm
      obtain ⟨branch, hbranch, hheld⟩ := mem_filterMap.mp hm
      obtain ⟨o, ho, rfl, hrequired⟩ := hall branch hbranch
      rw [held?_of_mem (h branch hbranch) ho, Option.some.injEq] at hheld
      simp [← hheld, hrequired]

def Ty.unionOf : List Ty → Ty
  | [t] => t
  | ts => .union ts

theorem result_type (total : Nat) (j : Joined) : (j.result total).type = .unionOf j.types := by
  rcases htypes : j.types with _ | ⟨t, _ | ⟨u, ts⟩⟩ <;> simp [Joined.result, Ty.unionOf, htypes]

theorem joinBranches_exact (h : ∀ branch ∈ branches, NamesApart branch) :
    (joinBranches branches).map Member.name = (branches.flatten.map Member.name).eraseDups ∧
      ∀ m ∈ joinBranches branches,
        (m.isOptional = false ↔
          ∀ branch ∈ branches, ∃ o ∈ branch, o.name = m.name ∧ o.isOptional = false) ∧
        m.type = .unionOf ((branches.filterMap (held? m.name)).map Member.type) := by
  have hsums (entry : String × Joined) (hentry : entry ∈ branches.flatten.foldl joinMember []) :
      entry.2.Sums entry.1 branches.flatten := by
    have hdistinct : (branches.flatten.foldl joinMember []).keys.Nodup :=
      keys_joined branches.flatten ▸ nodup_eraseDups _
    exact sums_joined _ (get?_of_mem hdistinct hentry)
  constructor
  · rw [← keys_joined, joinBranches, Table.values, Table.keys, map_map, map_map]
    exact map_congr_left fun entry hentry => (hsums entry hentry).told
  · intro m hm
    obtain ⟨j, hj, rfl⟩ := mem_map.mp hm
    obtain ⟨entry, hentry, rfl⟩ := mem_map.mp hj
    have hsum := hsums entry hentry
    have hname : (entry.2.result branches.length).name = entry.1 := hsum.told
    rw [hname, result_type, hsum.types, occurrences_flatten h, ← required_iff h hsum]
    exact ⟨iff_of_eq (Bool.not_eq_false' _), rfl⟩

def joined? : List (List Member) → Option (List Member)
  | [] => none
  | [branch] => some branch
  | branches => some (joinBranches branches)

theorem unionMembers_eq (p : Project) (members : Ty → Option (List Member)) (types : List Ty) :
    unionMembers p members types = ((unionLeaves p types).mapM members).bind joined? :=
  rfl

theorem unionMembers_eq_none_iff {p : Project} {members : Ty → Option (List Member)}
    {types : List Ty} : unionMembers p members types = none ↔
      unionLeaves p types = [] ∨ ∃ t ∈ unionLeaves p types, members t = none := by
  rw [unionMembers_eq, ← mapM_eq_none_iff]
  cases hfound : (unionLeaves p types).mapM members with
  | none => simp
  | some branches =>
    have hnil : unionLeaves p types = [] ↔ branches = [] := by
      rw [← map_eq_nil_iff, mapM_eq_some_iff.mp hfound, map_eq_nil_iff]
    rw [hnil]
    rcases branches with _ | ⟨first, _ | ⟨second, rest⟩⟩ <;> simp [joined?]

/-- A union has no members exactly if it has no branch but null and undefined or a branch without
members. If it has two branches or more, it has the names of the branches in the order in which
they appear first. A member is required exactly if every branch requires it, and its type is the
union of the types that it has in the branches, in their order. -/
theorem union_members_exact (p : Project) (n : Nat) (E : Expanding) (types : List Ty) :
    (unionMembers p (membersWithin p n E) types = none ↔
        unionLeaves p types = [] ∨ ∃ t ∈ unionLeaves p types, membersWithin p n E t = none) ∧
      ∀ branches : List (List Member),
        (unionLeaves p types).map (membersWithin p n E) = branches.map some →
        2 ≤ branches.length →
        ∃ ms, unionMembers p (membersWithin p n E) types = some ms ∧
          ms.map Member.name = (branches.flatten.map Member.name).eraseDups ∧
          ∀ m ∈ ms,
            (m.isOptional = false ↔
              ∀ branch ∈ branches, ∃ o ∈ branch, o.name = m.name ∧ o.isOptional = false) ∧
            m.type = .unionOf ((branches.filterMap (held? m.name)).map Member.type) := by
  refine ⟨unionMembers_eq_none_iff, fun branches hbranches htwo => ?_⟩
  have hapart (branch : List Member) (hbranch : branch ∈ branches) : NamesApart branch := by
    obtain ⟨t, -, ht⟩ := (mem_iff_of_mapM (mapM_eq_some_iff.mpr hbranches)).mp hbranch
    exact membersWithin_apart p n E t branch ht
  have hjoined : joined? branches = some (joinBranches branches) := by
    rcases branches with _ | ⟨first, _ | ⟨second, rest⟩⟩
    · simp at htwo
    · simp at htwo
    · rfl
  refine ⟨joinBranches branches, ?_, joinBranches_exact hapart⟩
  rw [unionMembers_eq, mapM_eq_some_iff.mpr hbranches, Option.bind_some, hjoined]

def taggedUnion : List Ty :=
  (Env.file 0).all [
    .object [plainMember "kind" false (.string "a"), plainMember "a" false (.keyword .string)],
    .keyword .null,
    .object [plainMember "b" true (.keyword .number), plainMember "kind" false (.string "b")]]

theorem union_members_exact_tagged :
    ∃ ms, unionMembers {} (membersWithin {} 96 []) taggedUnion = some ms ∧
      ms.map Member.name = ["kind", "a", "b"] := by
  obtain ⟨ms, hms, hnames, -⟩ := (union_members_exact {} 96 [] taggedUnion).2
    ((unionLeaves {} taggedUnion).filterMap (membersWithin {} 96 [])) rfl (by decide)
  exact ⟨ms, hms, hnames.trans (by decide)⟩

end PropContract.Resolver
