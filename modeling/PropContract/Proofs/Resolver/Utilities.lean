import PropContract.Proofs.Resolver.Intersections

/-!
Types that are made from others by name, against the mapped types that define them. Since names are
distinct, every key leads back to its own member.
-/

namespace PropContract

open List

def Syntax.OptionalMark.onto : OptionalMark → Bool → Bool
  | .add, _ => true
  | .remove, _ => false
  | .keep, isOptional => isOptional

namespace Resolver

open Syntax

def Member.untyped (m : Member) : Member :=
  { m with type := .any }

def Member.marked (mark : OptionalMark) (m : Member) : Member :=
  { m with isOptional := mark.onto m.isOptional }

/-- A name that has no meaning where it is written: it is no type parameter, and the project
neither declares nor imports it there. -/
def Undeclared (p : Project) (env : Env) (name : String) : Prop :=
  env.find? name = none ∧ p.resolveName env.fileId name = none

theorem Undeclared.lookup_eq {p : Project} {env : Env} {name : String} (h : Undeclared p env name) :
    lookup p env [name] = .unknown name := by
  simp only [lookup, h.1, lookupIn, h.2]
  rfl

def markers : List (String × OptionalMark) :=
  [("Partial", .add), ("Required", .remove), ("Readonly", .keep)]

/-- The mapped type that goes through the keys of a type, and takes each member from there. -/
def mappedOver (param : String) (t : TypeExpr) (mark : OptionalMark) : TypeExpr :=
  .mapped param (.operator .keyof t) none mark (some (.indexed t (.reference [param] [])))

section Members

variable {p : Project} {members : Ty → Option (List Member)}

theorem utilityMembers_marker {name : String} {mark : OptionalMark} (h : (name, mark) ∈ markers)
    (t : Ty) : utilityMembers p members name [t] =
      (members t).map fun ms => ms.map (Member.marked mark) := by
  have hkeep (ms : List Member) : ms.map (Member.marked .keep) = ms := map_id' ms
  simp only [markers, mem_cons, Prod.mk.injEq, not_mem_nil, or_false] at h
  rcases h with ⟨rfl, rfl⟩ | ⟨rfl, rfl⟩ | ⟨rfl, rfl⟩
  case inr.inr => simp only [utilityMembers, head?_cons, Option.bind_eq_bind, Option.bind_some,
    hkeep, Option.map_id']
  all_goals cases hms : members t <;> simp only [utilityMembers, head?_cons,
    Option.bind_eq_bind, Option.bind_some, Option.bind_none, hms] <;> rfl

theorem NamesApart.find?_name {ms : List Member} (h : NamesApart ms) {m : Member} (hm : m ∈ ms) :
    (ms.find? fun o => o.name == m.name) = some m := by
  induction ms with
  | nil => exact absurd hm not_mem_nil
  | cons first rest ih =>
    obtain ⟨hfirst, hrest⟩ := nodup_cons.mp h
    rcases mem_cons.mp hm with rfl | hm
    · exact find?_cons_of_pos (by simp)
    · have hother : first.name ≠ m.name := fun he => hfirst (he ▸ mem_map_of_mem hm)
      rw [find?_cons_of_neg (by simpa using hother)]
      exact ih hrest hm

theorem mappedMember_untyped (env : Env) (param : String) (mark : OptionalMark)
    (value : Option TypeExpr) {source : List Member} (h : NamesApart source) {m : Member}
    (hm : m ∈ source) :
    (mappedMember env param mark value source m.name).untyped = (m.marked mark).untyped := by
  simp only [mappedMember, h.find?_name hm, Member.untyped, Member.marked]
  cases mark <;> rfl

theorem mappedMembers_untyped (hm : KeepsApart members) (env : Env) (param : String) (t : TypeExpr)
    (mark : OptionalMark) (value : Option TypeExpr) :
    (mappedMembers p members env param (.operator .keyof t) mark value).map
        (List.map Member.untyped) =
      (members (.written t env)).map fun ms =>
        (ms.map (Member.marked mark)).map Member.untyped := by
  simp only [mappedMembers]
  cases hs : members (.written t env) with
  | none => rfl
  | some source =>
    refine congrArg some ?_
    dsimp only
    rw [map_map, map_map]
    exact map_congr_left fun m hmem =>
      mappedMember_untyped env param mark value (hm _ _ hs) hmem

/-- Members that are divided by a list of keys: each is in one part, as it was, and both parts
keep the order. -/
structure DividedBy (ks : List String) (ms picked omitted : List Member) : Prop where
  picked_iff : ∀ m ∈ ms, m ∈ picked ↔ m.name ∈ ks
  omitted_iff : ∀ m ∈ ms, m ∈ omitted ↔ m.name ∉ ks
  perm : (picked ++ omitted).Perm ms
  picked_sublist : picked.Sublist ms
  omitted_sublist : omitted.Sublist ms

theorem dividedBy_filter (ks : List String) (ms : List Member) :
    DividedBy ks ms (ms.filter fun m => ks.contains m.name)
      (ms.filter fun m => !ks.contains m.name) where
  picked_iff m hm := by simp [hm]
  omitted_iff m hm := by simp [hm]
  perm := filter_append_perm _ ms
  picked_sublist := filter_sublist
  omitted_sublist := filter_sublist

theorem utilityMembers_pick (t k : Ty) : utilityMembers p members "Pick" [t, k] =
    (keys p members k).bind fun ks => (members t).map fun ms =>
      ms.filter fun m => ks.contains m.name := by
  cases hk : keys p members k <;> cases hms : members t <;> simp [utilityMembers, hk, hms]

theorem utilityMembers_omit (t k : Ty) : utilityMembers p members "Omit" [t, k] =
    (keys p members k).bind fun ks => (members t).map fun ms =>
      ms.filter fun m => !ks.contains m.name := by
  cases hk : keys p members k <;> cases hms : members t <;> simp [utilityMembers, hk, hms]

end Members

theorem membersWithin_utility {p : Project} {env : Env} {name : String} (h : Undeclared p env name)
    (n : Nat) (E : Expanding) (args : List TypeExpr) :
    membersWithin p (n + 1) E (.written (.reference [name] args) env) =
      utilityMembers p (membersWithin p n E) name (env.all args) := by
  simp only [membersWithin, membersStep]
  unfold pathMembers
  rw [h.lookup_eq]
  rfl

/-- Where the project gives the names no meaning of its own, `Partial`, `Required` and `Readonly`
of a type list the same members as the mapped types for them, down to the texts of their types, and
list none where these have none. `Pick` and `Omit` of a type have members exactly if the type has
members and the keys can be listed, and then they divide the members of the type by the keys. -/
theorem utility_types_as_mapped (p : Project) (n : Nat) (E : Expanding) (env : Env)
    (t : TypeExpr) :
    (∀ entry ∈ markers, Undeclared p env entry.1 → ∀ param,
      (membersWithin p (n + 1) E (.written (.reference [entry.1] [t]) env)).map
          (List.map Member.untyped) =
        (membersWithin p (n + 1) E (.written (mappedOver param t entry.2) env)).map
          (List.map Member.untyped)) ∧
      (Undeclared p env "Pick" → Undeclared p env "Omit" → ∀ k,
        let inPick := membersWithin p (n + 1) E (.written (.reference ["Pick"] [t, k]) env)
        let inOmit := membersWithin p (n + 1) E (.written (.reference ["Omit"] [t, k]) env)
        let found := membersWithin p n E (.written t env)
        let named := keys p (membersWithin p n E) (.written k env)
        (inPick.isSome ↔ found.isSome ∧ named.isSome) ∧
          (inOmit.isSome ↔ found.isSome ∧ named.isSome) ∧
          ∀ picked omitted, inPick = some picked → inOmit = some omitted →
            ∃ ms ks, found = some ms ∧ named = some ks ∧ DividedBy ks ms picked omitted) := by
  refine ⟨fun entry hentry hfree param => ?_, fun hpick homit k => ?_⟩
  · rw [membersWithin_utility hfree, Env.all, map_singleton, utilityMembers_marker hentry,
      Option.map_map]
    exact (mappedMembers_untyped (p := p) (membersWithin_apart p n E) env param t entry.2 _).symm
  · dsimp only
    rw [membersWithin_utility hpick, membersWithin_utility homit, Env.all, map_cons,
      map_singleton, utilityMembers_pick, utilityMembers_omit]
    cases hks : keys p (membersWithin p n E) (.written k env) with
    | none => simp
    | some ks =>
      cases hms : membersWithin p n E (.written t env) with
      | none => simp
      | some ms =>
        refine ⟨by simp, by simp, ?_⟩
        rintro _ _ ⟨⟩ ⟨⟩
        exact ⟨ms, ks, rfl, rfl, dividedBy_filter ks ms⟩

def threeMembers : TypeExpr :=
  .object [plainMember "a" true (.keyword .string), plainMember "b" false (.keyword .number),
    plainMember "c" false (.keyword .boolean)]

theorem utility_types_as_mapped_three :
    (Undeclared {} (.file 0) "Required" ∧
      (membersWithin {} 96 [] (.written (.reference ["Required"] [threeMembers]) (.file 0))).map
          (List.map Member.untyped) =
        (membersWithin {} 96 [] (.written (mappedOver "K" threeMembers .remove) (.file 0))).map
          (List.map Member.untyped)) ∧
      ∃ picked omitted ms, DividedBy ["c", "a"] ms picked omitted ∧
        picked.map Member.name = ["a", "c"] ∧ omitted.map Member.name = ["b"] := by
  have hfree (name : String) (h : Project.resolveName {} 0 name = none) :
      Undeclared {} (.file 0) name := ⟨rfl, h⟩
  obtain ⟨hmarks, hparts⟩ := utility_types_as_mapped {} 95 [] (.file 0) threeMembers
  refine ⟨⟨hfree _ rfl, hmarks ("Required", .remove) (by decide) (hfree _ rfl) "K"⟩, ?_⟩
  obtain ⟨-, -, hdivided⟩ := hparts (hfree _ rfl) (hfree _ rfl) (.union [.string "c", .string "a"])
  obtain ⟨ms, ks, -, hks, h⟩ := hdivided _ _ rfl rfl
  obtain rfl : ks = ["c", "a"] := Option.some.inj (hks.symm.trans (by decide +kernel))
  exact ⟨_, _, ms, h, by decide +kernel, by decide +kernel⟩

end Resolver

end PropContract
