import PropContract.Proofs.Lists
import PropContract.Proofs.Table
import PropContract.Resolver.Members

namespace PropContract.Resolver

open Syntax List

def NamesApart (ms : List Member) : Prop :=
  (ms.map Member.name).Nodup

def KeepsApart (members : Ty → Option (List Member)) : Prop :=
  ∀ t ms, members t = some ms → NamesApart ms

theorem keyed_merge {table : Table Member} (h : table.Keyed Member.name) (ms : List Member) :
    (merge table ms).Keyed Member.name := by
  induction ms generalizing table with
  | nil => exact h
  | cons m ms ih => exact ih (h.put m)

theorem literalMembers_apart (p : Project) (env : Env) (ms : List TypeMember) :
    NamesApart (literalMembers p env ms) :=
  (keyed_merge (.nil _) _).nodup_values

variable {members : Ty → Option (List Member)} {ms : List Member} {p : Project} {args : List Ty}

theorem intersectionMembers_apart {parts : List Ty}
    (h : intersectionMembers members parts = some ms) : NamesApart ms := by
  have hfold (found : List (List Member)) {table : Table Member}
      (ht : table.Keyed Member.name) : (found.foldl merge table).Keyed Member.name := by
    induction found generalizing table with
    | nil => exact ht
    | cons ms found ih => exact ih (keyed_merge ht ms)
  unfold intersectionMembers at h
  dsimp only at h
  split at h
  · simp at h
  · rw [← Option.some.inj h]
    exact (hfold _ (.nil _)).nodup_values

theorem keyed_addInterface (p : Project)
    (base : Env → List String → List Ty → Option (List Member)) (file : Nat) (args : List Ty)
    {table : Table Member} (h : table.Keyed Member.name) (i : Interface) :
    (addInterface p base file args table i).Keyed Member.name := by
  apply keyed_merge
  generalize i.bases = bases
  induction bases generalizing table with
  | nil => exact h
  | cons b bases ih =>
    apply ih
    dsimp only
    split
    · exact keyed_merge h _
    · exact h

theorem keyed_joinMember {table : Table Joined} (h : table.Keyed fun j => j.first.name)
    (m : Member) : (joinMember table m).Keyed fun j => j.first.name := by
  -- What stands under the name of the member so far tells that name too.
  have hfirst : ((table.get? m.name).getD (.start m)).first.name = m.name := by
    cases hg : table.get? m.name with
    | none => rfl
    | some j => exact h.told _ (Table.mem_of_get? hg)
  have hadd : (((table.get? m.name).getD (.start m)).add m).first.name = m.name := hfirst
  have hput := h.put (((table.get? m.name).getD (.start m)).add m)
  simp only [hadd] at hput
  exact hput

theorem joinBranches_apart (branches : List (List Member)) :
    NamesApart (joinBranches branches) := by
  have hfold (ms : List Member) {table : Table Joined}
      (ht : table.Keyed fun j => j.first.name) :
      (ms.foldl joinMember table).Keyed fun j => j.first.name := by
    induction ms generalizing table with
    | nil => exact ht
    | cons m ms ih => exact ih (keyed_joinMember ht m)
  have hnames := (hfold branches.flatten (.nil _)).nodup_values
  unfold NamesApart joinBranches
  rw [map_map]
  exact hnames

theorem unionMembers_apart (hm : KeepsApart members) {ts : List Ty}
    (h : unionMembers p members ts = some ms) : NamesApart ms := by
  obtain ⟨branches, hb, h⟩ := Option.bind_eq_some_iff.mp h
  split at h
  · simp at h
  · obtain ⟨t, -, ht⟩ := (mem_iff_of_mapM hb).mp (mem_singleton_self _)
    exact Option.some.inj h ▸ hm t _ ht
  · exact Option.some.inj h ▸ joinBranches_apart _

theorem keys_nodup {t : Ty} {ks : List String} (h : keys p members t = some ks) : ks.Nodup := by
  unfold keys at h
  cases hb : keyBound with
  | zero => simp [hb, literalKeys] at h
  | succ n =>
    rw [hb, literalKeys] at h
    obtain ⟨found, -, h⟩ := Option.bind_eq_some_iff.mp h
    exact Option.some.inj h ▸ Table.nodup_eraseDups _

theorem namesApart_map {α : Type} {xs : List α} {f : α → Member} (nameOf : α → String)
    (hf : ∀ x, (f x).name = nameOf x) (h : (xs.map nameOf).Nodup) : NamesApart (xs.map f) := by
  unfold NamesApart
  rw [map_map]
  exact (map_congr_left fun x _ => hf x) ▸ h

theorem NamesApart.filter (h : NamesApart ms) (keep : Member → Bool) :
    NamesApart (ms.filter keep) :=
  h.sublist (filter_sublist.map _)

theorem mappedMembers_apart (hm : KeepsApart members) {env : Env} {param : String}
    {keyType : TypeExpr} {mark : OptionalMark} {value : Option TypeExpr}
    (h : mappedMembers p members env param keyType mark value = some ms) : NamesApart ms := by
  unfold mappedMembers at h
  split at h
  · obtain ⟨source, hs, h⟩ := Option.bind_eq_some_iff.mp h
    rw [← Option.some.inj h]
    exact namesApart_map Member.name (fun _ => rfl) (hm _ _ hs)
  · obtain ⟨ks, hk, h⟩ := Option.bind_eq_some_iff.mp h
    rw [← Option.some.inj h]
    exact namesApart_map id (fun _ => rfl) (by simpa using keys_nodup hk)

theorem utilityMembers_apart (hm : KeepsApart members) {name : String}
    (h : utilityMembers p members name args = some ms) : NamesApart ms := by
  obtain ⟨first, -, h⟩ := Option.bind_eq_some_iff.mp h
  split at h
  -- Only the optional marks are changed.
  case h_1 | h_2 =>
    obtain ⟨source, hs, h⟩ := Option.bind_eq_some_iff.mp h
    rw [← Option.some.inj h]
    exact namesApart_map Member.name (fun _ => rfl) (hm _ _ hs)
  case h_3 | h_4 => exact hm _ _ h
  -- Some members are left out.
  case h_5 | h_6 =>
    obtain ⟨second, -, h⟩ := Option.bind_eq_some_iff.mp h
    obtain ⟨ks, -, h⟩ := Option.bind_eq_some_iff.mp h
    obtain ⟨source, hs, h⟩ := Option.bind_eq_some_iff.mp h
    rw [← Option.some.inj h]
    exact NamesApart.filter (hm _ _ hs) _
  -- One member is made for each key.
  case h_7 =>
    obtain ⟨ks, hk, h⟩ := Option.bind_eq_some_iff.mp h
    rw [← Option.some.inj h]
    exact namesApart_map id (fun _ => rfl) (by simpa using keys_nodup hk)
  case h_8 => simp at h

theorem declMembers_apart (hm : KeepsApart members)
    {base : Env → List String → List Ty → Option (List Member)} {d : DeclRef}
    (h : declMembers p members base d args = some ms) : NamesApart ms := by
  have hfold (interfaces : List Interface) {table : Table Member}
      (ht : table.Keyed Member.name) :
      (interfaces.foldl (addInterface p base d.file args) table).Keyed Member.name := by
    induction interfaces generalizing table with
    | nil => exact ht
    | cons i interfaces ih => exact ih (keyed_addInterface p base d.file args ht i)
  unfold declMembers at h
  split at h
  · obtain ⟨a, -, h⟩ := Option.bind_eq_some_iff.mp h
    exact hm _ _ h
  · exact Option.some.inj h ▸ (hfold _ (.nil _)).nodup_values

theorem pathMembers_apart {members : MembersOf} (hm : ∀ E, KeepsApart (members E)) {n : Nat}
    {E : Expanding} {env : Env} {path : List String}
    (h : pathMembers p members n E env path args = some ms) : NamesApart ms := by
  unfold pathMembers at h
  split at h
  · exact hm E _ _ h
  · split at h
    · simp at h
    · split at h
      · simp at h
      · exact declMembers_apart (hm _) h
  · split at h
    · exact utilityMembers_apart (hm E) h
    · simp at h
  · simp at h
  · simp at h

theorem membersStep_apart {members : MembersOf} (hm : ∀ E, KeepsApart (members E)) (E : Expanding) :
    KeepsApart (membersStep p members E) := by
  intro t ms h
  cases t with
  | key | function | any => simp [membersStep] at h
  | union ts => exact unionMembers_apart (hm E) h
  | written t env =>
    simp only [membersStep] at h
    split at h
    · exact Option.some.inj h ▸ literalMembers_apart p env _
    · exact hm E _ _ h
    · exact hm E _ _ h
    · exact intersectionMembers_apart h
    · exact unionMembers_apart (hm E) h
    · exact pathMembers_apart hm h
    · exact mappedMembers_apart (hm E) h
    · obtain ⟨t, -, h⟩ := Option.bind_eq_some_iff.mp h
      exact hm E _ _ h
    · simp at h

theorem membersWithin_apart (p : Project) (n : Nat) (E : Expanding) :
    KeepsApart (membersWithin p n E) := by
  induction n generalizing E with
  | zero =>
    intro t ms h
    simp [membersWithin] at h
  | succ n ih => exact membersStep_apart ih E

end PropContract.Resolver
