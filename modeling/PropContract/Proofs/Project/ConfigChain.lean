import Mathlib.Data.List.Perm.Subperm
import Mathlib.Logic.Relation
import PropContract.Proofs.FileTree
import PropContract.Proofs.Project.Modules

/-!
Chains of configuration files. A tree has finitely many files, so a chain ends or comes back to
one of its own paths.
-/

namespace PropContract

open List

namespace Path

theorem isAbsolute_normalize (p : Path) : p.normalize.isAbsolute = p.isAbsolute :=
  isAbsolute_ofNames _ p.isName_walked

theorem isAbsolute_join_relative (p : Path) {q : Path} (hq : q.isAbsolute = false) :
    (p.join q).isAbsolute = p.isAbsolute := by
  by_cases hp : p.text = ""
  · have hempty : p = ⟨""⟩ := by cases p; simp_all
    rw [join, hq, if_neg Bool.false_ne_true, if_pos (by simp [hp]), hempty]
    simpa [isAbsolute] using hq
  · exact isAbsolute_join p q hq hp

theorem walked_eq_of_place {p q : Path} (h : p.place = q.place) : p.walked = q.walked :=
  (ofNames_inj p.isName_walked q.isName_walked).mp (congrArg Path.mk h)

theorem IsNormal.eq_of_place {p q : Path} (hp : p.IsNormal) (hq : q.IsNormal)
    (habs : p.isAbsolute = q.isAbsolute) (h : p.place = q.place) : p = q := by
  rw [← hp.normalize_eq, ← hq.normalize_eq, normalize, normalize, habs]
  exact congrArg _ (walked_eq_of_place h)

theorem IsNormal.append_json {p : Path} (hp : p.IsNormal) :
    (Path.mk (p.text ++ ".json")).IsNormal ∧ (Path.mk (p.text ++ ".json")).walked ≠ [] ∧
      (Path.mk (p.text ++ ".json")).isAbsolute = p.isAbsolute := by
  obtain ⟨absolute, names, last, hn, hlast, rfl⟩ := hp.exists_concat
  have heq : Path.mk ((ofNames absolute (names ++ [last])).text ++ ".json") =
      ofNames absolute (names ++ [last ++ ".json"]) := by
    apply eq_ofNames_concat
    rw [String.toList_append, toList_ofNames_concat, String.toList_append, append_assoc]
  have hall : ∀ n ∈ names ++ [last ++ ".json"], IsName n := by
    intro n h
    rcases mem_append.mp h with h | h
    · exact hn n h
    · exact mem_singleton.mp h ▸ isName_append_of_long hlast (by decide) (by decide)
  refine ⟨heq ▸ ⟨absolute, _, hall, rfl⟩, by simp [heq, walked_ofNames absolute hall], ?_⟩
  simp only [isAbsolute, String.toList_append]
  cases (ofNames absolute (names ++ [last])).text.toList <;> rfl

end Path

namespace ConfigFile

open PropContract.Path
open Relation (ReflTransGen TransGen)

abbrev Chain := List (Path × ConfigFile)

variable {tree : FileTree} {start p q : Path} {file : ConfigFile} {chain chain' rest : Chain}

theorem place_mem_of_read (h : read tree p = .ok file) : p.place ∈ tree.files.keys := by
  unfold read at h
  split at h
  · cases h
  · rename_i text hread
    have hfile := (tree.isFile_iff p).mp (FileTree.isFile_of_read hread)
    exact (Table.contains_iff_mem_keys _ _).mp hfile.2

theorem read_ne_circular : read tree p ≠ .error (.circular q) := by
  intro h
  unfold read at h
  split at h
  · cases h
  · split at h <;> cases h

theorem isAbsolute_directory (hp : p.IsNormal) (hne : p.walked ≠ []) :
    (directory p).isAbsolute = p.isAbsolute := by
  obtain ⟨absolute, names, hn, rfl⟩ := hp
  rw [walked_ofNames absolute hn] at hne
  rcases eq_nil_or_concat names with rfl | ⟨init, last, rfl⟩
  · exact absurd rfl hne
  · rw [concat_eq_append] at hn ⊢
    have hinit : ∀ n ∈ init, IsName n := fun n h => hn n (mem_append_left _ h)
    rw [directory, parent?_ofNames absolute hinit (hn last (by simp)),
      isAbsolute_ofNames absolute hn]
    exact isAbsolute_ofNames absolute hinit

theorem parentPath?_spec (h : file.parentPath? p = some q) :
    q.IsNormal ∧ q.walked ≠ [] ∧ q.isAbsolute = (directory p).isAbsolute := by
  unfold parentPath? at h
  obtain ⟨parent, -, h⟩ := Option.bind_eq_some_iff.mp h
  by_cases hdot : parent.startsWith "."
  swap
  · simp [hdot, guard] at h
  · have hrelative : (Path.mk parent).isAbsolute = false := by
      obtain ⟨rest, hrest⟩ := String.startsWith_string_iff.mp hdot
      rw [isAbsolute, ← hrest]
      rfl
    simp only [hdot, guard, if_true] at h
    have htarget := isNormal_normalize ((directory p).join ⟨parent⟩)
    have habs : ((directory p).join ⟨parent⟩).normalize.isAbsolute = (directory p).isAbsolute := by
      rw [isAbsolute_normalize, isAbsolute_join_relative _ hrelative]
    obtain rfl := Option.some.inj h
    split
    · rename_i hends
      refine ⟨htarget, fun hnone => ?_, habs⟩
      rw [← htarget.normalize_eq, Path.normalize, ← walked, hnone] at hends
      revert hends
      cases ((directory p).join ⟨parent⟩).normalize.isAbsolute <;> decide
    · rw [← habs]
      exact htarget.append_json

def Extends (tree : FileTree) (p q : Path) : Prop :=
  ∃ file, read tree p = .ok file ∧ file.parentPath? p = some q

theorem Extends.rightUnique (tree : FileTree) : Relator.RightUnique (Extends tree) := by
  rintro p q q' ⟨file, hread, hq⟩ ⟨file', hread', hq'⟩
  obtain rfl := Except.ok.inj (hread.symm.trans hread')
  exact Option.some.inj (hq.symm.trans hq')

theorem not_extends_of_error {fault : ConfigError} (h : read tree p = .error fault) (r : Path) :
    ¬ Extends tree p r := by
  rintro ⟨file, hread, -⟩
  cases h.symm.trans hread

theorem not_extends_of_none (h : read tree p = .ok file) (hnone : file.parentPath? p = none)
    (r : Path) : ¬ Extends tree p r := by
  rintro ⟨file', hread, hr⟩
  obtain rfl := Except.ok.inj (h.symm.trans hread)
  cases hnone.symm.trans hr

section

variable (hway : ReflTransGen (Extends tree) start q) (hend : ∀ r, ¬ Extends tree q r)
  (hp : ReflTransGen (Extends tree) start p)

include hway hend hp

theorem reaches_end : ReflTransGen (Extends tree) p q := by
  rcases ReflTransGen.total_of_right_unique (Extends.rightUnique tree) hway hp with h | h
  · rcases h.cases_head with rfl | ⟨r, hr, -⟩
    · exact .refl
    · exact absurd hr (hend r)
  · exact h

theorem not_circular_of_end : ¬ TransGen (Extends tree) p p := by
  intro hcircle
  -- each step that leaves a circle goes on along it, so that it never comes to the end
  have hlast : TransGen (Extends tree) q q := by
    induction reaches_end hway hend hp using ReflTransGen.head_induction_on with
    | refl => exact hcircle
    | head hstep _ ih =>
      obtain ⟨r, hr, hback⟩ := TransGen.head'_iff.mp hcircle
      obtain rfl := Extends.rightUnique tree hstep hr
      exact ih (hp.tail hstep) (.tail' hback hstep)
  obtain ⟨r, hr, -⟩ := TransGen.head'_iff.mp hlast
  exact hend r hr

end

inductive Lineage (tree : FileTree) : Path → Chain → Prop
  | last {p : Path} {file : ConfigFile} (hread : read tree p = .ok file)
      (hnone : file.parentPath? p = none) : Lineage tree p [(p, file)]
  | step {p q : Path} {file : ConfigFile} {chain : Chain} (hread : read tree p = .ok file)
      (hq : file.parentPath? p = some q) (hrest : Lineage tree q chain) :
      Lineage tree p ((p, file) :: chain)

theorem Lineage.unique (h : Lineage tree p chain) (h' : Lineage tree p chain') :
    chain = chain' := by
  induction h generalizing chain' with
  | last hread hnone =>
    cases h' with
    | last hread' _ => rw [Except.ok.inj (hread.symm.trans hread')]
    | step hread' hq' _ => exact absurd ⟨_, hread', hq'⟩ (not_extends_of_none hread hnone _)
  | step hread hq _ ih =>
    cases h' with
    | last hread' hnone' => exact absurd ⟨_, hread, hq⟩ (not_extends_of_none hread' hnone' _)
    | step hread' hq' hrest' =>
      obtain rfl := Except.ok.inj (hread.symm.trans hread')
      obtain rfl := Option.some.inj (hq.symm.trans hq')
      rw [ih hrest']

theorem Lineage.exists_last (h : Lineage tree p chain) : ∃ q file,
    ReflTransGen (Extends tree) p q ∧ read tree q = .ok file ∧ file.parentPath? q = none := by
  induction h with
  | last hread hnone => exact ⟨_, _, .refl, hread, hnone⟩
  | step hread hq _ ih =>
    obtain ⟨last, file, hway, hlast⟩ := ih
    exact ⟨last, file, .head ⟨_, hread, hq⟩ hway, hlast⟩

/-- What is read on the way from `start` to a path, the last file first, none of them twice. -/
inductive Trail (tree : FileTree) (start : Path) : Chain → Path → Prop
  | start : Trail tree start [] start
  | step {p q : Path} {file : ConfigFile} {chain : Chain} (h : Trail tree start chain p)
      (hnew : p ∉ chain.map Prod.fst) (hread : read tree p = .ok file)
      (hq : file.parentPath? p = some q) : Trail tree start ((p, file) :: chain) q

namespace Trail

theorem reaches (h : Trail tree start chain q) : ReflTransGen (Extends tree) start q ∧
    ∀ p ∈ chain.map Prod.fst, TransGen (Extends tree) p q := by
  induction h with
  | start => exact ⟨.refl, forall_mem_nil _⟩
  | step _ _ hread hq ih =>
    refine ⟨ih.1.tail ⟨_, hread, hq⟩, fun p hp => ?_⟩
    rcases mem_cons.mp hp with rfl | hp
    · exact .single ⟨_, hread, hq⟩
    · exact (ih.2 p hp).tail ⟨_, hread, hq⟩

theorem lineage (h : Trail tree start chain q) (hrest : Lineage tree q rest) :
    Lineage tree start (chain.reverse ++ rest) := by
  induction h generalizing rest with
  | start => exact hrest
  | step _ _ hread hq ih => simpa using ih (.step hread hq hrest)

section

variable (hstart : start.IsNormal) (h : Trail tree start chain q)

include hstart h

theorem normal : q.IsNormal ∧ ∀ p ∈ chain.map Prod.fst, q.walked ≠ [] ∧ p.IsNormal ∧
      (p.walked ≠ [] → p.isAbsolute = q.isAbsolute) := by
  induction h with
  | start => exact ⟨hstart, forall_mem_nil _⟩
  | step _ _ _ hq ih =>
    obtain ⟨hp, hbefore⟩ := ih
    obtain ⟨hnormal, hne, habs⟩ := parentPath?_spec hq
    refine ⟨hnormal, fun r hr => ⟨hne, ?_⟩⟩
    rcases mem_cons.mp hr with rfl | hr
    · exact ⟨hp, fun h => by rw [habs, isAbsolute_directory hp h]⟩
    · obtain ⟨hsome, hrnormal, hrabs⟩ := hbefore r hr
      exact ⟨hrnormal, fun h => by rw [hrabs h, habs, isAbsolute_directory hp hsome]⟩

theorem places : ((chain.map Prod.fst).map Path.place).Nodup ∧
      (chain.map Prod.fst).map Path.place ⊆ tree.files.keys := by
  induction h with
  | start => exact ⟨nodup_nil, nil_subset _⟩
  | step hway hnew hread _ ih =>
    refine ⟨nodup_cons.mpr ⟨fun hmem => ?_, ih.1⟩,
      cons_subset.mpr ⟨place_mem_of_read hread, ih.2⟩⟩
    obtain ⟨r, hr, hplace⟩ := mem_map.mp hmem
    obtain ⟨hp, hbefore⟩ := hway.normal hstart
    obtain ⟨hsome, hrnormal, hrabs⟩ := hbefore r hr
    rw [← walked_eq_of_place hplace] at hsome
    exact hnew (hrnormal.eq_of_place hp (hrabs hsome) hplace ▸ hr)

theorem length_le : chain.length ≤ tree.files.length := by
  obtain ⟨hnodup, hread⟩ := h.places hstart
  simpa [Table.keys] using (hnodup.subperm hread).length_le

theorem any_samePlace_iff : (chain.any fun (p, _) => p.samePlace q) ↔ q ∈ chain.map Prod.fst := by
  obtain ⟨hq, hbefore⟩ := h.normal hstart
  have hsame : ∀ entry ∈ chain, (entry.1.samePlace q ↔ entry.1 = q) := fun entry hentry =>
    (hbefore _ (mem_map_of_mem hentry)).2.1.samePlace_iff hq
  rw [any_eq_true, mem_map]
  exact exists_congr fun entry => and_congr_right (hsame entry)

end

end Trail

end ConfigFile

namespace CompilerOptions

open ConfigFile
open Relation (ReflTransGen TransGen)

variable {tree : FileTree} {start q : Path} {chain : Chain} {result : Except ConfigError Chain}

inductive Outcome (tree : FileTree) (start : Path) : Except ConfigError Chain → Prop
  | circular {q : Path} {chain : Chain} (h : Trail tree start chain q)
      (hseen : q ∈ chain.map Prod.fst) : Outcome tree start (.error (.circular q))
  | unread {q : Path} {chain : Chain} {fault : ConfigError} (h : Trail tree start chain q)
      (hread : ConfigFile.read tree q = .error fault) : Outcome tree start (.error fault)
  | settled {q : Path} {file : ConfigFile} {chain : Chain} (h : Trail tree start chain q)
      (hread : ConfigFile.read tree q = .ok file) (hnone : file.parentPath? q = none) :
      Outcome tree start (.ok ((q, file) :: chain))

theorem exists_outcome (hstart : start.IsNormal) {limit : Nat} (h : Trail tree start chain q)
    (hlimit : tree.files.length < limit + chain.length) : ∃ result,
    Outcome tree start result ∧ ∀ extra, loadChain tree (limit + extra) chain q = result := by
  induction limit generalizing chain q with
  | zero => exact absurd (h.length_le hstart) (by omega)
  | succ limit ih =>
    have hiff := h.any_samePlace_iff hstart
    simp only [Nat.add_right_comm limit 1, loadChain]
    split
    · rename_i hany
      exact ⟨_, .circular h (hiff.mp hany), fun _ => rfl⟩
    · rename_i hany
      cases hread : ConfigFile.read tree q with
      | error fault => exact ⟨_, .unread h hread, fun _ => rfl⟩
      | ok file =>
        simp only [bind, Except.bind]
        cases hnext : file.parentPath? q with
        | none => exact ⟨_, .settled h hread hnext, fun _ => rfl⟩
        | some r =>
          have hnew : q ∉ chain.map Prod.fst := fun hmem => hany (hiff.mpr hmem)
          refine ih (.step h hnew hread hnext) ?_
          rw [length_cons]
          omega

theorem Outcome.circular_iff (h : Outcome tree start result) :
    (∃ q, result = .error (.circular q)) ↔
      ∃ q, ReflTransGen (Extends tree) start q ∧ TransGen (Extends tree) q q := by
  cases h with
  | circular h hseen =>
    exact ⟨fun _ => ⟨_, h.reaches.1, h.reaches.2 _ hseen⟩, fun _ => ⟨_, rfl⟩⟩
  | unread h hread =>
    refine ⟨fun ⟨q, hq⟩ => ?_, fun ⟨q, hway, hcircle⟩ => ?_⟩
    · exact absurd hread (Except.error.inj hq ▸ read_ne_circular)
    · exact absurd hcircle (not_circular_of_end h.reaches.1 (not_extends_of_error hread) hway)
  | settled h hread hnone =>
    refine ⟨fun ⟨q, hq⟩ => (by cases hq), fun ⟨q, hway, hcircle⟩ => ?_⟩
    exact absurd hcircle (not_circular_of_end h.reaches.1 (not_extends_of_none hread hnone) hway)

theorem Outcome.ok_iff (h : Outcome tree start result) :
    result = .ok chain ↔ Lineage tree start chain.reverse := by
  cases h with
  | circular h hseen =>
    refine ⟨fun h => (by cases h), fun hline => ?_⟩
    obtain ⟨q, file, hway, hread, hnone⟩ := hline.exists_last
    exact absurd (h.reaches.2 _ hseen)
      (not_circular_of_end hway (not_extends_of_none hread hnone) h.reaches.1)
  | unread h hread =>
    refine ⟨fun h => (by cases h), fun hline => ?_⟩
    obtain ⟨q, file, hway, hlast, hnone⟩ := hline.exists_last
    have hrest := reaches_end hway (not_extends_of_none hlast hnone) h.reaches.1
    rcases hrest.cases_head with rfl | ⟨r, hr, -⟩
    · cases hread.symm.trans hlast
    · exact absurd hr (not_extends_of_error hread r)
  | settled h hread hnone =>
    have hline := h.lineage (.last hread hnone)
    rw [Except.ok.injEq, ← reverse_inj, reverse_cons]
    exact ⟨fun he => he ▸ hline, hline.unique⟩

/-- What a chain says, the nearest file first: each option as the first file that sets it has
it, seen from the directory of that file. -/
def nearest (chain : Chain) : CompilerOptions where
  strict := (chain.findSome? fun entry => entry.2.strict).getD false
  strictNullChecks := chain.findSome? fun entry => entry.2.strictNullChecks
  baseUrl := chain.findSome? fun entry => entry.2.baseUrl.map fun url =>
    ((entry.1.parent?.getD ⟨""⟩).join ⟨url⟩).normalize
  paths := (chain.findSome? fun entry => entry.2.paths).getD []
  pathsBase := chain.findSome? fun entry => entry.2.paths.map fun _ => entry.1.parent?.getD ⟨""⟩

theorem nearest_cons (p : Path) (file : ConfigFile) (chain : Chain) :
    nearest ((p, file) :: chain) = file.apply p (nearest chain) := by
  obtain ⟨_, strict, checks, baseUrl, paths⟩ := file
  cases strict <;> cases checks <;> cases baseUrl <;> cases paths <;> rfl

theorem load_eq (tree : FileTree) (path : Path) : load tree path =
    (loadChain tree (tree.files.length + 1) [] path.normalize).map
      fun chain => nearest chain.reverse := by
  have hfold (chain : Chain) : nearest chain.reverse =
      chain.foldl (fun options entry => entry.2.apply entry.1 options) {} := by
    rw [← foldr_reverse]
    induction chain.reverse with
    | nil => rfl
    | cons entry chain ih => rw [nearest_cons, foldr_cons, ih]
  unfold load
  cases loadChain tree (tree.files.length + 1) [] path.normalize with
  | error fault => rfl
  | ok chain => exact congrArg Except.ok (hfold chain).symm

/-- The walk along a chain ends by itself. It is circular exactly if the links lead to a path
that links lead back to; it succeeds exactly if they lead to a file without one, and then each
option is as the nearest file that sets it says. -/
theorem load_follows_chain (tree : FileTree) (path : Path) :
    (∀ extra, loadChain tree (tree.files.length + 1 + extra) [] path.normalize =
      loadChain tree (tree.files.length + 1) [] path.normalize) ∧
    ((∃ q, load tree path = .error (.circular q)) ↔
      ∃ q, ReflTransGen (Extends tree) path.normalize q ∧ TransGen (Extends tree) q q) ∧
    ∀ options, load tree path = .ok options ↔
      ∃ chain, Lineage tree path.normalize chain ∧ options = nearest chain := by
  obtain ⟨result, hout, hload⟩ :=
    exists_outcome (Path.isNormal_normalize path) (.start : Trail tree path.normalize [] _)
      (Nat.lt_succ_self tree.files.length)
  have hresult : load tree path = result.map fun chain => nearest chain.reverse := by
    rw [load_eq, ← hload 0]
  refine ⟨fun extra => (hload extra).trans (hload 0).symm, ?_, fun options => ?_⟩
  · rw [← hout.circular_iff, hresult]
    cases result <;> simp [Except.map]
  · rw [hresult]
    constructor
    · intro h
      cases result with
      | error fault => cases h
      | ok chain => exact ⟨chain.reverse, hout.ok_iff.mp rfl, (Except.ok.inj h).symm⟩
    · rintro ⟨chain, hline, rfl⟩
      rw [← chain.reverse_reverse] at hline
      rw [hout.ok_iff.mpr hline, Except.map, reverse_reverse]

end CompilerOptions

end PropContract
