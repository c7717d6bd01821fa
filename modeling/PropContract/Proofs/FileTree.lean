import Mathlib.Data.List.Infix
import PropContract.Proofs.Path.Join
import PropContract.Proofs.Table

/-!
Trees of files. In a sound tree, where no file is also a directory, making the directories of a
path fails exactly where a file stands on the way.
-/

namespace PropContract

open List

namespace Path

def walked (p : Path) : List String :=
  p.components.foldl walk []

def place (p : Path) : String :=
  (ofNames true p.walked).text

theorem isName_walked (p : Path) : ∀ n ∈ p.walked, IsName n :=
  foldl_walk_names (fun _ => isName_of_mem_components) (forall_mem_nil _)

theorem walked_ofNames (absolute : Bool) {names : List String} (h : ∀ n ∈ names, IsName n) :
    (ofNames absolute names).walked = names := by
  rw [walked, components_ofNames absolute h]
  cases absolute <;> simp [walk, foldl_walk_of_names]

theorem walked_normalize (p : Path) : p.normalize.walked = p.walked :=
  walked_ofNames _ p.isName_walked

end Path

namespace FileTree

theorem resolve?_eq_place {tree : FileTree} {p : Path} {place : String}
    (h : tree.resolve? p = some place) : place = p.place := by
  obtain ⟨names, hnames, rfl⟩ := Option.map_eq_some_iff.mp h
  rw [Path.place, Path.walked, resolveFrom_eq_walk hnames]

theorem makeDirectoriesFrom_files (tree : FileTree) (made : Bool) (names : List String)
    (components : List Path.Component) :
    (tree.makeDirectoriesFrom made names components).1.files = tree.files := by
  induction components generalizing tree made names with
  | nil => rfl
  | cons component rest ih =>
    cases component with
    | root | here | up => exact ih ..
    | name n =>
      rw [makeDirectoriesFrom]
      split
      · rfl
      · split
        · exact ih ..
        · exact ih ..

theorem write_cases (tree : FileTree) (p : Path) (text : String) :
    ((tree.write p text).1 = tree ∧ (tree.write p text).2 ≠ none) ∨
      tree.write p text = ({ tree with files := tree.files.put p.place (.text text) }, none) := by
  unfold write
  split
  · exact .inl ⟨rfl, nofun⟩
  · rename_i place hplace
    obtain rfl := resolve?_eq_place hplace
    split
    · exact .inl ⟨rfl, nofun⟩
    · exact .inr rfl

end FileTree

namespace FileTree

open Path

variable {tree : FileTree} {names rest dir : List String}

def hasFile (tree : FileTree) (names : List String) : Bool :=
  tree.files.contains (ofNames true names).text

/-- No file is a directory too, and what is above a directory is one. -/
structure IsSound (tree : FileTree) : Prop where
  apart : ∀ {names}, (∀ n ∈ names, IsName n) → tree.hasFile names → tree.hasDirectory names = false
  above : ∀ {names n}, (∀ m ∈ names ++ [n], IsName m) → tree.hasDirectory (names ++ [n]) →
    tree.hasDirectory names

theorem hasDirectory_iff (tree : FileTree) (names : List String) :
    tree.hasDirectory names ↔ names = [] ∨ (ofNames true names).text ∈ tree.directories ∨
      ∃ place ∈ tree.files.keys,
        (Path.mk place).startsWith (ofNames true names) ∧ place ≠ (ofNames true names).text := by
  simp [hasDirectory, Table.keys, or_assoc]

theorem hasDirectory_of_hasFile {n : String} (h : ∀ m ∈ names ++ n :: rest, IsName m)
    (hfile : tree.hasFile (names ++ n :: rest)) : tree.hasDirectory names := by
  have hnames : ∀ m ∈ names, IsName m := fun m hm => h m (mem_append_left _ hm)
  refine (hasDirectory_iff tree names).mpr (.inr (.inr
    ⟨_, (Table.contains_iff_mem_keys _ _).mp hfile, ?_, fun he => ?_⟩))
  · exact (startsWith_ofNames h hnames).mpr (prefix_append names _)
  · have hlist := (ofNames_inj h hnames).mp (congrArg Path.mk he)
    simpa using congrArg List.length hlist

namespace IsSound

theorem of_below (h : tree.IsSound) (hpre : dir <+: names) (hn : ∀ n ∈ names, IsName n)
    (hdir : tree.hasDirectory names) : tree.hasDirectory dir := by
  obtain ⟨rest, rfl⟩ := hpre
  induction rest using List.reverseRecOn with
  | nil => simpa using hdir
  | append_singleton rest n ih =>
    rw [← append_assoc] at hn hdir
    exact ih (fun m hm => hn m (mem_append_left _ hm)) (h.above hn hdir)

theorem not_hasFile (h : tree.IsSound) (hn : ∀ n ∈ names, IsName n)
    (hdir : tree.hasDirectory names) : tree.hasFile names = false := by
  by_contra hfile
  rw [Bool.not_eq_false] at hfile
  exact absurd ((h.apart hn hfile).symm.trans hdir) Bool.false_ne_true

end IsSound

theorem isSound_of_files (hdirs : tree.directories = []) (hroot : "/" ∉ tree.files.keys)
    (h : ∀ p ∈ tree.files.keys, ∀ q ∈ tree.files.keys,
      (Path.mk q).startsWith ⟨p⟩ → p = q) : tree.IsSound where
  apart {names} hn hfile := by
    rw [← Bool.not_eq_true, hasDirectory_iff, hdirs]
    have hkey := (Table.contains_iff_mem_keys _ _).mp hfile
    rintro (rfl | hmem | ⟨q, hq, hstarts, hne⟩)
    · exact hroot hkey
    · cases hmem
    · exact hne (h _ hkey q hq hstarts).symm
  above {names n} hn hdir := by
    have hinit : ∀ m ∈ names, IsName m := fun m hm => hn m (mem_append_left _ hm)
    rw [hasDirectory_iff, hdirs] at hdir
    rcases hdir with hnil | hmem | ⟨q, hq, hstarts, -⟩
    · simp at hnil
    · cases hmem
    · rw [startsWith, isPrefixOf_iff_prefix, components_ofNames true hn] at hstarts
      refine (hasDirectory_iff tree names).mpr (.inr (.inr ⟨q, hq, ?_, ?_⟩))
      · rw [startsWith, isPrefixOf_iff_prefix, components_ofNames true hinit]
        refine IsPrefix.trans ?_ hstarts
        simp
      · rintro rfl
        have hlength := hstarts.length_le
        rw [show Path.mk (ofNames true names).text = ofNames true names from rfl,
          components_ofNames true hinit] at hlength
        simp only [length_append, length_map, length_singleton] at hlength
        omega

theorem makeDirectoriesFrom_cons (tree : FileTree) (made : Bool) (names : List String) (n : String)
    (rest : List Component) :
    tree.makeDirectoriesFrom made names (.name n :: rest) =
      if tree.hasFile (names ++ [n]) then
        (tree, some (if made || rest.isEmpty then .occupied else .notDirectory))
      else if tree.hasDirectory (names ++ [n]) then
        tree.makeDirectoriesFrom made (names ++ [n]) rest
      else
        makeDirectoriesFrom
          { tree with directories := tree.directories ++ [(ofNames true (names ++ [n])).text] } true
          (names ++ [n]) rest := by
  rw [makeDirectoriesFrom]
  rfl

theorem makeDirectoriesFrom_append (h : tree.IsSound) (made : Bool) (names rest : List String)
    (hn : ∀ n ∈ names ++ rest, IsName n) (hdir : tree.hasDirectory (names ++ rest))
    (components : List Component) :
    tree.makeDirectoriesFrom made names (rest.map .name ++ components) =
      tree.makeDirectoriesFrom made (names ++ rest) components := by
  induction rest generalizing names with
  | nil => simp
  | cons n rest ih =>
    have hassoc : names ++ n :: rest = names ++ [n] ++ rest := by simp
    rw [hassoc] at hn hdir ⊢
    have hfirst := h.of_below (prefix_append _ rest) hn hdir
    have hfile := h.not_hasFile (fun m hm => hn m (mem_append_left _ hm)) hfirst
    rw [map_cons, cons_append, makeDirectoriesFrom_cons, hfile, if_neg Bool.false_ne_true,
      if_pos hfirst, ih _ hn hdir]

theorem makeDirectoriesFrom_of_resolveFrom (h : tree.IsSound) {components : List Component}
    (hc : ∀ n, .name n ∈ components → IsName n) (hplain : ∀ c ∈ components, c ≠ .root ∧ c ≠ .here)
    (hn : ∀ n ∈ names, IsName n) (hdir : tree.resolveFrom names components = some dir) :
    tree.makeDirectoriesFrom false [] (names.map .name ++ components) =
      tree.makeDirectoriesFrom false [] (dir.map .name) := by
  induction components generalizing names with
  | nil =>
    obtain rfl : names = dir := by simpa [resolveFrom] using hdir
    rw [append_nil]
  | cons component rest ih =>
    have hrest := fun names => @ih names (fun n hn => hc n (mem_cons_of_mem _ hn))
      fun c hc => hplain c (mem_cons_of_mem _ hc)
    cases component with
    | root => exact absurd rfl (hplain _ mem_cons_self).1
    | here => exact absurd rfl (hplain _ mem_cons_self).2
    | name n =>
      have hnames : ∀ m ∈ names ++ [n], IsName m := by
        intro m hm
        rcases mem_append.mp hm with hm | hm
        · exact hn m hm
        · exact mem_singleton.mp hm ▸ hc n mem_cons_self
      rw [← hrest _ hnames hdir]
      simp
    | up =>
      rw [resolveFrom] at hdir
      split at hdir
      · rename_i hthere
        have hlast : ∀ n ∈ names.dropLast, IsName n := fun n hm => hn n (dropLast_subset _ hm)
        have hshorter : names.dropLast <+: names := dropLast_prefix names
        have hbelow := h.of_below hshorter hn hthere
        rw [← hrest _ hlast hdir, makeDirectoriesFrom_append h false [] names hn hthere,
          makeDirectoriesFrom_append h false [] names.dropLast hlast hbelow]
        rfl
      · cases hdir

theorem makeDirectoriesFrom_of_hasFile (h : tree.IsSound) {before : List String} {n : String}
    (hn : ∀ m ∈ names ++ before ++ [n], IsName m) (hfile : tree.hasFile (names ++ before ++ [n]))
    (rest : List String) :
    tree.makeDirectoriesFrom false names ((before ++ n :: rest).map .name) =
      (tree, some (if rest = [] then .occupied else .notDirectory)) := by
  have hdir : tree.hasDirectory (names ++ before) := hasDirectory_of_hasFile hn hfile
  rw [map_append, makeDirectoriesFrom_append h false names before
    (fun m hm => hn m (mem_append_left _ hm)) hdir, map_cons, makeDirectoriesFrom_cons,
    if_pos hfile]
  simp

theorem hasDirectory_make {n : String} (hn : ∀ m ∈ names ++ [n], IsName m) {q : List String}
    (hq : ∀ m ∈ q, IsName m) :
    hasDirectory
        { tree with directories := tree.directories ++ [(ofNames true (names ++ [n])).text] } q ↔
      tree.hasDirectory q ∨ q = names ++ [n] := by
  have htext : (ofNames true q).text = (ofNames true (names ++ [n])).text ↔ q = names ++ [n] :=
    ⟨fun he => (ofNames_inj hq hn).mp (congrArg Path.mk he), fun he => he ▸ rfl⟩
  simp only [hasDirectory_iff, mem_append, mem_singleton, htext, or_assoc]
  rw [or_comm (b := q = names ++ [n])]

theorem makeDirectoriesFrom_of_free (made : Bool) (hn : ∀ n ∈ names ++ rest, IsName n)
    (hfree : ∀ q, q ≠ [] → q <+: rest → tree.hasFile (names ++ q) = false) :
    ∃ after, tree.makeDirectoriesFrom made names (rest.map .name) = (after, none) ∧
      after.files = tree.files ∧ ∀ q, (∀ n ∈ q, IsName n) →
        (after.hasDirectory q ↔
          tree.hasDirectory q ∨ ∃ p, p ≠ [] ∧ p <+: rest ∧ q = names ++ p) := by
  induction rest generalizing tree made names with
  | nil =>
    refine ⟨tree, rfl, rfl, fun q _ => ⟨.inl, ?_⟩⟩
    rintro (hdir | ⟨p, hne, hp, -⟩)
    · exact hdir
    · exact absurd (prefix_nil.mp hp) hne
  | cons n rest ih =>
    have hassoc : names ++ n :: rest = names ++ [n] ++ rest := by simp
    rw [hassoc] at hn
    have hfirst := hfree [n] (cons_ne_nil _ _) (by simp)
    have hbelow : ∀ q, q ≠ [] → q <+: rest → tree.hasFile (names ++ [n] ++ q) = false := by
      intro q hne hq
      have hlonger := hfree (n :: q) (cons_ne_nil _ _) (cons_prefix_cons.mpr ⟨rfl, hq⟩)
      simpa using hlonger
    have hadded (q : List String) : (q = names ++ [n] ∨ ∃ p, p ≠ [] ∧ p <+: rest ∧
        q = names ++ [n] ++ p) ↔ ∃ p, p ≠ [] ∧ p <+: n :: rest ∧ q = names ++ p := by
      constructor
      · rintro (rfl | ⟨p, -, hp, rfl⟩)
        · exact ⟨[n], by simp, by simp, rfl⟩
        · exact ⟨n :: p, by simp, by simpa using hp, by simp⟩
      · rintro ⟨p, hne, hp, rfl⟩
        obtain ⟨m, p, rfl⟩ := exists_cons_of_ne_nil hne
        obtain ⟨rfl, hrest⟩ := cons_prefix_cons.mp hp
        by_cases hnil : p = []
        · exact .inl (by rw [hnil])
        · exact .inr ⟨p, hnil, hrest, by simp⟩
    rw [map_cons, makeDirectoriesFrom_cons, hfirst, if_neg Bool.false_ne_true]
    by_cases hthere : tree.hasDirectory (names ++ [n])
    · rw [if_pos hthere]
      obtain ⟨after, hmade, hfiles, hdirs⟩ := ih made hn hbelow
      refine ⟨after, hmade, hfiles, fun q hq => ?_⟩
      rw [hdirs q hq, ← hadded q]
      constructor
      · exact fun h => h.imp id .inr
      · rintro (h | rfl | h)
        · exact .inl h
        · exact .inl hthere
        · exact .inr h
    · rw [if_neg hthere]
      obtain ⟨after, hmade, hfiles, hdirs⟩ := @ih
        { tree with directories := tree.directories ++ [(ofNames true (names ++ [n])).text] }
        _ true hn hbelow
      refine ⟨after, hmade, hfiles, fun q hq => ?_⟩
      rw [hdirs q hq, hasDirectory_make (fun m hm => hn m (mem_append_left _ hm)) hq,
        ← hadded q, or_assoc]

end FileTree

namespace Path

structure NamesFile (p : Path) : Prop where
  absolute : p.isAbsolute
  ends : ∃ front last, p.components = .root :: (front ++ [.name last])

theorem plain_of_mem_components {p : Path} (habs : p.isAbsolute) {body : List Component}
    (h : p.components = .root :: body) : ∀ c ∈ body, c ≠ .root ∧ c ≠ .here := by
  rw [components, if_pos habs] at h
  obtain rfl := (List.cons.inj h).2
  intro c hc
  obtain ⟨s, -, hs⟩ := mem_filterMap.mp hc
  unfold componentOf? at hs
  split at hs
  · cases hs
  · split at hs <;> cases hs <;> simp

theorem names_ofNames {names : List String} (h : ∀ n ∈ names, IsName n) :
    (ofNames true names).names = names := by
  rw [Path.names, components_ofNames true h]
  simp [filterMap_map]

end Path

namespace FileTree

open Path

variable {tree tree' : FileTree} {p : Path} {text : String}

theorem resolveFrom_append (tree : FileTree) (names : List String) (front rest : List Component) :
    tree.resolveFrom names (front ++ rest) =
      (tree.resolveFrom names front).bind fun between => tree.resolveFrom between rest := by
  induction front generalizing names with
  | nil => rfl
  | cons component front ih =>
    cases component with
    | root | here | name n => exact ih _
    | up =>
      rw [cons_append, resolveFrom, resolveFrom]
      split
      · exact ih _
      · rfl

theorem resolve?_of_isSome (hreach : (tree.resolve? p).isSome) :
    tree.resolve? p = some p.place := by
  obtain ⟨place, hplace⟩ := Option.isSome_iff_exists.mp hreach
  rw [hplace, resolve?_eq_place hplace]

theorem resolveFrom_mono (hdirs : ∀ q, (∀ n ∈ q, IsName n) → tree.hasDirectory q →
      tree'.hasDirectory q) {components : List Component}
    (hc : ∀ n, .name n ∈ components → IsName n) {names last : List String}
    (hn : ∀ n ∈ names, IsName n) (h : tree.resolveFrom names components = some last) :
    tree'.resolveFrom names components = some last := by
  induction components generalizing names with
  | nil => exact h
  | cons component rest ih =>
    have hrest : ∀ n, .name n ∈ rest → IsName n := fun n hm => hc n (mem_cons_of_mem _ hm)
    cases component with
    | root | here => exact ih hrest hn h
    | name n =>
      refine ih hrest (fun m hm => ?_) h
      rcases mem_append.mp hm with hm | hm
      · exact hn m hm
      · exact mem_singleton.mp hm ▸ hc n mem_cons_self
    | up =>
      rw [resolveFrom] at h ⊢
      split at h
      · rename_i hthere
        rw [if_pos (hdirs names hn hthere)]
        exact ih hrest (fun m hm => hn m (dropLast_subset _ hm)) h
      · cases h

theorem resolve?_mono (hdirs : ∀ q, (∀ n ∈ q, IsName n) → tree.hasDirectory q →
      tree'.hasDirectory q) (hreach : (tree.resolve? p).isSome) : (tree'.resolve? p).isSome := by
  rw [resolve?, Option.isSome_map] at hreach ⊢
  obtain ⟨last, hlast⟩ := Option.isSome_iff_exists.mp hreach
  rw [resolveFrom_mono hdirs (fun _ => isName_of_mem_components)
    (forall_mem_nil _) hlast]
  rfl

theorem isFile_iff (tree : FileTree) (p : Path) :
    tree.isFile p ↔ (tree.resolve? p).isSome ∧ tree.hasFile p.walked := by
  unfold isFile
  split
  · rename_i place hplace
    obtain rfl := resolve?_eq_place hplace
    simp [hplace, hasFile, place]
  · rename_i hnone
    simp [hnone]

theorem read_congr (hresolve : tree'.resolve? p = tree.resolve? p)
    (hget : tree'.files.get? p.place = tree.files.get? p.place)
    (hdir : tree'.hasDirectory p.walked = tree.hasDirectory p.walked) :
    tree'.read p = tree.read p := by
  unfold read
  rw [hresolve]
  cases h : tree.resolve? p with
  | none => rfl
  | some place =>
    obtain rfl := resolve?_eq_place h
    have hnames : (Path.mk p.place).names = p.walked := names_ofNames p.isName_walked
    simp only [hget, hnames, hdir]

theorem resolve?_congr (hdirs : ∀ q, (∀ n ∈ q, IsName n) →
      tree'.hasDirectory q = tree.hasDirectory q) (p : Path) :
    tree'.resolve? p = tree.resolve? p := by
  by_cases hreach : (tree.resolve? p).isSome
  · have hreach' : (tree'.resolve? p).isSome :=
      resolve?_mono (fun q hq hdir => (hdirs q hq).trans hdir) hreach
    rw [resolve?_of_isSome hreach, resolve?_of_isSome hreach']
  · have hreach' : ¬ (tree'.resolve? p).isSome :=
      fun h => hreach (resolve?_mono (fun q hq hdir => (hdirs q hq).symm.trans hdir) h)
    rw [Option.not_isSome_iff_eq_none.mp hreach, Option.not_isSome_iff_eq_none.mp hreach']

theorem walked_ne_nil (hp : p.NamesFile) : p.walked ≠ [] := by
  obtain ⟨front, last, hends⟩ := hp.ends
  rw [walked, hends, foldl_cons, foldl_append]
  simp [walk]

section

variable (h : tree.IsSound) (hp : p.NamesFile) (hreach : (tree.resolve? p).isSome)

include h hp hreach

theorem makeDirectories_parent : tree.makeDirectories (p.parent?.getD ⟨""⟩) =
      tree.makeDirectoriesFrom false [] (p.walked.dropLast.map .name) := by
  obtain ⟨front, last, hends⟩ := hp.ends
  obtain ⟨q, hq, -, hcomponents⟩ := exists_parent? hp.absolute hends
  have hplain := plain_of_mem_components hp.absolute hends
  have hnames : ∀ n, .name n ∈ front → IsName n := fun n hn =>
    isName_of_mem_components (p := p) (by rw [hends]; simp [hn])
  rw [resolve?, Option.isSome_map, hends] at hreach
  obtain ⟨names, hresolve⟩ := Option.isSome_iff_exists.mp hreach
  have hwalk : p.walked = names := by
    rw [walked, hends]
    exact resolveFrom_eq_walk hresolve
  rw [resolveFrom, resolveFrom_append] at hresolve
  obtain ⟨dir, hdir, hlast⟩ := Option.bind_eq_some_iff.mp hresolve
  obtain rfl : dir ++ [last] = names := by simpa [resolveFrom] using hlast
  rw [hq, Option.getD_some, makeDirectories, hcomponents, makeDirectoriesFrom, hwalk,
    dropLast_concat]
  exact makeDirectoriesFrom_of_resolveFrom h hnames
    (fun c hc => hplain c (mem_append_left _ hc)) (forall_mem_nil _) hdir

theorem makeDirectories_of_hasFile {q : List String} (hne : q ≠ []) (hq : q <+: p.walked.dropLast)
    (hfile : tree.hasFile q) : tree.makeDirectories (p.parent?.getD ⟨""⟩) =
      (tree, some (if q = p.walked.dropLast then .occupied else .notDirectory)) := by
  rw [makeDirectories_parent h hp hreach]
  have hnames : ∀ n ∈ p.walked.dropLast, IsName n :=
    fun n hn => p.isName_walked n (dropLast_subset _ hn)
  obtain ⟨rest, hrest⟩ := hq
  rw [← hrest] at hnames ⊢
  rcases eq_nil_or_concat q with rfl | ⟨before, n, rfl⟩
  · exact absurd rfl hne
  · rw [concat_eq_append] at hfile hnames ⊢
    have hn : ∀ m ∈ [] ++ before ++ [n], IsName m :=
      fun m hm => hnames m (mem_append_left _ hm)
    have hmade := makeDirectoriesFrom_of_hasFile h hn hfile rest
    rw [append_assoc, singleton_append, hmade]
    simp

theorem makeDirectories_of_free
    (hfree : ∀ q, q ≠ [] → q <+: p.walked.dropLast → tree.hasFile q = false) :
    ∃ made, tree.makeDirectories (p.parent?.getD ⟨""⟩) = (made, none) ∧
      made.files = tree.files ∧ ∀ q, (∀ n ∈ q, IsName n) →
        (made.hasDirectory q ↔ tree.hasDirectory q ∨ q <+: p.walked.dropLast) := by
  have hnames : ∀ n ∈ [] ++ p.walked.dropLast, IsName n :=
    fun n hn => p.isName_walked n (dropLast_subset _ hn)
  obtain ⟨made, hmade, hfiles, hdirs⟩ := makeDirectoriesFrom_of_free false hnames hfree
  rw [← makeDirectories_parent h hp hreach] at hmade
  refine ⟨made, hmade, hfiles, fun q hq => ?_⟩
  rw [hdirs q hq]
  by_cases hnil : q = []
  · simp [hnil, hasDirectory]
  · simp [hnil]

end

theorem write_eq (hreach : (tree.resolve? p).isSome) :
    tree.write p text =
      if !tree.hasFile p.walked && tree.hasDirectory p.walked then (tree, some .directory)
      else ({ tree with files := tree.files.put p.place (.text text) }, none) := by
  have hnames : (Path.mk p.place).names = p.walked := names_ofNames p.isName_walked
  rw [write, resolve?_of_isSome hreach]
  simp only [hnames]
  rfl

theorem hasDirectory_put (tree : FileTree) {names q : List String} (hn : ∀ n ∈ names, IsName n)
    (hq : ∀ n ∈ q, IsName n) (content : FileContent) :
    hasDirectory { tree with files := tree.files.put (ofNames true names).text content } q ↔
      tree.hasDirectory q ∨ (q <+: names ∧ q ≠ names) := by
  have hbelow : (Path.mk (ofNames true names).text).startsWith (ofNames true q) ↔ q <+: names :=
    startsWith_ofNames hn hq
  have hsame : (ofNames true names).text ≠ (ofNames true q).text ↔ q ≠ names := by
    rw [not_iff_not]
    exact ⟨fun he => ((ofNames_inj hn hq).mp (congrArg Path.mk he)).symm, fun he => he ▸ rfl⟩
  have hkeys (place : String) :
      place ∈ (tree.files.put (ofNames true names).text content).keys ↔
        place ∈ tree.files.keys ∨ place = (ofNames true names).text := by
    rw [Table.keys_put]
    split
    · rename_i hmem
      exact ⟨.inl, fun h => h.elim id fun he => he ▸ hmem⟩
    · simp
  simp only [hasDirectory_iff, hkeys, or_and_right, exists_or, exists_eq_left, hbelow, hsame,
    or_assoc]

structure Keeps (tree after : FileTree) : Prop where
  files : after.files = tree.files
  dirs : ∀ q, (∀ n ∈ q, IsName n) → after.hasDirectory q = tree.hasDirectory q

structure Puts (tree : FileTree) (names : List String) (text : String) (after : FileTree) :
    Prop where
  free : ∀ q, q ≠ [] → q <+: names → q ≠ names → tree.hasFile q = false
  vacant : tree.hasFile names ∨ tree.hasDirectory names = false
  files : after.files = tree.files.put (ofNames true names).text (.text text)
  dirs : ∀ q, (∀ n ∈ q, IsName n) →
    (after.hasDirectory q ↔ tree.hasDirectory q ∨ (q <+: names ∧ q ≠ names))

section Sound

variable {after : FileTree} {names : List String}

theorem Keeps.hasFile (h : tree.Keeps after) (q : List String) :
    after.hasFile q = tree.hasFile q := by
  rw [FileTree.hasFile, h.files, FileTree.hasFile]

theorem Keeps.sound (h : tree.Keeps after) (hsound : tree.IsSound) : after.IsSound where
  apart {q} hq hfile := by
    rw [h.dirs q hq]
    exact hsound.apart hq (h.hasFile q ▸ hfile)
  above {q n} hq hdir := by
    rw [h.dirs q fun m hm => hq m (mem_append_left _ hm)]
    exact hsound.above hq (h.dirs _ hq ▸ hdir)

theorem Puts.hasFile (h : tree.Puts names text after) (hn : ∀ n ∈ names, IsName n) {q : List String}
    (hq : ∀ n ∈ q, IsName n) : after.hasFile q ↔ tree.hasFile q ∨ q = names := by
  have htext : (ofNames true names).text = (ofNames true q).text ↔ q = names :=
    ⟨fun he => ((ofNames_inj hn hq).mp (congrArg Path.mk he)).symm, fun he => he ▸ rfl⟩
  rw [FileTree.hasFile, h.files, Table.contains, Table.get?_put]
  split
  · rename_i he
    simp [htext.mp he]
  · rename_i he
    simp [FileTree.hasFile, Table.contains, mt htext.mpr he]

theorem Puts.sound (h : tree.Puts names text after) (hn : ∀ n ∈ names, IsName n)
    (hsound : tree.IsSound) : after.IsSound where
  apart {q} hq hfile := by
    have hold : tree.hasDirectory q = false := by
      rcases (h.hasFile hn hq).mp hfile with hfile | rfl
      · exact hsound.apart hq hfile
      · exact h.vacant.elim (hsound.apart hq) id
    rw [← Bool.not_eq_true, h.dirs q hq, hold]
    rintro (hdir | ⟨hpre, hne⟩)
    · cases hdir
    · have hroot : q ≠ [] := by
        rintro rfl
        cases hold
      have hfree := h.free q hroot hpre hne
      rcases (h.hasFile hn hq).mp hfile with hfile | rfl
      · exact absurd (hfree.symm.trans hfile) Bool.false_ne_true
      · exact hne rfl
  above {q n} hq hdir := by
    have hinit : ∀ m ∈ q, IsName m := fun m hm => hq m (mem_append_left _ hm)
    rw [h.dirs q hinit]
    rcases (h.dirs _ hq).mp hdir with hdir | ⟨hpre, hne⟩
    · exact .inl (hsound.above hq hdir)
    · refine .inr ⟨(prefix_append q [n]).trans hpre, ?_⟩
      rintro rfl
      have hlength := hpre.length_le
      simp only [length_append, length_singleton] at hlength
      omega

end Sound

end FileTree

end PropContract
