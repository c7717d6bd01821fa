import Mathlib.Data.List.Basic
import PropContract.FileTree

namespace PropContract

open List

variable {cs : List Char} {pieces : List (List Char)} {p : Path}

namespace Text

variable {sep : Char}

theorem splitOn_ne_nil (cs : List Char) : splitOn sep cs ≠ [] := by
  cases cs with
  | nil => exact cons_ne_nil _ _
  | cons c cs =>
    rw [splitOn]
    split
    · exact cons_ne_nil _ _
    · split <;> exact cons_ne_nil _ _

theorem splitOn_cons_of_ne {c : Char} (hc : c ≠ sep) {piece : List Char}
    (h : splitOn sep cs = piece :: pieces) :
    splitOn sep (c :: cs) = (c :: piece) :: pieces := by
  rw [splitOn, if_neg hc, h]

theorem not_mem_of_mem_splitOn {piece : List Char} (h : piece ∈ splitOn sep cs) :
    sep ∉ piece := by
  induction cs generalizing piece with
  | nil =>
    rw [mem_singleton.mp h]
    exact not_mem_nil
  | cons c cs ih =>
    by_cases hc : c = sep
    · rw [splitOn, if_pos hc] at h
      rcases mem_cons.mp h with rfl | h
      · exact not_mem_nil
      · exact ih h
    · have hne : splitOn sep cs ≠ [] := splitOn_ne_nil cs
      obtain ⟨first, pieces, hs⟩ := exists_cons_of_ne_nil hne
      rw [splitOn_cons_of_ne hc hs] at h
      rcases mem_cons.mp h with rfl | h
      · have hfirst := ih (hs ▸ mem_cons_self)
        simpa [hfirst] using fun he => hc he.symm
      · exact ih (hs ▸ mem_cons_of_mem _ h)

theorem splitOn_of_not_mem (h : sep ∉ cs) : splitOn sep cs = [cs] := by
  induction cs with
  | nil => rfl
  | cons c cs ih =>
    have hc : c ≠ sep := fun he => h (he ▸ mem_cons_self)
    exact splitOn_cons_of_ne hc (ih fun hm => h (mem_cons_of_mem c hm))

theorem splitOn_append_cons (h : sep ∉ cs) (rest : List Char) :
    splitOn sep (cs ++ sep :: rest) = cs :: splitOn sep rest := by
  induction cs with
  | nil => exact if_pos rfl
  | cons c cs ih =>
    have hc : c ≠ sep := fun he => h (he ▸ mem_cons_self)
    exact splitOn_cons_of_ne hc (ih fun hm => h (mem_cons_of_mem c hm))

theorem splitOn_intercalate (hne : pieces ≠ [])
    (h : ∀ piece ∈ pieces, sep ∉ piece) : splitOn sep ([sep].intercalate pieces) = pieces := by
  induction pieces with
  | nil => exact absurd rfl hne
  | cons piece rest ih =>
    have hp := h piece mem_cons_self
    cases rest with
    | nil => simpa using splitOn_of_not_mem hp
    | cons next rest =>
      have hr := ih (cons_ne_nil _ _) fun q hq => h q (mem_cons_of_mem _ hq)
      rw [intercalate_cons_cons, append_assoc, singleton_append,
        splitOn_append_cons hp, hr]

theorem intercalate_concat (pieces : List (List Char)) (last : List Char) :
    [sep].intercalate (pieces ++ [last]) = (pieces.flatMap (· ++ [sep])) ++ last := by
  induction pieces with
  | nil => simp
  | cons piece pieces ih =>
    have hcons : ∃ m ms, pieces ++ [last] = m :: ms := by cases pieces <;> simp
    obtain ⟨m, ms, hms⟩ := hcons
    rw [cons_append, hms, intercalate_cons_cons, ← hms, ih]
    simp

end Text

namespace Path

structure IsName (n : String) : Prop where
  noSlash : '/' ∉ n.toList
  component : componentOf? n = some (.name n)

theorem isName_of_mem_components {n : String} (h : .name n ∈ p.components) :
    IsName n := by
  have hbody : .name n ∈ p.segments.filterMap componentOf? := by
    unfold components at h
    dsimp only at h
    split at h
    · simpa using h
    · split at h
      · simpa using h
      · exact h
  obtain ⟨segment, hs, hc⟩ := mem_filterMap.mp hbody
  have hn : segment = n := by
    unfold componentOf? at hc
    split at hc
    · cases hc
    · split at hc
      · cases hc
      · simpa using hc
  subst hn
  obtain ⟨piece, hp, rfl⟩ := mem_map.mp hs
  refine ⟨?_, hc⟩
  rw [String.toList_ofList]
  exact Text.not_mem_of_mem_splitOn hp

/-- A path that is written as its names are, with single slashes between them. -/
def IsNormal (p : Path) : Prop :=
  ∃ absolute names, (∀ n ∈ names, IsName n) ∧ p = ofNames absolute names

theorem foldl_walk_names {components : List Component}
    (hc : ∀ n, .name n ∈ components → IsName n) {names : List String} (h : ∀ n ∈ names, IsName n) :
    ∀ n ∈ components.foldl walk names, IsName n := by
  induction components generalizing names with
  | nil => exact h
  | cons component rest ih =>
    apply ih
    · exact fun n hn => hc n (mem_cons_of_mem _ hn)
    · cases component with
      | root => exact h
      | here => exact h
      | up => exact fun n hn => h n (dropLast_subset names hn)
      | name m =>
        intro n hn
        rcases mem_append.mp hn with hn | hn
        · exact h n hn
        · exact mem_singleton.mp hn ▸ hc m mem_cons_self

theorem isNormal_normalize (p : Path) : p.normalize.IsNormal :=
  ⟨_, _, foldl_walk_names (fun _ => isName_of_mem_components) (forall_mem_nil _),
    rfl⟩

section OfNames

variable {names : List String}

variable (absolute : Bool)

theorem toList_ofNames (names : List String) : (ofNames absolute names).text.toList =
      (if absolute then ['/'] else []) ++ ['/'].intercalate (names.map String.toList) := by
  cases absolute <;> simp [ofNames, joinSegments, String.toList_intercalate]

theorem splitOn_names (h : ∀ n ∈ names, IsName n) (hne : names ≠ []) :
    Text.splitOn '/' (['/'].intercalate (names.map String.toList)) = names.map String.toList := by
  apply Text.splitOn_intercalate
  · simpa using hne
  · intro piece hp
    obtain ⟨n, hn, rfl⟩ := mem_map.mp hp
    exact (h n hn).noSlash

theorem IsName.toList_ne_nil {n : String} (h : IsName n) : n.toList ≠ [] := by
  intro hn
  have he : n = "" := String.toList_eq_nil_iff.mp hn
  have hc := h.component
  rw [he] at hc
  cases hc

theorem isAbsolute_ofNames (h : ∀ n ∈ names, IsName n) :
    (ofNames absolute names).isAbsolute = absolute := by
  rw [isAbsolute, toList_ofNames]
  cases absolute with
  | true => rfl
  | false =>
    cases names with
    | nil => rfl
    | cons n rest =>
      have hn := h n mem_cons_self
      obtain ⟨c, cs, hcs⟩ := exists_cons_of_ne_nil hn.toList_ne_nil
      have hc : c ≠ '/' := fun he => hn.noSlash (by rw [hcs, he]; exact mem_cons_self)
      cases rest <;> simpa [hcs, intercalate_cons_cons] using hc

theorem filterMap_componentOf? (h : ∀ n ∈ names, IsName n) :
    names.filterMap componentOf? = names.map .name := by
  induction names with
  | nil => rfl
  | cons n rest ih =>
    rw [filterMap_cons, (h n mem_cons_self).component,
      ih fun m hm => h m (mem_cons_of_mem _ hm), map_cons]

theorem segments_relative (h : ∀ n ∈ names, IsName n) :
    (ofNames false names).segments = if names = [] then [""] else names := by
  by_cases hne : names = []
  · subst hne
    rfl
  · rw [segments, toList_ofNames, if_neg hne]
    simp [splitOn_names h hne]

theorem segments_absolute (h : ∀ n ∈ names, IsName n) :
    (ofNames true names).segments = "" :: if names = [] then [""] else names := by
  rw [segments, toList_ofNames, ← segments_relative h, segments, toList_ofNames]
  rfl

theorem components_ofNames (h : ∀ n ∈ names, IsName n) : (ofNames absolute names).components =
      (if absolute then [.root] else []) ++ names.map .name := by
  have hvoid : componentOf? "" = none := rfl
  have hbody : (if names = [] then [""] else names).filterMap componentOf? = names.map .name := by
    split
    · subst names
      rfl
    · exact filterMap_componentOf? h
  rw [components, isAbsolute_ofNames absolute h]
  cases absolute with
  | true => simp [segments_absolute h, hvoid, hbody]
  | false =>
    have hdot : (ofNames false names).segments.head? ≠ some "." := by
      rw [segments_relative h]
      cases names with
      | nil => decide
      | cons n rest =>
        intro he
        have hn := (h n mem_cons_self).component
        obtain rfl : n = "." := by simpa using he
        cases hn
    rw [segments_relative h] at hdot ⊢
    simp [hdot, hbody]

theorem fileName?_ofNames (h : ∀ n ∈ names, IsName n) {last : String}
    (hlast : names.getLast? = some last) : (ofNames absolute names).fileName? = some last := by
  rw [fileName?, components_ofNames absolute h, getLast?_append, getLast?_map, hlast]
  rfl

end OfNames

end Path

namespace FileTree

theorem resolveFrom_names (tree : FileTree) (before names : List String) :
    tree.resolveFrom before (names.map .name) = some (before ++ names) := by
  induction names generalizing before with
  | nil => simp [resolveFrom]
  | cons n rest ih => simp [resolveFrom, ih]

theorem resolve?_ofNames (tree : FileTree) (absolute : Bool) {names : List String}
    (h : ∀ n ∈ names, Path.IsName n) :
    tree.resolve? (Path.ofNames absolute names) = some (Path.ofNames true names).text := by
  have hfrom : tree.resolveFrom [] (Path.ofNames absolute names).components = some names := by
    rw [Path.components_ofNames absolute h]
    cases absolute <;> simp [resolveFrom, resolveFrom_names]
  rw [resolve?, hfrom]
  rfl

variable {tree : FileTree}

theorem resolveFrom_eq_walk {components : List Path.Component} {before names : List String}
    (h : tree.resolveFrom before components = some names) :
    components.foldl Path.walk before = names := by
  induction components generalizing before with
  | nil => simpa [resolveFrom] using h
  | cons component rest ih =>
    rw [foldl_cons]
    apply ih
    cases component with
    | root | here | name => simpa [resolveFrom, Path.walk] using h
    | up =>
      rw [resolveFrom] at h
      split at h
      · exact h
      · cases h

theorem resolve?_normalize (habs : p.isAbsolute) {place : String}
    (h : tree.resolve? p = some place) :
    p.normalize.text = place ∧ tree.resolve? p.normalize = some place := by
  obtain ⟨names, hnames, rfl⟩ := Option.map_eq_some_iff.mp h
  have hwalk := resolveFrom_eq_walk hnames
  have hn : p.normalize = Path.ofNames true names := by rw [Path.normalize, hwalk, habs]
  have hproper : ∀ n ∈ names, Path.IsName n := by
    rw [← hwalk]
    exact Path.foldl_walk_names (fun _ => Path.isName_of_mem_components)
      (forall_mem_nil _)
  exact ⟨by rw [hn], by rw [hn, resolve?_ofNames tree true hproper]⟩

theorem isFile_of_read {text : String} (h : tree.read p = .ok text) : tree.isFile p := by
  unfold read at h
  unfold isFile
  split at h
  · cases h
  · rename_i place hplace
    rw [hplace]
    split at h
    · rename_i hget
      simp [Table.contains, hget]
    · cases h
    · split at h <;> cases h

theorem isFile_normalize (habs : p.isAbsolute) (h : tree.isFile p) :
    tree.isFile p.normalize := by
  unfold isFile at h ⊢
  split at h
  · rename_i place hplace
    rwa [(resolve?_normalize habs hplace).2]
  · cases h

end FileTree

end PropContract
