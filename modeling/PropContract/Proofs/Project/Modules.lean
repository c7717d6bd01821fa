import PropContract.Project.Basic
import PropContract.Proofs.Path

namespace PropContract

open List

namespace Path

def front (absolute : Bool) (names : List String) : List Char :=
  (if absolute then ['/'] else []) ++ names.flatMap fun n => n.toList ++ ['/']

theorem toList_ofNames_concat (absolute : Bool) (names : List String) (last : String) :
    (ofNames absolute (names ++ [last])).text.toList = front absolute names ++ last.toList := by
  rw [toList_ofNames, map_append, map_singleton, Text.intercalate_concat,
    flatMap_map, front, append_assoc]

variable {absolute : Bool} {names : List String} {ending start : String}

theorem eq_ofNames_concat {text last : String}
    (h : text.toList = front absolute names ++ last.toList) :
    Path.mk text = ofNames absolute (names ++ [last]) := by
  have htext := String.toList_inj.mp (h.trans (toList_ofNames_concat absolute names last).symm)
  rw [htext]

theorem slash_mem_of_front {before after : List Char} (h : front absolute names = before ++ after)
    (hne : after ≠ []) : '/' ∈ after := by
  have hlast : (before ++ after).getLast? = some '/' := by
    rw [← h, front]
    rcases eq_nil_or_concat names with rfl | ⟨init, n, rfl⟩
    · cases absolute with
      | true => rfl
      | false => simp [front] at h; exact absurd h.2 hne
    · simp
  rw [getLast?_append_of_ne_nil _ hne] at hlast
  exact mem_of_getLast? hlast

theorem IsNormal.exists_concat {p : Path} (h : p.IsNormal) : ∃ absolute names last,
    (∀ n ∈ names, IsName n) ∧ '/' ∉ last.toList ∧ p = ofNames absolute (names ++ [last]) := by
  obtain ⟨absolute, names, hn, rfl⟩ := h
  rcases eq_nil_or_concat names with rfl | ⟨init, last, rfl⟩
  · exact ⟨absolute, [], "", hn, by decide, rfl⟩
  · rw [concat_eq_append] at hn ⊢
    exact ⟨absolute, init, last, fun n h => hn n (mem_append_left _ h),
      (hn last (by simp)).noSlash, rfl⟩

def sourceEndings : List String := [".ts", ".tsx", ".d.ts", ".mts", ".cts"]

theorem suffix_of_mem_sourceEndings (he : ending ∈ sourceEndings) :
    ".tsx".toList <:+ ending.toList ∨ ".ts".toList <:+ ending.toList ∨
      ".mts".toList <:+ ending.toList ∨ ".cts".toList <:+ ending.toList := by
  revert ending
  decide

theorem isName_append_of_long (hs : '/' ∉ start.toList) (he : '/' ∉ ending.toList)
    (hlong : 3 ≤ ending.toList.length) : IsName (start ++ ending) := by
  have hne : ∀ short : String, short.toList.length < 3 → start ++ ending ≠ short := by
    rintro short hshort rfl
    rw [String.toList_append, length_append] at hshort
    omega
  constructor
  · rw [String.toList_append, mem_append]
    exact fun h => h.elim hs he
  · simp [componentOf?, isVoid, hne "" (by decide), hne "." (by decide), hne ".." (by decide)]

theorem isName_append (he : ending ∈ sourceEndings) (hs : '/' ∉ start.toList) :
    IsName (start ++ ending) := by
  have hending : '/' ∉ ending.toList ∧ 3 ≤ ending.toList.length := by
    revert ending
    decide
  exact isName_append_of_long hs hending.1 hending.2

def IsSource (p : Path) : Prop :=
  p.IsNormal ∧ (SourceKind.ofPath? p).isSome

theorem isSource_of_ending (hn : ∀ n ∈ names, IsName n) (hs : '/' ∉ start.toList)
    (he : ending ∈ sourceEndings) : (ofNames absolute (names ++ [start ++ ending])).IsSource := by
  have hnames : ∀ n ∈ names ++ [start ++ ending], IsName n := by
    intro n h
    rcases mem_append.mp h with h | h
    · exact hn n h
    · exact mem_singleton.mp h ▸ isName_append he hs
  refine ⟨⟨absolute, _, hnames, rfl⟩, ?_⟩
  have hends : SourceKind.endsWithAny (start ++ ending) [".tsx"] = true ∨
      SourceKind.endsWithAny (start ++ ending) [".ts", ".mts", ".cts"] = true := by
    have hsuffix : ∀ e : String, e.toList <:+ ending.toList →
        e.toList.isSuffixOf (start ++ ending).toList = true := by
      intro e h
      rw [isSuffixOf_iff_suffix, String.toList_append]
      exact h.trans (suffix_append _ _)
    simp only [SourceKind.endsWithAny, any_cons, any_nil, Bool.or_false, Bool.or_eq_true]
    exact (suffix_of_mem_sourceEndings he).imp (hsuffix _)
      (Or.imp (hsuffix _) (Or.imp (hsuffix _) (hsuffix _)))
  rw [SourceKind.ofPath?, fileName?_ofNames absolute hnames getLast?_concat]
  dsimp only [Option.bind_eq_bind, Option.bind_some]
  split
  · rfl
  · split
    · rfl
    · rename_i hmarkup
      rw [if_pos (hends.resolve_left hmarkup)]
      rfl

end Path

namespace Modules

open PropContract.Path

variable {base c : Path}

theorem strip?_eq_some {ending text stem : String} (h : strip? ending text = some stem) :
    text.toList = stem.toList ++ ending.toList := by
  unfold strip? at h
  split at h
  · rename_i hsuffix
    obtain ⟨before, hbefore⟩ := isSuffixOf_iff_suffix.mp hsuffix
    rw [← Option.some.inj h, String.toList_ofList, ← hbefore]
    congr 1
    rw [← String.length_toList, ← String.length_toList, ← hbefore, length_append,
      Nat.add_sub_cancel, take_left]
  · cases h

theorem isSource_of_strip? (hbase : base.IsNormal) {built stem : String} (hb : '/' ∉ built.toList)
    (h : strip? built base.text = some stem) {ending : String} (he : ending ∈ sourceEndings) :
    (Path.mk (stem ++ ending)).IsSource := by
  obtain ⟨absolute, names, last, hn, hl, rfl⟩ := hbase.exists_concat
  have htext := strip?_eq_some h
  rw [toList_ofNames_concat] at htext
  have hsplit : ∃ start, stem.toList = front absolute names ++ start ∧
      last.toList = start ++ built.toList := by
    rcases append_eq_append_iff.mp htext with ⟨a, hstem, hlast⟩ | ⟨a, hfront, hbuilt⟩
    · exact ⟨a, hstem, hlast⟩
    · cases a with
      | nil => exact ⟨[], by simpa using hfront.symm, by simpa using hbuilt.symm⟩
      | cons x xs =>
        have hx := slash_mem_of_front hfront (cons_ne_nil x xs)
        exact absurd (hbuilt ▸ mem_append_left _ hx) hb
  obtain ⟨start, hstem, hlast⟩ := hsplit
  have heq : Path.mk (stem ++ ending) =
      ofNames absolute (names ++ [String.ofList start ++ ending]) := by
    apply eq_ofNames_concat
    rw [String.toList_append, hstem, String.toList_append, String.toList_ofList, append_assoc]
  rw [heq]
  refine isSource_of_ending hn ?_ he
  rw [String.toList_ofList]
  exact fun hm => hl (hlast ▸ mem_append_left _ hm)

theorem isSource_append (hbase : base.IsNormal) {ending : String} (he : ending ∈ sourceEndings) :
    (Path.mk (base.text ++ ending)).IsSource := by
  refine isSource_of_strip? hbase (by decide : '/' ∉ "".toList) ?_ he
  simp [strip?, ← String.length_toList]

theorem join_ofNames {absolute : Bool} {names : List String} (hn : ∀ n ∈ names, IsName n)
    {name : String} (hname : IsName name) :
    (ofNames absolute names).join ⟨name⟩ = ofNames absolute (names ++ [name]) := by
  have hrelative : (Path.mk name).isAbsolute = false := by
    have h := isAbsolute_ofNames false (forall_mem_singleton.mpr hname)
    have htext : ofNames false [name] = Path.mk name := by simp [ofNames, joinSegments]
    rwa [htext] at h
  rcases eq_nil_or_concat names with rfl | ⟨init, last, rfl⟩
  · cases absolute <;> simp [join, hrelative, ofNames, joinSegments]
  · rw [concat_eq_append] at hn ⊢
    have hlast := hn last (by simp)
    have htext := toList_ofNames_concat absolute init last
    have hnot : ¬ ((ofNames absolute (init ++ [last])).text = "" ||
        (ofNames absolute (init ++ [last])).text.toList.getLast? = some '/') := by
      have hslash : last.toList.getLast? ≠ some '/' :=
        fun h => hlast.noSlash (mem_of_getLast? h)
      simp [← String.toList_eq_nil_iff, htext, hlast.toList_ne_nil, hslash]
    rw [join, hrelative, if_neg Bool.false_ne_true, if_neg hnot]
    apply eq_ofNames_concat
    rw [String.toList_append, String.toList_append, htext]
    simp [front]

theorem isSource_of_mem_candidates (hbase : base.IsNormal) (h : c ∈ candidates base) :
    c.IsSource := by
  simp only [candidates, mem_append] at h
  rcases h with ((h | h) | h) | h
  · split at h
    · rename_i hkind
      exact mem_singleton.mp h ▸ ⟨hbase, hkind⟩
    · cases h
  · obtain ⟨⟨built, sources⟩, hentry, hc⟩ := mem_flatMap.mp h
    have hendings : ∀ entry ∈ builtEndings,
        '/' ∉ entry.1.toList ∧ ∀ e ∈ entry.2, e ∈ sourceEndings := by decide
    obtain ⟨hbuilt, hsources⟩ := hendings _ hentry
    dsimp only at hc
    split at hc
    · rename_i stem hstem
      obtain ⟨ending, he, rfl⟩ := mem_map.mp hc
      exact isSource_of_strip? hbase hbuilt hstem (hsources ending he)
    · cases hc
  · obtain ⟨ending, he, rfl⟩ := mem_map.mp h
    have hendings : ∀ e ∈ [".ts", ".tsx", ".d.ts"], e ∈ sourceEndings := by decide
    exact isSource_append hbase (hendings ending he)
  · obtain ⟨index, hi, rfl⟩ := mem_map.mp h
    obtain ⟨absolute, names, hn, rfl⟩ := hbase
    have hsplit : ∀ i ∈ ["index.ts", "index.tsx", "index.d.ts"],
        ∃ ending ∈ sourceEndings, i = "index" ++ ending := by decide
    obtain ⟨ending, he, rfl⟩ := hsplit index hi
    have hslash : '/' ∉ "index".toList := by decide
    rw [join_ofNames hn (isName_append he hslash)]
    exact isSource_of_ending hn hslash he

theorem isNormal_of_mem_bases {options : CompilerOptions} {importer : Path} {specifier : String}
    (h : base ∈ bases options importer specifier) : base.IsNormal := by
  unfold bases at h
  split at h
  · exact mem_singleton.mp h ▸ isNormal_normalize _
  · split at h
    · exact mem_singleton.mp h ▸ isNormal_normalize _
    · rcases mem_append.mp h with h | h
      · unfold mappedPaths at h
        split at h
        · cases h
        · obtain ⟨⟨pattern, targets⟩, -, h⟩ := mem_flatMap.mp h
          dsimp only at h
          split at h
          · cases h
          · obtain ⟨target, -, rfl⟩ := mem_map.mp h
            exact isNormal_normalize _
      · obtain ⟨url, -, rfl⟩ := by simpa using h
        exact isNormal_normalize _

theorem isSource_of_find? {options : CompilerOptions} {exists? : Path → Bool} {importer : Path}
    {specifier : String} (h : find? options exists? importer specifier = some c) : c.IsSource := by
  obtain ⟨base, hbase, hc⟩ := mem_flatMap.mp (mem_of_find?_eq_some h)
  exact isSource_of_mem_candidates (isNormal_of_mem_bases hbase) hc

end Modules

end PropContract
