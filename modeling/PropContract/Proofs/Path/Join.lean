import Mathlib.Data.List.Induction
import PropContract.Proofs.Path

namespace PropContract

open List

namespace Text

variable {sep : Char}

theorem splitOn_append (cs rest : List Char) :
    splitOn sep (cs ++ sep :: rest) = splitOn sep cs ++ splitOn sep rest := by
  induction cs with
  | nil => simp [splitOn]
  | cons c cs ih =>
    by_cases hc : c = sep
    · simp only [cons_append, splitOn, if_pos hc, ih]
    · have hne : splitOn sep cs ≠ [] := splitOn_ne_nil cs
      obtain ⟨first, pieces, hs⟩ := exists_cons_of_ne_nil hne
      rw [hs, cons_append] at ih
      rw [cons_append, splitOn_cons_of_ne hc ih, splitOn_cons_of_ne hc hs, cons_append]

end Text

namespace Path

theorem foldl_walk_of_names (before names : List String) :
    (names.map Component.name).foldl walk before = before ++ names := by
  induction names generalizing before with
  | nil => simp
  | cons n rest ih => simp [walk, ih]

variable {names segments : List String} {p : Path}

variable (absolute : Bool)

theorem normalize_ofNames (h : ∀ n ∈ names, IsName n) :
    (ofNames absolute names).normalize = ofNames absolute names := by
  rw [normalize, isAbsolute_ofNames absolute h, components_ofNames absolute h]
  cases absolute <;> simp [walk, foldl_walk_of_names]

theorem IsNormal.normalize_eq (h : p.IsNormal) : p.normalize = p := by
  obtain ⟨absolute, names, hn, rfl⟩ := h
  exact normalize_ofNames absolute hn

theorem ofNames_inj {absolute : Bool} {names' : List String} (h : ∀ n ∈ names, IsName n)
    (h' : ∀ n ∈ names', IsName n) :
    ofNames absolute names = ofNames absolute names' ↔ names = names' := by
  refine ⟨fun he => ?_, fun he => he ▸ rfl⟩
  have hc := congrArg components he
  rw [components_ofNames absolute h, components_ofNames absolute h'] at hc
  refine map_injective_iff.mpr (fun a b hab => ?_) (append_cancel_left hc)
  exact Component.name.inj hab

theorem IsNormal.samePlace_iff {q : Path} (hp : p.IsNormal) (hq : q.IsNormal) :
    p.samePlace q ↔ p = q := by
  obtain ⟨absolute, names, hn, rfl⟩ := hp
  obtain ⟨absolute', names', hn', rfl⟩ := hq
  refine ⟨fun hs => ?_, fun he => by simp [he, samePlace]⟩
  rw [samePlace, beq_iff_eq, components_ofNames absolute hn, components_ofNames absolute' hn'] at hs
  have hinj : Function.Injective Component.name := fun _ _ h => Component.name.inj h
  cases absolute <;> cases absolute'
  · rw [map_injective_iff.mpr hinj hs]
  · cases names <;> simp at hs
  · cases names' <;> simp at hs
  · rw [map_injective_iff.mpr hinj (List.cons.inj hs).2]

theorem text_ne_of_isAbsolute (h : p.isAbsolute) : p.text ≠ "" := by
  intro he
  rw [isAbsolute, he] at h
  cases h

theorem isAbsolute_join (p q : Path) (hq : q.isAbsolute = false) (hp : p.text ≠ "") :
    (p.join q).isAbsolute = p.isAbsolute := by
  have hlist : p.text.toList ≠ [] := fun h => hp (String.toList_eq_nil_iff.mp h)
  obtain ⟨c, cs, hcs⟩ := exists_cons_of_ne_nil hlist
  unfold join
  rw [hq, if_neg Bool.false_ne_true]
  split <;> simp [isAbsolute, hcs]

theorem segments_join (p q : Path) (hq : q.isAbsolute = false) (hp : p.text ≠ "") :
    ∃ front, front ≠ [] ∧ (p.segments = front ∨ p.segments = front ++ [""]) ∧
      (p.join q).segments = front ++ q.segments := by
  have hne (cs : List Char) : (Text.splitOn '/' cs).map String.ofList ≠ [] := by
    simpa using Text.splitOn_ne_nil cs
  unfold join
  rw [hq, if_neg Bool.false_ne_true]
  by_cases hslash : p.text.toList.getLast? = some '/'
  · obtain ⟨front, hfront⟩ := getLast?_eq_some_iff.mp hslash
    rw [if_pos (by simp [hslash])]
    refine ⟨(Text.splitOn '/' front).map String.ofList, hne front, .inr ?_, ?_⟩
    · simp [segments, hfront, Text.splitOn_append, Text.splitOn]
    · simp [segments, hfront, Text.splitOn_append]
  · rw [if_neg (by simp [hslash, hp])]
    refine ⟨p.segments, hne _, .inl rfl, ?_⟩
    simp [segments, Text.splitOn_append]

theorem components_join_relative (p q : Path) (hq : q.isAbsolute = false) (hp : p.text ≠ "") :
    (p.join q).components = p.components ++ q.segments.filterMap componentOf? := by
  obtain ⟨front, hne, hfront, hsegments⟩ := segments_join p q hq hp
  have hvoid : componentOf? "" = none := rfl
  have hown : p.segments.filterMap componentOf? = front.filterMap componentOf? := by
    rcases hfront with hfront | hfront <;> simp [hfront, hvoid]
  have hhead : p.segments.head? = front.head? := by
    rcases hfront with hfront | hfront
    · rw [hfront]
    · rw [hfront, head?_append_of_ne_nil _ hne]
  simp only [components, isAbsolute_join p q hq hp, hsegments, filterMap_append, hown, hhead,
    head?_append_of_ne_nil _ hne]
  split
  · rfl
  · split <;> rfl

theorem components_join (p : Path) (h : ∀ n ∈ names, IsName n) :
    (p.join (ofNames false names)).components = p.components ++ names.map .name := by
  have hq : (ofNames false names).isAbsolute = false := isAbsolute_ofNames false h
  by_cases hp : p.text = ""
  · have hempty : p = ⟨""⟩ := by cases p; simp_all
    have hjoin : p.join (ofNames false names) = ofNames false names := by
      rw [join, hq, if_neg Bool.false_ne_true, if_pos (by simp [hp]), hp]
      simp
    rw [hjoin, components_ofNames false h, hempty]
    rfl
  · rw [components_join_relative p _ hq hp, segments_relative h]
    split
    · subst names
      rfl
    · rw [filterMap_componentOf? h]

theorem not_isVoid {n : String} (h : IsName n) : isVoid n = false := by
  by_contra hv
  have hc := h.component
  rw [componentOf?, if_pos (by simpa using hv)] at hc
  cases hc

theorem dropWhile_isVoid (h : ∀ n ∈ names, IsName n) :
    (names.reverse.dropWhile isVoid).reverse = names := by
  cases hr : names.reverse with
  | nil => simpa using hr.symm
  | cons n rest =>
    have hn : IsName n := h n (by rw [← mem_reverse, hr]; exact mem_cons_self)
    rw [dropWhile_cons_of_neg (by simp [not_isVoid hn]), ← hr, reverse_reverse]

theorem trimSegments_names (h : ∀ n ∈ names, IsName n) :
    trimSegments absolute (if absolute then "" :: names else names) = names := by
  cases absolute with
  | true => simp [trimSegments, dropWhile_isVoid h]
  | false =>
    cases names with
    | nil => rfl
    | cons n rest =>
      simp only [trimSegments, Bool.false_eq_true, if_false, dropWhile_isVoid h]
      rfl

theorem parent?_ofNames {last : String} (h : ∀ n ∈ names, IsName n) (hlast : IsName last) :
    (ofNames absolute (names ++ [last])).parent? = some (ofNames absolute names) := by
  have hall : ∀ n ∈ names ++ [last], IsName n := by
    intro n hn
    rcases mem_append.mp hn with hn | hn
    · exact h n hn
    · exact mem_singleton.mp hn ▸ hlast
  have hend : (ofNames absolute (names ++ [last])).components.getLast? = some (.name last) := by
    rw [components_ofNames absolute hall, map_append, ← append_assoc]
    exact getLast?_concat
  have hbody :
      trimSegments absolute (ofNames absolute (names ++ [last])).segments = names ++ [last] := by
    cases absolute
    · rw [segments_relative hall, if_neg (by simp)]
      exact trimSegments_names false hall
    · rw [segments_absolute hall, if_neg (by simp)]
      exact trimSegments_names true hall
  have hrest : trimSegments false names = names := trimSegments_names false h
  unfold parent?
  rw [hend]
  simp only [isAbsolute_ofNames absolute hall, hbody, dropLast_concat, hrest]
  rfl

theorem dropComponents_names (h : ∀ n ∈ names, IsName n) (rest : List String) :
    dropComponents names.length (names ++ rest) = rest := by
  induction names with
  | nil => simp [dropComponents]
  | cons n names ih =>
    rw [length_cons, cons_append, dropComponents, not_isVoid (h n mem_cons_self)]
    exact ih fun m hm => h m (mem_cons_of_mem n hm)

theorem relativeTo?_ofNames {base rest : List String} (h : ∀ n ∈ base ++ rest, IsName n) :
    (ofNames true (base ++ rest)).relativeTo? (ofNames true base) = some (ofNames false rest) := by
  have hbase : ∀ n ∈ base, IsName n := fun n hn => h n (mem_append_left rest hn)
  have hrest : ∀ n ∈ rest, IsName n := fun n hn => h n (mem_append_right base hn)
  have hstarts : (ofNames true (base ++ rest)).startsWith (ofNames true base) := by
    rw [startsWith, components_ofNames true h, components_ofNames true hbase]
    simp
  have hvoid : isVoid "" = true := rfl
  have hnamed : ∀ (f : Component → Bool), (f .root = false) → (∀ n, f (.name n) = true) →
      ((ofNames true base).components.filter f).length = base.length := by
    intro f hroot hname
    have hall : f ∘ Component.name = fun _ => true := funext hname
    rw [components_ofNames true hbase]
    simp [hroot, filter_map, hall]
  have hdrop :
      (dropComponents base.length (ofNames true (base ++ rest)).segments).dropWhile isVoid =
        rest := by
    have hkept : rest.dropWhile isVoid = rest := by
      cases rest with
      | nil => rfl
      | cons n rest => exact dropWhile_cons_of_neg (by simp [not_isVoid (hrest n (by simp))])
    rw [segments_absolute h]
    cases base with
    | nil =>
      cases rest with
      | nil => rfl
      | cons n rest =>
        rw [length_nil, dropComponents, dropWhile_cons_of_pos hvoid]
        exact hkept
    | cons n base =>
      have hskip (k : Nat) (xs : List String) :
          dropComponents (k + 1) ("" :: xs) = dropComponents (k + 1) xs := by
        rw [dropComponents, if_pos hvoid]
      have hnames := dropComponents_names hbase rest
      rw [length_cons] at hnames ⊢
      rw [hskip, if_neg (by simp), hnames, hkept]
  unfold relativeTo?
  rw [if_pos hstarts]
  dsimp only
  rw [hnamed _ rfl fun _ => rfl, hdrop, dropWhile_isVoid hrest]
  rfl

theorem mem_segments_noSlash {s : String} (h : s ∈ p.segments) : '/' ∉ s.toList := by
  obtain ⟨piece, hp, rfl⟩ := mem_map.mp h
  rw [String.toList_ofList]
  exact Text.not_mem_of_mem_splitOn hp

theorem segments_joinSegments (hne : segments ≠ []) (h : ∀ s ∈ segments, '/' ∉ s.toList) :
    (Path.mk (joinSegments segments)).segments = segments := by
  have hpieces : ∀ piece ∈ segments.map String.toList, '/' ∉ piece := by
    intro piece hp
    obtain ⟨s, hs, rfl⟩ := mem_map.mp hp
    exact h s hs
  rw [Path.segments, joinSegments, String.toList_intercalate]
  rw [show "/".toList = ['/'] from rfl,
    Text.splitOn_intercalate (by simpa using hne) hpieces, map_map]
  simp

theorem filterMap_trim (segments : List String) :
    ((segments.reverse.dropWhile isVoid).reverse).filterMap componentOf? =
      segments.filterMap componentOf? := by
  have hvoid : ∀ s, isVoid s → componentOf? s = none := fun s hs => by rw [componentOf?, if_pos hs]
  have hdrop (xs : List String) :
      (xs.dropWhile isVoid).filterMap componentOf? = xs.filterMap componentOf? := by
    induction xs with
    | nil => rfl
    | cons x xs ih =>
      by_cases hx : isVoid x
      · rw [dropWhile_cons_of_pos hx, ih, filterMap_cons, hvoid x hx]
      · rw [dropWhile_cons_of_neg hx]
  rw [filterMap_reverse, hdrop, filterMap_reverse, reverse_reverse]

theorem trim_cases (segments : List String) :
    (segments.reverse.dropWhile isVoid).reverse = [] ∨
      ∃ front last component, (segments.reverse.dropWhile isVoid).reverse = front ++ [last] ∧
        componentOf? last = some component := by
  cases h : segments.reverse.dropWhile isVoid with
  | nil => exact .inl rfl
  | cons last rest =>
    have hv : ¬ isVoid last := by
      have := head_dropWhile_not isVoid (l := segments.reverse) (by simp [h])
      simpa [h] using this
    refine .inr ⟨rest.reverse, last, ?_⟩
    by_cases hup : last = ".."
    · exact ⟨.up, by simp, by rw [componentOf?, if_neg hv, if_pos hup]⟩
    · exact ⟨.name last, by simp, by rw [componentOf?, if_neg hv, if_neg hup]⟩

theorem segments_of_isAbsolute (h : p.isAbsolute) : ∃ rest, p.segments = "" :: rest := by
  rw [isAbsolute, beq_iff_eq] at h
  cases hcs : p.text.toList with
  | nil => simp [hcs] at h
  | cons c cs =>
    obtain rfl : c = '/' := by simpa [hcs] using h
    exact ⟨_, by rw [segments, hcs, Text.splitOn, if_pos rfl, map_cons]⟩

theorem components_slash (h : ∀ s ∈ segments, '/' ∉ s.toList) :
    (Path.mk ("/" ++ joinSegments segments)).components =
      .root :: segments.filterMap componentOf? := by
  have habs : (Path.mk ("/" ++ joinSegments segments)).isAbsolute := by simp [isAbsolute]
  have hvoid : componentOf? "" = none := rfl
  have hsegments : (Path.mk ("/" ++ joinSegments segments)).segments =
      "" :: (Path.mk (joinSegments segments)).segments := by
    simp [Path.segments, Text.splitOn]
  rw [components, if_pos habs, hsegments, filterMap_cons, hvoid]
  by_cases hne : segments = []
  · subst hne
    rfl
  · rw [segments_joinSegments hne h]

theorem mem_trimSegments {s : String} (h : s ∈ trimSegments false segments) : s ∈ segments := by
  unfold trimSegments at h
  simp only [Bool.false_eq_true, if_false] at h
  split at h
  · rename_i hdot
    simp only [Bool.and_eq_true, decide_eq_true_eq] at hdot
    rw [mem_singleton.mp h]
    exact mem_of_mem_head? hdot.2
  · exact mem_reverse.mp (dropWhile_subset _ (mem_reverse.mp h))

theorem filterMap_trimSegments (segments : List String) :
    (trimSegments false segments).filterMap componentOf? = segments.filterMap componentOf? := by
  rw [← filterMap_trim segments]
  unfold trimSegments
  simp only [Bool.false_eq_true, if_false]
  split
  · rename_i hdot
    simp only [Bool.and_eq_true, List.isEmpty_iff] at hdot
    rw [hdot.1.2]
    rfl
  · rfl

theorem exists_parent? (habs : p.isAbsolute) {front : List Component} {last : Component}
    (h : p.components = .root :: (front ++ [last])) :
    ∃ q, p.parent? = some q ∧ q.isAbsolute ∧ q.components = .root :: front := by
  obtain ⟨tail, htail⟩ := segments_of_isAbsolute habs
  have hvoid : componentOf? "" = none := rfl
  have hbody : tail.filterMap componentOf? = front ++ [last] := by
    rw [components, if_pos habs, htail] at h
    simpa [hvoid] using h
  rcases trim_cases tail with hnil | ⟨first, final, component, hsplit, hfinal⟩
  · rw [← filterMap_trim, hnil] at hbody
    simp at hbody
  · rw [← filterMap_trim, hsplit, filterMap_append, filterMap_cons, hfinal] at hbody
    obtain ⟨hfront, hlast⟩ := append_inj' hbody rfl
    have hend : p.components.getLast? = some component := by
      rw [h, ← hlast]
      exact getLast?_concat (l := .root :: front)
    have hroot : component ≠ .root := by
      rintro rfl
      unfold componentOf? at hfinal
      split at hfinal
      · cases hfinal
      · split at hfinal <;> cases hfinal
    have htrim : trimSegments true p.segments = first ++ [final] := by
      simp [trimSegments, htail, hsplit]
    have hslash : ∀ s ∈ trimSegments false first, '/' ∉ s.toList := by
      intro s hs
      apply mem_segments_noSlash (p := p)
      have hmem : s ∈ (tail.reverse.dropWhile isVoid).reverse := by
        rw [hsplit]
        exact mem_append_left _ (mem_trimSegments hs)
      rw [htail]
      exact mem_cons_of_mem _
        (mem_reverse.mp (dropWhile_subset _ (mem_reverse.mp hmem)))
    refine ⟨⟨"/" ++ joinSegments (trimSegments false first)⟩, ?_, by simp [isAbsolute], ?_⟩
    · unfold parent?
      rw [hend]
      cases component with
      | root => exact absurd rfl hroot
      | here | up | name n => simp only [habs, htrim, dropLast_concat, if_true]
    · rw [components_slash hslash, filterMap_trimSegments, hfront]

theorem startsWith_ofNames {base : List String} (h : ∀ n ∈ names, IsName n)
    (hbase : ∀ n ∈ base, IsName n) :
    (ofNames true names).startsWith (ofNames true base) ↔ base <+: names := by
  rw [startsWith, components_ofNames true h, components_ofNames true hbase,
    isPrefixOf_iff_prefix]
  simp only [if_true, cons_append, nil_append, cons_prefix_cons, true_and]
  exact prefix_map_iff_of_injective fun _ _ he => Component.name.inj he

theorem find?_ancestors_go (h : ∀ n ∈ names, IsName n) {base : List String}
    (hbase : ∀ n ∈ base, IsName n) {fuel : Nat} (hfuel : base.length ≤ fuel) :
    ∃ shared, (∀ other, other <+: shared ↔ other <+: base ∧ other <+: names) ∧
      (ancestors.go fuel (ofNames true base)).find? (ofNames true names).startsWith =
        some (ofNames true shared) := by
  induction base using List.reverseRecOn generalizing fuel with
  | nil =>
    have hroot : (ofNames true []).parent? = none := rfl
    have hstarts : (ofNames true names).startsWith (ofNames true []) :=
      (startsWith_ofNames h hbase).mpr nil_prefix
    refine ⟨[], fun other => ?_, by cases fuel <;> simp [ancestors.go, hroot, hstarts]⟩
    exact ⟨fun ho => ⟨ho, ho.trans nil_prefix⟩, And.left⟩
  | append_singleton base last ih =>
    have hfront : ∀ n ∈ base, IsName n := fun n hn => hbase n (mem_append_left _ hn)
    obtain ⟨fuel, rfl⟩ : ∃ k, fuel = k + 1 :=
      Nat.exists_eq_add_one.mpr (by simp at hfuel; omega)
    have hgo : ancestors.go (fuel + 1) (ofNames true (base ++ [last])) =
        ofNames true (base ++ [last]) :: ancestors.go fuel (ofNames true base) := by
      simp only [ancestors.go, parent?_ofNames true hfront (hbase last (by simp))]
    rw [hgo]
    by_cases hstarts : base ++ [last] <+: names
    · refine ⟨base ++ [last], fun other => ⟨fun ho => ⟨ho, ho.trans hstarts⟩, And.left⟩, ?_⟩
      exact find?_cons_of_pos ((startsWith_ofNames h hbase).mpr hstarts)
    · obtain ⟨shared, hshared, hfind⟩ := ih hfront (by simpa using hfuel)
      refine ⟨shared, fun other => ?_, ?_⟩
      · rw [hshared, prefix_concat_iff]
        refine ⟨fun ho => ⟨.inr ho.1, ho.2⟩, ?_⟩
        rintro ⟨rfl | ho, hnames⟩
        · exact absurd hnames hstarts
        · exact ⟨ho, hnames⟩
      · rw [find?_cons_of_neg (mt (startsWith_ofNames h hbase).mp hstarts), hfind]

theorem find?_ancestors (h : ∀ n ∈ names, IsName n) {base : List String}
    (hbase : ∀ n ∈ base, IsName n) :
    ∃ shared, (∀ other, other <+: shared ↔ other <+: base ∧ other <+: names) ∧
      (ofNames true base).ancestors.find? (ofNames true names).startsWith =
        some (ofNames true shared) :=
  find?_ancestors_go h hbase (by simp [components_ofNames true hbase])

end Path

end PropContract
