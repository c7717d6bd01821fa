import PropContract.Proofs.Injection.Merge
import PropContract.Proofs.Injection.Plan
import PropContract.Proofs.Validator.Expansion

namespace PropContract.Injection

open Survey List
open Block (ordered_perm)

def writtenLine (e : HandWritten) : String :=
  "  " ++ e.text ++ ",\n"

def stays (names : List String) (earlier : List HandWritten) (e : HandWritten) : Bool :=
  e.key.all fun k => !names.contains k && earlier.all fun e' => e'.key != some k

theorem stays_of_none {e : HandWritten} (he : e.key = none) (names : List String)
    (earlier : List HandWritten) : stays names earlier e = true := by
  rw [stays, he]
  rfl

variable {k : String} {names : List String} {written : List HandWritten}

theorem stays_iff {e : HandWritten} (he : e.key = some k) {earlier : List HandWritten} :
    stays names earlier e = true ↔ ¬ (k ∈ names ∨ some k ∈ earlier.map HandWritten.key) := by
  simp [stays, he]

def staying (names : List String) (written : List HandWritten) : List (HandWritten × Nat) :=
  written.zipIdx.filter fun p => stays names (written.take p.2) p.1

theorem keptEntries_eq {seen : List String} (earlier rest : List HandWritten)
    (hseen : ∀ k, k ∈ seen ↔ k ∈ names ∨ some k ∈ earlier.map HandWritten.key) :
    keptEntries seen rest =
      ((rest.zipIdx earlier.length).filter fun p =>
        stays names ((earlier ++ rest).take p.2) p.1).map fun p => writtenLine p.1 := by
  induction rest generalizing seen earlier with
  | nil => rfl
  | cons e rest ih =>
    have hstep (seen' : List String)
        (hseen' : ∀ k, k ∈ seen' ↔ k ∈ names ∨ some k ∈ (earlier ++ [e]).map HandWritten.key) :
        keptEntries seen' rest =
          ((rest.zipIdx (earlier.length + 1)).filter fun p =>
            stays names ((earlier ++ e :: rest).take p.2) p.1).map fun p => writtenLine p.1 := by
      simpa using ih (earlier ++ [e]) hseen'
    have hfirst : (earlier ++ e :: rest).take earlier.length = earlier := by simp
    rw [zipIdx_cons, filter_cons, hfirst]
    cases he : e.key with
    | none =>
      have hsame := hstep seen fun k => by simp [hseen, he]
      rw [if_pos (stays_of_none he names earlier), map_cons, ← hsame, keptEntries, he]
      rfl
    | some k =>
      by_cases hk : k ∈ seen
      · have hsame := hstep seen fun k' => by
          have := (hseen k).mp hk
          simp only [hseen, map_append, mem_append, map_singleton,
            mem_singleton, he, Option.some.injEq]
          grind
        rw [if_neg fun h => (stays_iff he).mp h ((hseen k).mp hk), ← hsame, keptEntries, he]
        exact if_pos (contains_iff_mem.mpr hk)
      · have hmore := hstep (k :: seen) fun k' => by
          simp only [mem_cons, hseen, map_append, mem_append, map_singleton, he,
            Option.some.injEq]
          grind
        rw [if_pos ((stays_iff he).mpr fun h => hk ((hseen k).mpr h)), map_cons, ← hmore,
          keptEntries, he]
        exact if_neg (by simpa using hk)

theorem keptEntries_eq_staying (names : List String) (written : List HandWritten) :
    keptEntries names written = (staying names written).map fun p => writtenLine p.1 :=
  keptEntries_eq [] written (by simp)

theorem staying_sublist (names : List String) (written : List HandWritten) :
    (staying names written).Sublist written.zipIdx :=
  filter_sublist

theorem mem_staying_of_none {p : HandWritten × Nat} (hp : p ∈ written.zipIdx)
    (hkey : p.1.key = none) : p ∈ staying names written :=
  mem_filter.mpr ⟨hp, stays_of_none hkey names _⟩

theorem mem_map_key_take_iff {n : Nat} :
    some k ∈ (written.take n).map HandWritten.key ↔
      ∃ q ∈ written.zipIdx, q.1.key = some k ∧ q.2 < n := by
  simp only [mem_map, mem_take_iff_getElem, Prod.exists, mk_mem_zipIdx_iff_getElem?,
    List.getElem?_eq_some_iff]
  grind

theorem mem_staying_iff {p : HandWritten × Nat} (hp : p ∈ written.zipIdx) (hkey : p.1.key = some k)
    :
    p ∈ staying names written ↔
      k ∉ names ∧ ∀ q ∈ written.zipIdx, q.1.key = some k → p.2 ≤ q.2 := by
  rw [staying, mem_filter, stays_iff hkey, mem_map_key_take_iff]
  simp only [hp, true_and, not_or, not_exists, not_and, Nat.not_lt]

theorem nodup_keys_staying (hnames : names.Nodup) (written : List HandWritten) :
    (names ++ (staying names written).filterMap fun p => p.1.key).Nodup := by
  have hplaces : written.zipIdx.Pairwise fun p q => p.2 < q.2 := by
    rw [← pairwise_map (f := Prod.snd), zipIdx_map_snd]
    exact pairwise_lt_range'
  rw [nodup_append]
  refine ⟨hnames, ?_, ?_⟩
  · refine pairwise_filterMap.mpr
      ((hplaces.sublist (staying_sublist names written)).imp_of_mem ?_)
    rintro p q hp hq hlt k hk k' hk' rfl
    have hmem := (staying_sublist names written).subset
    have hfirst := ((mem_staying_iff (hmem hq) hk').mp hq).2 p (hmem hp) hk
    omega
  · rintro k hk k' hk' rfl
    obtain ⟨p, hp, hkey⟩ := mem_filterMap.mp hk'
    exact ((mem_staying_iff ((staying_sublist names written).subset hp) hkey).mp hp).1 hk

theorem generatedNames_perm (o : ValidatorOptions) (c : Component) :
    (generatedNames o c).Perm (c.props.map PropInfo.name) := by
  have hnames : generatedNames o c = (Block.ordered o c).map PropInfo.name := by
    simp [generatedNames, Block.entries, Function.comp_def]
  rw [hnames]
  exact (ordered_perm o c).map PropInfo.name

/-- A merged block has the generated entries as they stand in the block without any others, one for
each property, and then some of the hand-written ones in their order: all those without a key, and
of those with a key that is not generated the first. So no key has two entries, and a block that is
merged with nothing is the generated one. -/
theorem mergedBlock_entries (o : ValidatorOptions) (c : Component) (written : List HandWritten)
    (hnames : (c.props.map PropInfo.name).Nodup) :
    (Block.entries o c).Perm (c.props.map fun p => (p.name, Block.entry o c p)) ∧
      (∃ kept : List (HandWritten × Nat),
        mergedBlock o c written =
          Block.wrap o c.name
            ((Block.entries o c).map Prod.snd ++ kept.map fun p => writtenLine p.1) ∧
        kept.Sublist written.zipIdx ∧
        (∀ p ∈ written.zipIdx, p.1.key = none → p ∈ kept) ∧
        (∀ p ∈ written.zipIdx, ∀ k, p.1.key = some k →
          (p ∈ kept ↔ k ∉ generatedNames o c ∧
            ∀ q ∈ written.zipIdx, q.1.key = some k → p.2 ≤ q.2)) ∧
        (generatedNames o c ++ kept.filterMap fun p => p.1.key).Nodup) ∧
      (written = [] → mergedBlock o c written = Block.ofComponent o c) := by
  have hgenerated : (generatedNames o c).Nodup := (generatedNames_perm o c).nodup_iff.mpr hnames
  refine ⟨(ordered_perm o c).map _, ⟨staying (generatedNames o c) written, ?_,
    staying_sublist _ written, fun p hp hkey => mem_staying_of_none hp hkey,
    fun p hp k hkey => mem_staying_iff hp hkey, nodup_keys_staying hgenerated written⟩, ?_⟩
  · rw [← keptEntries_eq_staying]
    rfl
  · rintro rfl
    exact mergedBlock_nil o c

def mixedEntries : List HandWritten :=
  [⟨some "b", "b: 1"⟩, ⟨none, "...base"⟩, ⟨some "z", "z: 1"⟩, ⟨some "z", "z: 2"⟩]

def mixedComponent : Component :=
  ⟨"A", default, .function, [.mk "b" true .any none none none, .mk "a" true .any none none none],
    []⟩

theorem mergedBlock_entries_mixed :
    (mixedComponent.props.map PropInfo.name).Nodup ∧
      ∃ kept : List (HandWritten × Nat),
        mergedBlock { sortProps := true } mixedComponent mixedEntries =
          Block.wrap { sortProps := true } "A"
            ((Block.entries { sortProps := true } mixedComponent).map Prod.snd ++
              kept.map fun p => writtenLine p.1) ∧
        (⟨none, "...base"⟩, 1) ∈ kept ∧ (⟨some "z", "z: 1"⟩, 2) ∈ kept ∧
        (⟨some "z", "z: 2"⟩, 3) ∉ kept ∧ (⟨some "b", "b: 1"⟩, 0) ∉ kept := by
  have hnames : (mixedComponent.props.map PropInfo.name).Nodup := by decide
  have hgenerated : ∀ k, k ∈ generatedNames { sortProps := true } mixedComponent ↔
      k ∈ mixedComponent.props.map PropInfo.name :=
    fun k => (generatedNames_perm { sortProps := true } mixedComponent).mem_iff
  obtain ⟨-, ⟨kept, hblock, -, hkeyless, hkeyed, -⟩, -⟩ :=
    mergedBlock_entries { sortProps := true } mixedComponent mixedEntries hnames
  refine ⟨hnames, kept, hblock, hkeyless _ (by decide) rfl, ?_, ?_, ?_⟩
  · rw [hkeyed _ (by decide) "z" rfl, hgenerated]
    decide
  · rw [hkeyed _ (by decide) "z" rfl, hgenerated]
    decide
  · rw [hkeyed _ (by decide) "b" rfl, hgenerated]
    decide

end PropContract.Injection
