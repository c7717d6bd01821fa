import Mathlib.Algebra.Order.BigOperators.Group.Finset
import PropContract.Proofs.Project.Chains
import PropContract.Proofs.Table

/-!
The search for a name goes nowhere twice. It still finds what the search along a path finds: from
a place that is remembered and not on the path, no chain leads on.
-/

namespace PropContract

open List

variable {es : List Passage} {x : Visit}

/-- Whether the search remembers that it came to a place: it does for every name, and for an
export that another one was passed on from. -/
def Passage.isRemembered : Passage → Bool
  | ⟨_, .name ..⟩ | ⟨.passedOn, .exported ..⟩ | ⟨.star, .exported ..⟩ => true
  | ⟨.start, .exported ..⟩ | ⟨.imported, .exported ..⟩ | ⟨.exportedLocal, .exported ..⟩ => false

def ImportBinding.name? : ImportBinding → Option String
  | ⟨_, .named name⟩ => some name
  | ⟨_, .namespace⟩ => none

def ExportTarget.name? : ExportTarget → Option String
  | .local name | .named _ name => some name
  | .namespace _ => none

namespace Project

variable {p : Project}

def follow (p : Project) (fuel : Nat) (e : Passage) (seen : List Visit) :
    Option Resolution × List Visit :=
  match e.place with
  | .name file name => p.findName fuel file name seen
  | .exported file name =>
    if e.isRemembered then
      if seen.contains e.place then (none, seen)
      else p.findExport fuel file name (e.place :: seen)
    else p.findExport fuel file name seen

def firstOf (p : Project) (fuel : Nat) : List Passage → List Visit → Option Resolution × List Visit
  | [], seen => (none, seen)
  | e :: es, seen =>
    match p.follow fuel e seen with
    | (some r, seen) => (some r, seen)
    | (none, seen) => firstOf p fuel es seen

def lookAt (p : Project) (fuel : Nat) (x : Visit) (seen : List Visit) :
    Option Resolution × List Visit :=
  match p.junction x with
  | .answer r => (some r, seen)
  | .passages next => p.firstOf fuel next seen

theorem firstOf_singleton (fuel : Nat) (e : Passage) (seen : List Visit) :
    p.firstOf fuel [e] seen = p.follow fuel e seen := by
  rw [firstOf]
  split
  · rename_i h
    exact h.symm
  · rename_i h
    exact h.symm

variable {fuel file : Nat} {e : Passage} {seen : List Visit} {next : List Passage} {name : String}

theorem foldl_eq_firstOf {α : Type} {passage? : α → Option Passage}
    {step : Option Resolution × List Visit → α → Option Resolution × List Visit}
    (hfound : ∀ r seen a, step (some r, seen) a = (some r, seen))
    (hnone : ∀ seen a, passage? a = none → step (none, seen) a = (none, seen))
    (hsome : ∀ seen a e, passage? a = some e → step (none, seen) a = p.follow fuel e seen)
    (as : List α) (seen : List Visit) :
    as.foldl step (none, seen) = p.firstOf fuel (as.filterMap passage?) seen := by
  have hkept (r : Resolution) (seen : List Visit) (as : List α) :
      as.foldl step (some r, seen) = (some r, seen) := by
    induction as with
    | nil => rfl
    | cons a as ih => rw [foldl_cons, hfound, ih]
  induction as generalizing seen with
  | nil => rfl
  | cons a as ih =>
    rw [foldl_cons]
    cases ha : passage? a with
    | none => rw [hnone seen a ha, ih, filterMap_cons_none ha]
    | some e =>
      rw [hsome seen a e ha, filterMap_cons_some ha, firstOf]
      split
      · rename_i h
        rw [h, hkept]
      · rename_i h
        rw [h, ih]

theorem findExport_succ (fuel file : Nat) (name : String) (seen : List Visit) :
    p.findExport (fuel + 1) file name seen = p.lookAt fuel (.exported file name) seen := by
  rw [findExport, lookAt, junction]
  dsimp only
  cases (p.scopeOf file).exports.get? name with
  | some target =>
    cases target with
    | «local» other => exact (firstOf_singleton fuel ⟨.exportedLocal, .name file other⟩ seen).symm
    | named module other =>
      dsimp only
      cases p.moduleOf? file module with
      | some target => exact (firstOf_singleton fuel ⟨.passedOn, .exported target other⟩ seen).symm
      | none => rfl
    | «namespace» module =>
      dsimp only
      cases p.moduleOf? file module <;> rfl
  | none =>
    by_cases hd : name = "default"
    · simp only [hd, if_true]
      rfl
    · simp only [hd, if_false]
      apply foldl_eq_firstOf
      · intro r seen module
        rfl
      · intro seen module h
        rw [Option.map_eq_none_iff] at h
        simp only [h]
      · intro seen module e h
        obtain ⟨target, ht, rfl⟩ := Option.map_eq_some_iff.mp h
        simp only [ht]
        rfl

theorem findName_succ (fuel file : Nat) (name : String) (seen : List Visit) :
    p.findName (fuel + 1) file name seen =
      if seen.contains (.name file name) then (none, seen)
      else p.lookAt fuel (.name file name) (.name file name :: seen) := by
  rw [findName, lookAt, junction]
  dsimp only
  split
  · rfl
  · by_cases hl : (p.scopeOf file).locals.contains name
    · simp only [hl, if_true]
    · simp only [hl]
      cases (p.scopeOf file).imports.get? name with
      | some binding =>
        obtain ⟨module, imported⟩ := binding
        cases imported with
        | named other =>
          dsimp only
          cases p.moduleOf? file module with
          | some target =>
            exact (firstOf_singleton fuel ⟨.imported, .exported target other⟩ _).symm
          | none => rfl
        | «namespace» =>
          dsimp only
          cases p.moduleOf? file module <;> rfl
      | none => cases p.global? name <;> rfl

theorem follow_succ (fuel : Nat) (e : Passage) (seen : List Visit) :
    p.follow (fuel + 1) e seen =
      if e.isRemembered ∧ e.place ∈ seen then (none, seen)
      else p.lookAt fuel e.place (e.extend Passage.isRemembered seen) := by
  obtain ⟨edge, place⟩ := e
  cases place with
  | name file name =>
    have hr : Passage.isRemembered ⟨edge, .name file name⟩ = true := by
      cases edge <;> rfl
    simp only [follow, findName_succ, Passage.extend, hr, contains_iff_mem, true_and, if_true]
  | exported file name =>
    simp only [follow, findExport_succ, Passage.extend, contains_iff_mem]
    by_cases hr : Passage.isRemembered ⟨edge, .exported file name⟩ = true
    · simp only [hr, true_and, if_true]
    · simp [hr]

theorem follow_of_mem (hr : e.isRemembered) (hm : e.place ∈ seen) :
    p.follow fuel e seen = (none, seen) := by
  cases fuel with
  | succ fuel => rw [follow_succ, if_pos ⟨hr, hm⟩]
  | zero =>
    obtain ⟨edge, place⟩ := e
    cases place with
    | name file name => rfl
    | exported file name => simp [follow, hr, hm]

theorem firstOf_cons_of_some {r : Resolution} (h : (p.follow fuel e seen).1 = some r) :
    p.firstOf fuel (e :: es) seen = p.follow fuel e seen := by
  rw [firstOf]
  split
  · rename_i hf
    exact hf.symm
  · rename_i hf
    rw [hf] at h
    cases h

theorem firstOf_cons_of_none (h : (p.follow fuel e seen).1 = none) :
    p.firstOf fuel (e :: es) seen = p.firstOf fuel es (p.follow fuel e seen).2 := by
  rw [firstOf]
  split
  · rename_i hf
    rw [hf] at h
    cases h
  · rename_i hf
    rw [hf]

theorem passage_of_name (hj : p.junction (.name file name) = .passages next) (he : e ∈ next) :
    ∃ module other target, (p.scopeOf file).imports.get? name = some ⟨module, .named other⟩ ∧
      p.moduleOf? file module = some target ∧ e = ⟨.imported, .exported target other⟩ := by
  rw [junction] at hj
  split at hj
  · cases hj
  · split at hj
    · rename_i module other hget
      split at hj
      · rename_i target htarget
        cases hj
        exact ⟨module, other, target, hget, htarget, mem_singleton.mp he⟩
      · cases hj
    · split at hj <;> cases hj
    · split at hj <;> cases hj
      exact absurd he not_mem_nil

theorem passage_of_exported (hj : p.junction (.exported file name) = .passages next) (he : e ∈ next)
    :
    (∃ other, (p.scopeOf file).exports.get? name = some (.local other) ∧
        e = ⟨.exportedLocal, .name file other⟩) ∨
      (∃ module other target, (p.scopeOf file).exports.get? name = some (.named module other) ∧
        p.moduleOf? file module = some target ∧ e = ⟨.passedOn, .exported target other⟩) ∨
      ∃ module target, p.moduleOf? file module = some target ∧
        e = ⟨.star, .exported target name⟩ := by
  rw [junction] at hj
  split at hj
  · rename_i other hget
    cases hj
    exact .inl ⟨other, hget, mem_singleton.mp he⟩
  · rename_i module other hget
    split at hj
    · rename_i target htarget
      cases hj
      exact .inr (.inl ⟨module, other, target, hget, htarget, mem_singleton.mp he⟩)
    · cases hj
  · split at hj <;> cases hj
  · split at hj <;> cases hj
    · exact absurd he not_mem_nil
    · obtain ⟨module, -, hm⟩ := mem_filterMap.mp he
      obtain ⟨target, htarget, rfl⟩ := Option.map_eq_some_iff.mp hm
      exact .inr (.inr ⟨module, target, htarget, rfl⟩)

theorem isRemembered_of_not {e' : Passage} (he : e.isRemembered = false)
    (hj : p.junction e.place = .passages next) (he' : e' ∈ next) : e'.isRemembered = true := by
  obtain ⟨edge, place⟩ := e
  cases place with
  | name file name => cases edge <;> cases he
  | exported file name =>
    rcases passage_of_exported hj he' with ⟨_, _, rfl⟩ | ⟨_, _, _, _, _, rfl⟩ | ⟨_, _, _, rfl⟩ <;> rfl

theorem lt_of_moduleOf? {target : Nat} {module : String} (h : p.moduleOf? file module = some target)
    : target < p.files.length := by
  simp only [moduleOf?, Option.bind_eq_bind, Option.bind_eq_some_iff] at h
  obtain ⟨-, -, path, -, h⟩ := h
  exact (findIdx?_eq_some_iff_getElem.mp h).1

def targetNames (p : Project) : List String :=
  p.files.flatMap fun f =>
    f.scope.imports.values.filterMap ImportBinding.name? ++
      f.scope.exports.values.filterMap ExportTarget.name?

def places (p : Project) (file : Nat) (name : String) : Finset Visit :=
  (insert file (Finset.range p.files.length) ×ˢ insert name p.targetNames.toFinset).biUnion
    fun (file, name) => {.name file name, .exported file name}

theorem mem_places {other : Nat} {text : String}
    (hx : x = .name other text ∨ x = .exported other text) :
    x ∈ p.places file name ↔
      (other = file ∨ other < p.files.length) ∧ (text = name ∨ text ∈ p.targetNames) := by
  have hspot (q : Nat × String) :
      x ∈ ({.name q.1 q.2, .exported q.1 q.2} : Finset Visit) ↔ q = (other, text) := by
    rcases hx with rfl | rfl <;> simp [Prod.ext_iff, eq_comm]
  simp only [places, Finset.mem_biUnion, hspot, exists_eq_right, Finset.mem_product,
    Finset.mem_insert, Finset.mem_range, mem_toFinset]

theorem scopeOf_cases (p : Project) (file : Nat) :
    p.scopeOf file = {} ∨ ∃ f ∈ p.files, p.scopeOf file = f.scope := by
  unfold scopeOf file?
  cases h : p.files[file]? with
  | none => exact .inl rfl
  | some f => exact .inr ⟨f, mem_of_getElem? h, rfl⟩

theorem mem_targetNames_of_import {module other : String}
    (h : (p.scopeOf file).imports.get? name = some ⟨module, .named other⟩) :
    other ∈ p.targetNames := by
  rcases p.scopeOf_cases file with hs | ⟨f, hf, hs⟩
  · rw [hs] at h
    cases h
  · rw [hs] at h
    have hv : (⟨module, .named other⟩ : ImportBinding) ∈ f.scope.imports.values :=
      mem_map_of_mem (Table.mem_of_get? h)
    exact mem_flatMap.mpr ⟨f, hf,
      mem_append_left _ (mem_filterMap.mpr ⟨_, hv, rfl⟩)⟩

theorem mem_targetNames_of_export {other : String} {target : ExportTarget}
    (h : (p.scopeOf file).exports.get? name = some target) (ht : target.name? = some other) :
    other ∈ p.targetNames := by
  rcases p.scopeOf_cases file with hs | ⟨f, hf, hs⟩
  · rw [hs] at h
    cases h
  · rw [hs] at h
    have hv : target ∈ f.scope.exports.values := mem_map_of_mem (Table.mem_of_get? h)
    exact mem_flatMap.mpr ⟨f, hf,
      mem_append_right _ (mem_filterMap.mpr ⟨target, hv, ht⟩)⟩

theorem mem_places_of_passage (hx : x ∈ p.places file name)
    (hj : p.junction x = .passages next) (he : e ∈ next) : e.place ∈ p.places file name := by
  cases x with
  | name other text =>
    obtain ⟨module, target, id, hget, hid, rfl⟩ := passage_of_name hj he
    exact (mem_places (.inr rfl)).mpr
      ⟨.inr (lt_of_moduleOf? hid), .inr (mem_targetNames_of_import hget)⟩
  | exported other text =>
    obtain ⟨hother, htext⟩ := (mem_places (.inr rfl)).mp hx
    rcases passage_of_exported hj he with
      ⟨target, hget, rfl⟩ | ⟨module, target, id, hget, hid, rfl⟩ | ⟨module, id, hid, rfl⟩
    · exact (mem_places (.inl rfl)).mpr ⟨hother, .inr (mem_targetNames_of_export hget rfl)⟩
    · exact (mem_places (.inr rfl)).mpr
        ⟨.inr (lt_of_moduleOf? hid), .inr (mem_targetNames_of_export hget rfl)⟩
    · exact (mem_places (.inr rfl)).mpr ⟨.inr (lt_of_moduleOf? hid), htext⟩

theorem length_targetNames_le (p : Project) : p.targetNames.length ≤ p.nameCount := by
  unfold targetNames nameCount
  induction p.files with
  | nil => simp
  | cons f files ih =>
    have hi := length_filterMap_le ImportBinding.name? f.scope.imports.values
    have he := length_filterMap_le ExportTarget.name? f.scope.exports.values
    simp only [flatMap_cons, length_append, Table.keys, Table.values,
      length_map] at *
    omega

theorem card_places_le (p : Project) (file : Nat) (name : String) :
    (p.places file name).card ≤ 2 * ((p.files.length + 1) * (p.nameCount + 1)) := by
  have hfiles : (insert file (Finset.range p.files.length)).card ≤ p.files.length + 1 := by
    simpa using Finset.card_insert_le file (Finset.range p.files.length)
  have hnames : (insert name p.targetNames.toFinset).card ≤ p.nameCount + 1 := by
    have h := Finset.card_insert_le name p.targetNames.toFinset
    have h' := toFinset_card_le p.targetNames
    have h'' := p.length_targetNames_le
    omega
  calc (p.places file name).card
      ≤ (insert file (Finset.range p.files.length) ×ˢ
          insert name p.targetNames.toFinset).card * 2 :=
        Finset.card_biUnion_le_card_mul _ _ _ fun _ _ => Finset.card_le_two
    _ ≤ (p.files.length + 1) * (p.nameCount + 1) * 2 := by
        rw [Finset.card_product]
        exact Nat.mul_le_mul_right 2 (Nat.mul_le_mul hfiles hnames)
    _ = 2 * ((p.files.length + 1) * (p.nameCount + 1)) := Nat.mul_comm _ _

def need (places : Finset Visit) (path : List Visit) (e : Passage) : Nat :=
  2 * (places.filter (· ∉ path)).card + if e.isRemembered then 0 else 1

section Need

variable {file : Nat} {name : String} {path : List Visit} {e : Passage}

theorem card_filter_cons {places : Finset Visit} (hx : x ∈ places) (hn : x ∉ path) :
    (places.filter (· ∉ x :: path)).card + 1 = (places.filter (· ∉ path)).card := by
  have he : places.filter (· ∉ x :: path) = (places.filter (· ∉ path)).erase x := by
    ext y
    simp only [mem_cons, not_or, Finset.mem_filter, Finset.mem_erase]
    tauto
  rw [he]
  exact Finset.card_erase_add_one (Finset.mem_filter.mpr ⟨hx, hn⟩)

theorem need_pos {places : Finset Visit} (he : e.place ∈ places)
    (hc : e.isRemembered → e.place ∉ path) : 0 < need places path e := by
  unfold need
  by_cases hr : e.isRemembered
  · have h := card_filter_cons he (hc hr)
    omega
  · rw [if_neg hr]
    omega

section

variable (he : e.place ∈ p.places file name) (hc : e.isRemembered → e.place ∉ path)

include he hc

theorem need_lt (hj : p.junction e.place = .passages next) {e' : Passage} (he' : e' ∈ next) :
    need (p.places file name) (e.extend Passage.isRemembered path) e' <
      need (p.places file name) path e := by
  unfold need Passage.extend
  by_cases hr : e.isRemembered
  · have h := card_filter_cons he (hc hr)
    rw [if_pos hr, if_pos hr]
    split <;> omega
  · have hr' : e'.isRemembered = true := isRemembered_of_not (by simpa using hr) hj he'
    rw [if_neg hr, if_neg hr, if_pos hr']
    omega

theorem need_next_le (hj : p.junction e.place = .passages next) {m : Nat}
    (hle : need (p.places file name) path e ≤ m + 1) : ∀ e' ∈ next, e'.place ∈ p.places file name ∧
      need (p.places file name) (e.extend Passage.isRemembered path) e' ≤ m := by
  intro e' he'
  have hlt := need_lt he hc hj he'
  exact ⟨mem_places_of_passage he hj he', by omega⟩

theorem follow_of_new (hle : need (p.places file name) path e ≤ fuel)
    (hnew : ¬ (e.isRemembered ∧ e.place ∈ seen)) : ∃ m, fuel = m + 1 ∧
      p.follow fuel e seen = p.lookAt m e.place (e.extend Passage.isRemembered seen) := by
  have hpos := need_pos he hc
  obtain ⟨m, rfl⟩ := Nat.exists_eq_add_one_of_ne_zero (by omega : fuel ≠ 0)
  exact ⟨m, rfl, by rw [follow_succ, if_neg hnew]⟩

end

theorem exists_depthFirst (bound : Nat) (es : List Passage) (path : List Visit)
    (h : ∀ e ∈ es, e.place ∈ p.places file name ∧ need (p.places file name) path e < bound) :
    ∃ r, DepthFirst p Passage.isRemembered path es r := by
  induction bound generalizing es path with
  | zero =>
    cases es with
    | nil => exact ⟨none, .deadEnd path⟩
    | cons e es => exact absurd (h e mem_cons_self).2 (Nat.not_lt_zero _)
  | succ bound ih =>
    induction es with
    | nil => exact ⟨none, .deadEnd path⟩
    | cons e es ihes =>
      obtain ⟨⟨he, hneed⟩, hes⟩ := forall_mem_cons.mp h
      obtain ⟨r, hr⟩ := ihes hes
      by_cases hc : e.isRemembered = true ∧ e.place ∈ path
      · exact ⟨r, .pruned hc.1 hc.2 hr⟩
      · have hc' : e.isRemembered → e.place ∉ path := fun h hm => hc ⟨h, hm⟩
        cases hj : p.junction e.place with
        | answer found => exact ⟨some found, .answer hc' hj⟩
        | passages next =>
          obtain ⟨r', hr'⟩ := ih next (e.extend Passage.isRemembered path) fun e' he' =>
            ⟨mem_places_of_passage he hj he', by have := need_lt he hc' hj he'; omega⟩
          cases r' with
          | some found => exact ⟨some found, .found hc' hj hr'⟩
          | none => exact ⟨r, .missed hc' hj hr' hr⟩

end Need

/-- The path is remembered, and from whatever else is, no chain leads to an answer but by the
path. -/
structure Shut (p : Project) (path seen : List Visit) : Prop where
  subset : path ⊆ seen
  dead : ∀ x ∈ seen, x ∉ path → ¬ Alive p Passage.isRemembered path x

namespace Shut

variable {path seen : List Visit} {e : Passage}

theorem not_alive (h : Shut p path seen) (hc : e.isRemembered → e.place ∉ path)
    (hs : e.isRemembered ∧ e.place ∈ seen) : ¬ Alive p Passage.isRemembered path e.place :=
  h.dead e.place hs.2 (hc hs.1)

theorem enter (h : Shut p path seen) (e : Passage) :
    Shut p (e.extend Passage.isRemembered path) (e.extend Passage.isRemembered seen) := by
  unfold Passage.extend
  split
  · refine ⟨cons_subset_cons _ h.subset, ?_⟩
    intro x hx hn ha
    have hx' : x ∈ seen := (mem_cons.mp hx).resolve_left fun he => hn (he ▸ mem_cons_self)
    have hn' : x ∉ path := fun hm => hn (mem_cons_of_mem _ hm)
    exact h.dead x hx' hn' (ha.anti (subset_cons_self _ _))
  · exact h

theorem leave (h : Shut p (e.extend Passage.isRemembered path) seen)
    (hd : ¬ Alive p Passage.isRemembered (e.extend Passage.isRemembered path) e.place) :
    Shut p path seen := by
  unfold Passage.extend at h hd
  split at h
  · rename_i hr
    rw [if_pos hr] at hd
    refine ⟨fun x hx => h.subset (mem_cons_of_mem _ hx), ?_⟩
    intro x hx hn ha
    rcases ha.avoid e.place with ha | ha
    · by_cases hxe : x = e.place
      · exact hd (hxe ▸ ha)
      · refine h.dead x hx ?_ ha
        intro hm
        exact (mem_cons.mp hm).elim hxe hn
    · exact hd ha
  · exact h

end Shut

section Equivalence

variable {file : Nat} {name : String} {path : List Visit}

theorem firstOf_of_depthFirst {r : Option Resolution}
    (h : DepthFirst p Passage.isRemembered path es r) (fuel : Nat) (seen : List Visit)
    (hs : Shut p path seen)
    (hneed : ∀ e ∈ es, e.place ∈ p.places file name ∧ need (p.places file name) path e ≤ fuel) :
    (p.firstOf fuel es seen).1 = r ∧ (r = none → Shut p path (p.firstOf fuel es seen).2) := by
  induction h generalizing fuel seen with
  | deadEnd path => exact ⟨rfl, fun _ => hs⟩
  | pruned hr hm _ ih =>
    rw [firstOf_cons_of_none (by rw [follow_of_mem hr (hs.subset hm)]),
      follow_of_mem hr (hs.subset hm)]
    exact ih fuel seen hs (forall_mem_cons.mp hneed).2
  | @answer e path r rest hc hj =>
    obtain ⟨he, hle⟩ := (forall_mem_cons.mp hneed).1
    have hnew : ¬ (e.isRemembered ∧ e.place ∈ seen) :=
      fun h => hs.not_alive hc h (.answer hj)
    obtain ⟨m, rfl, hfollow⟩ := follow_of_new he hc hle hnew
    simp only [lookAt, hj] at hfollow
    rw [firstOf_cons_of_some (by rw [hfollow]), hfollow]
    exact ⟨rfl, nofun⟩
  | @found e path next r rest hc hj hnext ih =>
    obtain ⟨he, hle⟩ := (forall_mem_cons.mp hneed).1
    have hnew : ¬ (e.isRemembered ∧ e.place ∈ seen) := by
      intro h
      obtain ⟨e', he', hc', ha⟩ := hnext.alive
      exact hs.not_alive hc h (.of_extend (.passage hj he' hc' ha))
    obtain ⟨m, rfl, hfollow⟩ := follow_of_new he hc hle hnew
    simp only [lookAt, hj] at hfollow
    obtain ⟨hfirst, -⟩ := ih m _ (hs.enter e) (need_next_le he hc hj hle)
    rw [firstOf_cons_of_some (by rw [hfollow, hfirst]), hfollow]
    exact ⟨hfirst, nofun⟩
  | @missed e path next rest r hc hj hnext _ ih ihrest =>
    obtain ⟨⟨he, hle⟩, hrest⟩ := forall_mem_cons.mp hneed
    by_cases hnew : e.isRemembered ∧ e.place ∈ seen
    · rw [firstOf_cons_of_none (by rw [follow_of_mem hnew.1 hnew.2]),
        follow_of_mem hnew.1 hnew.2]
      exact ihrest fuel seen hs hrest
    · obtain ⟨m, rfl, hfollow⟩ := follow_of_new he hc hle hnew
      simp only [lookAt, hj] at hfollow
      obtain ⟨hfirst, hshut⟩ := ih m _ (hs.enter e) (need_next_le he hc hj hle)
      rw [firstOf_cons_of_none (by rw [hfollow, hfirst]), hfollow]
      exact ihrest (m + 1) _ ((hshut rfl).leave (hnext.not_alive_of_passages hj)) hrest

theorem need_start_le (p : Project) (file : Nat) (name : String) (e : Passage) :
    need (p.places file name) [] e ≤ p.searchBound := by
  have hcard := p.card_places_le file name
  have hfilter := Finset.card_filter_le (p.places file name) (· ∉ ([] : List Visit))
  have hbound : p.searchBound =
      4 * ((p.files.length + 1) * (p.nameCount + 1)) + 4 * (p.files.length + 1) := by
    rw [searchBound, Nat.mul_assoc, Nat.mul_succ, Nat.mul_add]
  unfold need
  split <;> omega

theorem depthFirst_start_iff (hx : x = .name file name ∨ x = .exported file name)
    (r : Option Resolution) :
    DepthFirst p Passage.isRemembered [] [⟨.start, x⟩] r ↔
      r = (p.follow p.searchBound ⟨.start, x⟩ []).1 := by
  have hplace : x ∈ p.places file name := (mem_places hx).mpr ⟨.inl rfl, .inl rfl⟩
  have hneed := need_start_le p file name ⟨.start, x⟩
  have hto (r : Option Resolution) (h : DepthFirst p Passage.isRemembered [] [⟨.start, x⟩] r) :
      r = (p.follow p.searchBound ⟨.start, x⟩ []).1 := by
    have hshut : Shut p [] [] := ⟨List.Subset.refl _, forall_mem_nil _⟩
    have hfirst := firstOf_of_depthFirst h p.searchBound [] hshut
      (forall_mem_singleton.mpr ⟨hplace, hneed⟩)
    rw [firstOf_singleton] at hfirst
    exact hfirst.1.symm
  refine ⟨hto r, ?_⟩
  rintro rfl
  obtain ⟨r, hr⟩ := exists_depthFirst (p.searchBound + 1) [⟨.start, x⟩] []
    (forall_mem_singleton.mpr ⟨hplace, by omega⟩)
  exact hto r hr ▸ hr

end Equivalence

end Project

end PropContract
