import Mathlib.Data.List.Nodup
import PropContract.Injection.Basic

/-!
What merged validators mean. Every key has its value back exactly when no hand-written key is
repeated and no entry without a key stands beside generated ones.
-/

namespace PropContract.Injection

open Survey List

/-- An entry of an object literal where it is evaluated: how it is written, and the values that it
gives. An entry with a key gives a value to that key alone; a spread or a computed key may give
values to any keys. -/
structure Entry (V : Type) where
  key : Option String
  line : String
  gives : String → Option V
  own : ∀ k, key = some k → ∀ name, (gives name).isSome ↔ name = k

namespace Entry

variable {V : Type}

def value (es : List (Entry V)) (name : String) : Option V :=
  es.foldl (fun old e => (e.gives name).or old) none

def lastDefined (literals : List (List (Entry V))) (name : String) : Option V :=
  literals.foldl (fun old es => (value es name).or old) none

theorem foldl_gives (es : List (Entry V)) (name : String) (old : Option V) :
    es.foldl (fun old e => (e.gives name).or old) old = (value es name).or old := by
  induction es generalizing old with
  | nil => rfl
  | cons e es ih =>
    simp only [value, foldl_cons]
    rw [ih, ih ((e.gives name).or none), Option.or_none, Option.or_assoc]

theorem value_append (xs ys : List (Entry V)) (name : String) :
    value (xs ++ ys) name = (value ys name).or (value xs name) := by
  rw [value, foldl_append, foldl_gives]
  rfl

theorem value_cons (e : Entry V) (es : List (Entry V)) (name : String) :
    value (e :: es) name = (value es name).or (e.gives name) := by
  rw [value, foldl_cons, foldl_gives, Option.or_none]

theorem lastDefined_eq (literals : List (List (Entry V))) (name : String) :
    lastDefined literals name = value literals.flatten name := by
  have hfold : ∀ (ls : List (List (Entry V))) (old : Option V),
      ls.foldl (fun old es => (value es name).or old) old = (value ls.flatten name).or old := by
    intro ls
    induction ls with
    | nil => exact fun _ => rfl
    | cons es ls ih =>
      intro old
      rw [foldl_cons, ih, flatten_cons, value_append, Option.or_assoc]
  rw [lastDefined, hfold, Option.or_none]

variable {es : List (Entry V)} {name k : String} {e : Entry V} {seen : List String}

theorem exists_mem_of_value {v : V} (h : value es name = some v) :
    ∃ e ∈ es, e.gives name = some v := by
  induction es with
  | nil => cases h
  | cons e es ih =>
    rw [value_cons, Option.or_eq_some_iff] at h
    rcases h with h | ⟨-, h⟩
    · obtain ⟨e', he', hv⟩ := ih h
      exact ⟨e', mem_cons_of_mem e he', hv⟩
    · exact ⟨e, mem_cons_self, h⟩

theorem value_isSome_iff : (value es name).isSome ↔ ∃ e ∈ es, (e.gives name).isSome := by
  induction es with
  | nil => simp [value]
  | cons e es ih => simp [value_cons, ih, or_comm]

theorem value_eq_some {v : V} (hall : ∀ e ∈ es, ∀ w, e.gives name = some w → w = v)
    (hsome : (value es name).isSome) : value es name = some v := by
  obtain ⟨w, hw⟩ := Option.isSome_iff_exists.mp hsome
  obtain ⟨e, he, hgives⟩ := exists_mem_of_value hw
  rw [hw, hall e he w hgives]

theorem gives_eq_none (hk : e.key = some k) (hne : name ≠ k) : e.gives name = none := by
  rw [← Option.not_isSome_iff_eq_none, e.own k hk]
  exact hne

def kept : List String → List (Entry V) → List (Entry V)
  | _, [] => []
  | seen, e :: es =>
    match e.key with
    | none => e :: kept seen es
    | some k => if seen.contains k then kept seen es else e :: kept (k :: seen) es

theorem kept_of_none (he : e.key = none) (seen : List String) (es : List (Entry V)) :
    kept seen (e :: es) = e :: kept seen es := by
  rw [kept, he]

theorem kept_of_seen (he : e.key = some k) (hk : k ∈ seen) (es : List (Entry V)) :
    kept seen (e :: es) = kept seen es := by
  rw [kept, he]
  exact if_pos (contains_iff_mem.mpr hk)

theorem kept_of_not_seen (he : e.key = some k) (hk : k ∉ seen) (es : List (Entry V)) :
    kept seen (e :: es) = e :: kept (k :: seen) es := by
  rw [kept, he]
  exact if_neg (by simpa using hk)

theorem kept_sublist (seen : List String) (es : List (Entry V)) : (kept seen es).Sublist es := by
  induction es generalizing seen with
  | nil => exact Sublist.refl []
  | cons e es ih =>
    cases he : e.key with
    | none => exact kept_of_none he seen es ▸ (ih seen).cons_cons e
    | some k =>
      by_cases hk : k ∈ seen
      · exact kept_of_seen he hk es ▸ (ih seen).cons e
      · exact kept_of_not_seen he hk es ▸ (ih (k :: seen)).cons_cons e

theorem value_kept_of_mem (hname : name ∈ seen) (es : List (Entry V)) :
    value (kept seen es) name = value (es.filter (·.key.isNone)) name := by
  induction es generalizing seen with
  | nil => rfl
  | cons e es ih =>
    cases he : e.key with
    | none => simp [kept_of_none he, he, value_cons, ih hname]
    | some k =>
      by_cases hk : k ∈ seen
      · simp [kept_of_seen he hk, he, ih hname]
      · have hne : name ≠ k := fun h => hk (h ▸ hname)
        rw [kept_of_not_seen he hk, value_cons, gives_eq_none he hne, Option.or_none,
          ih (mem_cons_of_mem k hname), filter_cons]
        simp [he]

theorem kept_append (seen : List String) (xs ys : List (Entry V)) :
    ∃ seen', kept seen (xs ++ ys) = kept seen xs ++ kept seen' ys ∧
      ∀ k, some k ∈ xs.map key → k ∈ seen' := by
  suffices h : ∃ seen', kept seen (xs ++ ys) = kept seen xs ++ kept seen' ys ∧
      (∀ k ∈ seen, k ∈ seen') ∧ ∀ k, some k ∈ xs.map key → k ∈ seen' from
    h.imp fun _ h => ⟨h.1, h.2.2⟩
  induction xs generalizing seen with
  | nil => exact ⟨seen, rfl, fun _ h => h, by simp⟩
  | cons e es ih =>
    cases he : e.key with
    | none =>
      obtain ⟨seen', heq, hseen, hkeys⟩ := ih seen
      refine ⟨seen', ?_, hseen, fun k hk => hkeys k (by simpa [he] using hk)⟩
      rw [cons_append, kept_of_none he, kept_of_none he, heq, cons_append]
    | some n =>
      by_cases hn : n ∈ seen
      · obtain ⟨seen', heq, hseen, hkeys⟩ := ih seen
        refine ⟨seen', ?_, hseen, fun k hk => ?_⟩
        · rw [cons_append, kept_of_seen he hn, kept_of_seen he hn, heq]
        · rcases mem_cons.mp hk with hk | hk
          · rw [he] at hk
            exact Option.some.inj hk ▸ hseen n hn
          · exact hkeys k hk
      · obtain ⟨seen', heq, hseen, hkeys⟩ := ih (n :: seen)
        refine ⟨seen', ?_, fun k hk => hseen k (mem_cons_of_mem n hk), fun k hk => ?_⟩
        · rw [cons_append, kept_of_not_seen he hn, kept_of_not_seen he hn, heq,
            cons_append]
        · rcases mem_cons.mp hk with hk | hk
          · rw [he] at hk
            exact Option.some.inj hk ▸ hseen n mem_cons_self
          · exact hkeys k hk

theorem value_filter_isNone (h : some name ∉ es.map key) :
    value (es.filter (·.key.isNone)) name = value es name := by
  induction es with
  | nil => rfl
  | cons e es ih =>
    rw [map_cons, mem_cons, not_or] at h
    cases he : e.key with
    | none => simp [he, value_cons, ih h.2]
    | some k =>
      have hne : name ≠ k := fun hk => h.1 (by rw [he, hk])
      simp [he, value_cons, ih h.2, gives_eq_none he hne]

theorem value_kept_of_count (hname : name ∉ seen) (hcount : (es.map key).count (some name) ≤ 1) :
    value (kept seen es) name = value es name := by
  induction es generalizing seen with
  | nil => rfl
  | cons e es ih =>
    rw [map_cons, count_cons] at hcount
    cases he : e.key with
    | none => rw [kept_of_none he, value_cons, value_cons, ih hname (by omega)]
    | some k =>
      by_cases hk : k ∈ seen
      · have hne : name ≠ k := fun h => hname (h ▸ hk)
        rw [kept_of_seen he hk, ih hname (by omega), value_cons, gives_eq_none he hne,
          Option.or_none]
      rw [kept_of_not_seen he hk, value_cons, value_cons]
      by_cases hne : name = k
      · subst hne
        have hrest : some name ∉ es.map key := by
          rw [he, beq_self_eq_true, if_pos rfl] at hcount
          exact count_eq_zero.mp (by omega)
        rw [value_kept_of_mem mem_cons_self, value_filter_isNone hrest]
      · rw [ih (not_mem_cons_of_ne_of_not_mem hne hname) (by omega)]

end Entry

abbrev Face := Option String × String

def generatedFaces (o : ValidatorOptions) (c : Component) : List Face :=
  (Block.entries o c).map fun g => (some g.1, g.2)

def writtenFace (e : HandWritten) : Face :=
  (e.key, "  " ++ e.text ++ ",\n")

def Entry.face {V : Type} (e : Entry V) : Face :=
  (e.key, e.line)

def generatedNames (o : ValidatorOptions) (c : Component) : List String :=
  (Block.entries o c).map Prod.fst

def writtenKeys (xs : List Existing) : List (Option String) :=
  (xs.flatMap Existing.entries).map HandWritten.key

structure Evaluation (V : Type) (o : ValidatorOptions) (c : Component) (xs : List Existing) where
  generated : List (Entry V)
  literals : List (List (Entry V))
  generated_faces : generated.map Entry.face = generatedFaces o c
  literals_faces : literals.map (·.map Entry.face) = xs.map (·.entries.map writtenFace)

namespace Evaluation

variable {V : Type} {o : ValidatorOptions} {c : Component} {xs : List Existing}

def merged (r : Evaluation V o c xs) : List (Entry V) :=
  r.generated ++ Entry.kept (generatedNames o c) r.literals.flatten

variable (r : Evaluation V o c xs)

theorem written_faces :
    r.literals.flatten.map Entry.face = (xs.flatMap Existing.entries).map writtenFace := by
  rw [map_flatten, r.literals_faces, map_flatMap, flatMap_def]

theorem generated_keys : r.generated.map Entry.key = (generatedNames o c).map some := by
  have h := congrArg (List.map Prod.fst) r.generated_faces
  simpa [generatedFaces, generatedNames, Entry.face, Function.comp_def] using h

theorem written_keys : r.literals.flatten.map Entry.key = writtenKeys xs := by
  have h := congrArg (List.map Prod.fst) r.written_faces
  rw [map_map, map_map] at h
  exact h

theorem value_generated_isSome_iff {name : String} :
    (Entry.value r.generated name).isSome ↔ name ∈ generatedNames o c := by
  rw [Entry.value_isSome_iff, ← mem_map_of_injective fun _ _ => Option.some.inj,
    ← r.generated_keys, mem_map]
  refine exists_congr fun e => and_congr_right fun he => ?_
  have hkey : e.key ∈ (generatedNames o c).map some := r.generated_keys ▸ mem_map_of_mem he
  obtain ⟨k, -, hk⟩ := mem_map.mp hkey
  rw [e.own k hk.symm, ← hk, Option.some_inj]
  exact eq_comm

theorem map_line_kept {es : List (Entry V)} {ws : List HandWritten}
    (h : es.map Entry.face = ws.map writtenFace) (seen : List String) :
    (Entry.kept seen es).map Entry.line = keptEntries seen ws := by
  induction ws generalizing es seen with
  | nil =>
    rw [map_eq_nil_iff.mp h]
    rfl
  | cons w ws ih =>
    obtain ⟨e, es, rfl, he, hes⟩ := map_eq_cons_iff.mp h
    have hkey : e.key = w.key := congrArg Prod.fst he
    have hline : e.line = "  " ++ w.text ++ ",\n" := congrArg Prod.snd he
    cases hw : w.key with
    | none =>
      rw [Entry.kept_of_none (hkey.trans hw), map_cons, ih hes, hline, keptEntries, hw]
    | some k =>
      by_cases hk : k ∈ seen
      · rw [Entry.kept_of_seen (hkey.trans hw) hk, ih hes, keptEntries, hw]
        exact (if_pos (contains_iff_mem.mpr hk)).symm
      · rw [Entry.kept_of_not_seen (hkey.trans hw) hk, map_cons, ih hes, hline, keptEntries,
          hw]
        exact (if_neg (by simpa using hk)).symm

theorem mergedBlock_eq : mergedBlock o c (xs.flatMap Existing.entries) =
      Block.wrap o c.name (r.merged.map Entry.line) := by
  have hgenerated : r.generated.map Entry.line = (Block.entries o c).map Prod.snd := by
    have h := congrArg (List.map Prod.snd) r.generated_faces
    simpa [generatedFaces, Entry.face, Function.comp_def] using h
  rw [merged, map_append, hgenerated, map_line_kept r.written_faces]
  rfl

theorem exists_evaluation {gs ws : List (Entry V)} (hgs : gs.map Entry.face = generatedFaces o c)
    (hws : ws.map Entry.face = (xs.flatMap Existing.entries).map writtenFace) :
    ∃ r : Evaluation V o c xs, r.generated = gs ∧ r.literals.flatten = ws := by
  suffices h : ∃ ls : List (List (Entry V)), ls.flatten = ws ∧
      ls.map (·.map Entry.face) = xs.map (·.entries.map writtenFace) by
    obtain ⟨ls, hflat, hls⟩ := h
    exact ⟨⟨gs, ls, hgs, hls⟩, rfl, hflat⟩
  clear hgs
  induction xs generalizing ws with
  | nil => exact ⟨[], (map_eq_nil_iff.mp hws).symm, rfl⟩
  | cons x xs ih =>
    rw [flatMap_cons, map_append] at hws
    obtain ⟨first, rest, rfl, hfirst, hrest⟩ := map_eq_append_iff.mp hws
    obtain ⟨ls, rfl, hls⟩ := ih hrest
    exact ⟨first :: ls, rfl, by rw [map_cons, hfirst, hls, map_cons]⟩

end Evaluation

/-- Whether the merged literal gives every generated property its generated validator, and every
other key the value that it had in the last hand-written literal that defines it. -/
def KeepsMeaning (o : ValidatorOptions) (c : Component) (xs : List Existing) : Prop :=
  ∀ (V : Type) (r : Evaluation V o c xs) (name : String),
    Entry.value r.merged name =
      (Entry.value r.generated name).or (Entry.lastDefined r.literals name)

variable {o : ValidatorOptions} {c : Component} {xs : List Existing}

theorem keepsMeaning_of_apart
    (hkeys : generatedNames o c = [] ∨ none ∉ writtenKeys xs)
    (hcount : ∀ name, name ∉ generatedNames o c → (writtenKeys xs).count (some name) ≤ 1) :
    KeepsMeaning o c xs := by
  intro V r name
  rw [Entry.lastDefined_eq, Evaluation.merged, Entry.value_append]
  by_cases hname : name ∈ generatedNames o c
  · have hkeyless : none ∉ writtenKeys xs := hkeys.resolve_left (ne_nil_of_mem hname)
    have hkept : Entry.value (Entry.kept (generatedNames o c) r.literals.flatten) name = none := by
      have hfilter : r.literals.flatten.filter (·.key.isNone) = [] := by
        rw [filter_eq_nil_iff]
        intro e he hnone
        rw [← r.written_keys] at hkeyless
        exact hkeyless (mem_map.mpr ⟨e, he, Option.isNone_iff_eq_none.mp hnone⟩)
      rw [Entry.value_kept_of_mem hname, hfilter]
      rfl
    obtain ⟨v, hv⟩ := Option.isSome_iff_exists.mp (r.value_generated_isSome_iff.mpr hname)
    rw [hkept, hv]
    rfl
  · have hgenerated : Entry.value r.generated name = none := by
      rwa [← Option.not_isSome_iff_eq_none, r.value_generated_isSome_iff]
    have hwritten : (r.literals.flatten.map Entry.key).count (some name) ≤ 1 := by
      rw [r.written_keys]
      exact hcount name hname
    rw [Entry.value_kept_of_count hname hwritten, hgenerated]
    simp

def Face.entry (f : Face) (v : Bool) (others : Option Bool) : Entry Bool where
  key := f.1
  line := f.2
  gives name := f.1.elim others fun k => if name = k then some v else none
  own k hk name := by simp [hk]

theorem Face.of_gives {f : Face} {v w : Bool} {others : Option Bool} {name : String}
    (h : (f.entry v others).gives name = some w) :
    (f.1 = none ∧ others = some w) ∨ (f.1 = some name ∧ v = w) := by
  unfold Face.entry at h
  cases hf : f.1 with
  | none => exact .inl ⟨rfl, by simpa [hf] using h⟩
  | some k =>
    simp only [hf, Option.elim_some, Option.ite_none_right_eq_some, Option.some.injEq] at h
    exact .inr ⟨congrArg some h.1.symm, h.2⟩

theorem Face.map_face (fs : List Face) (v : Bool) (others : Option Bool) :
    (fs.map (Face.entry · v others)).map Entry.face = fs := by
  rw [map_map]
  exact map_id fs

theorem not_mem_none_of_keepsMeaning (h : KeepsMeaning o c xs)
    (hgenerated : generatedNames o c ≠ []) : none ∉ writtenKeys xs := by
  intro hnone
  obtain ⟨name, names, hnames⟩ := exists_cons_of_ne_nil hgenerated
  have hname : name ∈ generatedNames o c := hnames ▸ mem_cons_self
  -- Every entry without a key says `true`, every other one `false`.
  obtain ⟨r, hr, hw⟩ := Evaluation.exists_evaluation
    (Face.map_face (generatedFaces o c) false (some true))
    (Face.map_face ((xs.flatMap Existing.entries).map writtenFace) false (some true))
  have hkept :
      Entry.value (Entry.kept (generatedNames o c) r.literals.flatten) name = some true := by
    rw [Entry.value_kept_of_mem hname]
    have hgives : ∀ e ∈ r.literals.flatten.filter (·.key.isNone), e.gives name = some true := by
      intro e he
      obtain ⟨he, hkey⟩ := mem_filter.mp he
      obtain ⟨f, -, rfl⟩ := mem_map.mp (hw ▸ he)
      have hf : f.1 = none := Option.isNone_iff_eq_none.mp hkey
      simp [Face.entry, hf]
    rw [← r.written_keys] at hnone
    obtain ⟨e, he, hkey⟩ := mem_map.mp hnone
    have hmem : e ∈ r.literals.flatten.filter (·.key.isNone) :=
      mem_filter.mpr ⟨he, by rw [hkey]; rfl⟩
    refine Entry.value_eq_some (fun e he w hw => ?_)
      (Entry.value_isSome_iff.mpr ⟨e, hmem, by rw [hgives e hmem]; rfl⟩)
    rw [hgives e he] at hw
    exact (Option.some.inj hw).symm
  have hfalse : Entry.value r.generated name = some false := by
    refine Entry.value_eq_some (fun e he w hgives => ?_) (r.value_generated_isSome_iff.mpr hname)
    obtain ⟨f, hf, rfl⟩ := mem_map.mp (hr ▸ he)
    rcases Face.of_gives hgives with ⟨hkey, -⟩ | ⟨-, hv⟩
    · obtain ⟨g, -, rfl⟩ := mem_map.mp hf
      cases hkey
    · exact hv.symm
  have hvalue := h Bool r name
  rw [Evaluation.merged, Entry.value_append, hkept, hfalse] at hvalue
  cases hvalue

theorem count_le_one_of_keepsMeaning (h : KeepsMeaning o c xs) {name : String}
    (hname : name ∉ generatedNames o c) : (writtenKeys xs).count (some name) ≤ 1 := by
  by_contra hcount
  have hmem : some name ∈ writtenKeys xs := count_pos_iff.mp (by omega)
  obtain ⟨as, bs, hsplit, hfirst⟩ := eq_append_cons_of_mem hmem
  have hlater : some name ∈ bs := by
    rw [hsplit, count_append, count_eq_zero.mpr hfirst, count_cons_self] at hcount
    exact count_pos_iff.mp (by omega)
  have hfaces : ((xs.flatMap Existing.entries).map writtenFace).map Prod.fst =
      (as ++ [some name]) ++ bs := by
    rw [map_map, append_assoc]
    exact hsplit
  obtain ⟨early, late, hwritten, hearly, hlate⟩ := map_eq_append_iff.mp hfaces
  -- The entries up to the first with the key say `false`, those after it `true`.
  let es := early.map (Face.entry · false none)
  let ls := late.map (Face.entry · true none)
  have hall : (es ++ ls).map Entry.face = (xs.flatMap Existing.entries).map writtenFace := by
    rw [map_append, Face.map_face, Face.map_face, hwritten]
  obtain ⟨r, -, hw⟩ := Evaluation.exists_evaluation
    (Face.map_face (generatedFaces o c) false none) hall
  have hnone : Entry.value r.generated name = none := by
    rwa [← Option.not_isSome_iff_eq_none, r.value_generated_isSome_iff]
  have htrue : Entry.value ls name = some true := by
    refine Entry.value_eq_some (fun e he w hgives => ?_) (Entry.value_isSome_iff.mpr ?_)
    · obtain ⟨f, -, rfl⟩ := mem_map.mp he
      rcases Face.of_gives hgives with ⟨-, hothers⟩ | ⟨-, hv⟩
      · cases hothers
      · exact hv.symm
    · obtain ⟨f, hf, hkey⟩ := mem_map.mp (hlate ▸ hlater)
      exact ⟨Face.entry f true none, mem_map_of_mem hf,
        ((Face.entry f true none).own name hkey name).mpr rfl⟩
  obtain ⟨seen, hkept, hseen⟩ := Entry.kept_append (generatedNames o c) es ls
  have hlast : Entry.value (Entry.kept seen ls) name = none := by
    have hmem : some name ∈ es.map Entry.key := by
      have hkeys : es.map Entry.key = as ++ [some name] := by
        rw [← hearly, map_map]
        rfl
      simp [hkeys]
    rw [Entry.value_kept_of_mem (hseen name hmem), ← Option.not_isSome_iff_eq_none,
      Entry.value_isSome_iff]
    rintro ⟨e, he, hgives⟩
    obtain ⟨he, hkey⟩ := mem_filter.mp he
    obtain ⟨f, -, rfl⟩ := mem_map.mp he
    have hf : f.1 = none := Option.isNone_iff_eq_none.mp hkey
    simp [Face.entry, hf] at hgives
  have hvalue := h Bool r name
  rw [Evaluation.merged, Entry.value_append, Entry.lastDefined_eq, hnone, hw, hkept,
    Entry.value_append, hlast, Entry.value_append es, htrue] at hvalue
  simp only [Option.none_or, Option.or_none, Option.some_or] at hvalue
  obtain ⟨e, he, hgives⟩ := Entry.exists_mem_of_value hvalue
  obtain ⟨f, -, rfl⟩ := mem_map.mp ((Entry.kept_sublist _ _).subset he)
  rcases Face.of_gives hgives with ⟨-, hothers⟩ | ⟨-, hv⟩
  · cases hothers
  · cases hv

/-- The merged block holds the entries of the merged literal, and that literal keeps the meaning of
the generated and of the hand-written entries exactly when no entry without a key stands beside
generated ones and no key that is not generated is written twice. -/
theorem mergedBlock_keepsMeaning_iff (o : ValidatorOptions) (c : Component) (xs : List Existing) :
    (∀ (V : Type) (r : Evaluation V o c xs),
      mergedBlock o c (xs.flatMap Existing.entries) =
        Block.wrap o c.name (r.merged.map Entry.line)) ∧
    (KeepsMeaning o c xs ↔
      (generatedNames o c = [] ∨ none ∉ writtenKeys xs) ∧
        ∀ name, name ∉ generatedNames o c → (writtenKeys xs).count (some name) ≤ 1) := by
  refine ⟨fun _ r => r.mergedBlock_eq, fun h => ⟨?_, ?_⟩, fun h => keepsMeaning_of_apart h.1 h.2⟩
  · exact or_iff_not_imp_left.mpr (not_mem_none_of_keepsMeaning h)
  · exact fun name => count_le_one_of_keepsMeaning h

/-- The second of two entries with one key is lost, and a spread comes after what is generated. -/
theorem mergedBlock_loses_meaning :
    ¬ KeepsMeaning {} ⟨"A", default, .function, [], []⟩
        [⟨"A", ⟨0, 0⟩, .statement, [⟨some "y", "y: 1"⟩, ⟨some "y", "y: 2"⟩]⟩] ∧
      ¬ KeepsMeaning {} ⟨"A", default, .function, [.mk "x" true .any none none none], []⟩
        [⟨"A", ⟨0, 0⟩, .statement, [⟨none, "...base"⟩]⟩] := by
  constructor
  · intro h
    have hcount := count_le_one_of_keepsMeaning h (not_mem_nil : "y" ∉ [])
    exact absurd hcount (by decide)
  · intro h
    exact not_mem_none_of_keepsMeaning h (cons_ne_nil _ _) mem_cons_self

end PropContract.Injection
