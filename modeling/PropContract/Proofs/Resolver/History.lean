import PropContract.Proofs.Resolver.Balance
import PropContract.Proofs.Shape.Renaming

/-!
History does not matter: answers differ in nothing but the names of references.
-/

namespace PropContract.Resolver

open List Shape Ledger

variable {s : Shape} {ps qs : List PropInfo}

namespace Twin

def shared (l : Twin) : Set String :=
  { name | ∃ d other, l.1.nameOf? d = some name ∧ l.2.nameOf? d = some other }

def translate (l : Twin) (name : String) : String :=
  ((l.1.names.find? fun entry => entry.2 == name).bind fun entry => l.2.nameOf? entry.1).getD name

structure WellNamed (l : Twin) : Prop where
  left : l.1.WellNamed
  right : l.2.WellNamed

structure NamesGrow (l l' : Twin) : Prop where
  left : l.1.NamesGrow l'.1
  right : l.2.NamesGrow l'.2

variable {l l' : Twin}

theorem translate_eq (hl : l.WellNamed) {d : DeclRef} {name other : String}
    (h : l.1.nameOf? d = some name) (h' : l.2.nameOf? d = some other) :
    l.translate name = other := by
  have hmem := mem_names_of_nameOf? h
  have hfind : l.1.names.find? (fun entry => entry.2 == name) = some (d, name) := by
    cases hf : l.1.names.find? fun entry => entry.2 == name with
    | none => simpa using find?_eq_none.mp hf (d, name) hmem
    | some entry =>
      have hname : entry.2 = name := by simpa using find?_some hf
      rw [inj_on_of_nodup_map hl.left.differ (mem_of_find?_eq_some hf) hmem hname]
  simp [translate, hfind, h']

theorem shared_mono (hg : l.NamesGrow l') : l.shared ⊆ l'.shared := by
  rintro name ⟨d, other, h, h'⟩
  exact ⟨d, other, nameOf?_of_namesGrow hg.left h, nameOf?_of_namesGrow hg.right h'⟩

theorem translate_eqOn (hl' : l'.WellNamed) (hg : l.NamesGrow l') :
    Set.EqOn l.translate l'.translate l.shared := by
  have hl : l.WellNamed := ⟨hl'.left.of_namesGrow hg.left, hl'.right.of_namesGrow hg.right⟩
  rintro name ⟨d, other, h, h'⟩
  rw [translate_eq hl h h', translate_eq hl' (nameOf?_of_namesGrow hg.left h)
    (nameOf?_of_namesGrow hg.right h')]

theorem translate_injOn (hl : l.WellNamed) : Set.InjOn l.translate l.shared := by
  rintro a ⟨d, a', hd, hd'⟩ b ⟨e, b', he, he'⟩ hab
  rw [translate_eq hl hd hd', translate_eq hl he he'] at hab
  obtain rfl : d = e := eq_of_nameOf? hl.right hd' (hab ▸ he')
  exact Option.some.inj (hd.symm.trans he)

structure Corresponds (l : Twin) (s t : Shape) : Prop where
  shared : s.names ⊆ l.shared
  eq_rename : t = s.rename l.translate

theorem Corresponds.mono (hl' : l'.WellNamed) (hg : l.NamesGrow l') {t : Shape}
    (h : l.Corresponds s t) : l'.Corresponds s t := by
  refine ⟨h.shared.trans (shared_mono hg), ?_⟩
  rw [h.eq_rename]
  exact rename_congr (translate_eqOn hl' hg) s h.shared

theorem Corresponds.of_names_eq_empty (hs : s.names = ∅)
    (he : s = s.rename l.translate) : l.Corresponds s s :=
  ⟨hs ▸ Set.empty_subset _, he⟩

theorem corresponds_list {ss ts : List Shape} (h : Forall₂ l.Corresponds ss ts) :
    (∀ s ∈ ss, s.names ⊆ l.shared) ∧ ts = ss.map (Shape.rename l.translate) := by
  induction h with
  | nil => exact ⟨forall_mem_nil _, rfl⟩
  | cons hst _ ih =>
    exact ⟨forall_mem_cons.mpr ⟨hst.shared, ih.1⟩, by rw [hst.eq_rename, ih.2, map_cons]⟩

theorem corresponds_props (h : Forall₂ (PropInfo.Alike l.Corresponds) ps qs) :
    (∀ p ∈ ps, p.shape.names ⊆ l.shared) ∧ qs = ps.map (PropInfo.rename l.translate) := by
  induction h with
  | nil => exact ⟨forall_mem_nil _, rfl⟩
  | @cons p q ps qs hpq _ ih =>
    have hq : q = p.rename l.translate := by
      obtain ⟨n, r, s, d, doc, text⟩ := p
      obtain ⟨n', r', s', d', doc', text'⟩ := q
      obtain ⟨h₁, h₂, ⟨-, h₃⟩, h₄, h₅, h₆⟩ := hpq
      exact PropInfo.mk.injEq .. ▸ ⟨h₁.symm, h₂.symm, h₃, h₄.symm, h₅.symm, h₆.symm⟩
    exact ⟨forall_mem_cons.mpr ⟨hpq.shape.shared, ih.1⟩, by rw [hq, ih.2, map_cons]⟩

theorem Corresponds.object (h : Forall₂ (PropInfo.Alike l.Corresponds) ps qs) :
    l.Corresponds (.object ps) (.object qs) := by
  obtain ⟨hp, rfl⟩ := corresponds_props h
  exact ⟨names_object_subset.mpr hp, by rw [Shape.rename, PropInfo.renameAll_eq_map]⟩

theorem Corresponds.union (hl : l.WellNamed) {ss ts : List Shape}
    (h : Forall₂ l.Corresponds ss ts) :
    l.Corresponds (.classify (ss.flatMap Shape.branches))
      (.classify (ts.flatMap Shape.branches)) := by
  obtain ⟨hs, rfl⟩ := corresponds_list h
  have hbranches : ∀ b ∈ ss.flatMap Shape.branches, b.names ⊆ l.shared := by
    intro b hb name hm
    obtain ⟨s, hmem, hb⟩ := mem_flatMap.mp hb
    exact hs s hmem (mentions_of_branches hb hm)
  constructor
  · intro name hm
    obtain ⟨b, hb, hm⟩ := mentions_of_classify hm
    exact hbranches b hb hm
  · rw [← classify_rename (translate_injOn hl) hbranches, flatMap_map, map_flatMap]
    simp only [branches_rename]

end Twin

theorem restShape_rename (ρ : String → String) (s : Shape) :
    restShape (s.rename ρ) = (restShape s).rename ρ := by
  cases s <;> rfl

theorem isOpenObject_rename (ρ : String → String) (s : Shape) :
    isOpenObject (s.rename ρ) = isOpenObject s := by
  cases s <;> rfl

theorem names_restShape (s : Shape) : (restShape s).names = s.names := by
  cases s with
  | arrayOf s => exact (names_arrayOf s).symm
  | _ => rfl

theorem refer_corresponds {d : DeclRef} {l : Twin} (hl : l.WellNamed) :
    l.NamesGrow (l.after (Ledger.refer d) (Ledger.refer d)) ∧
      (l.after (Ledger.refer d) (Ledger.refer d)).WellNamed ∧
      (l.after (Ledger.refer d) (Ledger.refer d)).Corresponds
        ((Ledger.refer d).run l.1).1 ((Ledger.refer d).run l.2).1 := by
  obtain ⟨a, l₁, hr, hn, hg, -, -, hw⟩ := refer_spec d l.1
  obtain ⟨b, l₂, hr', hn', hg', -, -, hw'⟩ := refer_spec d l.2
  have hafter : l.after (Ledger.refer d) (Ledger.refer d) = (l₁, l₂) := by
    rw [Twin.after, hr, hr']
  have hl' : Twin.WellNamed (l₁, l₂) := ⟨hw hl.left, hw' hl.right⟩
  rw [hafter, hr, hr']
  refine ⟨⟨hg.names, hg'.names⟩, hl', ?_, ?_⟩
  · intro name hm
    rw [mentions_reference.mp hm]
    exact ⟨d, b, hn, hn'⟩
  · rw [Shape.rename, Twin.translate_eq hl' hn hn']

theorem define_names (d : DeclRef) (s : Shape) (l : Ledger) :
    l.NamesGrow ((Ledger.define d s).run l).2 ∧
      (l.WellNamed → ((Ledger.define d s).run l).2.WellNamed) := by
  rcases define_cases d s l with ⟨-, hr⟩ | ⟨name, l', -, hg, -, hw, hr⟩
  · rw [hr]
    exact ⟨prefix_refl _, id⟩
  · rw [hr]
    exact ⟨hg.names, fun hl => (hw hl).of_names_eq rfl⟩

theorem define_corresponds {d : DeclRef} {l : Twin} {t : Shape} (hl : l.WellNamed)
    (h : l.Corresponds s t) :
    l.NamesGrow (l.after (Ledger.define d s) (Ledger.define d t)) ∧
      (l.after (Ledger.define d s) (Ledger.define d t)).WellNamed ∧
      (l.after (Ledger.define d s) (Ledger.define d t)).Corresponds s t := by
  obtain ⟨hg, hw⟩ := define_names d s l.1
  obtain ⟨hg', hw'⟩ := define_names d t l.2
  have hgrow : l.NamesGrow (l.after (Ledger.define d s) (Ledger.define d t)) := ⟨hg, hg'⟩
  have hl' : (l.after (Ledger.define d s) (Ledger.define d t)).WellNamed :=
    ⟨hw hl.left, hw' hl.right⟩
  exact ⟨hgrow, hl', h.mono hl' hgrow⟩

theorem names_eq_empty (h : ∀ name, ¬ s.Mentions name) : s.names = ∅ :=
  Set.eq_empty_of_forall_notMem h

def historyLaw : TwinLaw where
  inv _ l := l.WellNamed
  grows := Twin.NamesGrow
  good _ _ := Twin.Corresponds
  grows_refl _ := ⟨prefix_refl _, prefix_refl _⟩
  grows_trans h h' := ⟨h.left.trans h'.left, h.right.trans h'.right⟩
  good_of_grows hl' hg h := h.mono hl' hg
  primitive _ _ _ k := .of_names_eq_empty (names_primitive k) rfl
  literal _ _ _ v := .of_names_eq_empty (names_literal v) rfl
  function _ _ _ :=
    .of_names_eq_empty (names_eq_empty fun name =>
      (Shape.Lasting.reference name).not_within_function) rfl
  ofClass _ _ _ c :=
    .of_names_eq_empty (names_eq_empty fun name =>
      (Shape.Lasting.reference name).not_within_instance c) rfl
  react {E _ l name s} h := by
    apply Twin.Corresponds.of_names_eq_empty
    · exact names_eq_empty fun name => not_within_reactShape? (.reference name) h
    · rcases reactShape?_cases h with ⟨k, rfl⟩ | rfl | rfl | rfl <;> rfl
  global {E _ l name s} h := by
    apply Twin.Corresponds.of_names_eq_empty
    · exact names_eq_empty fun name => not_within_globalShape? (.reference name) h
    · rcases globalShape?_cases h with rfl | rfl | ⟨k, rfl⟩ <;> rfl
  arrayOf {E _ l s t} h :=
    ⟨(names_arrayOf s).subset.trans h.shared, by rw [h.eq_rename, Shape.rename]⟩
  rest {E _ l s t} h := by
    refine ⟨(names_restShape s).subset.trans h.shared, ?_⟩
    rw [h.eq_rename, restShape_rename]
  isOpen {E _ l s t} h := by rw [h.eq_rename, isOpenObject_rename]
  object _ _ _ _ h := .object h
  union hl h := .union hl h
  literals E _ l values := by
    have hnone : ∀ s ∈ values.map Shape.literal, s.names ⊆ ∅ := by
      intro s hs
      obtain ⟨v, -, rfl⟩ := mem_map.mp hs
      exact (names_literal v).subset
    constructor
    · intro name hm
      obtain ⟨s, hs, hm⟩ := mentions_of_classify hm
      exact absurd (hnone s hs hm) id
    · rw [← classify_rename (Set.injOn_empty _) hnone, map_map]
      rfl
  refer _ _ _ hl := refer_corresponds hl
  begun hl := hl
  define hl h := define_corresponds hl h

/-- Two answers that are the same but for the names of references: the names of declarations in
one ledger stand for the names of the same declarations in another one. -/
inductive SameUpToNames (l l' : Ledger) :
    Except ResolveError (List PropInfo) → Except ResolveError (List PropInfo) → Prop where
  | error (e : ResolveError) : SameUpToNames l l' (.error e) (.error e)
  | ok {ps : List PropInfo} (ρ : String → String) :
      Set.InjOn ρ (Shape.object ps).names →
      (∀ name ∈ (Shape.object ps).names, ∃ (d : DeclRef) (i j : Nat), 0 < i ∧ 0 < j ∧
        l.nameOf? d = some name ∧ name = Ledger.candidateName d.name i ∧
        l'.nameOf? d = some (ρ name) ∧ ρ name = Ledger.candidateName d.name j) →
      SameUpToNames l l' (.ok ps) (.ok (ps.map (PropInfo.rename ρ)))

theorem sameUpToNames_of_corresponds {l : Twin} (hl : l.WellNamed)
    (h : l.Corresponds (.object ps) (.object qs)) : SameUpToNames l.1 l.2 (.ok ps) (.ok qs) := by
  have hqs : qs = ps.map (PropInfo.rename l.translate) := by
    have he := h.eq_rename
    rw [Shape.rename, PropInfo.renameAll_eq_map] at he
    exact Shape.object.inj he
  rw [hqs]
  refine .ok l.translate ((Twin.translate_injOn hl).mono h.shared) ?_
  intro name hname
  obtain ⟨d, other, hn, hn'⟩ := h.shared hname
  obtain ⟨i, hi, hname⟩ := hl.left.told_nameOf? hn
  obtain ⟨j, hj, hother⟩ := hl.right.told_nameOf? hn'
  rw [Twin.translate_eq hl hn hn']
  exact ⟨d, i, j, hi, hj, hn, hname, hn', hother⟩

theorem resolveProps_sameUpToNames (s : Setting) (symbol : Symbol) {l l' : Ledger}
    (hl : l.WellNamed) (hl' : l'.WellNamed) :
    SameUpToNames ((resolveProps s symbol).run.run l).2 ((resolveProps s symbol).run.run l').2
      ((resolveProps s symbol).run.run l).1 ((resolveProps s symbol).run.run l').1 := by
  have hkeeps : historyLaw.Keeps [] (resolveProps s symbol).run (resolveProps s symbol).run (l, l')
      historyLaw.GoodAnswers := TwinLaw.resolveProps_keeps s symbol ⟨hl, hl'⟩
  obtain ⟨-, hw, ha⟩ := hkeeps
  generalize ((resolveProps s symbol).run.run l).1 = answer at ha ⊢
  generalize ((resolveProps s symbol).run.run l').1 = answer' at ha ⊢
  match answer, answer', ha with
  | .error e, .error _, rfl => exact .error e
  | .ok ps, .ok qs, ha => exact sameUpToNames_of_corresponds hw ha

/-- Whatever a resolver was asked before, it fails where a new one fails, with the same error, and
otherwise its answer is that of a new one with other names for the references. If it keeps a stack
and a counter in place, the stack is empty and the counter is zero after every call, and nothing
else changes. -/
theorem history_irrelevant (s : Setting) (calls : List Call) (symbol : Symbol) :
    SameUpToNames ((resolveProps s symbol).run.run {}).2
        ((resolveProps s symbol).run.run ((session s calls).run {}).2).2
        ((resolveProps s symbol).run.run {}).1
        ((resolveProps s symbol).run.run ((session s calls).run {}).2).1 ∧
      (InPlace.session s calls).run { stack := [], counter := 0, ledger := {} } =
        (((session s calls).run {}).1,
          { stack := [], counter := 0, ledger := ((session s calls).run {}).2 }) := by
  have hl := (session_closed s calls closed_empty).1
  exact ⟨resolveProps_sameUpToNames s symbol wellNamed_empty hl.names,
    InPlace.session_mirrors s calls {}⟩

end PropContract.Resolver
