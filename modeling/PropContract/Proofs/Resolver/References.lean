import PropContract.Proofs.Resolver.Names
import PropContract.Proofs.Resolver.Traversal
import PropContract.Proofs.Shape.Within

/-!
References are closed. A reference is made while its type is being expanded; the ledger owes its
definition until that expansion ends.
-/

namespace PropContract.Resolver

open List Shape StateT

namespace Ledger

/-- A name has its definition, or will have it when one of the types being expanded is done. -/
def Owed (E : Expanding) (l : Ledger) (name : String) : Prop :=
  name ∈ l.definitions.keys ∨ ∃ d ∈ E, d ∈ l.referenced ∧ l.nameOf? d = some name

structure Grows (l l' : Ledger) : Prop where
  names : NamesGrow l l'
  referenced : ∀ d ∈ l.referenced, d ∈ l'.referenced
  definitions : ∀ name ∈ l.definitions.keys, name ∈ l'.definitions.keys

structure Closed (E : Expanding) (l : Ledger) : Prop where
  names : WellNamed l
  definitions : ∀ entry ∈ l.definitions, ∀ name, entry.2.Mentions name → Owed E l name

theorem Grows.refl (l : Ledger) : Grows l l :=
  ⟨prefix_refl _, fun _ h => h, fun _ h => h⟩

theorem Grows.trans {l₁ l₂ l₃ : Ledger} (h : Grows l₁ l₂) (h' : Grows l₂ l₃) : Grows l₁ l₃ :=
  ⟨h.names.trans h'.names, fun d hd => h'.referenced d (h.referenced d hd),
    fun name hn => h'.definitions name (h.definitions name hn)⟩

variable {l : Ledger} {E : Expanding} {name : String} {d : DeclRef}

theorem Owed.mono {l' : Ledger} (hg : Grows l l') (h : Owed E l name) : Owed E l' name := by
  rcases h with h | ⟨d, hd, hr, hn⟩
  · exact .inl (hg.definitions name h)
  · exact .inr ⟨d, hd, hg.referenced d hr, nameOf?_of_namesGrow hg.names hn⟩

theorem Owed.begun (d : DeclRef) (h : Owed E l name) : Owed (d :: E) l name :=
  h.imp id fun ⟨e, he, h⟩ => ⟨e, mem_cons_of_mem d he, h⟩

theorem referenceName_spec (d : DeclRef) (l : Ledger) :
    ∃ name l', (referenceName d).run l = (name, l') ∧ l'.nameOf? d = some name ∧ Grows l l' ∧
      l'.referenced = l.referenced ∧ l'.definitions = l.definitions ∧
      (WellNamed l → WellNamed l') := by
  rcases referenceName_cases d l with ⟨name, hn, hr⟩ | ⟨name, hn, hfresh, htold, hr⟩
  · exact ⟨name, l, hr, hn, .refl l, rfl, rfl, id⟩
  · refine ⟨name, _, hr, ?_, ⟨prefix_append _ _, fun _ h => h, fun _ h => h⟩, rfl, rfl, ?_⟩
    · have hf : l.names.find? (fun entry => entry.1 == d) = none := by simpa [nameOf?] using hn
      simp [nameOf?, find?_append, hf]
    · intro hl
      constructor
      · simp only [map_append, map_cons, map_nil]
        refine nodup_append.mpr ⟨hl.differ, nodup_singleton name, ?_⟩
        intro a ha b hb he
        exact hfresh (mem_singleton.mp hb ▸ he ▸ ha)
      · intro entry he
        rcases mem_append.mp he with he | he
        · exact hl.told entry he
        · exact mem_singleton.mp he ▸ htold

theorem refer_spec (d : DeclRef) (l : Ledger) :
    ∃ name l', (refer d).run l = (.reference name, l') ∧ l'.nameOf? d = some name ∧ Grows l l' ∧
      d ∈ l'.referenced ∧ l'.definitions = l.definitions ∧ (WellNamed l → WellNamed l') := by
  let marked : Ledger :=
    { l with referenced := if l.referenced.contains d then l.referenced else d :: l.referenced }
  have hd : d ∈ marked.referenced := by
    by_cases h : d ∈ l.referenced <;> simp [marked, h]
  have hsub : ∀ e ∈ l.referenced, e ∈ marked.referenced := by
    intro e he
    by_cases h : d ∈ l.referenced <;> simp [marked, h, he]
  have hm : Grows l marked := ⟨prefix_refl _, hsub, fun _ h => h⟩
  obtain ⟨name, l', hr, hn, hg, href, hdef, hnames⟩ := referenceName_spec d marked
  refine ⟨name, l', ?_, hn, hm.trans hg, href ▸ hd, hdef, fun hl => hnames (hl.of_names_eq rfl)⟩
  change (Shape.reference ((referenceName d).run marked).1, ((referenceName d).run marked).2) = _
  rw [hr]

theorem define_cases (d : DeclRef) (shape : Shape) (l : Ledger) :
    (d ∉ l.referenced ∧ (define d shape).run l = ((), l)) ∨
      ∃ name l', l'.nameOf? d = some name ∧ Grows l l' ∧ l'.definitions = l.definitions ∧
        (WellNamed l → WellNamed l') ∧ (define d shape).run l =
          ((), { l' with definitions := l'.definitions.putNew name shape }) := by
  by_cases h : d ∈ l.referenced
  · right
    obtain ⟨name, l', hr, hn, hg, -, hdef, hnames⟩ := referenceName_spec d l
    refine ⟨name, l', hn, hg, hdef, hnames, ?_⟩
    simp only [define, run_bind, run_get, pure_bind, contains_iff_mem, h,
      if_true, hr]
    rfl
  · left
    refine ⟨h, ?_⟩
    simp only [define, run_bind, run_get, pure_bind, contains_iff_mem, h,
      if_false]
    rfl

theorem refer_closed (hd : d ∈ E) (hl : Closed E l) :
    Grows l ((refer d).run l).2 ∧ Closed E ((refer d).run l).2 ∧
      ∀ name, ((refer d).run l).1.Mentions name → Owed E ((refer d).run l).2 name := by
  obtain ⟨name, l', hr, hn, hg, href, hdef, hnames⟩ := refer_spec d l
  rw [hr]
  refine ⟨hg, ⟨hnames hl.names, ?_⟩, ?_⟩
  · intro entry he other hm
    exact (hl.definitions entry (hdef ▸ he) other hm).mono hg
  · intro other hm
    rw [mentions_reference.mp hm]
    exact .inr ⟨d, hd, href, hn⟩

theorem Owed.ended
    (hd : ∀ name, d ∈ l.referenced → l.nameOf? d = some name → name ∈ l.definitions.keys)
    (h : Owed (d :: E) l name) : Owed E l name := by
  rcases h with h | ⟨e, he, hr, hn⟩
  · exact .inl h
  · rcases mem_cons.mp he with rfl | he
    · exact .inl (hd name hr hn)
    · exact .inr ⟨e, he, hr, hn⟩

theorem define_closed {shape : Shape} (hl : Closed (d :: E) l)
    (hs : ∀ name, shape.Mentions name → Owed (d :: E) l name) :
    Grows l ((define d shape).run l).2 ∧ Closed E ((define d shape).run l).2 ∧
      ∀ name, shape.Mentions name → Owed E ((define d shape).run l).2 name := by
  rcases define_cases d shape l with ⟨hd, hr⟩ | ⟨name, l', hn, hg, hdef, hnames, hr⟩
  · rw [hr]
    have hpaid : ∀ other, Owed (d :: E) l other → Owed E l other :=
      fun other => Owed.ended fun _ hc => absurd hc hd
    exact ⟨.refl l,
      ⟨hl.names, fun entry he other hm => hpaid other (hl.definitions entry he other hm)⟩,
      fun other hm => hpaid other (hs other hm)⟩
  · rw [hr]
    let kept : Ledger := { l' with definitions := l'.definitions.putNew name shape }
    have hkept : Grows l kept :=
      hg.trans ⟨prefix_refl _, fun _ h => h,
        fun other h => (Table.mem_keys_putNew name other shape _).mpr (.inl h)⟩
    have hpaid : ∀ other, Owed (d :: E) l other → Owed E kept other := by
      intro other ho
      refine (ho.mono hkept).ended fun found _ hf => ?_
      have he : found = name := Option.some.inj (hf.symm.trans hn)
      exact (Table.mem_keys_putNew name found shape _).mpr (.inr he)
    refine ⟨hkept, ⟨(hnames hl.names).of_names_eq rfl, ?_⟩, fun other hm => hpaid other (hs other hm)⟩
    intro entry he other hm
    rcases Table.mem_of_mem_putNew he with he | rfl
    · exact hpaid other (hl.definitions entry (hdef ▸ he) other hm)
    · exact hpaid other (hs other hm)

end Ledger

structure MentionLaw extends LedgerLaw where
  told : Expanding → Ledger → String → Prop
  told_of_grows : ∀ {E l l' name}, grows l l' → told E l name → told E l' name
  refer : ∀ {p E t d args l}, d ∈ E → fits p E t → Names p t d args → inv E l →
    grows l ((Ledger.refer d).run l).2 ∧ inv E ((Ledger.refer d).run l).2 ∧
      ∀ name, ((Ledger.refer d).run l).1.Mentions name → told E ((Ledger.refer d).run l).2 name
  define : ∀ {E d l s}, inv (d :: E) l → (∀ name, s.Mentions name → told (d :: E) l name) →
    grows l ((Ledger.define d s).run l).2 ∧ inv E ((Ledger.define d s).run l).2 ∧
      ∀ name, s.Mentions name → told E ((Ledger.define d s).run l).2 name

def MentionLaw.law (L : MentionLaw) : ShapeLaw where
  toLedgerLaw := L.toLedgerLaw
  good E _ l s := ∀ name, s.Mentions name → L.told E l name
  good_of_grows hg hs name hm := L.told_of_grows hg (hs name hm)
  primitive _ _ _ k name hm := absurd hm ((Shape.Lasting.reference name).not_within_primitive k)
  literal _ _ _ v name hm := absurd hm ((Shape.Lasting.reference name).not_within_literal v)
  function _ _ _ name hm := absurd hm (Shape.Lasting.reference name).not_within_function
  ofClass _ _ _ c name hm := absurd hm ((Shape.Lasting.reference name).not_within_instance c)
  react h name hm := absurd hm (not_within_reactShape? (.reference name) h)
  global h name hm := absurd hm (not_within_globalShape? (.reference name) h)
  arrayOf hs name hm := hs name (mentions_arrayOf.mp hm)
  element hs name hm := hs name (mentions_arrayOf.mpr hm)
  object _ _ _ hs name hm := by
    obtain ⟨p, hp, hm⟩ := mentions_object.mp hm
    exact hs p hp name hm
  union hs name hm := by
    obtain ⟨branch, hb, hm⟩ := mentions_of_classify hm
    obtain ⟨s, hs', hb⟩ := mem_flatMap.mp hb
    exact hs s hs' name (mentions_of_branches hb hm)
  literals _ _ _ values name hm := by
    obtain ⟨s, hs, hm⟩ := mentions_of_classify hm
    obtain ⟨v, _, rfl⟩ := mem_map.mp hs
    exact absurd hm ((Shape.Lasting.reference name).not_within_literal v)
  refer := L.refer
  define := L.define

def referenceLaw : ShapeLaw :=
  MentionLaw.law {
    inv := Ledger.Closed
    grows := Ledger.Grows
    told := Ledger.Owed
    grows_refl := Ledger.Grows.refl
    grows_trans := Ledger.Grows.trans
    told_of_grows := fun hg ho => ho.mono hg
    refer := fun hd _ _ hl => Ledger.refer_closed hd hl
    begun := fun h => ⟨h.names, fun entry he name hm => (h.definitions entry he name hm).begun _⟩
    define := Ledger.define_closed }

end PropContract.Resolver
