import PropContract.Injection.Basic
import PropContract.Proofs.Lists
import PropContract.Proofs.Syntax.Nodes

/-!
Which reads of its properties a function is seen to make. The search sees neither the defaults of
the parameters nor those in a pattern that takes the properties apart.
-/

namespace PropContract.Usage

open Syntax Injection Relation List Option

def keyOf? : PatternMember → Option String
  | .keyed key _ => key.name?
  | .shorthand name _ => some name
  | .rest _ => none

abbrev destructuring (p : String) (members : List PatternMember) (type : Option TypeExpr) :
    Node :=
  .declarator (.mk (.object members type) (some (.name p)))

inductive Asks (p : String) : Node → String → Prop where
  | member (k : String) : Asks p (.expr (.member (.name p) k)) k
  | index (k : String) : Asks p (.expr (.index (.name p) (.string k))) k
  | destructured : m ∈ members → keyOf? m = some k → Asks p (destructuring p members type) k
  | mention (k : String) : Asks p (.mention (.key p k)) k

/-- A node holds a name only to ask it for keys that are written out. A private member is none
of the properties. -/
inductive OnlyAsks (p : String) : Node → Prop where
  | member (k : String) : OnlyAsks p (.expr (.member (.name p) k))
  | index (k : String) : OnlyAsks p (.expr (.index (.name p) (.string k)))
  | privateMember : OnlyAsks p (.expr (.privateMember (.name p)))
  | destructured (type : Option TypeExpr) :
      (∀ m ∈ members, keyOf? m ≠ none) → OnlyAsks p (destructuring p members type)

def Beside (p : String) (n c : Node) : Prop :=
  n.Part c ∧ ¬ (OnlyAsks p n ∧ c = .expr (.name p))

def InSight (p : String) (n c : Node) : Prop :=
  n.Part c ∧ ¬ OnlyAsks p n

variable {p : String} {n c : Node}

theorem InSight.beside (h : InSight p n c) : Beside p n c :=
  ⟨h.1, fun hn => h.2 hn.1⟩

inductive Takes (p : String) : Node → List Finding → Prop where
  | mention (u : Use) : Takes p (.mention u) ((search p).use u)
  | member (k : String) : Takes p (.expr (.member (.name p) k)) [.read k]
  | index (k : String) : Takes p (.expr (.index (.name p) (.string k))) [.read k]
  | anyIndex : (∀ k, key ≠ .string k) → Takes p (.expr (.index (.name p) key)) [.escape]
  | privateMember : Takes p (.expr (.privateMember (.name p))) []
  | destructured (type : Option TypeExpr) :
      patternKeys? members = some ks → Takes p (destructuring p members type) (ks.map .read)
  | anyKey (type : Option TypeExpr) :
      patternKeys? members = none → Takes p (destructuring p members type) [.escape]

variable {found : List Finding} {k : String} {m : Node} {f : Function}

theorem taken_search_iff : n.taken (search p) = some found ↔ Takes p n found := by
  constructor
  · intro h
    cases n with
    | mention u =>
      obtain rfl := Option.some.inj h
      exact .mention u
    | expr e =>
      simp only [Node.taken, search] at h
      split at h <;> simp only [ite_none_right_eq_some, Option.some.injEq, reduceCtorEq] at h
      case h_1 =>
        obtain ⟨rfl, rfl⟩ := h
        exact .member _
      case h_2 =>
        obtain ⟨rfl, rfl⟩ := h
        exact .index _
      case h_3 hkey =>
        obtain ⟨rfl, rfl⟩ := h
        exact .anyIndex hkey
      case h_4 =>
        obtain ⟨rfl, rfl⟩ := h
        exact .privateMember
    | declarator d =>
      simp only [Node.taken, search] at h
      split at h
      · simp only [ite_none_right_eq_some] at h
        obtain ⟨rfl, h⟩ := h
        split at h <;> obtain rfl := Option.some.inj h
        · exact .destructured _ ‹_›
        · exact .anyKey _ ‹_›
      · cases h
    | _ => cases h
  · intro h
    cases h <;> simp [Node.taken, search, *]

theorem patternKeys?_eq_none_iff {members : List PatternMember} :
    patternKeys? members = none ↔ ∃ m ∈ members, keyOf? m = none :=
  mapM_eq_none_iff

theorem mem_patternKeys? {members : List PatternMember} {keys : List String}
    (h : patternKeys? members = some keys) : k ∈ keys ↔ ∃ m ∈ members, keyOf? m = some k :=
  mem_iff_of_mapM h

theorem OnlyAsks.takes (h : OnlyAsks p n) : ∃ found, Takes p n found := by
  cases h with
  | member k => exact ⟨_, .member k⟩
  | index k => exact ⟨_, .index k⟩
  | privateMember => exact ⟨_, .privateMember⟩
  | @destructured members type hkeys =>
    cases hm : patternKeys? members with
    | some keys => exact ⟨_, .destructured type hm⟩
    | none => exact ⟨_, .anyKey type hm⟩

theorem Takes.asks (h : Takes p n found) (hk : .read k ∈ found) : Asks p n k := by
  cases h with
  | mention u =>
    simp only [search] at hk
    split at hk <;> split at hk <;> simp at hk
    subst hk
    subst p
    exact .mention k
  | member k' =>
    obtain rfl : k = k' := by simpa using hk
    exact .member k
  | index k' =>
    obtain rfl : k = k' := by simpa using hk
    exact .index k
  | destructured type hkeys =>
    obtain ⟨m, hm, hmk⟩ := (mem_patternKeys? hkeys).mp (by simpa using hk)
    exact .destructured hm hmk
  | anyIndex _ | privateMember | anyKey _ _ => simp at hk

theorem Asks.takes (h : Asks p n k) :
    ∃ found, Takes p n found ∧ (.read k ∈ found ∨ .escape ∈ found) := by
  cases h with
  | member => exact ⟨_, .member k, by simp⟩
  | index => exact ⟨_, .index k, by simp⟩
  | mention => exact ⟨_, .mention _, by simp [search]⟩
  | @destructured members m _ type hm hk =>
    cases hkeys : patternKeys? members with
    | some keys =>
      have hread := (mem_patternKeys? hkeys).mpr ⟨m, hm, hk⟩
      exact ⟨_, .destructured type hkeys, .inl (by simpa using hread)⟩
    | none => exact ⟨_, .anyKey type hkeys, by simp⟩

theorem Takes.escape_mem (h : Takes p n found) (hc : InSight p n c) : .escape ∈ found := by
  cases h with
  | mention u => exact absurd hc.1 not_mem_nil
  | member k => exact absurd (.member k) hc.2
  | index k => exact absurd (.index k) hc.2
  | privateMember => exact absurd .privateMember hc.2
  | destructured type hkeys =>
    refine absurd (.destructured type fun m hm hnone => ?_) hc.2
    rw [patternKeys?_eq_none_iff.mpr ⟨m, hm, hnone⟩] at hkeys
    cases hkeys
  | anyIndex _ | anyKey _ _ => exact mem_singleton_self _

theorem Takes.mention_inSight (h : Takes p n found) (he : .escape ∈ found) :
    ReflTransGen (InSight p) n (.mention (.whole p)) := by
  have hname : InSight p (.expr (.name p)) (.mention (.whole p)) :=
    ⟨mem_singleton_self _, nofun⟩
  cases h with
  | mention u =>
    simp only [search] at he
    split at he <;> split at he <;> simp at he
    subst p
    exact .refl
  | anyIndex hkey =>
    refine .head ⟨mem_cons_self, fun ho => ?_⟩ (.single hname)
    cases ho with
    | index k => exact hkey k rfl
  | anyKey type hkeys =>
    refine .head ⟨mem_cons_of_mem _ (mem_singleton_self _), fun ho => ?_⟩ (.single hname)
    obtain ⟨m, hm, hnone⟩ := patternKeys?_eq_none_iff.mp hkeys
    cases ho with
    | destructured _ hall => exact hall m hm hnone
  | member | index | privateMember | destructured => simp at he

theorem inSight_of_onward (h : Node.Onward (search p) n c) : InSight p n c := by
  refine ⟨h.2, fun ho => ?_⟩
  obtain ⟨found, hfound⟩ := ho.takes
  exact absurd h.1 (by simp [taken_search_iff.mpr hfound])

theorem mem_gather_of_inSight (h : ReflTransGen (InSight p) n m) (hm : Takes p m found)
    {x : Finding} (hx : x ∈ found) : x ∈ n.gather (search p) ∨ .escape ∈ n.gather (search p) := by
  induction h using ReflTransGen.head_induction_on with
  | refl => exact .inl (Node.gather_of_taken _ (taken_search_iff.mpr hm) ▸ hx)
  | @head n c hstep _ ih =>
    cases hn : n.taken (search p) with
    | some found' =>
      rw [Node.gather_of_taken _ hn]
      exact .inr ((taken_search_iff.mp hn).escape_mem hstep)
    | none =>
      have honward : Node.Onward (search p) n c := ⟨hn, hstep.1⟩
      exact ih.imp (Node.mem_gather_of_onward honward) (Node.mem_gather_of_onward honward)

theorem escape_mem_gather_iff :
    .escape ∈ n.gather (search p) ↔ ReflTransGen (InSight p) n (.mention (.whole p)) := by
  constructor
  · intro h
    obtain ⟨m, found, hm, htaken, he⟩ := Node.exists_taken_of_mem_gather h
    exact (ReflTransGen.mono (fun _ _ => inSight_of_onward) _ _ hm).trans
      ((taken_search_iff.mp htaken).mention_inSight he)
  · intro h
    have he : Finding.escape ∈ (search p).use (.whole p) := by simp [search]
    exact (mem_gather_of_inSight h (.mention _) he).elim id id

theorem asks_of_mem_gather (h : .read k ∈ n.gather (search p)) :
    ∃ m, ReflTransGen (InSight p) n m ∧ Asks p m k := by
  obtain ⟨m, found, hm, htaken, hk⟩ := Node.exists_taken_of_mem_gather h
  exact ⟨m, ReflTransGen.mono (fun _ _ => inSight_of_onward) _ _ hm,
    (taken_search_iff.mp htaken).asks hk⟩

theorem mem_gather_of_asks (h : ReflTransGen (InSight p) n m) (hk : Asks p m k) :
    .read k ∈ n.gather (search p) ∨ .escape ∈ n.gather (search p) := by
  obtain ⟨found, hm, hread | hescape⟩ := hk.takes
  · exact mem_gather_of_inSight h hm hread
  · exact .inr ((mem_gather_of_inSight h hm hescape).elim id id)

inductive TakenApart (p : String) (n : Node) : Node → Prop where
  | intro : ReflTransGen (Beside p) n (destructuring p members type) →
      (∀ m ∈ members, keyOf? m ≠ none) → TakenApart p n (.pattern (.object members type))

theorem TakenApart.head {q : Node} (hstep : Beside p n c) (h : TakenApart p c q) :
    TakenApart p n q := by
  cases h with
  | intro hway hkeys => exact .intro (.head hstep hway) hkeys

theorem TakenApart.way {q : Node} (h : TakenApart p n q) : ReflTransGen (Beside p) n q := by
  cases h with
  | intro hway hkeys => exact hway.tail ⟨mem_cons_self, nofun⟩

theorem OnlyAsks.takenApart_or (h : OnlyAsks p n) (hc : n.Part c) :
    TakenApart p n c ∨
      ∀ m : Node, m.Inside c →
        (∀ k, ¬ Asks p m k) ∧ (m = .mention (.whole p) → c = .expr (.name p)) := by
  have hname (m : Node) (hm : m.Inside (.expr (.name p))) :
      (∀ k, ¬ Asks p m k) ∧ (m = .mention (.whole p) → Node.expr (.name p) = .expr (.name p)) := by
    refine ⟨?_, fun _ => rfl⟩
    rcases hm.cases_head with rfl | ⟨c, hc, hm⟩
    · nofun
    · obtain rfl := mem_singleton.mp hc
      rcases hm.cases_head with rfl | ⟨c, hc, -⟩
      · nofun
      · exact absurd hc not_mem_nil
  cases h with
  | member k | privateMember =>
    obtain rfl := mem_singleton.mp hc
    exact .inr hname
  | index k =>
    rcases mem_cons.mp hc with rfl | hc
    · exact .inr hname
    · obtain rfl := mem_singleton.mp hc
      refine .inr fun m hm => ?_
      rcases hm.cases_head with rfl | ⟨c, hc, -⟩
      · exact ⟨nofun, nofun⟩
      · exact absurd hc not_mem_nil
  | destructured type hkeys =>
    rcases mem_cons.mp hc with rfl | hc
    · exact .inl (.intro .refl hkeys)
    · obtain rfl := mem_singleton.mp hc
      exact .inr hname

theorem inside_of_beside (h : ReflTransGen (Beside p) n m) : m.Inside n :=
  ReflTransGen.mono (fun _ _ => And.left) _ _ h

theorem asks_inside_iff :
    (∃ m, m.Inside n ∧ Asks p m k) ↔
      (∃ m, ReflTransGen (InSight p) n m ∧ Asks p m k) ∨
        ∃ q m, TakenApart p n q ∧ m.Inside q ∧ Asks p m k := by
  constructor
  · rintro ⟨m, hm, hk⟩
    induction hm using ReflTransGen.head_induction_on with
    | refl => exact .inl ⟨m, .refl, hk⟩
    | @head n c hstep hm ih =>
      by_cases ho : OnlyAsks p n
      · rcases ho.takenApart_or hstep with hq | hno
        · exact .inr ⟨c, m, hq, hm, hk⟩
        · exact absurd hk ((hno m hm).1 k)
      · have hsight : InSight p n c := ⟨hstep, ho⟩
        rcases ih with ⟨m', hm', hk'⟩ | ⟨q, m', hq, hm', hk'⟩
        · exact .inl ⟨m', .head hsight hm', hk'⟩
        · exact .inr ⟨q, m', hq.head hsight.beside, hm', hk'⟩
  · rintro (⟨m, hm, hk⟩ | ⟨q, m, hq, hm, hk⟩)
    · exact ⟨m, ReflTransGen.mono (fun _ _ => And.left) _ _ hm, hk⟩
    · exact ⟨m, (inside_of_beside hq.way).trans hm, hk⟩

theorem mention_beside_iff :
    ReflTransGen (Beside p) n (.mention (.whole p)) ↔
      ReflTransGen (InSight p) n (.mention (.whole p)) ∨
        ∃ q, TakenApart p n q ∧ ReflTransGen (Beside p) q (.mention (.whole p)) := by
  constructor
  · intro h
    induction h using ReflTransGen.head_induction_on with
    | refl => exact .inl .refl
    | @head n c hstep hm ih =>
      by_cases ho : OnlyAsks p n
      · rcases ho.takenApart_or hstep.1 with hq | hno
        · exact .inr ⟨c, hq, hm⟩
        · exact absurd ⟨ho, (hno _ (inside_of_beside hm)).2 rfl⟩ hstep.2
      · exact ih.imp (.head ⟨hstep.1, ho⟩) fun ⟨q, hq, hm⟩ => ⟨q, hq.head hstep, hm⟩
  · rintro (h | ⟨q, hq, h⟩)
    · exact ReflTransGen.mono (fun _ _ => InSight.beside) _ _ h
    · exact hq.way.trans h

def intake : Pattern → Pattern
  | .assign target _ => intake target
  | q => q

def defaults : Pattern → List Expr
  | .assign target value => defaults target ++ [value]
  | _ => []

def receiver (f : Function) : Option Pattern :=
  f.params.head?.map intake

def asides (f : Function) : List Node :=
  (f.params.head?.toList.flatMap defaults).map .expr ++ f.params.tail.map .pattern

def bodyOf (f : Function) : List Node :=
  f.body.map .stmt

/-- A function reads a property: it takes it out of its first parameter, or asks the name of its
properties for it in a node that is `seen`. -/
inductive ReadsWhere (seen : String → Node → Prop) (f : Function) (k : String) : Prop where
  | taken {members : List PatternMember} {type : Option TypeExpr} {m : PatternMember} :
      receiver f = some (.object members type) → m ∈ members → keyOf? m = some k →
      ReadsWhere seen f k
  | asked {p : String} {type : Option TypeExpr} {n : Node} :
      receiver f = some (.name p type) → seen p n → Asks p n k → ReadsWhere seen f k

/-- A function may read any property: its first parameter takes more than keys that are written
out, or the name of its properties stands for them all in a node that is `seen`. -/
inductive EscapesWhere (seen : String → Node → Prop) (f : Function) : Prop where
  | taken {members : List PatternMember} {type : Option TypeExpr} {m : PatternMember} :
      receiver f = some (.object members type) → m ∈ members → keyOf? m = none →
      EscapesWhere seen f
  | bound {q : Pattern} :
      receiver f = some q → (∀ members type, q ≠ .object members type) →
      (∀ p type, q ≠ .name p type) → EscapesWhere seen f
  | mentioned {p : String} {type : Option TypeExpr} :
      receiver f = some (.name p type) → seen p (.mention (.whole p)) → EscapesWhere seen f

section Where

variable {seen : String → Node → Prop} {f : Function} {type : Option TypeExpr}

theorem readsWhere_object {members : List PatternMember}
    (hr : receiver f = some (.object members type)) {k : String} :
    ReadsWhere seen f k ↔ ∃ m ∈ members, keyOf? m = some k := by
  refine ⟨?_, fun ⟨m, hm, hk⟩ => .taken hr hm hk⟩
  rintro (⟨hr', hm, hk⟩ | ⟨hr', -, -⟩) <;> cases hr.symm.trans hr'
  exact ⟨_, hm, hk⟩

theorem readsWhere_name (hr : receiver f = some (.name p type)) {k : String} :
    ReadsWhere seen f k ↔ ∃ n, seen p n ∧ Asks p n k := by
  refine ⟨?_, fun ⟨n, hn, hk⟩ => .asked hr hn hk⟩
  rintro (⟨hr', -, -⟩ | ⟨hr', hn, hk⟩) <;> cases hr.symm.trans hr'
  exact ⟨_, hn, hk⟩

theorem escapesWhere_object {members : List PatternMember}
    (hr : receiver f = some (.object members type)) :
    EscapesWhere seen f ↔ ∃ m ∈ members, keyOf? m = none := by
  refine ⟨?_, fun ⟨m, hm, hk⟩ => .taken hr hm hk⟩
  rintro (⟨hr', hm, hk⟩ | ⟨hr', hobject, -⟩ | ⟨hr', -⟩) <;> cases hr.symm.trans hr'
  · exact ⟨_, hm, hk⟩
  · exact absurd rfl (hobject members type)

theorem escapesWhere_name (hr : receiver f = some (.name p type)) :
    EscapesWhere seen f ↔ seen p (.mention (.whole p)) := by
  refine ⟨?_, .mentioned hr⟩
  rintro (⟨hr', -, -⟩ | ⟨hr', -, hname⟩ | ⟨hr', hn⟩) <;> cases hr.symm.trans hr'
  · exact absurd rfl (hname p type)
  · exact hn

end Where

def From (roots : List Node) (way : Node → Node → Prop) (m : Node) : Prop :=
  ∃ n ∈ roots, ReflTransGen way n m

def Reads (f : Function) : String → Prop :=
  ReadsWhere (fun _ => From (asides f ++ bodyOf f) Node.Part) f

def Escapes (f : Function) : Prop :=
  EscapesWhere (fun p => From (asides f ++ bodyOf f) (Beside p)) f

def ReadsInSight (f : Function) : String → Prop :=
  ReadsWhere (fun p => From (bodyOf f) (InSight p)) f

def EscapesInSight (f : Function) : Prop :=
  EscapesWhere (fun p => From (bodyOf f) (InSight p)) f

/-- What is not searched: the parameters, and the patterns in the body that take the properties
apart. -/
inductive Unseen (f : Function) (p : String) : Node → Prop where
  | aside {n : Node} : n ∈ asides f → Unseen f p n
  | pattern {n q : Node} : n ∈ bodyOf f → TakenApart p n q → Unseen f p q

inductive ReadsUnseen (f : Function) (k : String) : Prop where
  | intro {p : String} {type : Option TypeExpr} {q n : Node} :
      receiver f = some (.name p type) → Unseen f p q → n.Inside q → Asks p n k → ReadsUnseen f k

inductive EscapesUnseen (f : Function) : Prop where
  | intro {p : String} {type : Option TypeExpr} {q : Node} :
      receiver f = some (.name p type) → Unseen f p q →
      ReflTransGen (Beside p) q (.mention (.whole p)) → EscapesUnseen f

theorem reads_iff : Reads f k ↔ ReadsInSight f k ∨ ReadsUnseen f k := by
  constructor
  · rintro (⟨hr, hm, hk⟩ | @⟨p, type, n, hr, ⟨root, hroot, hway⟩, hk⟩)
    · exact .inl (.taken hr hm hk)
    · rcases mem_append.mp hroot with hroot | hroot
      · exact .inr ⟨hr, .aside hroot, hway, hk⟩
      · rcases asks_inside_iff.mp ⟨n, hway, hk⟩ with ⟨m, hm, hk⟩ | ⟨q, m, hq, hm, hk⟩
        · exact .inl (.asked hr ⟨root, hroot, hm⟩ hk)
        · exact .inr ⟨hr, .pattern hroot hq, hm, hk⟩
  · rintro ((⟨hr, hm, hk⟩ | @⟨p, type, n, hr, ⟨root, hroot, hway⟩, hk⟩) |
      @⟨p, type, q, n, hr, hq, hway, hk⟩)
    · exact .taken hr hm hk
    · obtain ⟨m, hm, hk⟩ := asks_inside_iff.mpr (.inl ⟨n, hway, hk⟩)
      exact .asked hr ⟨root, mem_append_right _ hroot, hm⟩ hk
    · cases hq with
      | aside hq => exact .asked hr ⟨q, mem_append_left _ hq, hway⟩ hk
      | pattern hroot hq =>
        obtain ⟨m, hm, hk⟩ := asks_inside_iff.mpr (.inr ⟨q, n, hq, hway, hk⟩)
        exact .asked hr ⟨_, mem_append_right _ hroot, hm⟩ hk

theorem escapes_iff : Escapes f ↔ EscapesInSight f ∨ EscapesUnseen f := by
  constructor
  · rintro (⟨hr, hm, hk⟩ | ⟨hr, hobject, hname⟩ | ⟨hr, root, hroot, hway⟩)
    · exact .inl (.taken hr hm hk)
    · exact .inl (.bound hr hobject hname)
    · rcases mem_append.mp hroot with hroot | hroot
      · exact .inr ⟨hr, .aside hroot, hway⟩
      · rcases mention_beside_iff.mp hway with hm | ⟨q, hq, hm⟩
        · exact .inl (.mentioned hr ⟨root, hroot, hm⟩)
        · exact .inr ⟨hr, .pattern hroot hq, hm⟩
  · rintro ((⟨hr, hm, hk⟩ | ⟨hr, hobject, hname⟩ | ⟨hr, root, hroot, hway⟩) |
      @⟨p, type, q, hr, hq, hway⟩)
    · exact .taken hr hm hk
    · exact .bound hr hobject hname
    · exact .mentioned hr ⟨root, mem_append_right _ hroot, mention_beside_iff.mpr (.inl hway)⟩
    · cases hq with
      | aside hq => exact .mentioned hr ⟨q, mem_append_left _ hq, hway⟩
      | pattern hroot hq =>
        exact .mentioned hr
          ⟨_, mem_append_right _ hroot, mention_beside_iff.mpr (.inr ⟨q, hq, hway⟩)⟩

theorem intake_ne_assign (q target : Pattern) (value : Expr) : intake q ≠ .assign target value := by
  fun_induction intake q with
  | case1 target' value' ih => exact ih
  | case2 q hq => exact fun h => hq target value h

theorem ofParameter?_intake (body : List Stmt) (q : Pattern) :
    ofParameter? body (intake q) = ofParameter? body q := by
  fun_induction intake q with
  | case1 target value ih => rw [ih, ofParameter?]
  | case2 q hq => rfl

theorem ofFunction?_cases (f : Function) :
    (receiver f = none ∧ ofFunction? f = some []) ∨
      (∃ members type, receiver f = some (.object members type) ∧
        ofFunction? f = patternKeys? members) ∨
      (∃ p type, receiver f = some (.name p type) ∧
        ofFunction? f = keysOf? ((bodyOf f).flatMap (Node.gather (search p)))) ∨
      ∃ q, receiver f = some q ∧ (∀ members type, q ≠ .object members type) ∧
        (∀ p type, q ≠ .name p type) ∧ ofFunction? f = none := by
  unfold ofFunction? receiver
  cases f.params with
  | nil => exact .inl ⟨rfl, rfl⟩
  | cons first rest =>
    have hassign := intake_ne_assign first
    simp only [head?_cons, map_some, ← ofParameter?_intake f.body first]
    cases hq : intake first with
    | object members type => exact .inr (.inl ⟨members, type, rfl, rfl⟩)
    | name p type =>
      exact .inr (.inr (.inl ⟨p, type, rfl, congrArg keysOf? (Node.gatherAll_stmt _ _)⟩))
    | assign target value => exact absurd hq (hassign target value)
    | array | rest | expr => exact .inr (.inr (.inr ⟨_, rfl, nofun, nofun, rfl⟩))

theorem keysOf?_eq_none_iff {findings : List Finding} :
    keysOf? findings = none ↔ .escape ∈ findings := by
  refine mapM_eq_none_iff.trans ⟨?_, fun h => ⟨_, h, rfl⟩⟩
  rintro ⟨x, hx, hnone⟩
  cases x with
  | read k => cases hnone
  | escape => exact hx

theorem mem_keysOf? {findings : List Finding} {keys : List String}
    (h : keysOf? findings = some keys) : k ∈ keys ↔ .read k ∈ findings := by
  refine (mem_iff_of_mapM h).trans ⟨?_, fun h => ⟨_, h, rfl⟩⟩
  rintro ⟨x, hx, hk⟩
  cases x with
  | read k' => exact Option.some.inj hk ▸ hx
  | escape => cases hk

theorem ofFunction?_eq_none_iff : ofFunction? f = none ↔ EscapesInSight f := by
  unfold EscapesInSight
  rcases ofFunction?_cases f with ⟨hr, h⟩ | ⟨members, type, hr, h⟩ | ⟨p, type, hr, h⟩ |
    ⟨q, hr, hobject, hname, h⟩
  · rw [h]
    refine ⟨nofun, ?_⟩
    rintro (⟨hr', -, -⟩ | ⟨hr', -, -⟩ | ⟨hr', -⟩) <;> cases hr.symm.trans hr'
  · rw [h, patternKeys?_eq_none_iff, escapesWhere_object hr]
  · rw [h, keysOf?_eq_none_iff, escapesWhere_name hr, mem_flatMap]
    simp only [escape_mem_gather_iff, From]
  · exact ⟨fun _ => .bound hr hobject hname, fun _ => h⟩

theorem mem_ofFunction? {used : List String} (h : ofFunction? f = some used) :
    k ∈ used ↔ ReadsInSight f k := by
  unfold ReadsInSight
  rcases ofFunction?_cases f with ⟨hr, h'⟩ | ⟨members, type, hr, h'⟩ | ⟨p, type, hr, h'⟩ |
    ⟨q, hr, hobject, hname, h'⟩ <;> rw [h'] at h
  · obtain rfl := Option.some.inj h
    refine ⟨nofun, ?_⟩
    rintro (⟨hr', -, -⟩ | ⟨hr', -, -⟩) <;> cases hr.symm.trans hr'
  · rw [mem_patternKeys? h, readsWhere_object hr]
  · rw [mem_keysOf? h, readsWhere_name hr, mem_flatMap]
    constructor
    · rintro ⟨root, hroot, hk⟩
      obtain ⟨m, hm, hk⟩ := asks_of_mem_gather hk
      exact ⟨m, ⟨root, hroot, hm⟩, hk⟩
    · rintro ⟨m, ⟨root, hroot, hm⟩, hk⟩
      refine ⟨root, hroot, (mem_gather_of_asks hm hk).resolve_right fun he => ?_⟩
      rw [keysOf?_eq_none_iff.mpr (mem_flatMap.mpr ⟨root, hroot, he⟩)] at h
      cases h
  · cases h

theorem mem_usedPart_iff {o : InjectOptions} {c : Survey.Candidate} {d : Component}
    {q : PropInfo} (hq : q ∈ d.props) :
    q ∈ (usedPart o c d).props ↔
      o.includeUnused = true ∨ c.used = none ∨ ∃ used, c.used = some used ∧ q.name ∈ used := by
  unfold usedPart
  cases o.includeUnused <;> cases c.used <;> simp [hq]

/-- The properties that a function is found to use are exactly those that it reads in sight, and
it is found to use any exactly if they escape in sight; it reads and lets escape more only in what
is not searched. So a property is kept exactly if all are, if they escape in sight, or if it is
read in sight. -/
theorem used_props_exact (f : Function) :
    (ofFunction? f = none ↔ EscapesInSight f) ∧
      (∀ used, ofFunction? f = some used → ∀ k, k ∈ used ↔ ReadsInSight f k) ∧
      (∀ k, Reads f k ↔ ReadsInSight f k ∨ ReadsUnseen f k) ∧
      (Escapes f ↔ EscapesInSight f ∨ EscapesUnseen f) ∧
      ∀ (o : InjectOptions) (c : Survey.Candidate) (d : Component), c.used = ofFunction? f →
        ∀ q ∈ d.props, q ∈ (usedPart o c d).props ↔
          o.includeUnused = true ∨ EscapesInSight f ∨ ReadsInSight f q.name := by
  refine ⟨ofFunction?_eq_none_iff, fun used h k => mem_ofFunction? h, fun k => reads_iff,
    escapes_iff, fun o c d hc q hq => ?_⟩
  rw [mem_usedPart_iff hq, hc, ofFunction?_eq_none_iff]
  refine or_congr_right (or_congr_right' fun hescapes => ?_)
  obtain ⟨used, hused⟩ := ne_none_iff_exists'.mp (mt ofFunction?_eq_none_iff.mp hescapes)
  rw [← mem_ofFunction? hused]
  simp [hused]

/-- The function `(props, ref = props.r) => props.a`. -/
def lateReader : Function :=
  .mk [] [] [] [.name "props" none, .assign (.name "ref" none) (.member (.name "props") "r")]
    none true [.expr (.member (.name "props") "a")]

theorem used_props_exact_lateReader :
    ReadsInSight lateReader "a" ∧ ¬ ReadsInSight lateReader "r" ∧ ¬ EscapesInSight lateReader := by
  obtain ⟨hnone, hsome, -⟩ := used_props_exact lateReader
  have hused : ofFunction? lateReader = some ["a"] := rfl
  refine ⟨(hsome _ hused "a").mp (by decide), fun h => ?_, fun h => ?_⟩
  · exact absurd ((hsome _ hused "r").mpr h) (by decide)
  · rw [hused] at hnone
    cases hnone.mpr h

/-- The function `(props) => { const { a = props.b } = props; }`. -/
def innerReader : Function :=
  .mk [] [] [] [.name "props" none] none true
    [.declaration (.vars .const [
      .mk (.object [.shorthand "a" (some (.member (.name "props") "b"))] none)
        (some (.name "props"))])]

/-- A read in the default of a parameter and one in a pattern that takes the properties apart are
not found. -/
theorem reads_in_defaults_unused :
    (ofFunction? lateReader = some ["a"] ∧ Reads lateReader "r") ∧
      ofFunction? innerReader = some ["a"] ∧ Reads innerReader "b" := by
  have hlate : Reads lateReader "r" := by
    refine .asked rfl ⟨_, mem_cons_self, ?_⟩ (.member "r")
    exact .single (.tail _ (.head _))
  have hinner : Reads innerReader "b" := by
    refine .asked rfl ⟨_, mem_cons_self, ?_⟩ (.member "b")
    -- The statement, its declaration, the declarator, its pattern and the member of that.
    exact .head (.head _) (.head (.head _) (.head (.head _) (.head (.head _)
      (.single (.tail _ (.head _))))))
  exact ⟨⟨rfl, hlate⟩, rfl, hinner⟩

end PropContract.Usage
