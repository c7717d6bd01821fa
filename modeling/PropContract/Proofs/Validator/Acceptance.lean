import Mathlib.Logic.Relation
import PropContract.Proofs.Shape.Within
import PropContract.Proofs.Validator.Reading
import PropContract.Proofs.Value
import PropContract.Validator.Block

/-!
What validators accept: every value that has the shape of the property, provided that it is an
object wherever a definition is met again inside itself.
-/

namespace PropContract

open List

def World.checks (W : World) : Table (Value → Bool) :=
  [("string", Primitive.string.holds), ("number", Primitive.number.holds),
    ("bool", Primitive.boolean.holds), ("symbol", Primitive.symbol.holds),
    ("object", Primitive.object.holds), ("array", Primitive.array.holds),
    ("any", Primitive.any.holds), ("func", fun v => v matches .function _),
    ("node", W.renders .node), ("element", W.renders .element),
    ("elementType", W.renders .elementType)]

namespace Validator

mutual

def accepts (W : World) : Validator → Value → Bool
  | plain name, v => (W.checks.get? name).any fun check => check v
  | oneOf values, v => values.any fun l => l.holds v
  | arrayOf e, v =>
    v.items?.any fun items => items.all fun item => item.isNullish || e.accepts W item
  | shape fields, v => v.fields?.any fun given => acceptsFields W fields given
  | oneOfType branches, v => acceptsSome W branches v
  | instanceOf name, v => W.isInstance name v

def acceptsSome (W : World) : List Validator → Value → Bool
  | [], _ => false
  | b :: branches, v => b.accepts W v || acceptsSome W branches v

/-- Of fields with the same name, the last one counts. -/
def acceptsFields (W : World) : List ValidatorField → Table Value → Bool
  | [], _ => true
  | .mk name required v :: rest, given =>
    (rest.any (fun f => f.name == name) ||
      if (Value.fieldOf given name).isNullish then !required
      else v.accepts W (Value.fieldOf given name)) && acceptsFields W rest given

end

def passes (W : World) (v : Validator) (required : Bool) (value : Value) : Bool :=
  if value.isNullish then !required else v.accepts W value

end Validator

/-- A value has a shape. `E` are the definitions inside which the shape stands, and where one of
them is met again the value is one of the values `cut`. -/
inductive Conforms (W : World) (definitions : Table Shape) (cut : Value → Prop) :
    List String → Shape → Value → Prop where
  | primitive : kind.holds v → Conforms W definitions cut E (.primitive kind) v
  | literal : l.holds v → Conforms W definitions cut E (.literal l) v
  | oneOf : l ∈ values → l.holds v → Conforms W definitions cut E (.oneOf values) v
  | arrayOf : (∀ item ∈ items, Conforms W definitions cut E element item) →
      Conforms W definitions cut E (.arrayOf element) (.array items)
  | object : (∀ p ∈ props, (Value.fieldOf given p.name).isNullish → p.required = false) →
      (∀ p ∈ props, (Value.fieldOf given p.name).isNullish = false →
        Conforms W definitions cut E p.shape (Value.fieldOf given p.name)) →
      Conforms W definitions cut E (.object props) (.object identity given)
  | union : s ∈ members → Conforms W definitions cut E s v →
      Conforms W definitions cut E (.union members) v
  | function : Conforms W definitions cut E .function (.function identity)
  | reference : definitions.get? name = some s → (name ∈ E → cut v) →
      Conforms W definitions cut (name :: E) s v → Conforms W definitions cut E (.reference name) v
  | element : W.renders kind v → Conforms W definitions cut E (.element kind) v
  | «instance» : W.isInstance name v → Conforms W definitions cut E (.instance name) v

structure Component.Holds (W : World) (c : Component) (cut : Value → Prop) (p : PropInfo)
    (v : Value) : Prop where
  absent : v.isNullish → p.required = false
  conforms : v.isNullish = false → Conforms W c.definitions cut [] p.shape v

namespace Shape

mutual

/-- A shape that can be checked. There is no check for big integers, and literals, the names of
properties and those of classes have to be what a program can read. -/
def IsCheckable : Shape → Prop
  | .primitive kind => kind ≠ .bigInt
  | .literal l => l.IsWritable
  | .oneOf ls => ∀ l ∈ ls, l.IsWritable
  | .arrayOf e => e.IsCheckable
  | .object props => AreFieldsCheckable props
  | .union members => AreCheckable members
  | .instance name => IsReference name
  | .function | .reference _ | .element _ => True

def AreCheckable : List Shape → Prop
  | [] => True
  | s :: rest => s.IsCheckable ∧ AreCheckable rest

def AreFieldsCheckable : List PropInfo → Prop
  | [] => True
  | .mk name _ s _ _ _ :: rest => (Check.IsKey name ∧ s.IsCheckable) ∧ AreFieldsCheckable rest

end

theorem areCheckable_iff (members : List Shape) :
    AreCheckable members ↔ ∀ s ∈ members, s.IsCheckable := by
  induction members with
  | nil => simp [AreCheckable]
  | cons s rest ih => simp [AreCheckable, ih]

theorem areFieldsCheckable_iff (props : List PropInfo) :
    AreFieldsCheckable props ↔ ∀ p ∈ props, Check.IsKey p.name ∧ p.shape.IsCheckable := by
  induction props with
  | nil => simp [AreFieldsCheckable]
  | cons p rest ih =>
    obtain ⟨name, required, s, _, _, _⟩ := p
    simp [AreFieldsCheckable, PropInfo.name, PropInfo.shape, ih]

end Shape

structure Component.IsCheckable (c : Component) : Prop where
  props : ∀ p ∈ c.props, Check.IsKey p.name ∧ p.shape.IsCheckable
  definitions : ∀ s ∈ c.definitions.values, s.IsCheckable

namespace Validator

variable {W : World} {o : ValidatorOptions}

theorem acceptsSome_iff (branches : List Validator) (v : Value) :
    acceptsSome W branches v ↔ ∃ b ∈ branches, b.accepts W v := by
  induction branches with
  | nil => simp [acceptsSome]
  | cons b branches ih => simp [acceptsSome, ih]

def Branch.check (literals : List Literal) : Branch → Validator
  | .inl _ => oneOf literals
  | .inr v => v

/-- The validators that are kept of some branches: they are the checks of branches, and every
branch is written as one of them. -/
structure Gathered (o : ValidatorOptions) (literals : List Literal) (branches : List Branch)
    (kept : List Validator) : Prop where
  sound : ∀ v ∈ kept, ∃ b ∈ branches, v = b.check literals
  complete : ∀ b ∈ branches, ∃ v ∈ kept, v.text o = (b.check literals).text o

theorem Gathered.add {literals : List Literal} {branches : List Branch}
    {kept : List Validator × Bool} (h : Gathered o literals branches kept.1)
    (hgroup : kept.2 → oneOf literals ∈ kept.1) (b : Branch) :
    Gathered o literals (branches ++ [b]) (addBranch o literals kept b).1 ∧
      ((addBranch o literals kept b).2 → oneOf literals ∈ (addBranch o literals kept b).1) := by
  have hadd (v : Validator) (hv : v = b.check literals) :
      Gathered o literals (branches ++ [b]) (kept.1 ++ [v]) := by
    constructor <;> simp only [forall_mem_append, forall_mem_singleton]
    · refine ⟨fun w hw => ?_, b, by simp, hv⟩
      obtain ⟨c, hc, hw⟩ := h.sound w hw
      exact ⟨c, by simp [hc], hw⟩
    · refine ⟨fun c hc => ?_, v, by simp, by rw [hv]⟩
      obtain ⟨w, hw, htext⟩ := h.complete c hc
      exact ⟨w, by simp [hw], htext⟩
  have hkeep {v : Validator} (hv : v ∈ kept.1) (htext : v.text o = (b.check literals).text o) :
      Gathered o literals (branches ++ [b]) kept.1 := by
    refine ⟨fun w hw => ?_, forall_mem_append.mpr
      ⟨h.complete, forall_mem_singleton.mpr ⟨v, hv, htext⟩⟩⟩
    obtain ⟨c, hc, hw⟩ := h.sound w hw
    exact ⟨c, by simp [hc], hw⟩
  cases b with
  | inl l =>
    by_cases hdone : kept.2
    · rw [addBranch, if_pos hdone]
      exact ⟨hkeep (hgroup hdone) rfl, hgroup⟩
    · rw [addBranch, if_neg hdone]
      exact ⟨hadd _ rfl, fun _ => by simp⟩
  | inr v =>
    by_cases hmem : (kept.1.map (text o)).contains (v.text o)
    · rw [addBranch, if_pos hmem]
      obtain ⟨w, hw, htext⟩ := mem_map.mp (contains_iff_mem.mp hmem)
      exact ⟨hkeep hw htext, hgroup⟩
    · rw [addBranch, if_neg hmem]
      exact ⟨hadd _ rfl, fun hdone => by simp [hgroup hdone]⟩

theorem gathered_foldl {literals : List Literal} (branches : List Branch) {done : List Branch}
    (kept : List Validator × Bool) (h : Gathered o literals done kept.1)
    (hgroup : kept.2 → oneOf literals ∈ kept.1) :
    Gathered o literals (done ++ branches) (branches.foldl (addBranch o literals) kept).1 := by
  induction branches generalizing done kept with
  | nil => simpa using h
  | cons b branches ih =>
    obtain ⟨hadd, hgroup⟩ := h.add hgroup b
    simpa using ih _ hadd hgroup

theorem exists_gathered (o : ValidatorOptions) (branches : List Branch) :
    ∃ kept, Gathered o (literalsOf branches) branches kept ∧
      (union o branches = oneOfType kept ∨ kept = [union o branches]) := by
  have hstart : Gathered o (literalsOf branches) [] [] := ⟨nofun, nofun⟩
  refine ⟨_, gathered_foldl branches ([], false) hstart nofun, ?_⟩
  unfold union
  split
  · rename_i v hv
    exact .inr hv
  · exact .inl rfl

theorem accepts_union (ho : IsReference o.importedName) {branches : List Branch}
    (hbranches : ∀ b ∈ branches, (b.check (literalsOf branches)).IsReadable) {b : Branch}
    (hb : b ∈ branches) {v : Value} (h : (b.check (literalsOf branches)).accepts W v) :
    (union o branches).accepts W v := by
  obtain ⟨kept, hkept, hunion⟩ := exists_gathered o branches
  -- The validator that is written as the branch is the branch.
  have hmem : b.check (literalsOf branches) ∈ kept := by
    obtain ⟨w, hw, htext⟩ := hkept.complete b hb
    obtain ⟨b', hb', rfl⟩ := hkept.sound w hw
    rwa [← text_inj ho (hbranches b' hb') (hbranches b hb) htext]
  rcases hunion with hunion | rfl
  · rw [hunion, accepts, acceptsSome_iff]
    exact ⟨_, hmem, h⟩
  · rwa [← mem_singleton.mp hmem]

section

variable (refer : String → Validator)

def branchOf (o : ValidatorOptions) : Shape → Branch
  | .literal l => .inl l
  | s => .inr (ofShape o refer s)

theorem branchesOf_eq (members : List Shape) :
    branchesOf o refer members = members.map (branchOf refer o) := by
  induction members with
  | nil => rfl
  | cons s members ih => cases s <;> simp [branchesOf, branchOf, ih]

variable {members : List Shape}

theorem mem_literalsOf {l : Literal} :
    l ∈ literalsOf (branchesOf o refer members) ↔ .literal l ∈ members := by
  rw [branchesOf_eq, literalsOf, filterMap_map, mem_filterMap]
  constructor
  · rintro ⟨s, hs, hl⟩
    cases s <;> cases hl
    exact hs
  · intro hl
    exact ⟨_, hl, rfl⟩

theorem forall_check {P : Validator → Prop}
    (hgroup : P (oneOf (literalsOf (branchesOf o refer members))))
    (hmembers : ∀ s ∈ members, P (ofShape o refer s)) :
    ∀ b ∈ branchesOf o refer members, P (b.check (literalsOf (branchesOf o refer members))) := by
  intro b hb
  rw [branchesOf_eq] at hb
  obtain ⟨s, hs, rfl⟩ := mem_map.mp hb
  have hs := hmembers s hs
  cases s with
  | literal l => exact hgroup
  | _ => exact hs

theorem accepts_check_branchOf {s : Shape} (hs : s ∈ members) {v : Value}
    (h : (ofShape o refer s).accepts W v) :
    ((branchOf refer o s).check (literalsOf (branchesOf o refer members))).accepts W v := by
  cases s with
  | literal l =>
    -- The literal stands in the group of all literals.
    rw [ofShape, accepts, any_cons, any_nil, Bool.or_false] at h
    rw [branchOf, Branch.check, accepts, any_eq_true]
    exact ⟨l, (mem_literalsOf refer).mpr hs, h⟩
  | _ => exact h

end

theorem primitiveName_mem (kind : Primitive) : primitiveName kind ∈ Check.plainNames := by
  cases kind <;> decide

theorem elementName_mem (kind : ElementKind) : elementName kind ∈ Check.plainNames := by
  cases kind <;> decide

/-- How the validators of shapes that fit come to have a property. -/
structure Rule (named : String → Prop) (fits : Shape → Prop) (P : Validator → Prop) : Prop where
  plain {name : String} : name ∈ Check.plainNames → P (plain name)
  literals {ls : List Literal} : (∀ l ∈ ls, fits (.literal l)) → P (oneOf ls)
  oneOf {ls : List Literal} : fits (.oneOf ls) → P (oneOf ls)
  element {e : Shape} : fits (.arrayOf e) → fits e
  arrayOf {v : Validator} : P v → P (arrayOf v)
  props {ps : List PropInfo} : fits (.object ps) → ∀ p ∈ ps, named p.name ∧ fits p.shape
  shape {fields : List ValidatorField} :
    (∀ f ∈ fields, named f.name ∧ P f.validator) → P (shape fields)
  members {ms : List Shape} : fits (.union ms) → ∀ s ∈ ms, fits s
  oneOfType {vs : List Validator} : (∀ v ∈ vs, P v) → P (oneOfType vs)
  instanceOf {name : String} : fits (.instance name) → P (instanceOf name)

section

variable {named : String → Prop} {fits : Shape → Prop} {P : Validator → Prop}

theorem Rule.union (h : Rule named fits P) {refer : String → Validator} {members : List Shape}
    (hfits : ∀ s ∈ members, fits s) (hmembers : ∀ s ∈ members, P (ofShape o refer s)) :
    P (union o (branchesOf o refer members)) := by
  have hchecks := forall_check refer
    (h.literals fun l hl => hfits _ ((mem_literalsOf refer).mp hl)) hmembers
  obtain ⟨kept, hkept, hunion⟩ := exists_gathered o (branchesOf o refer members)
  have hall : ∀ v ∈ kept, P v := by
    intro v hv
    obtain ⟨b, hb, rfl⟩ := hkept.sound v hv
    exact hchecks b hb
  rcases hunion with hunion | rfl
  · rw [hunion]
    exact h.oneOfType hall
  · exact hall _ mem_cons_self

mutual

theorem Rule.ofShape (h : Rule named fits P) {refer : String → Validator}
    (hrefer : ∀ name, P (refer name)) : (s : Shape) → fits s → P (ofShape o refer s)
  | .primitive kind, _ => h.plain (primitiveName_mem kind)
  | .literal _, hl => h.literals (forall_mem_singleton.mpr hl)
  | .oneOf _, hls => h.oneOf hls
  | .arrayOf e, he => by
    rw [Validator.ofShape]
    split
    · exact h.plain (primitiveName_mem .array)
    · exact h.arrayOf (h.ofShape hrefer e (h.element he))
  | .object [], _ => h.plain (primitiveName_mem .object)
  | .object (p :: ps), hps => h.shape (h.ofProps hrefer (p :: ps) (h.props hps))
  | .union members, hms => h.union (h.members hms) (h.ofMembers hrefer members (h.members hms))
  | .function, _ => h.plain (by decide)
  | .reference name, _ => hrefer name
  | .element kind, _ => h.plain (elementName_mem kind)
  | .instance _, hname => h.instanceOf hname

theorem Rule.ofMembers (h : Rule named fits P) {refer : String → Validator}
    (hrefer : ∀ name, P (refer name)) :
    (ms : List Shape) → (∀ s ∈ ms, fits s) → ∀ s ∈ ms, P (Validator.ofShape o refer s)
  | [], _ => forall_mem_nil _
  | s :: ms, hms => forall_mem_cons.mpr
    ⟨h.ofShape hrefer s (forall_mem_cons.mp hms).1,
      h.ofMembers hrefer ms (forall_mem_cons.mp hms).2⟩

theorem Rule.ofProps (h : Rule named fits P) {refer : String → Validator}
    (hrefer : ∀ name, P (refer name)) :
    (ps : List PropInfo) → (∀ p ∈ ps, named p.name ∧ fits p.shape) →
      ∀ f ∈ Validator.ofProps o refer ps, named f.name ∧ P f.validator
  | [], _ => forall_mem_nil _
  | .mk _ _ s _ _ _ :: ps, hps => forall_mem_cons.mpr
    ⟨⟨(forall_mem_cons.mp hps).1.1, h.ofShape hrefer s (forall_mem_cons.mp hps).1.2⟩,
      h.ofProps hrefer ps (forall_mem_cons.mp hps).2⟩

end

theorem Rule.ofReference (h : Rule named fits P) {definitions : Table Shape}
    (hdefinitions : ∀ s ∈ definitions.values, fits s) (n : Nat) (E : List String) (name : String) :
    P (ofReference o definitions n E name) := by
  have hobject := h.plain (primitiveName_mem .object)
  induction n generalizing E name with
  | zero => exact hobject
  | succ n ih =>
    rw [Validator.ofReference]
    split
    · exact hobject
    · split
      · rename_i s hs
        exact h.ofShape (ih (name :: E)) s
          (hdefinitions s (mem_map_of_mem (Table.mem_of_get? hs)))
      · exact hobject

end

theorem readableRule : Rule Check.IsKey Shape.IsCheckable IsReadable where
  plain := id
  literals := id
  oneOf := id
  element := id
  arrayOf := id
  props := (Shape.areFieldsCheckable_iff _).mp
  shape := (areFieldsReadable_iff _).mpr
  members := (Shape.areCheckable_iff _).mp
  oneOfType := (areReadable_iff _).mpr
  instanceOf := id

theorem accepts_plain_primitive {kind : Primitive} (hkind : kind ≠ .bigInt) (v : Value) :
    (plain (primitiveName kind)).accepts W v = kind.holds v := by
  cases kind with
  | bigInt => exact absurd rfl hkind
  | _ => simp [accepts, primitiveName, World.checks, Table.get?]

theorem accepts_plain_element (kind : ElementKind) (v : Value) :
    (plain (elementName kind)).accepts W v = W.renders kind v := by
  cases kind <;> simp [accepts, elementName, World.checks, Table.get?]

theorem accepts_plain_object (v : Value) : (plain "object").accepts W v = v.isObject := by
  rw [show "object" = primitiveName .object from rfl, accepts_plain_primitive (by decide)]
  cases v <;> rfl

theorem acceptsFields_of_forall {refer : String → Validator} {props : List PropInfo}
    {given : Table Value}
    (h : ∀ p ∈ props, passes W (ofShape o refer p.shape) p.required (Value.fieldOf given p.name)) :
    acceptsFields W (ofProps o refer props) given := by
  induction props with
  | nil => rfl
  | cons p props ih =>
    obtain ⟨hp, hprops⟩ := forall_mem_cons.mp h
    obtain ⟨name, required, s, _, _, _⟩ := p
    rw [ofProps, acceptsFields, Bool.and_eq_true, Bool.or_eq_true]
    exact ⟨.inr hp, ih hprops⟩

def Enough (definitions : Table Shape) (n : Nat) (E : List String) : Prop :=
  (definitions.keys.filter fun name => decide (name ∉ E)).length < n

theorem enough_of_length_lt {definitions : Table Shape} {n : Nat} (h : definitions.length < n)
    (E : List String) : Enough definitions n E := by
  have hlength := length_filter_le (fun name => decide (name ∉ E)) definitions.keys
  rw [Table.keys, length_map] at hlength
  exact Nat.lt_of_le_of_lt hlength h

theorem enough_start (definitions : Table Shape) :
    Enough definitions (definitions.length + 1) [] :=
  enough_of_length_lt (Nat.lt_succ_self _) []

theorem Enough.expand {definitions : Table Shape} {n : Nat} {E : List String}
    (h : Enough definitions (n + 1) E) {name : String} {s : Shape}
    (hs : definitions.get? name = some s) (hname : name ∉ E) :
    Enough definitions n (name :: E) := by
  have hmem : name ∈ definitions.keys.filter fun name => decide (name ∉ E) :=
    mem_filter.mpr ⟨mem_map_of_mem (Table.mem_of_get? hs), decide_eq_true hname⟩
  have hfilter : definitions.keys.filter (fun other => decide (other ∉ name :: E)) =
      (definitions.keys.filter fun other => decide (other ∉ E)).filter fun other =>
        decide (other ≠ name) := by
    rw [filter_filter]
    refine filter_congr fun other _ => ?_
    simp [not_or]
  have hless : ((definitions.keys.filter fun other => decide (other ∉ E)).filter fun other =>
      decide (other ≠ name)).length < (definitions.keys.filter fun other =>
        decide (other ∉ E)).length :=
    length_filter_lt_length_iff_exists.mpr ⟨name, hmem, by simp⟩
  unfold Enough at h ⊢
  rw [hfilter]
  omega

section

variable (ho : IsReference o.importedName) {definitions : Table Shape}
  (hdefinitions : ∀ s ∈ definitions.values, s.IsCheckable)

include ho hdefinitions

theorem accepts_of_conforms {E : List String} {s : Shape} {v : Value}
    (h : Conforms W definitions (fun v => v.isObject) E s v) (hs : s.IsCheckable) {n : Nat}
    (hn : Enough definitions n E) (hv : v.isNullish = false) :
    (ofShape o (ofReference o definitions n E) s).accepts W v := by
  induction h generalizing n with
  | primitive hkind => rwa [ofShape, accepts_plain_primitive hs]
  | literal hl =>
    rw [ofShape, accepts, any_eq_true]
    exact ⟨_, mem_cons_self, hl⟩
  | oneOf hmem hl =>
    rw [ofShape, accepts, any_eq_true]
    exact ⟨_, hmem, hl⟩
  | @arrayOf items E element hitems ih =>
    rw [ofShape]
    split
    · rw [show "array" = primitiveName .array from rfl, accepts_plain_primitive (by decide)]
      rfl
    · rw [accepts, Value.items?, Option.any_some, all_eq_true]
      intro item hitem
      cases hnull : item.isNullish with
      | true => rfl
      | false => exact ih item hitem hs hn hnull
  | @object props given E identity habsent hpresent ih =>
    cases props with
    | nil =>
      rw [ofShape, accepts_plain_object]
      rfl
    | cons p ps =>
      rw [ofShape, accepts, Value.fields?, Option.any_some]
      refine acceptsFields_of_forall fun q hq => ?_
      rw [passes]
      split
      · rename_i hnull
        rw [habsent q hq hnull]
        rfl
      · rename_i hnull
        have hnull := Bool.not_eq_true _ ▸ hnull
        exact ih q hq hnull ((Shape.areFieldsCheckable_iff _).mp hs q hq).2 hn hnull
  | @union members s E v hmem _ ih =>
    have hmembers := (Shape.areCheckable_iff _).mp hs
    have hrefer := readableRule.ofReference (o := o) hdefinitions n E
    have hbranches := forall_check (o := o) _
      (readableRule.literals fun l hl => hmembers _ ((mem_literalsOf _).mp hl))
      (readableRule.ofMembers hrefer members hmembers)
    have haccepts := ih (hmembers s hmem) hn hv
    have hbranch : branchOf (ofReference o definitions n E) o s ∈
        branchesOf o (ofReference o definitions n E) members := by
      rw [branchesOf_eq]
      exact mem_map_of_mem hmem
    exact accepts_union ho hbranches hbranch (accepts_check_branchOf _ hmem haccepts)
  | function =>
    simp [ofShape, accepts, World.checks, Table.get?]
  | @reference name s E v hname hcut _ ih =>
    rw [ofShape]
    obtain _ | n := n
    · exact absurd hn (Nat.not_lt_zero _)
    · rw [ofReference]
      split
      · rename_i hmem
        rw [accepts_plain_object]
        exact hcut (contains_iff_mem.mp hmem)
      · rename_i hmem
        rw [hname]
        exact ih (hdefinitions s (mem_map_of_mem (Table.mem_of_get? hname)))
          (hn.expand hname fun h => hmem (contains_iff_mem.mpr h)) hv
  | element hkind => rwa [ofShape, accepts_plain_element]
  | «instance» hname => rwa [ofShape, accepts]

end

end Validator

def Table.Refers (definitions : Table Shape) (a b : String) : Prop :=
  ∃ s, definitions.get? a = some s ∧ s.Mentions b

inductive Shape.OnlyObjects : Shape → Prop where
  | object (props : List PropInfo) : OnlyObjects (.object props)
  | union : (∀ s ∈ members, OnlyObjects s) → OnlyObjects (.union members)

def Component.ObjectsRecur (c : Component) : Prop :=
  ∀ name s, c.definitions.get? name = some s → Relation.TransGen c.definitions.Refers name name →
    s.OnlyObjects

variable {W : World} {definitions : Table Shape}

theorem Conforms.isObject {cut : Value → Prop} {E : List String} {s : Shape} {v : Value}
    (h : Conforms W definitions cut E s v) (hs : s.OnlyObjects) : v.isObject := by
  induction hs with
  | object props =>
    cases h
    rfl
  | union _ ih =>
    cases h with
    | union hmem h => exact ih _ hmem h

theorem Conforms.of_objectsRecur {E : List String} {s : Shape} {v : Value}
    (hrecur : ∀ name s, definitions.get? name = some s →
      Relation.TransGen definitions.Refers name name → s.OnlyObjects)
    (h : Conforms W definitions (fun _ => True) E s v)
    (hE : ∀ a ∈ E, ∀ b, s.Mentions b → Relation.TransGen definitions.Refers a b) :
    Conforms W definitions (fun v => v.isObject) E s v := by
  induction h with
  | primitive hkind => exact .primitive hkind
  | literal hl => exact .literal hl
  | oneOf hmem hl => exact .oneOf hmem hl
  | arrayOf _ ih =>
    exact .arrayOf fun item hitem => ih item hitem fun a ha b hb => hE a ha b (.arrayOf hb)
  | object habsent _ ih =>
    refine .object habsent fun p hp hnull => ?_
    exact ih p hp hnull fun a ha b hb => hE a ha b (.object hp hb)
  | union hmem _ ih => exact .union hmem (ih fun a ha b hb => hE a ha b (.union hmem hb))
  | function => exact .function
  | @reference name s E v hname _ h ih =>
    refine .reference hname (fun hmem => ?_) (ih fun a ha b hb => ?_)
    · exact h.isObject (hrecur name s hname (hE name hmem name (.refl _)))
    · have hstep : definitions.Refers name b := ⟨s, hname, hb⟩
      rcases mem_cons.mp ha with rfl | ha
      · exact .single hstep
      · exact (hE a ha name (.refl _)).tail hstep
  | element hkind => exact .element hkind
  | «instance» hname => exact .instance hname

namespace Block

variable {o : ValidatorOptions} {c : Component} {p : PropInfo}

theorem passes_of_holds (ho : IsReference o.importedName) (hc : c.IsCheckable)
    (hp : p ∈ c.props) {v : Value} (h : c.Holds W (fun v => v.isObject) p v) :
    (Validator.ofComponent o c p.shape).passes W p.required v := by
  rw [Validator.passes]
  split
  · rename_i hnull
    rw [h.absent hnull]
    rfl
  · rename_i hnull
    have hnull := Bool.not_eq_true _ ▸ hnull
    exact Validator.accepts_of_conforms ho hc.definitions (h.conforms hnull) (hc.props p hp).2
      (Validator.enough_start _) hnull

theorem entryField?_entry (ho : IsReference o.importedName) (hc : c.IsCheckable) (hp : p ∈ c.props) :
    ∃ text, entry o c p = docText o p ++ typeComment o p ++ text ∧
      Check.entryField? o.importedName text.toList =
        some (.mk p.name p.required (Validator.ofComponent o c p.shape)) := by
  have hreadable : (Validator.ofComponent o c p.shape).IsReadable :=
    Validator.readableRule.ofShape (Validator.readableRule.ofReference hc.definitions _ _) _
      (hc.props p hp).2
  have hread := Check.entryField?_fieldChars (hc.props p hp).1 p.required
    (Check.reads_of_isReadable ho _ hreadable)
  refine ⟨String.ofList (' ' :: ' ' :: (Validator.fieldChars o
    (.mk p.name p.required (Validator.ofComponent o c p.shape)) ++ [',', '\n'])), ?_, ?_⟩
  · apply String.toList_inj.mp
    simp [entry, Validator.fieldChars, Validator.chars]
  · rw [String.toList_ofList]
    exact hread

/-- What follows the comments of an entry is read as a check of the property, and the check lets
every value pass that the property holds, if the value is an object wherever a definition is met
again inside itself. That is so of every value the property holds if only definitions of objects
lead back to themselves. -/
theorem entry_accepts (ho : IsReference o.importedName) (hc : c.IsCheckable) (hp : p ∈ c.props) :
    ∃ text v required, entry o c p = docText o p ++ typeComment o p ++ text ∧
      Check.entryField? o.importedName text.toList = some (.mk p.name required v) ∧
      ∀ (W : World) (value : Value),
        (c.Holds W (fun value => value.isObject) p value → v.passes W required value) ∧
        (c.ObjectsRecur → c.Holds W (fun _ => True) p value → v.passes W required value) := by
  obtain ⟨text, hentry, hread⟩ := entryField?_entry ho hc hp
  refine ⟨text, _, _, hentry, hread, fun W value => ⟨passes_of_holds ho hc hp, ?_⟩⟩
  refine fun hrecur hvalue => passes_of_holds ho hc hp ⟨hvalue.absent, fun hnull => ?_⟩
  exact (hvalue.conforms hnull).of_objectsRecur hrecur (forall_mem_nil _)

def bareWorld : World :=
  ⟨fun _ _ => false, fun _ _ => false⟩

def treeProp : PropInfo :=
  .mk "tree" true (.reference "Node") none none none

def treeView : Component where
  name := "TreeView"
  origin := ⟨"/tree.tsx"⟩
  kind := .function
  props := [treeProp]
  definitions := [("Node", .object [
    .mk "label" true (.union [.literal (.string "root"), .primitive .number, .literal .null,
      .primitive .number]) none none none,
    .mk "nodes" false (.arrayOf (.reference "Node")) none none none])]

def treeValue : Value :=
  .object 0 [("label", .string "root"), ("nodes", .array [.object 1 [("label", .notANumber)]])]

theorem treeView_isCheckable : treeView.IsCheckable := by
  have hkeys : Check.IsKey "tree" ∧ Check.IsKey "label" ∧ Check.IsKey "nodes" := by decide +kernel
  constructor <;>
    simp [treeView, treeProp, Table.values, PropInfo.name, PropInfo.shape, Shape.IsCheckable,
      Shape.AreCheckable, Shape.AreFieldsCheckable, Literal.IsWritable, hkeys]

theorem treeView_objectsRecur : treeView.ObjectsRecur := by
  intro name s hs _
  have hmem := Table.mem_of_get? hs
  rw [treeView, mem_singleton] at hmem
  cases hmem
  exact .object _

theorem treeView_holds : treeView.Holds bareWorld (fun _ => True) treeProp treeValue := by
  refine ⟨fun h => (nomatch h), fun _ => .reference rfl (fun _ => trivial) ?_⟩
  refine .object (by decide) (forall_mem_cons.mpr
    ⟨fun _ => ?_, forall_mem_singleton.mpr fun _ => ?_⟩)
  · exact .union mem_cons_self (.literal (by decide))
  · refine .arrayOf (forall_mem_singleton.mpr (.reference rfl (fun _ => trivial) ?_))
    refine .object (by decide) (forall_mem_cons.mpr
      ⟨fun _ => ?_, forall_mem_singleton.mpr fun h => (nomatch h)⟩)
    exact .union (mem_cons_of_mem _ mem_cons_self) (.primitive rfl)

theorem entry_accepts_tree :
    ∃ text v required,
      entry {} treeView treeProp = docText {} treeProp ++ typeComment {} treeProp ++ text ∧
      Check.entryField? "PropTypes" text.toList = some (.mk "tree" required v) ∧
      v.passes bareWorld required treeValue :=
  have ⟨text, v, required, hentry, hread, hpasses⟩ := entry_accepts (o := {}) (by decide +kernel)
    treeView_isCheckable (p := treeProp) mem_cons_self
  ⟨text, v, required, hentry, hread,
    (hpasses bareWorld treeValue).2 treeView_objectsRecur treeView_holds⟩

def textsProp : PropInfo :=
  .mk "texts" true (.reference "Texts") none none none

def textsView : Component where
  name := "TextsView"
  origin := ⟨"/texts.tsx"⟩
  kind := .function
  props := [textsProp]
  definitions := [("Texts", .union [.primitive .string, .arrayOf (.reference "Texts")])]

/-- A list in a list is not let pass: inside the definition of `Texts` its name stands for
objects. -/
theorem entry_rejects_nested_list :
    ¬ ∀ (W : World) (o : ValidatorOptions) (c : Component) (p : PropInfo),
      IsReference o.importedName → c.IsCheckable → p ∈ c.props →
      ∃ text v required, entry o c p = docText o p ++ typeComment o p ++ text ∧
        Check.entryField? o.importedName text.toList = some (.mk p.name required v) ∧
        ∀ value, c.Holds W (fun _ => True) p value → v.passes W required value := by
  intro h
  have ho : IsReference ({} : ValidatorOptions).importedName := by decide +kernel
  have hkey : Check.IsKey "texts" := by decide +kernel
  have hc : textsView.IsCheckable := by
    constructor <;>
      simp [textsView, textsProp, Table.values, PropInfo.name, PropInfo.shape, Shape.IsCheckable,
        Shape.AreCheckable, hkey]
  have hlist {E : List String} {items : List Value}
      (hitems : ∀ item ∈ items, Conforms bareWorld textsView.definitions (fun _ => True)
        ("Texts" :: E) (.reference "Texts") item) :
      Conforms bareWorld textsView.definitions (fun _ => True) E (.reference "Texts")
        (.array items) :=
    .reference rfl (fun _ => trivial)
      (.union (mem_cons_of_mem _ mem_cons_self) (.arrayOf hitems))
  have hvalue : textsView.Holds bareWorld (fun _ => True) textsProp (.array [.array []]) :=
    ⟨fun h => (nomatch h), fun _ => hlist (forall_mem_singleton.mpr
      (hlist (forall_mem_nil _)))⟩
  obtain ⟨text, v, required, htext, hread, hpasses⟩ :=
    h bareWorld {} textsView textsProp ho hc mem_cons_self
  obtain ⟨text', htext', hread'⟩ := entryField?_entry ho hc (p := textsProp) mem_cons_self
  -- The entry says one check only, which is the one that was written.
  obtain rfl : text = text' := (String.append_right_inj _).mp (htext.symm.trans htext')
  cases hread.symm.trans hread'
  have hpassed := hpasses _ hvalue
  revert hpassed
  decide +kernel

end Block

end PropContract
