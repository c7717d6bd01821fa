import PropContract.Proofs.Json.RoundTrip
import PropContract.Proofs.Table
import PropContract.Shape.Json

/-!
Documents that are written and read again. All comes back but two things, number literals and a
default value that is null, unless the text is nested too deep.
-/

namespace PropContract

open List Double Literal Document

mutual

def Shape.literals : Shape → List Literal
  | .literal l => [l]
  | .oneOf ls => ls
  | .arrayOf s => s.literals
  | .object ps => PropInfo.allLiterals ps
  | .union ss => Shape.allLiterals ss
  | .primitive _ | .function | .reference _ | .element _ | .instance _ => []

def Shape.allLiterals : List Shape → List Literal
  | [] => []
  | s :: ss => s.literals ++ Shape.allLiterals ss

def PropInfo.allLiterals : List PropInfo → List Literal
  | [] => []
  | .mk _ _ s default _ _ :: ps => s.literals ++ default.toList ++ PropInfo.allLiterals ps

end

mutual

def Shape.defaults : Shape → List Literal
  | .arrayOf s => s.defaults
  | .object ps => PropInfo.allDefaults ps
  | .union ss => Shape.allDefaults ss
  | .primitive _ | .literal _ | .oneOf _ | .function | .reference _ | .element _ | .instance _ => []

def Shape.allDefaults : List Shape → List Literal
  | [] => []
  | s :: ss => s.defaults ++ Shape.allDefaults ss

def PropInfo.allDefaults : List PropInfo → List Literal
  | [] => []
  | .mk _ _ s default _ _ :: ps => s.defaults ++ default.toList ++ PropInfo.allDefaults ps

end

def Component.literals (c : Component) : List Literal :=
  PropInfo.allLiterals c.props ++ Shape.allLiterals c.definitions.values

def Component.defaults (c : Component) : List Literal :=
  PropInfo.allDefaults c.props ++ Shape.allDefaults c.definitions.values

def Document.literals (d : Document) : List Literal :=
  d.components.flatMap Component.literals

def Document.defaults (d : Document) : List Literal :=
  d.components.flatMap Component.defaults

def FiniteNumbers (ls : List Literal) : Prop :=
  ∀ v, .number v ∈ ls → v.IsFinite

def Survive (ls ds : List Literal) : Prop :=
  (∀ v, .number v ∈ ls → v.reread = .real v) ∧ .null ∉ ds

variable {ls : List Literal} {α : Type} {definitions : Table Shape}

theorem finiteNumbers_append {ls' : List Literal} :
    FiniteNumbers (ls ++ ls') ↔ FiniteNumbers ls ∧ FiniteNumbers ls' := by
  simp only [FiniteNumbers, mem_append]
  exact ⟨fun h => ⟨fun v hv => h v (.inl hv), fun v hv => h v (.inr hv)⟩,
    fun h v hv => hv.elim (h.1 v) (h.2 v)⟩

theorem survive_append {ls' ds ds' : List Literal} :
    Survive (ls ++ ls') (ds ++ ds') ↔ Survive ls ds ∧ Survive ls' ds' := by
  simp only [Survive, mem_append, not_or]
  constructor
  · rintro ⟨hl, hd⟩
    exact ⟨⟨fun v hv => hl v (.inl hv), hd.1⟩, ⟨fun v hv => hl v (.inr hv), hd.2⟩⟩
  · rintro ⟨⟨hl, hd⟩, hl', hd'⟩
    exact ⟨fun v hv => hv.elim (hl v) (hl' v), hd, hd'⟩

theorem survive_nil : Survive [] [] :=
  ⟨fun _ hv => (nomatch hv), not_mem_nil⟩

theorem bind_cons_eq_some_iff {o : Option α} {os : Option (List α)} {x : α} {xs : List α} :
    (o >>= fun y => os >>= fun ys => pure (y :: ys)) = some (x :: xs) ↔
      o = some x ∧ os = some xs := by
  cases o with
  | none => simp
  | some y => cases os <;> simp

theorem mapM_map_eq_some_iff {β : Type} {write : α → β} {read : β → Option α} (xs : List α) :
    (xs.map write).mapM read = some xs ↔ ∀ x ∈ xs, read (write x) = some x := by
  induction xs with
  | nil => simp
  | cons x xs ih =>
    rw [map_cons, mapM_cons, forall_mem_cons, ← ih]
    exact bind_cons_eq_some_iff

theorem rereadItems_map (write : α → Json) (xs : List α) :
    Json.rereadItems (xs.map write) = xs.map fun x => (write x).reread := by
  induction xs with
  | nil => rfl
  | cons x xs ih => simp [Json.rereadItems, ih]

theorem map_eq_some_iff_of_injective {β : Type} {f : α → β} (hf : Function.Injective f)
    {o : Option α} {a : α} : o.map f = some (f a) ↔ o = some a :=
  (Option.map_injective hf).eq_iff (b := some a)

namespace Literal

theorem isStorable_toJson {l : Literal} (hl : FiniteNumbers [l]) : l.toJson.IsStorable := by
  cases l with
  | number v => exact hl v mem_cons_self
  | _ => trivial

theorem survive_number {v : Double} {ds : List Literal} (hds : .null ∉ ds) :
    Survive [.number v] ds ↔ v.reread = .real v := by
  simp [Survive, hds]

theorem ofJson?_reread_iff {l : Literal} (hl : FiniteNumbers [l]) :
    ofJson? l.toJson.reread = some l ↔ Survive [l] [] := by
  cases l with
  | number v =>
    have hv := hl v mem_cons_self
    rw [survive_number not_mem_nil, toJson, Json.reread]
    cases v with
    | infinite negative => exact hv.elim
    | finite negative m e =>
      rcases reread_cases negative m e with ⟨w, hw⟩ | hw
      · simp [hw, ofJson?]
      · simp [hw, ofJson?]
  | _ => simp [toJson, Json.reread, ofJson?, Survive]

theorem optional?_reread_iff {l : Literal} (hl : FiniteNumbers [l]) :
    Json.optional? ofJson? (some l.toJson.reread) = some (some l) ↔ Survive [l] [l] := by
  have hread := ofJson?_reread_iff hl
  cases l with
  | null => simp [toJson, Json.reread, Json.optional?, Survive]
  | number v =>
    have hv := hl v mem_cons_self
    rw [survive_number not_mem_nil] at hread
    rw [survive_number (by simp), ← hread]
    cases v with
    | infinite negative => exact hv.elim
    | finite negative m e =>
      rw [toJson, Json.reread]
      rcases reread_cases negative m e with ⟨w, hw⟩ | hw
      · simp [hw, ofJson?, Json.optional?]
      · simp [hw, ofJson?, Json.optional?]
  | _ => simp [toJson, Json.reread, Json.optional?, ofJson?, Survive]

end Literal

theorem ofJson?_reread_tagged (kind : String) (value : Json) :
    Shape.ofJson? (tagged kind value).reread =
      Shape.ofContent? kind value.reread (fun _ => Shape.ofJson? value.reread)
        (fun _ => Shape.listOfJson? value.reread) (fun _ => PropInfo.listOfJson? value.reread) := by
  simp [tagged, Json.reread, Json.rereadMembers, Shape.ofJson?, Shape.kindIn?, Json.field?,
    Json.asVariant?, Shape.ofMembers?]

theorem Primitive.ofText?_text (p : Primitive) : ofText? p.text = some p := by
  cases p <;> rfl

theorem ElementKind.ofText?_text (k : ElementKind) : ofText? k.text = some k := by
  cases k <;> rfl

section

variable (name : String) (required : Bool) (shape : Json) (default doc typeText : Option Json)

def propMembers : List (String × Json) :=
  [("name", .string name), ("required", .bool required), ("shape", shape)] ++
    Json.optionalMember "defaultValue" default ++ Json.optionalMember "doc" doc ++
    Json.optionalMember "typeText" typeText

theorem ofJson?_propMembers :
    PropInfo.ofJson? (.object (propMembers name required shape default doc typeText)) =
      PropInfo.ofParts? (some (.string name)) (some (.bool required)) (Shape.ofJson? shape) default
        doc typeText := by
  rw [PropInfo.ofJson?]
  cases default <;> cases doc <;> cases typeText <;> rfl

end

theorem reread_propInfo (name : String) (required : Bool) (shape : Shape)
    (default : Option Literal) (doc typeText : Option String) :
    (PropInfo.toJson (.mk name required shape default doc typeText)).reread =
      .object (propMembers name required shape.toJson.reread
        (default.map fun l => l.toJson.reread) (doc.map .string) (typeText.map .string)) := by
  cases default <;> cases doc <;> cases typeText <;> rfl

theorem optional?_string (text : Option String) :
    Json.optional? Json.asString? (text.map .string) = some text := by
  cases text <;> rfl

theorem optional?_default_iff {default : Option Literal} (h : FiniteNumbers default.toList) :
    Json.optional? Literal.ofJson? (default.map fun l => l.toJson.reread) = some default ↔
      Survive default.toList default.toList := by
  cases default with
  | none => simp [Json.optional?, survive_nil]
  | some l => exact optional?_reread_iff h

theorem ofParts?_iff {name : String} {required : Bool} {shape : Shape} {read : Option Shape}
    {default : Option Literal} {doc typeText : Option String}
    (h : FiniteNumbers default.toList) :
    PropInfo.ofParts? (some (.string name)) (some (.bool required)) read
        (default.map fun l => l.toJson.reread) (doc.map .string) (typeText.map .string) =
      some (.mk name required shape default doc typeText) ↔
    read = some shape ∧ Survive default.toList default.toList := by
  rw [← optional?_default_iff h]
  simp only [PropInfo.ofParts?, optional?_string, Json.asString?, Json.asBool?]
  cases read with
  | none => simp
  | some s =>
    cases Json.optional? Literal.ofJson? (default.map fun l => l.toJson.reread) with
    | none => simp
    | some l => simp

theorem ofJson?_literals_iff (hls : FiniteNumbers ls) :
    (Json.rereadItems (ls.map Literal.toJson)).mapM Literal.ofJson? = some ls ↔ Survive ls [] := by
  rw [rereadItems_map, mapM_map_eq_some_iff]
  have hone {l : Literal} (hl : l ∈ ls) : FiniteNumbers [l] :=
    fun v hv => hls v (mem_singleton.mp hv ▸ hl)
  constructor
  · intro h
    refine ⟨fun v hv => ?_, not_mem_nil⟩
    exact ((ofJson?_reread_iff (hone hv)).mp (h _ hv)).1 v mem_cons_self
  · intro h l hl
    refine (ofJson?_reread_iff (hone hl)).mpr ⟨fun v hv => ?_, not_mem_nil⟩
    exact h.1 v (mem_singleton.mp hv ▸ hl)

mutual

theorem Shape.ofJson?_reread_iff : (s : Shape) → FiniteNumbers s.literals →
    (Shape.ofJson? s.toJson.reread = some s ↔ Survive s.literals s.defaults)
  | .primitive _, _ | .reference _, _ | .element _, _ | .instance _, _ => by
    rw [Shape.toJson, ofJson?_reread_tagged]
    simp [Shape.ofContent?, Json.reread, Json.asVariant?, Json.asString?, Primitive.ofText?_text,
      ElementKind.ofText?_text, Shape.literals, Shape.defaults, survive_nil]
  | .literal l, hl => by
    rw [Shape.toJson, ofJson?_reread_tagged]
    exact (map_eq_some_iff_of_injective fun _ _ => Shape.literal.inj).trans
      (ofJson?_reread_iff hl)
  | .oneOf ls, hls => by
    rw [Shape.toJson, ofJson?_reread_tagged]
    exact (map_eq_some_iff_of_injective fun _ _ => Shape.oneOf.inj).trans
      (ofJson?_literals_iff hls)
  | .arrayOf s, hs => by
    rw [Shape.toJson, ofJson?_reread_tagged]
    exact (map_eq_some_iff_of_injective fun _ _ => Shape.arrayOf.inj).trans
      (Shape.ofJson?_reread_iff s hs)
  | .object ps, hps => by
    rw [Shape.toJson, ofJson?_reread_tagged]
    exact (map_eq_some_iff_of_injective fun _ _ => Shape.object.inj).trans
      (PropInfo.allOfJson?_reread_iff ps hps)
  | .union ss, hss => by
    rw [Shape.toJson, ofJson?_reread_tagged]
    exact (map_eq_some_iff_of_injective fun _ _ => Shape.union.inj).trans
      (Shape.allOfJson?_reread_iff ss hss)
  | .function, _ => by
    simp [Shape.toJson, Json.reread, Json.rereadMembers, Shape.ofJson?, Shape.kindIn?, Json.field?,
      Json.asVariant?, Shape.ofMembers?, Shape.literals, Shape.defaults, survive_nil]

theorem Shape.allOfJson?_reread_iff : (ss : List Shape) → FiniteNumbers (Shape.allLiterals ss) →
    (Shape.allOfJson? (Json.rereadItems (Shape.allToJson ss)) = some ss ↔
      Survive (Shape.allLiterals ss) (Shape.allDefaults ss))
  | [], _ => by
    simp [Shape.allToJson, Json.rereadItems, Shape.allOfJson?, Shape.allLiterals,
      Shape.allDefaults, survive_nil]
  | s :: ss, h => by
    obtain ⟨hs, hss⟩ := finiteNumbers_append.mp h
    rw [Shape.allLiterals, Shape.allDefaults, survive_append, ← Shape.ofJson?_reread_iff s hs,
      ← Shape.allOfJson?_reread_iff ss hss, Shape.allToJson, Json.rereadItems, Shape.allOfJson?]
    exact bind_cons_eq_some_iff

theorem PropInfo.allOfJson?_reread_iff : (ps : List PropInfo) →
    FiniteNumbers (PropInfo.allLiterals ps) →
    (PropInfo.allOfJson? (Json.rereadItems (PropInfo.allToJson ps)) = some ps ↔
      Survive (PropInfo.allLiterals ps) (PropInfo.allDefaults ps))
  | [], _ => by
    simp [PropInfo.allToJson, Json.rereadItems, PropInfo.allOfJson?, PropInfo.allLiterals,
      PropInfo.allDefaults, survive_nil]
  | .mk name required s default doc typeText :: ps, h => by
    obtain ⟨hp, hps⟩ := finiteNumbers_append.mp h
    obtain ⟨hs, hdefault⟩ := finiteNumbers_append.mp hp
    rw [PropInfo.allLiterals, PropInfo.allDefaults, survive_append, survive_append,
      ← Shape.ofJson?_reread_iff s hs, ← PropInfo.allOfJson?_reread_iff ps hps,
      PropInfo.allToJson, Json.rereadItems, PropInfo.allOfJson?, reread_propInfo,
      ofJson?_propMembers]
    exact bind_cons_eq_some_iff.trans (and_congr_left' (ofParts?_iff hdefault))

end

theorem survive_all_iff (ss : List Shape) :
    Survive (Shape.allLiterals ss) (Shape.allDefaults ss) ↔
      ∀ s ∈ ss, Survive s.literals s.defaults := by
  induction ss with
  | nil => simp [Shape.allLiterals, Shape.allDefaults, survive_nil]
  | cons s ss ih => rw [Shape.allLiterals, Shape.allDefaults, survive_append, ih,
      forall_mem_cons]

theorem finiteNumbers_of_mem {ss : List Shape} (h : FiniteNumbers (Shape.allLiterals ss))
    {s : Shape} (hs : s ∈ ss) : FiniteNumbers s.literals := by
  induction ss with
  | nil => cases hs
  | cons t ss ih =>
    obtain ⟨ht, hss⟩ := finiteNumbers_append.mp h
    rcases mem_cons.mp hs with rfl | hs
    · exact ht
    · exact ih hss hs

theorem rereadMembers_mapValues (table : Table Json) :
    Json.rereadMembers table = table.mapValues Json.reread := by
  induction table with
  | nil => rfl
  | cons entry table ih =>
    obtain ⟨name, j⟩ := entry
    rw [Json.rereadMembers, ih]
    rfl

def entryOfJson? (entry : String × Json) : Option (String × Shape) :=
  (Shape.ofJson? entry.2).map (Prod.mk entry.1)

theorem definitionsOfJson?_object (members : List (String × Json)) :
    definitionsOfJson? (.object members) = (members.mapM entryOfJson?).map Table.ofEntries := by
  have hread : (fun m : String × Json => do pure (m.1, ← Shape.ofJson? m.2)) = entryOfJson? := by
    funext m
    rw [entryOfJson?]
    cases Shape.ofJson? m.2 <;> rfl
  change ((members.mapM fun m => do pure (m.1, ← Shape.ofJson? m.2)) >>=
    fun entries => pure (Table.ofEntries entries)) = _
  rw [hread]
  cases members.mapM entryOfJson? <;> rfl

theorem keys_of_mapM_entryOfJson? {members : List (String × Json)} {entries : Table Shape}
    (h : members.mapM entryOfJson? = some entries) : entries.keys = Table.keys members := by
  induction members generalizing entries with
  | nil =>
    cases h
    rfl
  | cons m members ih =>
    rw [mapM_cons] at h
    obtain ⟨entry, hentry, h⟩ := Option.bind_eq_some_iff.mp h
    obtain ⟨rest, hrest, hcons⟩ := Option.bind_eq_some_iff.mp h
    obtain ⟨s, -, rfl⟩ := Option.map_eq_some_iff.mp hentry
    cases hcons
    exact congrArg (m.1 :: ·) (ih hrest)

theorem definitionsOfJson?_reread_iff (hkeys : definitions.keys.Nodup)
    (h : FiniteNumbers (Shape.allLiterals definitions.values)) :
    definitionsOfJson? (Json.object (definitions.mapValues Shape.toJson)).reread =
        some definitions ↔
      Survive (Shape.allLiterals definitions.values) (Shape.allDefaults definitions.values) := by
  have hwritten : (definitions.mapValues Shape.toJson).mapValues Json.reread =
      definitions.map fun entry => (entry.1, entry.2.toJson.reread) := by
    simp [Table.mapValues]
  have hentry : ∀ entry ∈ definitions, entryOfJson? (entry.1, entry.2.toJson.reread) = some entry ↔
      Survive entry.2.literals entry.2.defaults := by
    intro entry hmem
    have hs := finiteNumbers_of_mem h (mem_map_of_mem hmem)
    rw [← Shape.ofJson?_reread_iff entry.2 hs]
    exact map_eq_some_iff_of_injective (Prod.mk_right_injective entry.1)
  have hmapM : (definitions.map fun entry => (entry.1, entry.2.toJson.reread)).mapM entryOfJson? =
      some definitions ↔
      Survive (Shape.allLiterals definitions.values) (Shape.allDefaults definitions.values) := by
    rw [mapM_map_eq_some_iff, survive_all_iff, Table.values, forall_mem_map]
    exact forall₂_congr hentry
  rw [Json.reread, rereadMembers_mapValues, hwritten, definitionsOfJson?_object, ← hmapM]
  constructor
  · intro heq
    obtain ⟨entries, hentries, hof⟩ := Option.map_eq_some_iff.mp heq
    have hsame : Table.keys entries = definitions.keys := by
      rw [keys_of_mapM_entryOfJson? hentries]
      simp [Table.keys]
    rw [Table.ofEntries_of_nodup (hsame ▸ hkeys)] at hof
    rw [hentries, hof]
  · intro heq
    rw [heq, Option.map_some, Table.ofEntries_of_nodup hkeys]

def componentMembers (name origin kind : String) (props : List Json) (definitions : Option Json) :
    List (String × Json) :=
  [("name", .string name), ("originFilePath", .string origin), ("kind", .string kind),
    ("props", .array props)] ++ Json.optionalMember "definitions" definitions

def readDefinitions? (definitions : Option Json) : Option (Table Shape) :=
  definitions.elim (some []) definitionsOfJson?

theorem ofJson?_componentMembers (name origin : String) (kind : ComponentKind) (props : List Json)
    (definitions : Option Json) :
    Component.ofJson? (.object (componentMembers name origin kind.text props definitions)) =
      (PropInfo.allOfJson? props).bind fun props =>
        (readDefinitions? definitions).bind fun table =>
          some ⟨name, ⟨origin⟩, kind, props, table⟩ := by
  cases definitions <;> cases kind <;> rfl

def writtenDefinitions (definitions : Table Shape) : Option Json :=
  if definitions.isEmpty then none else some (.object (definitions.mapValues Shape.toJson))

theorem reread_component (c : Component) : c.toJson.reread =
    .object (componentMembers c.name c.origin.text c.kind.text
      (Json.rereadItems (PropInfo.allToJson c.props))
      ((writtenDefinitions c.definitions).map Json.reread)) := by
  unfold Component.toJson writtenDefinitions
  split_ifs with hempty
  · rfl
  · rfl

theorem readDefinitions?_reread_iff (hkeys : definitions.keys.Nodup)
    (h : FiniteNumbers (Shape.allLiterals definitions.values)) :
    readDefinitions? ((writtenDefinitions definitions).map Json.reread) = some definitions ↔
      Survive (Shape.allLiterals definitions.values) (Shape.allDefaults definitions.values) := by
  unfold writtenDefinitions
  split_ifs with hempty
  · rw [List.isEmpty_iff.mp hempty]
    simp [readDefinitions?, Table.values, Shape.allLiterals, Shape.allDefaults, survive_nil]
  · exact definitionsOfJson?_reread_iff hkeys h

theorem Component.ofJson?_reread_iff {c : Component} (hkeys : c.definitions.keys.Nodup)
    (h : FiniteNumbers c.literals) :
    Component.ofJson? c.toJson.reread = some c ↔ Survive c.literals c.defaults := by
  obtain ⟨hprops, hdefinitions⟩ := finiteNumbers_append.mp h
  rw [Component.literals, Component.defaults, survive_append,
    ← PropInfo.allOfJson?_reread_iff c.props hprops,
    ← readDefinitions?_reread_iff hkeys hdefinitions, reread_component, ofJson?_componentMembers]
  cases PropInfo.allOfJson? (Json.rereadItems (PropInfo.allToJson c.props)) with
  | none => simp
  | some props =>
    cases readDefinitions? ((writtenDefinitions c.definitions).map Json.reread) with
    | none => simp
    | some table =>
      obtain ⟨name, origin, kind, props', definitions⟩ := c
      simp

theorem survive_flatMap_iff (components : List Component) :
    Survive (components.flatMap Component.literals) (components.flatMap Component.defaults) ↔
      ∀ c ∈ components, Survive c.literals c.defaults := by
  induction components with
  | nil => simp [survive_nil]
  | cons c components ih =>
    rw [flatMap_cons, flatMap_cons, survive_append, ih, forall_mem_cons]

theorem ofJson?_body (items : List Json) :
    Document.ofJson? (.object [("body", .array items)]) =
      (items.mapM Component.ofJson?).map Document.mk := by
  change (items.mapM Component.ofJson? >>= fun components => pure (Document.mk components)) = _
  cases items.mapM Component.ofJson? <;> rfl

theorem Document.ofJson?_reread_iff {d : Document}
    (hkeys : ∀ c ∈ d.components, c.definitions.keys.Nodup) (h : FiniteNumbers d.literals) :
    Document.ofJson? d.toJson.reread = some d ↔ Survive d.literals d.defaults := by
  obtain ⟨components⟩ := d
  have hcomponent : ∀ c ∈ components, Component.ofJson? c.toJson.reread = some c ↔
      Survive c.literals c.defaults := by
    intro c hc
    exact Component.ofJson?_reread_iff (hkeys c hc) fun v hv =>
      h v (mem_flatMap.mpr ⟨c, hc, hv⟩)
  rw [Document.literals, Document.defaults, survive_flatMap_iff, ← forall₂_congr hcomponent,
    ← mapM_map_eq_some_iff, ← rereadItems_map]
  rw [Document.toJson, Json.reread, Json.rereadMembers, Json.rereadMembers, Json.reread,
    ofJson?_body]
  exact map_eq_some_iff_of_injective fun _ _ => Document.mk.inj

theorem areStorable_map (hls : FiniteNumbers ls) : Json.AreStorable (ls.map Literal.toJson) := by
  induction ls with
  | nil => trivial
  | cons l ls ih =>
    obtain ⟨hl, hrest⟩ := finiteNumbers_append.mp (show FiniteNumbers ([l] ++ ls) from hls)
    exact ⟨isStorable_toJson hl, ih hrest⟩

theorem areMembersStorable_append {members members' : List (String × Json)}
    (h : Json.AreMembersStorable members) (h' : Json.AreMembersStorable members') :
    Json.AreMembersStorable (members ++ members') := by
  induction members with
  | nil => exact h'
  | cons m members ih =>
    obtain ⟨name, value⟩ := m
    exact ⟨h.1, ih h.2⟩

theorem areMembersStorable_optionalMember {name : String} {value : Option Json}
    (h : ∀ j ∈ value, j.IsStorable) :
    Json.AreMembersStorable (Json.optionalMember name value) := by
  cases value with
  | none => trivial
  | some j => exact ⟨h j rfl, trivial⟩

theorem isStorable_map_string (text : Option String) :
    ∀ j ∈ text.map Json.string, j.IsStorable := by
  cases text with
  | none => exact fun j hj => nomatch hj
  | some s =>
    rintro j ⟨⟩
    trivial

mutual

theorem Shape.isStorable_toJson : (s : Shape) → FiniteNumbers s.literals → s.toJson.IsStorable
  | .primitive _, _ | .reference _, _ | .element _, _ | .instance _, _ =>
    ⟨trivial, trivial, trivial⟩
  | .literal _, hl => ⟨trivial, isStorable_toJson hl, trivial⟩
  | .oneOf _, hls => ⟨trivial, areStorable_map hls, trivial⟩
  | .arrayOf s, hs => ⟨trivial, Shape.isStorable_toJson s hs, trivial⟩
  | .object ps, hps => ⟨trivial, PropInfo.areStorable_allToJson ps hps, trivial⟩
  | .union ss, hss => ⟨trivial, Shape.areStorable_allToJson ss hss, trivial⟩
  | .function, _ => ⟨trivial, trivial⟩

theorem Shape.areStorable_allToJson : (ss : List Shape) → FiniteNumbers (Shape.allLiterals ss) →
    Json.AreStorable (Shape.allToJson ss)
  | [], _ => trivial
  | s :: ss, h =>
    have h := finiteNumbers_append.mp h
    ⟨Shape.isStorable_toJson s h.1, Shape.areStorable_allToJson ss h.2⟩

theorem PropInfo.areStorable_allToJson : (ps : List PropInfo) →
    FiniteNumbers (PropInfo.allLiterals ps) → Json.AreStorable (PropInfo.allToJson ps)
  | [], _ => trivial
  | .mk name required s default doc typeText :: ps, h => by
    obtain ⟨hp, hps⟩ := finiteNumbers_append.mp h
    obtain ⟨hs, hdefault⟩ := finiteNumbers_append.mp hp
    refine ⟨?_, PropInfo.areStorable_allToJson ps hps⟩
    have hmembers : Json.AreMembersStorable [("name", .string name), ("required", .bool required),
        ("shape", s.toJson)] := ⟨trivial, trivial, Shape.isStorable_toJson s hs, trivial⟩
    have hvalue : ∀ j ∈ default.map Literal.toJson, j.IsStorable := by
      cases default with
      | none => exact fun j hj => nomatch hj
      | some l =>
        rintro j ⟨⟩
        exact isStorable_toJson hdefault
    exact areMembersStorable_append (areMembersStorable_append (areMembersStorable_append hmembers
      (areMembersStorable_optionalMember hvalue))
      (areMembersStorable_optionalMember (isStorable_map_string doc)))
      (areMembersStorable_optionalMember (isStorable_map_string typeText))

end

theorem areMembersStorable_mapValues (h : FiniteNumbers (Shape.allLiterals definitions.values)) :
    Json.AreMembersStorable (definitions.mapValues Shape.toJson) := by
  induction definitions with
  | nil => trivial
  | cons entry definitions ih =>
    obtain ⟨hs, hrest⟩ := finiteNumbers_append.mp h
    exact ⟨entry.2.isStorable_toJson hs, ih hrest⟩

theorem Component.isStorable_toJson {c : Component} (h : FiniteNumbers c.literals) :
    c.toJson.IsStorable := by
  obtain ⟨hprops, hdefinitions⟩ := finiteNumbers_append.mp h
  refine areMembersStorable_append
    ⟨trivial, trivial, trivial, PropInfo.areStorable_allToJson c.props hprops, trivial⟩ ?_
  split
  · trivial
  · exact ⟨areMembersStorable_mapValues hdefinitions, trivial⟩

theorem Document.isStorable_toJson {d : Document} (h : FiniteNumbers d.literals) :
    d.toJson.IsStorable := by
  obtain ⟨components⟩ := d
  refine ⟨?_, trivial⟩
  induction components with
  | nil => trivial
  | cons c components ih =>
    obtain ⟨hc, hrest⟩ := finiteNumbers_append.mp h
    exact ⟨c.isStorable_toJson hc, ih hrest⟩

theorem Double.read?_realText {v : Double} (hv : v.IsFinite) :
    Json.read? (Json.realText v) = some v.reread := by
  have hrender : Json.render (.real v) = Json.realText v := by
    rw [Json.render, Json.pretty]
  rw [← hrender]
  exact Json.read?_render (j := .real v) hv

theorem Document.read?_render {d : Document} (h : FiniteNumbers d.literals) :
    Document.read? (Json.render d.toJson) =
      if d.toJson.depth ≤ 127 then Document.ofJson? d.toJson.reread else none := by
  rw [Document.read?, Json.read?_render (d.isStorable_toJson h)]
  simp only [Option.bind_eq_bind, Option.bind_some, Json.depth_reread, guard]
  split <;> rfl

/-- The text of a document is read as the document exactly if it is not nested too deep, no default
value in it is null and the text of each of its numbers is read as the number. Numbers of few digits
and a moderate size are such numbers. -/
theorem Document.read?_render_iff (d : Document) (hnumbers : FiniteNumbers d.literals)
    (hkeys : ∀ c ∈ d.components, c.definitions.keys.Nodup) :
    (Document.read? (Json.render d.toJson) = some d ↔
      d.toJson.depth ≤ 127 ∧ .null ∉ d.defaults ∧
        ∀ v, .number v ∈ d.literals → Json.read? (Json.realText v) = some (.real v)) ∧
      ∀ v, .number v ∈ d.literals → v.IsShort →
        Json.read? (Json.realText v) = some (.real v) := by
  have hread {v : Double} (hv : .number v ∈ d.literals) :
      Json.read? (Json.realText v) = some (.real v) ↔ v.reread = .real v := by
    rw [read?_realText (hnumbers v hv), Option.some_inj]
  constructor
  · rw [read?_render hnumbers, Option.ite_none_right_eq_some,
      ofJson?_reread_iff hkeys hnumbers, Survive, and_comm (b := _ ∉ _)]
    exact and_congr_right' (and_congr_right' (forall₂_congr fun v hv => (hread hv).symm))
  · intro v hv hshort
    rw [hread hv]
    have hfinite := hnumbers v hv
    cases v with
    | infinite negative => exact hfinite.elim
    | finite negative m e => exact reread_of_isShort hfinite.1 hfinite.2 hshort

def sliderDocument : Document where
  components := [{
    name := "Slider"
    origin := ⟨"/slider.tsx"⟩
    kind := .wrapped
    props := [
      .mk "step" false (.oneOf [.number (.finite false 7205759403792794 (-56)),
          .number (.finite true 5629499534213120 (-47))])
        (some (.number (.finite false 7205759403792794 (-56)))) (some "The \"step\"\n") none,
      .mk "marks" true (.arrayOf (.union [.literal .null, .reference "Mark"])) none none
        (some "(Mark | null)[]")]
    definitions := [("Mark", .object [.mk "next" false (.reference "Mark") none none none,
      .mk "onPick" true .function none none none])] }]

theorem sliderDocument_numbers :
    ∀ v, .number v ∈ sliderDocument.literals → v.IsFinite ∧ v.IsShort := by
  intro v hv
  have hcases : v = .finite false 7205759403792794 (-56) ∨
      v = .finite true 5629499534213120 (-47) := by
    simpa [sliderDocument, Document.literals, Component.literals, PropInfo.allLiterals,
      Shape.allLiterals, Shape.literals, Table.values, or_comm] using hv
  rcases hcases with rfl | rfl
  · exact ⟨⟨by decide +kernel, by decide⟩, by decide +kernel, by decide +kernel⟩
  · exact ⟨⟨by decide +kernel, by decide⟩, by decide +kernel, by decide +kernel⟩

theorem Document.read?_render_iff_slider :
    Document.read? (Json.render sliderDocument.toJson) = some sliderDocument := by
  have hsurvives := read?_render_iff sliderDocument
    (fun v hv => (sliderDocument_numbers v hv).1) (by simp [sliderDocument, Table.keys])
  refine hsurvives.1.mpr ⟨by decide +kernel, by decide +kernel, fun v hv => ?_⟩
  exact hsurvives.2 v hv (sliderDocument_numbers v hv).2

def limitDocument : Document where
  components := [{
    name := "Limit"
    origin := ⟨"/limit.tsx"⟩
    kind := .function
    props := [.mk "limit" true (.literal (.number (.finite false 9007199254740991 0))) none none
      none] }]

/-- Its text is read as a document with the number before that one. -/
theorem limitDocument_lost :
    ¬ ∀ d : Document, FiniteNumbers d.literals →
      (∀ c ∈ d.components, c.definitions.keys.Nodup) →
      Document.read? (Json.render d.toJson) = some d := by
  intro hall
  have hmem (v : Double) :
      .number v ∈ limitDocument.literals ↔ v = .finite false 9007199254740991 0 := by
    simp [limitDocument, Document.literals, Component.literals, PropInfo.allLiterals,
      Shape.allLiterals, Shape.literals, Table.values]
  have hfinite : FiniteNumbers limitDocument.literals := by
    intro v hv
    rw [(hmem v).mp hv]
    exact ⟨by decide +kernel, by decide⟩
  have hkeys : ∀ c ∈ limitDocument.components, c.definitions.keys.Nodup := by
    simp [limitDocument, Table.keys]
  have hread := hall limitDocument hfinite hkeys
  rw [read?_render hfinite, if_pos (by decide +kernel),
    ofJson?_reread_iff hkeys hfinite] at hread
  have hlost : Literal.ofJson? (Double.finite false 9007199254740991 0).reread =
      some (.number (.finite false 9007199254740990 0)) := by decide +kernel
  rw [hread.1 _ ((hmem _).mpr rfl)] at hlost
  simp [Literal.ofJson?] at hlost

end PropContract
