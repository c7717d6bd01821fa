import Mathlib.Data.List.DropRight
import PropContract.Proofs.Json.Number

/-!
Reading JSON text that was written. Everything but the real numbers comes back as it was.
-/

namespace PropContract.Json

open List Double

theorem hexDigit?_hexChar : ∀ n < 16, hexDigit? (hexChar n) = some n := by
  decide

theorem unicodeEscape?_control {c : Char} (hc : c.toNat < 0x20) (cs : List Char) :
    unicodeEscape? ('0' :: '0' :: hexChar (c.toNat / 16) :: hexChar (c.toNat % 16) :: cs) =
      some (some c, cs) := by
  have hzero : hexDigit? '0' = some 0 := rfl
  have hnat : (0 * 16 + 0) * 16 + c.toNat / 16 = c.toNat / 16 := by omega
  have hchar : c.toNat / 16 * 16 + c.toNat % 16 = c.toNat := Nat.div_add_mod' ..
  have hhigh : isHighSurrogate c.toNat = false := by
    rw [isHighSurrogate, decide_eq_false (by omega), Bool.false_and]
  have hlow : isLowSurrogate c.toNat = false := by
    rw [isLowSurrogate, decide_eq_false (by omega), Bool.false_and]
  simp only [unicodeEscape?, hex4?, hzero, hexDigit?_hexChar _ (show c.toNat / 16 < 16 by omega),
    hexDigit?_hexChar _ (Nat.mod_lt c.toNat (by decide)), Option.bind_eq_bind, Option.bind_some,
    Option.pure_def, hnat, hchar, hhigh, hlow, Bool.false_eq_true, if_false, Char.ofNat_toNat]

theorem stringBody?_escapeChar (fuel : Nat) (done : List Char) (c : Char) (cs : List Char) :
    stringBody? (fuel + 1) (some done) (escapeChar c ++ cs) =
      stringBody? fuel (some (c :: done)) cs := by
  unfold escapeChar
  split_ifs with hquote hslash hn hr ht hb hf hcontrol
  · subst hquote
    rfl
  · subst hslash
    rfl
  · subst hn
    rfl
  · subst hr
    rfl
  · subst ht
    rfl
  · obtain rfl : c = Char.ofNat 8 := by rw [← hb, Char.ofNat_toNat]
    rfl
  · obtain rfl : c = Char.ofNat 12 := by rw [← hf, Char.ofNat_toNat]
    rfl
  · simp only [cons_append, nil_append, stringBody?, unicodeEscape?_control hcontrol]
    rfl
  · simp only [cons_append, nil_append, stringBody?, hquote, hslash, hcontrol, if_false,
      Option.map_some]

theorem stringBody?_flatMap {s : List Char} {fuel : Nat} (hfuel : s.length < fuel)
    (done r : List Char) :
    stringBody? fuel (some done) (s.flatMap escapeChar ++ '"' :: r) =
      some (some (String.ofList (done.reverse ++ s)), r) := by
  obtain ⟨fuel, rfl⟩ := Nat.exists_eq_succ_of_ne_zero (Nat.ne_zero_of_lt hfuel)
  induction s generalizing fuel done with
  | nil => simp [stringBody?]
  | cons c s ih =>
    rw [List.length_cons] at hfuel
    obtain ⟨fuel, rfl⟩ := Nat.exists_eq_succ_of_ne_zero (by omega : fuel ≠ 0)
    rw [List.flatMap_cons, List.append_assoc, stringBody?_escapeChar, ih _ _ (by omega)]
    simp

theorem length_le_flatMap_escapeChar (s : List Char) :
    s.length ≤ (s.flatMap escapeChar).length := by
  induction s with
  | nil => exact le_refl 0
  | cons c s ih =>
    have hpos : 0 < (escapeChar c).length := by
      unfold escapeChar
      split_ifs <;> exact Nat.succ_pos _
    rw [List.flatMap_cons, List.length_append, List.length_cons]
    omega

theorem toList_quoted (s : String) (r : List Char) :
    (quoted s).toList ++ r = '"' :: (s.toList.flatMap escapeChar ++ '"' :: r) := by
  simp [quoted]

theorem stringBody?_quoted (s : String) (r : List Char) :
    let rest := s.toList.flatMap escapeChar ++ '"' :: r
    stringBody? (rest.length + 1) (some []) rest = some (some s, r) := by
  have hlength := length_le_flatMap_escapeChar s.toList
  intro rest
  have hfuel : s.toList.length < rest.length + 1 := by
    simp only [rest, length_append]
    omega
  rw [stringBody?_flatMap hfuel]
  simp

theorem skipSpace_append {u : List Char} (hu : ∀ c ∈ u, isSpace c) (r : List Char) :
    skipSpace (u ++ r) = skipSpace r := by
  rw [skipSpace, dropWhile_append_of_pos hu]
  rfl

theorem skipSpace_of_head {r : List Char} (hr : ∀ c ∈ r.head?, isSpace c = false) :
    skipSpace r = r := by
  cases r with
  | nil => rfl
  | cons c r => rw [skipSpace, dropWhile_cons, if_neg (by simp [hr c rfl])]

theorem skipSpace_skipSpace (cs : List Char) : skipSpace (skipSpace cs) = skipSpace cs :=
  dropWhile_idempotent ..

theorem isSpace_indentation (level : Nat) : ∀ c ∈ (indentation level).toList, isSpace c := by
  intro c hc
  rw [indentation, String.toList_ofList] at hc
  rw [eq_of_mem_replicate hc]
  rfl

theorem value?_skipSpace (fuel : Nat) (cs : List Char) :
    value? fuel (skipSpace cs) = value? fuel cs := by
  cases fuel with
  | zero => rfl
  | succ fuel => rw [value?, value?, skipSpace_skipSpace]

theorem value?_append {u : List Char} (hu : ∀ c ∈ u, isSpace c) (fuel : Nat) (cs : List Char) :
    value? fuel (u ++ cs) = value? fuel cs := by
  rw [← value?_skipSpace, skipSpace_append hu, value?_skipSpace]

theorem items?_skipSpace (fuel : Nat) (cs : List Char) :
    items? fuel (skipSpace cs) = items? fuel cs := by
  cases fuel with
  | zero => rfl
  | succ fuel => rw [items?, items?, value?_skipSpace]

theorem members?_skipSpace (fuel : Nat) (cs : List Char) :
    members? fuel (skipSpace cs) = members? fuel cs := by
  cases fuel with
  | zero => rfl
  | succ fuel => rw [members?, members?, skipSpace_skipSpace]

mutual

def reread : Json → Json
  | null => null
  | bool b => bool b
  | integer i => integer i
  | real v => v.reread
  | string s => string s
  | array items => array (rereadItems items)
  | object members => object (rereadMembers members)
  | unreadable => null

def rereadItems : List Json → List Json
  | [] => []
  | item :: items => item.reread :: rereadItems items

def rereadMembers : List (String × Json) → List (String × Json)
  | [] => []
  | (name, value) :: members => (name, value.reread) :: rereadMembers members

end

mutual

theorem depth_reread : (j : Json) → j.reread.depth = j.depth
  | null | bool _ | integer _ | string _ | unreadable | real (.infinite _) => rfl
  | real (.finite negative m e) => by
    rw [reread]
    rcases reread_cases negative m e with ⟨w, hw⟩ | hw <;> rw [hw] <;> rfl
  | array items => congrArg (· + 1) (itemsDepth_reread items)
  | object members => congrArg (· + 1) (membersDepth_reread members)

theorem itemsDepth_reread : (items : List Json) → itemsDepth (rereadItems items) = itemsDepth items
  | [] => rfl
  | item :: items => congrArg₂ max (depth_reread item) (itemsDepth_reread items)

theorem membersDepth_reread : (members : List (String × Json)) →
    membersDepth (rereadMembers members) = membersDepth members
  | [] => rfl
  | (_, value) :: members => congrArg₂ max (depth_reread value) (membersDepth_reread members)

end

mutual

def IsStorable : Json → Prop
  | null | bool _ | string _ => True
  | integer _ | unreadable => False
  | real v => v.IsFinite
  | array items => AreStorable items
  | object members => AreMembersStorable members

def AreStorable : List Json → Prop
  | [] => True
  | item :: items => item.IsStorable ∧ AreStorable items

def AreMembersStorable : List (String × Json) → Prop
  | [] => True
  | (_, value) :: members => value.IsStorable ∧ AreMembersStorable members

end

abbrev followers : List Char :=
  NumberText.followers

theorem ne_of_number_head {c : Char} (hc : isDigit c ∨ c = '-') :
    ∀ d ∈ [' ', '\n', '\t', '\r', 'n', 't', 'f', '"', '[', ']', '\x7b'], c ≠ d := by
  rintro d hd rfl
  have hnot : ∀ d ∈ [' ', '\n', '\t', '\r', 'n', 't', 'f', '"', '[', ']', '\x7b'],
      ¬ (isDigit d ∨ d = '-') := forall_mem_of_all (by decide)
  exact hnot c hd hc

theorem value?_of_number {c : Char} (hc : isDigit c ∨ c = '-') (fuel : Nat) (cs : List Char) :
    value? (fuel + 1) (c :: cs) = number? (c :: cs) := by
  have hne := ne_of_number_head hc
  have hspace : skipSpace (c :: cs) = c :: cs := by
    refine skipSpace_of_head fun d hd => ?_
    cases hd
    simp [isSpace, hne]
  rw [value?, hspace]
  split
  case h_7 => rfl
  all_goals
    rename_i heq
    exact absurd (List.cons.inj heq).1 (hne _ (by decide))

theorem value?_string (s : String) (fuel : Nat) (r : List Char) :
    value? (fuel + 1) ((quoted s).toList ++ r) = some (string s, r) := by
  rw [toList_quoted, value?, skipSpace_of_head (fun c hc => by cases hc; rfl)]
  simp only [stringBody?_quoted]
  rfl

theorem value?_real {v : Double} (hv : v.IsFinite) {r : List Char} (hr : FollowedBy followers r)
    (fuel : Nat) : value? (fuel + 1) ((realText v).toList ++ r) = some (v.reread, r) := by
  cases v with
  | infinite negative => exact hv.elim
  | finite negative m e =>
    obtain ⟨c, cs, hcs, hc⟩ := NumberText.exists_head (numberText_isReal negative hv.1)
    rw [← number?_realText negative hv.1 hr, toList_realText, hcs]
    exact value?_of_number hc fuel _

def closing (level : Nat) (mark : Char) (r : List Char) : List Char :=
  '\n' :: ((indentation level).toList ++ mark :: r)

theorem skipSpace_closing (level : Nat) {mark : Char} (hmark : isSpace mark = false)
    (r : List Char) : skipSpace (closing level mark r) = mark :: r := by
  have hspace : ∀ c ∈ '\n' :: (indentation level).toList, isSpace c :=
    forall_mem_cons.mpr ⟨rfl, isSpace_indentation level⟩
  rw [closing, ← cons_append, skipSpace_append hspace]
  refine skipSpace_of_head fun c hc => ?_
  cases hc
  exact hmark

def continued (last : Bool) (more r : List Char) : List Char :=
  if last then r else ',' :: '\n' :: (more ++ r)

theorem followedBy_continued (last : Bool) (more : List Char) (level : Nat) (mark : Char)
    (r : List Char) : FollowedBy followers (continued last more (closing level mark r)) := by
  unfold continued
  split
  · exact followedBy_cons (by decide) _
  · exact followedBy_cons (by decide) _

theorem toList_prettyItems (level : Nat) (item : Json) (items : List Json) (r : List Char) :
    (prettyItems level (item :: items)).toList ++ r =
      (indentation level).toList ++ ((pretty level item).toList ++
        continued items.isEmpty (prettyItems level items).toList r) := by
  cases items <;> simp [prettyItems, continued]

theorem toList_prettyMembers (level : Nat) (name : String) (value : Json)
    (members : List (String × Json)) (r : List Char) :
    (prettyMembers level ((name, value) :: members)).toList ++ r =
      (indentation level).toList ++ ((quoted name).toList ++ (':' :: ' ' ::
        ((pretty level value).toList ++
          continued members.isEmpty (prettyMembers level members).toList r))) := by
  cases members <;> simp [prettyMembers, continued]

theorem toList_pretty_array (level : Nat) (item : Json) (items : List Json) (r : List Char) :
    (pretty level (array (item :: items))).toList ++ r =
      '[' :: '\n' :: ((prettyItems (level + 1) (item :: items)).toList ++ closing level ']' r) := by
  simp [pretty, closing]

theorem toList_pretty_object (level : Nat) (m : String × Json) (members : List (String × Json))
    (r : List Char) : (pretty level (object (m :: members))).toList ++ r =
      '\x7b' :: '\n' ::
        ((prettyMembers (level + 1) (m :: members)).toList ++ closing level '\x7d' r) := by
  simp [pretty, closing]

theorem pretty_head {j : Json} (hj : j.IsStorable) (level : Nat) :
    ∃ c cs, (pretty level j).toList = c :: cs ∧ isSpace c = false ∧ c ≠ ']' := by
  cases j with
  | null => simp [pretty, isSpace]
  | bool b => cases b <;> simp [pretty, isSpace]
  | integer i => exact hj.elim
  | unreadable => exact hj.elim
  | string s => simp [pretty, quoted, isSpace]
  | array items => cases items <;> simp [pretty, isSpace]
  | object members => cases members <;> simp [pretty, isSpace]
  | real v =>
    cases v with
    | infinite negative => exact hj.elim
    | finite negative m e =>
      obtain ⟨c, cs, hcs, hc⟩ := NumberText.exists_head (numberText_isReal negative hj.1)
      refine ⟨c, cs, by rw [pretty, toList_realText, hcs], ?_⟩
      simp [isSpace, ne_of_number_head hc]

section

variable {fuel level outer : Nat} {r : List Char}

theorem items?_cons {item : Json} {items : List Json}
    (hitem : ∀ r, FollowedBy followers r →
      value? fuel ((pretty level item).toList ++ r) = some (item.reread, r))
    (hitems : items ≠ [] → items? fuel ((prettyItems level items).toList ++ closing outer ']' r) =
      some (rereadItems items, r)) :
    items? (fuel + 1) ((prettyItems level (item :: items)).toList ++ closing outer ']' r) =
      some (rereadItems (item :: items), r) := by
  rw [toList_prettyItems, items?, value?_append (isSpace_indentation level),
    hitem _ (followedBy_continued _ _ _ _ _)]
  cases items with
  | nil =>
    simp only [isEmpty_nil, continued, if_true, Option.bind_eq_bind, Option.bind_some,
      skipSpace_closing outer (show isSpace ']' = false from rfl)]
    rfl
  | cons next items =>
    have hcomma (cs : List Char) : skipSpace (',' :: cs) = ',' :: cs := rfl
    have hline (cs : List Char) : items? fuel ('\n' :: cs) = items? fuel cs := by
      rw [← items?_skipSpace, ← items?_skipSpace fuel cs]
      rfl
    simp only [isEmpty_cons, continued, Bool.false_eq_true, if_false, Option.bind_eq_bind,
      Option.bind_some, hcomma, hline, hitems (cons_ne_nil _ _)]
    rfl

theorem members?_cons {name : String} {value : Json} {members : List (String × Json)}
    (hvalue : ∀ r, FollowedBy followers r →
      value? fuel ((pretty level value).toList ++ r) = some (value.reread, r))
    (hmembers : members ≠ [] →
      members? fuel ((prettyMembers level members).toList ++ closing outer '\x7d' r) =
        some (object (rereadMembers members), r)) :
    members? (fuel + 1)
        ((prettyMembers level ((name, value) :: members)).toList ++ closing outer '\x7d' r) =
      some (object (rereadMembers ((name, value) :: members)), r) := by
  have hcolon (cs : List Char) : skipSpace (':' :: cs) = ':' :: cs := rfl
  have hblank (cs : List Char) : value? fuel (' ' :: cs) = value? fuel cs :=
    value?_append (u := [' ']) (forall_mem_of_all (by decide)) fuel cs
  have hquote (cs : List Char) : skipSpace ('"' :: cs) = '"' :: cs := rfl
  rw [toList_prettyMembers, members?, skipSpace_append (isSpace_indentation level), toList_quoted,
    hquote]
  simp only [stringBody?_quoted, Option.bind_eq_bind, Option.bind_some, hcolon, hblank,
    hvalue _ (followedBy_continued _ _ _ _ _)]
  cases members with
  | nil =>
    simp only [isEmpty_nil, continued, if_true,
      skipSpace_closing outer (show isSpace '\x7d' = false from rfl)]
    rfl
  | cons next members =>
    have hcomma (cs : List Char) : skipSpace (',' :: cs) = ',' :: cs := rfl
    have hline (cs : List Char) : members? fuel ('\n' :: cs) = members? fuel cs := by
      rw [← members?_skipSpace, ← members?_skipSpace fuel cs]
      rfl
    simp only [isEmpty_cons, continued, Bool.false_eq_true, if_false, hcomma, hline,
      hmembers (cons_ne_nil _ _), Option.bind_some]
    rfl

theorem value?_array {item : Json} {items : List Json} (hitem : item.IsStorable)
    (hitems : items? fuel ((prettyItems (level + 1) (item :: items)).toList ++
      closing level ']' r) = some (rereadItems (item :: items), r)) :
    value? (fuel + 1) ((pretty level (array (item :: items))).toList ++ r) =
      some (reread (array (item :: items)), r) := by
  obtain ⟨c, cs, hcs, hspace, hne⟩ := pretty_head hitem (level + 1)
  have hopen (cs : List Char) : skipSpace ('[' :: cs) = '[' :: cs := rfl
  have hline (cs : List Char) : skipSpace ('\n' :: cs) = skipSpace cs := rfl
  obtain ⟨rest, hrest⟩ : ∃ rest, skipSpace ((prettyItems (level + 1) (item :: items)).toList ++
      closing level ']' r) = c :: rest := by
    rw [toList_prettyItems, skipSpace_append (isSpace_indentation _), hcs]
    refine ⟨_, skipSpace_of_head fun d hd => ?_⟩
    cases hd
    exact hspace
  rw [toList_pretty_array, value?, hopen]
  simp only [hline]
  split
  · rename_i heq
    rw [hrest] at heq
    exact absurd (List.cons.inj heq).1 hne
  · rw [items?_skipSpace, hitems]
    rfl

theorem value?_object {m : String × Json} {members : List (String × Json)}
    (hmembers : members? fuel ((prettyMembers (level + 1) (m :: members)).toList ++
      closing level '\x7d' r) = some (object (rereadMembers (m :: members)), r)) :
    value? (fuel + 1) ((pretty level (object (m :: members))).toList ++ r) =
      some (reread (object (m :: members)), r) := by
  have hopen (cs : List Char) : skipSpace ('\x7b' :: cs) = '\x7b' :: cs := rfl
  have hline (cs : List Char) : skipSpace ('\n' :: cs) = skipSpace cs := rfl
  obtain ⟨rest, hrest⟩ : ∃ rest, skipSpace ((prettyMembers (level + 1) (m :: members)).toList ++
      closing level '\x7d' r) = '"' :: rest := by
    obtain ⟨name, value⟩ := m
    rw [toList_prettyMembers, skipSpace_append (isSpace_indentation _), toList_quoted]
    exact ⟨_, rfl⟩
  rw [toList_pretty_object, value?, hopen]
  simp only [hline]
  split
  · rename_i heq
    rw [hrest] at heq
    exact absurd (List.cons.inj heq).1 (by decide)
  · rw [members?_skipSpace, hmembers]
    rfl

end

theorem value?_null (level fuel : Nat) (r : List Char) :
    value? (fuel + 1) ((pretty level null).toList ++ r) = some (null, r) := by
  rw [show (pretty level null).toList = ['n', 'u', 'l', 'l'] by simp [pretty]]
  rfl

theorem value?_bool (b : Bool) (level fuel : Nat) (r : List Char) :
    value? (fuel + 1) ((pretty level (bool b)).toList ++ r) = some (bool b, r) := by
  cases b with
  | false =>
    rw [show (pretty level (bool false)).toList = ['f', 'a', 'l', 's', 'e'] by simp [pretty]]
    rfl
  | true =>
    rw [show (pretty level (bool true)).toList = ['t', 'r', 'u', 'e'] by simp [pretty]]
    rfl

theorem value?_array_nil (level fuel : Nat) (r : List Char) :
    value? (fuel + 1) ((pretty level (array [])).toList ++ r) = some (array [], r) := by
  rw [show (pretty level (array [])).toList = ['[', ']'] by simp [pretty]]
  rfl

theorem value?_object_nil (level fuel : Nat) (r : List Char) :
    value? (fuel + 1) ((pretty level (object [])).toList ++ r) = some (object [], r) := by
  rw [show (pretty level (object [])).toList = ['\x7b', '\x7d'] by simp [pretty]]
  rfl

theorem length_pretty_array (level : Nat) (item : Json) (items : List Json) :
    (prettyItems (level + 1) (item :: items)).toList.length + 1 <
      (pretty level (array (item :: items))).toList.length := by
  have hlength := congrArg List.length (toList_pretty_array level item items [])
  simp only [append_nil, length_cons, length_append] at hlength
  omega

theorem length_pretty_object (level : Nat) (m : String × Json) (members : List (String × Json)) :
    (prettyMembers (level + 1) (m :: members)).toList.length + 1 <
      (pretty level (object (m :: members))).toList.length := by
  have hlength := congrArg List.length (toList_pretty_object level m members [])
  simp only [append_nil, length_cons, length_append] at hlength
  omega

theorem length_prettyItems_cons (level : Nat) (item : Json) (items : List Json) :
    (pretty level item).toList.length ≤ (prettyItems level (item :: items)).toList.length ∧
      (items ≠ [] → (prettyItems level items).toList.length <
        (prettyItems level (item :: items)).toList.length) := by
  have hlength := congrArg List.length (toList_prettyItems level item items [])
  rw [append_nil, length_append, length_append] at hlength
  refine ⟨by omega, fun hne => ?_⟩
  obtain ⟨next, rest, rfl⟩ := exists_cons_of_ne_nil hne
  simp only [continued, isEmpty_cons, Bool.false_eq_true, if_false, length_cons,
    append_nil] at hlength
  omega

theorem length_prettyMembers_cons (level : Nat) (name : String) (value : Json)
    (members : List (String × Json)) :
    (pretty level value).toList.length ≤
        (prettyMembers level ((name, value) :: members)).toList.length ∧
      (members ≠ [] → (prettyMembers level members).toList.length <
        (prettyMembers level ((name, value) :: members)).toList.length) := by
  have hlength := congrArg List.length (toList_prettyMembers level name value members [])
  simp only [append_nil, length_append, length_cons] at hlength
  refine ⟨by omega, fun hne => ?_⟩
  obtain ⟨next, rest, rfl⟩ := exists_cons_of_ne_nil hne
  simp only [continued, isEmpty_cons, Bool.false_eq_true, if_false, length_cons,
    append_nil] at hlength
  omega

mutual

theorem value?_pretty : (j : Json) → j.IsStorable → (level fuel : Nat) →
    (pretty level j).toList.length ≤ fuel → (r : List Char) → FollowedBy followers r →
    value? fuel ((pretty level j).toList ++ r) = some (j.reread, r)
  | j, hj, level, 0 => by
    intro hfuel
    obtain ⟨c, cs, hcs, -⟩ := pretty_head hj level
    rw [hcs] at hfuel
    exact absurd hfuel (Nat.not_succ_le_zero _)
  | null, _, level, fuel + 1 => fun _ r _ => value?_null level fuel r
  | bool b, _, level, fuel + 1 => fun _ r _ => value?_bool b level fuel r
  | real _, hv, _, fuel + 1 => fun _ _ hr => value?_real hv hr fuel
  | string s, _, _, fuel + 1 => fun _ r _ => value?_string s fuel r
  | array [], _, level, fuel + 1 => fun _ r _ => value?_array_nil level fuel r
  | array (item :: items), hitems, level, fuel + 1 => by
    intro hfuel r _
    have hlength := length_pretty_array level item items
    exact value?_array hitems.1 (items?_pretty (item :: items) (cons_ne_nil _ _) hitems _ _ _
      (by omega) r)
  | object [], _, level, fuel + 1 => fun _ r _ => value?_object_nil level fuel r
  | object (m :: members), hmembers, level, fuel + 1 => by
    intro hfuel r _
    have hlength := length_pretty_object level m members
    exact value?_object (members?_pretty (m :: members) (cons_ne_nil _ _) hmembers _ _ _
      (by omega) r)
  | integer _, hj, _, _ + 1 => hj.elim
  | unreadable, hj, _, _ + 1 => hj.elim

theorem items?_pretty : (items : List Json) → items ≠ [] → AreStorable items →
    (level outer fuel : Nat) → (prettyItems level items).toList.length < fuel → (r : List Char) →
    items? fuel ((prettyItems level items).toList ++ closing outer ']' r) =
      some (rereadItems items, r)
  | [], hne, _, _, _, _, _, _ => absurd rfl hne
  | item :: items, _, hitems, level, outer, fuel + 1, hfuel, r =>
    have hlength := length_prettyItems_cons level item items
    items?_cons (value?_pretty item hitems.1 level fuel (by omega))
      fun hne => items?_pretty items hne hitems.2 level outer fuel
        (Nat.lt_of_lt_of_le (hlength.2 hne) (Nat.lt_succ_iff.mp hfuel)) r

theorem members?_pretty : (members : List (String × Json)) → members ≠ [] →
    AreMembersStorable members → (level outer fuel : Nat) →
    (prettyMembers level members).toList.length < fuel → (r : List Char) →
    members? fuel ((prettyMembers level members).toList ++ closing outer '\x7d' r) =
      some (object (rereadMembers members), r)
  | [], hne, _, _, _, _, _, _ => absurd rfl hne
  | (name, value) :: members, _, hmembers, level, outer, fuel + 1, hfuel, r =>
    have hlength := length_prettyMembers_cons level name value members
    members?_cons (value?_pretty value hmembers.1 level fuel (by omega))
      fun hne => members?_pretty members hne hmembers.2 level outer fuel
        (Nat.lt_of_lt_of_le (hlength.2 hne) (Nat.lt_succ_iff.mp hfuel)) r

end

theorem read?_render {j : Json} (hj : j.IsStorable) : read? (render j) = some j.reread := by
  have hvalue := value?_pretty j hj 0 _ (Nat.le_succ _) [] (followedBy_nil _)
  rw [append_nil] at hvalue
  simp only [read?, render, hvalue]
  rfl

end PropContract.Json
