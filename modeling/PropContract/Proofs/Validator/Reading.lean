import PropContract.Proofs.Syntax.Tokens
import PropContract.Proofs.Validator.Quoting
import PropContract.Validator.Basic

namespace PropContract

open List Nat

variable {cs : List Char} {c : Char}

open Syntax (TokenKind)
open Syntax.Lexer (isName)

namespace Check

def token (cs : List Char) : TokenKind × List Char :=
  let read := Syntax.Lexer.scan false (.ofText (cs.dropWhile fun c => c = ' ' ∨ c = '\n'))
  (read.1, read.2.rest)

def mark? (text : String) (cs : List Char) : Option (List Char) :=
  if (token cs).1 = .mark text then some (token cs).2 else none

def word? (cs : List Char) : Option (String × List Char) :=
  match token cs with
  | (.name text _, r) => some (text, r)
  | _ => none

def reference? (cs : List Char) : Option (String × List Char) := do
  let (name, r) ← word? cs
  if Syntax.isReserved name then none else some (name, r)

def literal? (cs : List Char) : Option (Literal × List Char) :=
  match token cs with
  | (.string s, r) => some (.string s, r)
  | (.number v, r) => some (.number v, r)
  | (.name text _, r) =>
    if text = "true" then some (.boolean true, r)
    else if text = "false" then some (.boolean false, r)
    else if text = "null" then some (.null, r)
    else none
  | (.mark "-", r) =>
    match token r with
    | (.number v, r) => some (.number v.neg, r)
    | _ => none
  | _ => none

def items? {α : Type} (item? : List Char → Option (α × List Char)) (close : String) :
    Nat → List Char → Option (List α × List Char)
  | 0, _ => none
  | fuel + 1, cs =>
    match mark? close cs with
    | some r => some ([], r)
    | none => do
      let (item, r) ← item? cs
      match mark? "," r with
      | some r =>
        let (items, r) ← items? item? close fuel r
        some (item :: items, r)
      | none => some ([item], ← mark? close r)

def list? {α : Type} (first last : String) (item? : List Char → Option (α × List Char))
    (cs : List Char) : Option (List α × List Char) := do
  let r ← mark? first cs
  items? item? last (r.length + 1) r

/-- The name of a property. In an object literal `__proto__` is none. -/
def key? (cs : List Char) : Option (String × List Char) :=
  match token cs with
  | (.name text _, r) | (.string text, r) => if text = "__proto__" then none else some (text, r)
  | _ => none

def field? (check? : List Char → Option (Validator × List Char)) (cs : List Char) :
    Option (ValidatorField × List Char) := do
  let (name, r) ← key? cs
  let (v, r) ← check? (← mark? ":" r)
  match mark? "." r with
  | some r =>
    let (word, r) ← word? r
    if word = "isRequired" then some (.mk name true v, r) else none
  | none => some (.mk name false v, r)

def plainNames : List String :=
  ["any", "array", "bool", "element", "elementType", "func", "node", "number", "object", "string",
    "symbol"]

def argument? (check? : List Char → Option (Validator × List Char)) (name : String)
    (cs : List Char) : Option (Validator × List Char) :=
  match name with
  | "oneOf" => (list? "[" "]" literal? cs).map fun (ls, r) => (.oneOf ls, r)
  | "arrayOf" => (check? cs).map fun (v, r) => (.arrayOf v, r)
  | "shape" => (list? "\x7b" "\x7d" (field? check?) cs).map fun (fields, r) => (.shape fields, r)
  | "oneOfType" => (list? "[" "]" check? cs).map fun (vs, r) => (.oneOfType vs, r)
  | "instanceOf" => (reference? cs).map fun (name, r) => (.instanceOf name, r)
  | _ => none

def applied? (check? : List Char → Option (Validator × List Char)) (name : String)
    (cs : List Char) : Option (Validator × List Char) := do
  let (v, r) ← argument? check? name (← mark? "(" cs)
  some (v, ← mark? ")" r)

def check? (imported : String) : Nat → List Char → Option (Validator × List Char)
  | 0, _ => none
  | fuel + 1, cs => do
    let (object, r) ← reference? cs
    if object ≠ imported then none
    else
      let (name, r) ← word? (← mark? "." r)
      if name ∈ plainNames then some (.plain name, r)
      else applied? (check? imported fuel) name r

theorem token_of_scan {r : List Char} {m : Nat} {kind : TokenKind}
    (hcs : ∀ c ∈ cs.head?, c ∉ [' ', '\n'])
    (h : Syntax.Lexer.scan false ⟨cs, 0⟩ = (kind, ⟨r, m⟩)) : token cs = (kind, r) := by
  have hdrop : cs.dropWhile (fun c => c = ' ' ∨ c = '\n') = cs := by
    cases cs with
    | nil => rfl
    | cons c cs => simpa using hcs c rfl
  rw [token, hdrop, Syntax.Cursor.ofText, h]

theorem token_single {d : Char} (hc : c = '.' ∨ c = '-') (hd : d ∉ ['.', '-', '='])
    (hdigit : c = '.' → d.isDigit = false) (cs : List Char) :
    token (c :: d :: cs) = (.mark (String.singleton c), d :: cs) := by
  have hlong : Syntax.Lexer.markIn? Syntax.Lexer.longMarks ⟨c :: d :: cs, 0⟩ = none := by
    have hne : '.' ≠ d ∧ '-' ≠ d ∧ '=' ≠ d := by simpa [eq_comm] using hd
    rcases hc with rfl | rfl <;>
      simp [Syntax.Lexer.markIn?, Syntax.Lexer.longMarks, List.isPrefixOf, hne]
  rcases hc with rfl | rfl
  · refine token_of_scan (by simp) (m := 1) ?_
    simp only [Syntax.Lexer.scan, Syntax.Lexer.isRadixDigit_ten, head?_cons, Option.map_some,
      hdigit rfl, Syntax.Lexer.mark, hlong]
    rfl
  · refine token_of_scan (by simp) (m := 1) ?_
    simp only [Syntax.Lexer.scan, Syntax.Lexer.mark, hlong]
    rfl

section

variable {r : List Char} {name : String}

theorem token_name (h : isName name.toList)
    (hr : ∀ c ∈ r.head?, Text.isNamePart c = false ∧ c ≠ '\\') :
    token (name.toList ++ r) = (.name name name, r) := by
  obtain ⟨m, hm⟩ := Syntax.Lexer.scan_name h hr false 0
  rw [String.ofList_toList] at hm
  refine token_of_scan ?_ hm
  cases hcs : name.toList with
  | nil =>
    rw [hcs] at h
    cases h
  | cons c cs =>
    rw [hcs, isName, Bool.and_eq_true] at h
    have hblanks : ∀ b ∈ [' ', '\n'], Text.isNameStart b = false :=
      forall_mem_of_all (by decide +kernel)
    rintro d ⟨⟩ hd
    rw [hblanks c hd] at h
    exact absurd h.1 Bool.false_ne_true

theorem token_encode (style : QuoteStyle) (s : String) :
    token ((Quoted.encode style s).toList ++ r) = (.string s, r) := by
  obtain ⟨m, hm⟩ := Quoted.scan_encode style s false r 0
  refine token_of_scan ?_ hm
  rw [Quoted.toList_encode]
  cases style <;> simp [QuoteStyle.mark]

theorem token_number (negative : Bool) {m : Nat} {e : Int} (h : Double.Canonical m e)
    (he : e ≤ Double.greatestExponent) (hr : FollowedBy [',', ']'] r) :
    token ((Double.finite negative m e).unsignedText ++ r) = (.number (.finite false m e), r) := by
  obtain ⟨k, hk⟩ := Syntax.Lexer.scan_unsignedText negative h he hr false 0
  refine token_of_scan ?_ hk
  obtain ⟨⟨c, hc, hdigit⟩, -⟩ := Double.unsignedText_finite negative h
  obtain ⟨cs, hcs⟩ := head?_eq_some_iff.mp hc
  rw [hcs]
  rintro d ⟨⟩ hd
  have hblanks : ∀ b ∈ [' ', '\n'], b.isDigit = false := forall_mem_of_all (by decide)
  rw [hblanks c hd] at hdigit
  cases hdigit

end

end Check

/-- A literal whose text is that of a value: numbers are doubles, and finite. -/
def Literal.IsWritable : Literal → Prop
  | .number v => v.IsFinite
  | _ => True

namespace Check

section

variable {r : List Char}

theorem literal?_text (style : QuoteStyle) {l : Literal} (hl : l.IsWritable)
    (hr : FollowedBy [',', ']'] r) :
    literal? ((Validator.literalText style l).toList ++ r) = some (l, r) := by
  have hend : ∀ c ∈ r.head?, Text.isNamePart c = false ∧ c ≠ '\\' := by
    have hmarks : ∀ c ∈ [',', ']'], Text.isNamePart c = false ∧ c ≠ '\\' :=
      forall_mem_of_all (by decide +kernel)
    exact fun c hc => hmarks c (hr c hc)
  have hword (word : String) (hword : isName word.toList) := token_name hword hend
  cases l with
  | string s => rw [literal?, Validator.literalText, token_encode]
  | number v =>
    cases v with
    | infinite negative => exact hl.elim
    | finite negative m e =>
      have hnumber := token_number negative hl.1 hl.2 hr
      rw [Validator.literalText, Double.toList_plainText]
      cases negative with
      | false =>
        rw [literal?, show Double.signText (Double.finite false m e).isNegative = [] from rfl,
          nil_append, hnumber]
      | true =>
        obtain ⟨⟨c, hc, hdigit⟩, -⟩ := Double.unsignedText_finite true hl.1
        obtain ⟨cs, hcs⟩ := head?_eq_some_iff.mp hc
        have hminus : token ('-' :: c :: (cs ++ r)) = (.mark "-", c :: (cs ++ r)) :=
          token_single (.inr rfl) (by simp [Syntax.Lexer.ne_of_isDigit hdigit]) nofun _
        rw [hcs, cons_append] at hnumber
        rw [literal?, show Double.signText (Double.finite true m e).isNegative = ['-'] from rfl,
          hcs, singleton_append, cons_append, cons_append, hminus]
        simp only [hnumber]
        rfl
  | boolean b =>
    cases b with
    | true => rw [literal?, Validator.literalText, hword "true" (by decide)]; rfl
    | false => rw [literal?, Validator.literalText, hword "false" (by decide)]; rfl
  | null => rw [literal?, Validator.literalText, hword "null" (by decide)]; rfl

theorem mark?_of_literal? {x : Literal × List Char} (h : literal? cs = some x) :
    mark? "]" cs = none := by
  unfold literal? at h
  split at h
  all_goals simp_all [mark?]

end

section

variable {α : Type} {item? : List Char → Option (α × List Char)} {last : String}

theorem items?_blank (hblank : ∀ cs, item? (' ' :: cs) = item? cs) (fuel : Nat) (cs : List Char) :
    items? item? last fuel (' ' :: cs) = items? item? last fuel cs := by
  cases fuel with
  | zero => rfl
  | succ fuel => rw [items?, items?, hblank]; rfl

/-- A list is read if each of its items is where a comma or the end `z` of the list follows. -/
theorem items?_listed {f : α → List Char} {z r : List Char} (hlast : mark? last z = some r)
    (hcomma : mark? "," z = none) (hblank : ∀ cs, item? (' ' :: cs) = item? cs)
    (hstop : ∀ cs x, item? cs = some x → mark? last cs = none) {xs : List α}
    (hitem : ∀ x ∈ xs, ∀ u, u = z ∨ (∃ v, u = ',' :: v) → item? (f x ++ u) = some (x, u))
    (fuel : Nat) (hfuel : xs.length < fuel) :
    items? item? last fuel (listed (xs.map f) z) = some (xs, r) := by
  induction xs generalizing fuel with
  | nil =>
    obtain ⟨fuel, rfl⟩ := exists_eq_succ_of_ne_zero (ne_zero_of_lt hfuel)
    rw [items?, show listed (([] : List α).map f) z = z from rfl, hlast]
  | cons x xs ih =>
    obtain ⟨fuel, rfl⟩ := exists_eq_succ_of_ne_zero (ne_zero_of_lt hfuel)
    rw [length_cons] at hfuel
    obtain ⟨hx, hxs⟩ := forall_mem_cons.mp hitem
    rw [map_cons, listed_cons, items?]
    by_cases hnil : xs = []
    · subst hnil
      have hread := hx z (.inl rfl)
      simp [hread, hstop _ _ hread, hcomma, hlast]
    · have hread := hx (',' :: ' ' :: listed (xs.map f) z) (.inr ⟨_, rfl⟩)
      have hrest := ih hxs fuel (by omega)
      have hskip (cs : List Char) : mark? "," (',' :: cs) = some cs := rfl
      simp [hnil, hread, hstop _ _ hread, hskip, items?_blank hblank, hrest]

theorem length_le_listed (ts : List (List Char)) {z : List Char} (hz : z ≠ []) :
    ts.length ≤ (listed ts z).length := by
  have hpos := length_pos_of_ne_nil hz
  induction ts with
  | nil => simp
  | cons t ts ih =>
    rw [listed_cons]
    split
    · simp_all; omega
    · simp; omega

theorem length_le_listed_of_mem {t : List Char} {ts : List (List Char)} (ht : t ∈ ts)
    (z : List Char) : t.length ≤ (listed ts z).length := by
  induction ts with
  | nil => cases ht
  | cons u ts ih =>
    rw [listed_cons, length_append]
    rcases mem_cons.mp ht with rfl | ht
    · omega
    · have hne : ts ≠ [] := ne_nil_of_mem ht
      have := ih ht
      simp only [hne, if_false, length_cons]
      omega

theorem list?_brackets {f : α → List Char} {r : List Char}
    (hblank : ∀ cs, item? (' ' :: cs) = item? cs)
    (hstop : ∀ cs x, item? cs = some x → mark? "]" cs = none) {xs : List α}
    (hitem : ∀ x ∈ xs, ∀ u, FollowedBy [',', ']'] u → item? (f x ++ u) = some (x, u)) :
    list? "[" "]" item? ('[' :: listed (xs.map f) (']' :: r)) = some (xs, r) := by
  have hopen (cs : List Char) : mark? "[" ('[' :: cs) = some cs := rfl
  have hclose : mark? "]" (']' :: r) = some r := rfl
  have hcomma : mark? "," (']' :: r) = none := rfl
  have hlength := length_le_listed (xs.map f) (cons_ne_nil ']' r)
  rw [length_map] at hlength
  rw [list?, hopen]
  refine items?_listed hclose hcomma hblank hstop (fun x hx u hu => hitem x hx u ?_) _ (by omega)
  rcases hu with rfl | ⟨v, rfl⟩
  · exact followedBy_cons (by simp) r
  · exact followedBy_cons (by simp) v

end

structure IsKey (name : String) : Prop where
  isMisread : Quoted.isMisread name = false
  ne : name ≠ "__proto__"

instance (name : String) : Decidable (IsKey name) :=
  decidable_of_iff (Quoted.isMisread name = false ∧ name ≠ "__proto__")
    ⟨fun h => ⟨h.1, h.2⟩, fun h => ⟨h.isMisread, h.ne⟩⟩

theorem key?_key (style : QuoteStyle) {name : String} (h : IsKey name) (r : List Char) :
    key? ((Quoted.key style name).toList ++ ':' :: r) = some (name, ':' :: r) := by
  unfold Quoted.key
  split
  · rename_i hidentifier
    have hname : isName name.toList := by
      simpa [Quoted.isMisread, hidentifier] using h.isMisread
    have hcolon : ∀ c ∈ (':' :: r).head?, Text.isNamePart c = false ∧ c ≠ '\\' := by
      rintro c ⟨⟩
      decide +kernel
    rw [key?, token_name hname hcolon]
    exact if_neg h.ne
  · rw [key?, token_encode]
    exact if_neg h.ne

end Check

def ValidatorField.name : ValidatorField → String
  | .mk name _ _ => name

def ValidatorField.validator : ValidatorField → Validator
  | .mk _ _ v => v

namespace Validator

variable (o : ValidatorOptions)

def chars (v : Validator) : List Char :=
  (v.text o).toList

def fieldChars : ValidatorField → List Char
  | .mk name required v =>
    (Quoted.key o.quotes name).toList ++ ':' :: ' ' :: v.chars o ++ (requiredText required).toList

theorem map_toList_texts (vs : List Validator) :
    (texts o vs).map String.toList = vs.map (chars o) := by
  induction vs with
  | nil => rfl
  | cons v vs ih => simp [texts, chars, ih]

theorem map_toList_fieldTexts (fields : List ValidatorField) :
    (fieldTexts o fields).map String.toList = fields.map (fieldChars o) := by
  induction fields with
  | nil => rfl
  | cons f fields ih =>
    obtain ⟨name, required, v⟩ := f
    simp [fieldTexts, fieldChars, chars, ih]

def word : Validator → String
  | plain name => name
  | oneOf _ => "oneOf"
  | arrayOf _ => "arrayOf"
  | shape _ => "shape"
  | oneOfType _ => "oneOfType"
  | instanceOf _ => "instanceOf"

def argument : Validator → List Char → List Char
  | plain _, r => r
  | oneOf values, r =>
    '[' :: listed (values.map fun l => (literalText o.quotes l).toList) (']' :: r)
  | arrayOf e, r => e.chars o ++ r
  | shape fields, r =>
    '\x7b' :: ' ' :: listed (fields.map (fieldChars o)) (' ' :: '\x7d' :: r)
  | oneOfType branches, r => '[' :: listed (branches.map (chars o)) (']' :: r)
  | instanceOf name, r => name.toList ++ r

def afterWord : Validator → List Char → List Char
  | plain _, r => r
  | v, r => '(' :: v.argument o (')' :: r)

theorem toList_commas (items : List String) (r : List Char) :
    (commas items).toList ++ r = listed (items.map String.toList) r := by
  simp [commas, listed, String.toList_intercalate]

theorem chars_append (v : Validator) (r : List Char) :
    v.chars o ++ r = o.importedName.toList ++ '.' :: (v.word.toList ++ v.afterWord o r) := by
  cases v with
  | plain name => simp [chars, text, word, afterWord]
  | arrayOf | instanceOf => simp [chars, text, applied, word, afterWord, argument]
  | oneOf values =>
    have hlist := toList_commas (values.map (literalText o.quotes)) (']' :: ')' :: r)
    rw [map_map] at hlist
    simp only [afterWord, argument, ← Function.comp_def, ← hlist]
    simp [chars, text, applied, word]
  | shape fields =>
    have hlist := toList_commas (fieldTexts o fields) (' ' :: '\x7d' :: ')' :: r)
    rw [map_toList_fieldTexts] at hlist
    simp only [afterWord, argument, ← hlist]
    simp [chars, text, applied, word]
  | oneOfType branches =>
    have hlist := toList_commas (texts o branches) (']' :: ')' :: r)
    rw [map_toList_texts] at hlist
    simp only [afterWord, argument, ← hlist]
    simp [chars, text, applied, word]

end Validator

def IsReference (name : String) : Prop :=
  isName name.toList ∧ Syntax.isReserved name = false

instance (name : String) : Decidable (IsReference name) :=
  inferInstanceAs (Decidable (_ ∧ _))

namespace Validator

mutual

def IsReadable : Validator → Prop
  | plain name => name ∈ Check.plainNames
  | oneOf values => ∀ l ∈ values, l.IsWritable
  | arrayOf e => e.IsReadable
  | shape fields => AreFieldsReadable fields
  | oneOfType branches => AreReadable branches
  | instanceOf name => IsReference name

def AreReadable : List Validator → Prop
  | [] => True
  | v :: vs => v.IsReadable ∧ AreReadable vs

def AreFieldsReadable : List ValidatorField → Prop
  | [] => True
  | .mk name _ v :: fields => (Check.IsKey name ∧ v.IsReadable) ∧ AreFieldsReadable fields

end

theorem areReadable_iff (vs : List Validator) : AreReadable vs ↔ ∀ v ∈ vs, v.IsReadable := by
  induction vs with
  | nil => simp [AreReadable]
  | cons v vs ih => simp [AreReadable, ih]

theorem areFieldsReadable_iff (fields : List ValidatorField) :
    AreFieldsReadable fields ↔ ∀ f ∈ fields, Check.IsKey f.name ∧ f.validator.IsReadable := by
  induction fields with
  | nil => simp [AreFieldsReadable]
  | cons f fields ih =>
    obtain ⟨name, required, v⟩ := f
    simp [AreFieldsReadable, ValidatorField.name, ValidatorField.validator, ih]

end Validator

namespace Check

variable {o : ValidatorOptions} {v : Validator}

def followers : List Char :=
  [',', ']', ')', '(', ' ', '.']

theorem token_word {word : String} (hword : isName word.toList) {r : List Char}
    (hr : FollowedBy followers r) : token (word.toList ++ r) = (.name word word, r) := by
  have hmarks : ∀ c ∈ followers, Text.isNamePart c = false ∧ c ≠ '\\' :=
    forall_mem_of_all (by decide +kernel)
  exact token_name hword fun c hc => hmarks c (hr c hc)

theorem reference?_append {name : String} (h : IsReference name) {r : List Char}
    (hr : FollowedBy followers r) : reference? (name.toList ++ r) = some (name, r) := by
  rw [reference?, word?, token_word h.1 hr]
  simp [h.2]

theorem mark?_point {word : String} (hword : isName word.toList) (r : List Char) :
    mark? "." ('.' :: (word.toList ++ r)) = some (word.toList ++ r) := by
  cases hcs : word.toList with
  | nil =>
    rw [hcs] at hword
    cases hword
  | cons c cs =>
    rw [hcs, isName, Bool.and_eq_true] at hword
    have hmarks : ∀ d ∈ ['.', '-', '='], Text.isNameStart d = false :=
      forall_mem_of_all (by decide +kernel)
    have hc : c ∉ ['.', '-', '='] := fun hc => by
      rw [hmarks c hc] at hword
      exact Bool.false_ne_true hword.1
    have hdigit : c.isDigit = false := by
      by_contra hdigit
      rw [Syntax.Lexer.isNameStart_of_isDigit (by simpa using hdigit)] at hword
      exact Bool.false_ne_true hword.1
    rw [cons_append, mark?, token_single (.inl rfl) hc fun _ => hdigit]
    rfl

def Reads (o : ValidatorOptions) (v : Validator) : Prop :=
  ∀ fuel, (v.chars o).length < fuel → ∀ r, FollowedBy followers r →
    check? o.importedName fuel (v.chars o ++ r) = some (v, r)

theorem mark?_of_word? {x : String × List Char} (h : word? cs = some x) (text : String) :
    mark? text cs = none := by
  unfold word? at h
  split at h
  all_goals simp_all [mark?]

theorem mark?_of_key? {x : String × List Char} (h : key? cs = some x) (text : String) :
    mark? text cs = none := by
  unfold key? at h
  split at h
  all_goals simp_all [mark?]

theorem mark?_of_check? {imported : String} {fuel : Nat}
    {x : Validator × List Char} (h : check? imported fuel cs = some x) (text : String) :
    mark? text cs = none := by
  cases fuel with
  | zero => cases h
  | succ fuel =>
    obtain ⟨_, hreference, -⟩ := Option.bind_eq_some_iff.mp h
    obtain ⟨_, hword, -⟩ := Option.bind_eq_some_iff.mp hreference
    exact mark?_of_word? hword text

theorem check?_blank (imported : String) (fuel : Nat) (cs : List Char) :
    check? imported fuel (' ' :: cs) = check? imported fuel cs := by
  cases fuel <;> rfl

theorem field?_fieldChars {name : String} (hname : IsKey name) (required : Bool)
    (hv : Reads o v) {fuel : Nat} (hfuel : (v.chars o).length < fuel) {u : List Char}
    (hu : FollowedBy [',', ' '] u) (hpoint : mark? "." u = none) :
    field? (check? o.importedName fuel) (Validator.fieldChars o (.mk name required v) ++ u) =
      some (.mk name required v, u) := by
  have hcolon (cs : List Char) : mark? ":" (':' :: cs) = some cs := rfl
  have htext : Validator.fieldChars o (.mk name required v) ++ u =
      (Quoted.key o.quotes name).toList ++
        ':' :: ' ' :: (v.chars o ++ ((Validator.requiredText required).toList ++ u)) := by
    simp [Validator.fieldChars]
  rw [htext, field?, key?_key o.quotes hname]
  simp only [Option.bind_eq_bind, Option.bind_some, hcolon, check?_blank]
  cases required with
  | false =>
    rw [show (Validator.requiredText false).toList = [] from rfl, nil_append,
      hv fuel hfuel u (hu.of_subset (by decide))]
    simp [hpoint]
  | true =>
    have hname : isName "isRequired".toList := by decide +kernel
    have hrequired : (Validator.requiredText true).toList = '.' :: "isRequired".toList := by decide
    rw [hrequired, cons_append, hv fuel hfuel _ (followedBy_cons (by decide) _)]
    simp only [Option.bind_some, mark?_point hname, word?,
      token_word hname (hu.of_subset (by decide)), if_true]

section

variable (ho : IsReference o.importedName)

include ho

theorem check?_member {word : String}
    (hword : isName word.toList) {r : List Char} (hr : FollowedBy followers r) (fuel : Nat) :
    check? o.importedName (fuel + 1) (o.importedName.toList ++ '.' :: (word.toList ++ r)) =
      if word ∈ plainNames then some (.plain word, r)
      else applied? (check? o.importedName fuel) word r := by
  rw [check?, reference?_append ho (followedBy_cons (by decide) _)]
  simp only [Option.bind_eq_bind, Option.bind_some, mark?_point hword, word?,
    token_word hword hr, ne_eq, not_true_eq_false, if_false]

theorem reads_plain {name : String} (h : name ∈ plainNames) : Reads o (.plain name) := by
  intro fuel hfuel r hr
  obtain ⟨fuel, rfl⟩ := exists_eq_succ_of_ne_zero (ne_zero_of_lt hfuel)
  have hword : ∀ name ∈ plainNames, isName name.toList :=
    forall_mem_of_all (by decide +kernel)
  rw [Validator.chars_append, Validator.word, Validator.afterWord,
    check?_member ho (hword name h) hr, if_pos h]

theorem reads_of_argument? (hplain : ∀ name, v ≠ .plain name)
    (h : ∀ fuel, (v.argument o [')']).length ≤ fuel → ∀ r,
      argument? (check? o.importedName fuel) v.word (v.argument o (')' :: r)) =
        some (v, ')' :: r)) :
    Reads o v := by
  have hword : isName v.word.toList ∧ v.word ∉ plainNames := by
    cases v with
    | plain name => exact absurd rfl (hplain name)
    | _ => simp only [Validator.word]; decide +kernel
  have hafter (r : List Char) : v.afterWord o r = '(' :: v.argument o (')' :: r) := by
    cases v with
    | plain name => exact absurd rfl (hplain name)
    | _ => rfl
  have hopen (cs : List Char) : mark? "(" ('(' :: cs) = some cs := rfl
  have hclose (cs : List Char) : mark? ")" (')' :: cs) = some cs := rfl
  have hlength : (v.argument o [')']).length ≤ (v.chars o).length := by
    rw [← append_nil (v.chars o), Validator.chars_append, hafter]
    simp
    omega
  intro fuel hfuel r hr
  obtain ⟨fuel, rfl⟩ := exists_eq_succ_of_ne_zero (ne_zero_of_lt hfuel)
  rw [Validator.chars_append, hafter, check?_member ho hword.1 (followedBy_cons (by decide) _),
    if_neg hword.2, applied?, hopen, Option.bind_eq_bind, Option.bind_some, h fuel (by omega)]
  simp [hclose]

theorem reads_oneOf {values : List Literal}
    (h : ∀ l ∈ values, l.IsWritable) : Reads o (.oneOf values) := by
  refine reads_of_argument? ho (by simp) fun fuel _ r => ?_
  have hblank (cs : List Char) : literal? (' ' :: cs) = literal? cs := rfl
  have hlist := list?_brackets (r := ')' :: r) hblank
    (fun _ _ => mark?_of_literal?) fun l hl u hu => literal?_text o.quotes (h l hl) hu
  exact congrArg (Option.map _) hlist

theorem reads_arrayOf {e : Validator} (h : Reads o e) : Reads o (.arrayOf e) := by
  refine reads_of_argument? ho (by simp) fun fuel hfuel r => ?_
  have hlength : (e.chars o).length < fuel :=
    lt_of_succ_le (by simpa [Validator.argument] using hfuel)
  exact congrArg (Option.map _) (h fuel hlength (')' :: r) (followedBy_cons (by decide) r))

theorem reads_oneOfType {branches : List Validator}
    (h : ∀ v ∈ branches, Reads o v) : Reads o (.oneOfType branches) := by
  refine reads_of_argument? ho (by simp) fun fuel hfuel r => ?_
  have hbranch (v : Validator) (hv : v ∈ branches) : (v.chars o).length < fuel :=
    (lt_succ_of_le (length_le_listed_of_mem (mem_map_of_mem hv) _)).trans_le hfuel
  have hlist := list?_brackets (r := ')' :: r) (check?_blank o.importedName fuel)
    (fun _ _ hread => mark?_of_check? hread "]")
    fun v hv u hu => h v hv fuel (hbranch v hv) u (hu.of_subset (by decide))
  exact congrArg (Option.map _) hlist

theorem reads_instanceOf {name : String} (h : IsReference name) : Reads o (.instanceOf name) := by
  refine reads_of_argument? ho (by simp) fun fuel _ r => ?_
  exact congrArg (Option.map _) (reference?_append h (followedBy_cons (by decide) r))

theorem reads_shape {fields : List ValidatorField}
    (h : ∀ f ∈ fields, IsKey f.name ∧ Reads o f.validator) : Reads o (.shape fields) := by
  refine reads_of_argument? ho (by simp) fun fuel hfuel r => ?_
  have hfield (f : ValidatorField) (hf : f ∈ fields) : (f.validator.chars o).length < fuel := by
    have hmem := length_le_listed_of_mem (mem_map_of_mem (f := Validator.fieldChars o) hf)
      [' ', '\x7d', ')']
    obtain ⟨name, required, v⟩ := f
    simp only [Validator.argument, length_cons] at hfuel
    simp only [Validator.fieldChars, length_append, length_cons] at hmem
    rw [ValidatorField.validator]
    omega
  have hopen (cs : List Char) : mark? "\x7b" ('\x7b' :: cs) = some cs := rfl
  have hclose : mark? "\x7d" (' ' :: '\x7d' :: ')' :: r) = some (')' :: r) := rfl
  have hcomma : mark? "," (' ' :: '\x7d' :: ')' :: r) = none := rfl
  have hpoint {u : List Char} (hu : u = ' ' :: '\x7d' :: ')' :: r ∨ ∃ t, u = ',' :: t) :
      FollowedBy [',', ' '] u ∧ mark? "." u = none := by
    rcases hu with rfl | ⟨t, rfl⟩
    · exact ⟨followedBy_cons (by decide) _, rfl⟩
    · exact ⟨followedBy_cons (by decide) t, rfl⟩
  have hblank (cs : List Char) : field? (check? o.importedName fuel) (' ' :: cs) =
      field? (check? o.importedName fuel) cs := rfl
  have hlength := length_le_listed (fields.map (Validator.fieldChars o))
    (cons_ne_nil ' ' ('\x7d' :: ')' :: r))
  rw [length_map] at hlength
  have hlist : list? "\x7b" "\x7d" (field? (check? o.importedName fuel))
      (Validator.argument o (.shape fields) (')' :: r)) = some (fields, ')' :: r) := by
    rw [Validator.argument, list?, hopen, Option.bind_eq_bind, Option.bind_some,
      items?_blank hblank]
    refine items?_listed hclose hcomma hblank ?_ ?_ _ (by rw [length_cons]; omega)
    · intro cs x hread
      obtain ⟨_, hkey, -⟩ := Option.bind_eq_some_iff.mp hread
      exact mark?_of_key? hkey _
    · rintro ⟨name, required, v⟩ hf u hu
      obtain ⟨hfollowed, hnone⟩ := hpoint hu
      exact field?_fieldChars (h _ hf).1 required (h _ hf).2 (hfield _ hf) hfollowed hnone
  exact congrArg (Option.map _) hlist

end

mutual

theorem reads_of_isReadable (ho : IsReference o.importedName) :
    (v : Validator) → v.IsReadable → Reads o v
  | .plain _, h => reads_plain ho h
  | .oneOf _, h => reads_oneOf ho h
  | .arrayOf e, h => reads_arrayOf ho (reads_of_isReadable ho e h)
  | .shape fields, h => reads_shape ho (reads_of_areFieldsReadable ho fields h)
  | .oneOfType branches, h => reads_oneOfType ho (reads_of_areReadable ho branches h)
  | .instanceOf _, h => reads_instanceOf ho h

theorem reads_of_areReadable (ho : IsReference o.importedName) :
    (vs : List Validator) → Validator.AreReadable vs → ∀ v ∈ vs, Reads o v
  | [], _ => forall_mem_nil _
  | v :: vs, h => forall_mem_cons.mpr
    ⟨reads_of_isReadable ho v h.1, reads_of_areReadable ho vs h.2⟩

theorem reads_of_areFieldsReadable (ho : IsReference o.importedName) :
    (fields : List ValidatorField) → Validator.AreFieldsReadable fields →
      ∀ f ∈ fields, IsKey f.name ∧ Reads o f.validator
  | [], _ => forall_mem_nil _
  | .mk _ _ v :: fields, h => forall_mem_cons.mpr
    ⟨⟨h.1.1, reads_of_isReadable ho v h.1.2⟩, reads_of_areFieldsReadable ho fields h.2⟩

end

def entryField? (imported : String) (cs : List Char) : Option ValidatorField := do
  let (f, r) ← field? (check? imported (cs.length + 1)) cs
  let r ← mark? "," r
  if r.all fun c => c = ' ' ∨ c = '\n' then some f else none

theorem entryField?_fieldChars {name : String} (hname : IsKey name) (required : Bool)
    (hv : Reads o v) :
    entryField? o.importedName
      (' ' :: ' ' :: (Validator.fieldChars o (.mk name required v) ++ [',', '\n'])) =
      some (.mk name required v) := by
  have hcomma (cs : List Char) : mark? "," (',' :: cs) = some cs := rfl
  have hpoint (cs : List Char) : mark? "." (',' :: cs) = none := rfl
  have hblank (fuel : Nat) (cs : List Char) :
      field? (check? o.importedName fuel) (' ' :: cs) = field? (check? o.importedName fuel) cs :=
    rfl
  have hlength : (v.chars o).length <
      (' ' :: ' ' :: (Validator.fieldChars o (.mk name required v) ++ [',', '\n'])).length + 1 := by
    simp only [Validator.fieldChars, length_cons, length_append]
    omega
  rw [entryField?, hblank, hblank, field?_fieldChars hname required hv hlength
    (followedBy_cons (by decide) _) (hpoint _)]
  simp only [Option.bind_eq_bind, Option.bind_some, hcomma]
  exact if_pos rfl

end Check

namespace Validator

variable {o : ValidatorOptions} {v w : Validator}

theorem check?_text (ho : IsReference o.importedName) (hv : v.IsReadable) :
    Check.check? o.importedName ((v.text o).length + 1) (v.text o).toList = some (v, []) := by
  have hread := Check.reads_of_isReadable ho v hv _ (lt_succ_self _) [] (followedBy_nil _)
  rwa [append_nil] at hread

theorem text_inj (ho : IsReference o.importedName) (hv : v.IsReadable) (hw : w.IsReadable)
    (h : v.text o = w.text o) : v = w := by
  have hread := check?_text ho hv
  rw [h, check?_text ho hw] at hread
  exact (Prod.mk.inj (Option.some.inj hread)).1.symm

end Validator

end PropContract
