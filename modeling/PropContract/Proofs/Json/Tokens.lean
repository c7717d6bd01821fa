import Mathlib.Data.List.Chain
import PropContract.Json.Reader
import PropContract.Proofs.Text.Marks

/-!
The tokens of JSON text, and the values they spell: in strict JSON, and with commas after last
elements too.
-/

namespace PropContract.Json

open List

/-- What JSON text is made of: brackets, commas and colons, words without quotes, and strings. -/
inductive Token where
  | mark (c : Char)
  | word (chars : List Char)
  | string (body : List Char)
  deriving DecidableEq, Repr

def marks : List Char :=
  ['[', ']', '\x7b', '\x7d', ',', ':']

def isWordChar (c : Char) : Bool :=
  isDigit c || ['+', '-', '.', 'E', 'a', 'e', 'f', 'l', 'n', 'r', 's', 't', 'u'].contains c

inductive IsBody : List Char → Prop
  | nil : IsBody []
  | plain (hquote : c ≠ '"') (hslash : c ≠ '\\') (h : IsBody cs) : IsBody (c :: cs)
  | escaped (c : Char) (h : IsBody cs) : IsBody ('\\' :: c :: cs)

namespace Token

def chars : Token → List Char
  | mark c => [c]
  | word cs => cs
  | string body => '"' :: (body ++ ['"'])

def IsWritten : Token → Prop
  | mark c => c ∈ marks
  | word cs => cs ≠ [] ∧ ∀ c ∈ cs, isWordChar c
  | string body => IsBody body

def isWord : Token → Bool
  | word _ => true
  | _ => false

def Apart (s t : Token) : Prop :=
  s.isWord = true → t.isWord = false

def extend (c : Char) : List Token → List Token
  | word cs :: ts => word (c :: cs) :: ts
  | string cs :: ts => string (c :: cs) :: ts
  | ts => ts

end Token

open Token (extend)

/-- The tokens of a text that has blanks between them; `true` for the rest of a text from inside a
string on. -/
def tokens? : Bool → List Char → Option (List Token)
  | false, [] => some []
  | true, [] => none
  | true, '\\' :: c :: rest => (tokens? true rest).map fun ts => extend '\\' (extend c ts)
  | true, c :: rest =>
    if c = '"' then (tokens? false rest).map (.string [] :: ·)
    else (tokens? true rest).map (extend c)
  | false, c :: rest =>
    if isSpace c then tokens? false rest
    else if c = '"' then tokens? true rest
    else if c ∈ marks then (tokens? false rest).map (.mark c :: ·)
    else if isWordChar c then
      (tokens? false rest).map fun ts =>
        if rest.head?.any isWordChar then extend c ts else .word [c] :: ts
    else none

def IsBlank (gap : List Char) : Prop :=
  ∀ c ∈ gap, isSpace c

inductive Written (gap ending : List Char → Prop) : List Token → List Char → Prop
  | nil (h : ending last) : Written gap ending [] last
  | cons {before r : List Char} {t : Token} {ts : List Token} (hbefore : gap before)
      (ht : t.IsWritten) (h : Written gap ending ts r) :
      Written gap ending (t :: ts) (before ++ (t.chars ++ r))

theorem not_isWordChar : ∀ c ∈ ' ' :: '\n' :: '\t' :: '\r' :: '"' :: marks, isWordChar c = false :=
  forall_mem_of_all (by decide)

theorem not_isSpace : ∀ c ∈ '"' :: marks, isSpace c = false :=
  forall_mem_of_all (by decide)

theorem tokens?_gap {gap : List Char} (h : IsBlank gap) (r : List Char) :
    tokens? false (gap ++ r) = tokens? false r := by
  induction gap with
  | nil => rfl
  | cons c gap ih =>
    obtain ⟨hc, hgap⟩ := List.forall_mem_cons.mp h
    rw [List.cons_append, tokens?, if_pos hc, ih hgap]

theorem tokens?_body {body : List Char} (h : IsBody body) (r : List Char) :
    tokens? true (body ++ '"' :: r) = (tokens? false r).map (.string body :: ·) := by
  induction h with
  | nil =>
    rw [nil_append, tokens?, if_pos rfl]
    simp
  | plain hquote hslash _ ih =>
    rw [cons_append, tokens?, if_neg hquote, ih, Option.map_map]
    · rfl
    · exact fun _ _ hc => absurd hc hslash
  | escaped c _ ih =>
    rw [cons_append, cons_append, tokens?, ih, Option.map_map]
    rfl

theorem tokens?_cons {c : Char} (hc : isWordChar c) (r : List Char) :
    tokens? false (c :: r) = (tokens? false r).map fun ts =>
      if r.head?.any isWordChar then extend c ts else .word [c] :: ts := by
  have hne : ∀ d ∈ ' ' :: '\n' :: '\t' :: '\r' :: '"' :: marks, c ≠ d := by
    rintro d hd rfl
    rw [not_isWordChar c hd] at hc
    contradiction
  have hspace : isSpace c = false := by simp [isSpace, hne]
  have hmark : c ∉ marks := fun hm => hne c (by simp [hm]) rfl
  rw [tokens?, hspace, if_neg (by decide), if_neg (hne _ (by decide)), if_neg hmark, if_pos hc]

theorem tokens?_word {cs : List Char} (hne : cs ≠ []) (h : ∀ c ∈ cs, isWordChar c) {r : List Char}
    (hr : r.head?.any isWordChar = false) :
    tokens? false (cs ++ r) = (tokens? false r).map (.word cs :: ·) := by
  induction cs with
  | nil => exact absurd rfl hne
  | cons c cs ih =>
    obtain ⟨hc, hcs⟩ := List.forall_mem_cons.mp h
    rw [List.cons_append, tokens?_cons hc]
    cases cs with
    | nil => simp [hr]
    | cons d cs =>
      have hd : isWordChar d = true := hcs d List.mem_cons_self
      rw [ih (List.cons_ne_nil _ _) hcs, Option.map_map]
      simp [hd, Function.comp_def, extend]

variable {t : Token}

theorem Token.IsWritten.tokens?_chars (ht : t.IsWritten) {r : List Char}
    (hr : t.isWord → r.head?.any isWordChar = false) :
    tokens? false (t.chars ++ r) = (tokens? false r).map (t :: ·) := by
  cases t with
  | mark c =>
    have hc : c ∈ '"' :: marks := mem_cons_of_mem _ ht
    have hquote : c ≠ '"' := fun he => absurd (he ▸ ht : '"' ∈ marks) (by decide)
    rw [chars, singleton_append, tokens?, not_isSpace c hc, if_neg (by decide),
      if_neg hquote, if_pos (show c ∈ marks from ht)]
  | word cs => exact tokens?_word ht.1 ht.2 (hr rfl)
  | string body =>
    rw [chars, cons_append, tokens?, if_neg (by decide), if_pos rfl, append_assoc,
      singleton_append, tokens?_body ht]

theorem isWordChar_of_isSpace {c : Char} (h : isSpace c) : isWordChar c = false := by
  refine not_isWordChar c ?_
  simp only [isSpace, Bool.or_eq_true, decide_eq_true_eq] at h
  rcases h with ((rfl | rfl) | rfl) | rfl <;> decide

theorem head_blank {gap r : List Char} (h : IsBlank gap) (hr : r.head?.any isWordChar = false) :
    (gap ++ r).head?.any isWordChar = false := by
  cases gap with
  | nil => exact hr
  | cons c gap => exact isWordChar_of_isSpace (h c mem_cons_self)

theorem Token.IsWritten.head_chars (ht : t.IsWritten) (hword : t.isWord = false) (r : List Char) :
    (t.chars ++ r).head?.any isWordChar = false := by
  cases t with
  | mark c => exact not_isWordChar c (by simp [show c ∈ marks from ht])
  | word cs => contradiction
  | string body => rfl

variable {ts : List Token}

theorem tokens?_written {text : List Char} (h : Written IsBlank IsBlank ts text)
    (hapart : ts.IsChain Token.Apart) : tokens? false text = some ts := by
  induction h with
  | nil hlast =>
    have hnil := tokens?_gap hlast []
    rwa [append_nil] at hnil
  | @cons _ r t ts hgap ht h ih =>
    have hhead : t.isWord → r.head?.any isWordChar = false := by
      intro hword
      cases h with
      | nil hlast => simpa using head_blank hlast (r := []) rfl
      | cons hgap' ht' _ =>
        have hnext := (isChain_cons_cons.mp hapart).1 hword
        exact head_blank hgap' (ht'.head_chars hnext _)
    rw [tokens?_gap hgap, ht.tokens?_chars hhead, ih (isChain_of_isChain_cons hapart)]
    rfl

theorem Written.flatMap_chars {gap ending : List Char → Prop} {text : List Char}
    (h : Written gap ending ts text) : Written IsBlank IsBlank ts (ts.flatMap Token.chars) := by
  have hnil : IsBlank [] := by simp [IsBlank]
  induction h with
  | nil => exact .nil hnil
  | cons _ ht _ ih => exact .cons hnil ht ih

def Says (body : List Char) (s : Option String) : Prop :=
  ∃ rest, stringBody? ((body ++ '"' :: rest).length + 1) (some []) (body ++ '"' :: rest) =
    some (s, rest)

inductive Token.Denotes : Token → Json → Prop
  | null : Denotes (.word ['n', 'u', 'l', 'l']) null
  | true : Denotes (.word ['t', 'r', 'u', 'e']) (bool Bool.true)
  | false : Denotes (.word ['f', 'a', 'l', 's', 'e']) (bool Bool.false)
  | number (h : number? (cs ++ rest) = some (v, rest)) : Denotes (.word cs) v
  | string (h : Says body s) : Denotes (.string body) (s.elim unreadable Json.string)

inductive Bracket where
  | square
  | curly

namespace Bracket

def opening : Bracket → Token
  | square => .mark '['
  | curly => .mark '\x7b'

def closing : Bracket → Token
  | square => .mark ']'
  | curly => .mark '\x7d'

def empty : Bracket → Json
  | square => array []
  | curly => object []

def addItem (item : Json) : Json → Json
  | array items => array (item :: items)
  | _ => unreadable

/-- What stands before an element between brackets, and how the element is put before others. -/
inductive Leads : Bracket → List Token → (Json → Json → Json) → Prop
  | item : Leads square [] addItem
  | member (h : Says body name) : Leads curly [.string body, .mark ':'] (withMember name)

end Bracket

def trailing (comma : Bool) : List Token :=
  if comma then [.mark ','] else []

inductive Part where
  | value
  | elements (b : Bracket)

/-- The tokens of a value, or of the elements between brackets: those of strict JSON, and those of
a spelling in which a comma may follow the last element. -/
inductive Spelt : Part → Json → List Token → List Token → Prop
  | scalar {t : Token} (h : t.Denotes v) : Spelt .value v [t] [t]
  | empty (b : Bracket) : Spelt .value b.empty [b.opening, b.closing] [b.opening, b.closing]
  | filled (comma : Bool) (h : Spelt (.elements b) v s l) :
      Spelt .value v (b.opening :: (s ++ [b.closing]))
        (b.opening :: (l ++ (trailing comma ++ [b.closing])))
  | one (hlead : b.Leads lead add) (h : Spelt .value v s l) :
      Spelt (.elements b) (add v b.empty) (lead ++ s) (lead ++ l)
  | more (hlead : b.Leads lead add) (h : Spelt .value v s l)
      (hrest : Spelt (.elements b) rest s' l') :
      Spelt (.elements b) (add v rest) (lead ++ (s ++ .mark ',' :: s'))
        (lead ++ (l ++ .mark ',' :: l'))

def closes (ts : List Token) : Bool :=
  ts.head? == some (.mark ']') || ts.head? == some (.mark '\x7d')

def untrail : List Token → List Token
  | [] => []
  | t :: ts => if t == .mark ',' && closes ts then untrail ts else t :: untrail ts

theorem untrail_cons (ht : t ≠ .mark ',') (ts : List Token) :
    untrail (t :: ts) = t :: untrail ts := by
  rw [untrail, if_neg (by simp [ht])]

theorem closes_untrail (h : closes ts) : closes (untrail ts) := by
  cases ts with
  | nil => exact h
  | cons t ts =>
    have hne : t ≠ .mark ',' := by
      rintro rfl
      cases h
    rw [untrail_cons hne]
    exact h

theorem length_untrail_le (ts : List Token) : (untrail ts).length ≤ ts.length := by
  induction ts with
  | nil => rfl
  | cons t ts ih =>
    rw [untrail]
    split <;> simp only [length_cons] <;> omega

theorem isChain_cons (ht : t.isWord = false) (h : ts.IsChain Token.Apart) :
    (t :: ts).IsChain Token.Apart :=
  h.cons fun _ _ hword => absurd hword (by simp [ht])

/-- The tokens `s` are the tokens `l` without trailing commas, and no two words of them touch. -/
structure Fit (s l : List Token) : Prop where
  untrail_append : ∀ r, untrail (l ++ r) = s ++ untrail r
  apart : ∀ r, r.IsChain Token.Apart → (∀ t ∈ r.head?, t.isWord = false) →
    (s ++ r).IsChain Token.Apart

def Opens (l : List Token) : Prop :=
  ∀ r, closes (l ++ r) = false

namespace Fit

variable {s l s' l' : List Token}

theorem nil : Fit [] [] :=
  ⟨fun _ => rfl, fun _ hr _ => hr⟩

theorem single {t : Token} (ht : t ≠ .mark ',') : Fit [t] [t] where
  untrail_append := untrail_cons ht
  apart _ hr hhead := hr.cons fun u hu _ => hhead u hu

theorem cons {t : Token} (hword : t.isWord = false) (hcomma : t ≠ .mark ',') (h : Fit s l) :
    Fit (t :: s) (t :: l) where
  untrail_append r := by rw [cons_append, untrail_cons hcomma, h.untrail_append]; rfl
  apart r hr hhead := isChain_cons hword (h.apart r hr hhead)

theorem close (h : Fit s l) (b : Bracket) (comma : Bool) :
    Fit (s ++ [b.closing]) (l ++ (trailing comma ++ [b.closing])) where
  untrail_append r := by
    rw [append_assoc, h.untrail_append]
    cases b <;> cases comma <;> simp [trailing, Bracket.closing, untrail, closes]
  apart r hr hhead := by
    have hb : b.closing.isWord = false := by cases b <;> rfl
    rw [append_assoc]
    exact h.apart _ (isChain_cons hb hr) (by simpa using hb)

theorem comma (h : Fit s l) (h' : Fit s' l') (hopens : Opens l') :
    Fit (s ++ .mark ',' :: s') (l ++ .mark ',' :: l') where
  untrail_append r := by
    rw [append_assoc, h.untrail_append, cons_append, untrail, hopens]
    simp [h'.untrail_append]
  apart r hr hhead := by
    rw [append_assoc]
    exact h.apart _ (isChain_cons rfl (h'.apart r hr hhead)) (by simp [Token.isWord])

theorem opening (h : Fit s l) (b : Bracket) :
    Fit (b.opening :: s) (b.opening :: l) ∧ Opens (b.opening :: l) := by
  cases b <;> exact ⟨h.cons rfl (by decide), fun _ => rfl⟩

theorem lead {b : Bracket} {lead : List Token} {add : Json → Json → Json}
    (hlead : b.Leads lead add) (h : Fit s l) (hopens : Opens l) :
    Fit (lead ++ s) (lead ++ l) ∧ Opens (lead ++ l) := by
  cases hlead with
  | item => exact ⟨h, hopens⟩
  | member => exact ⟨(h.cons rfl (by decide)).cons rfl (by simp), fun _ => rfl⟩

end Fit

section

variable {part : Part} {v : Json} {s l : List Token}

theorem Spelt.fit (h : Spelt part v s l) : Fit s l ∧ Opens l := by
  induction h with
  | scalar h => cases h <;> exact ⟨.single (by simp), fun _ => rfl⟩
  | empty b => exact (Fit.nil.close b false).opening b
  | filled comma _ ih => exact (ih.1.close _ comma).opening _
  | one hlead _ ih => exact ih.1.lead hlead ih.2
  | more hlead _ _ ih ihrest =>
    refine (ih.1.comma ihrest.1 ihrest.2).lead hlead fun r => ?_
    rw [append_assoc]
    exact ih.2 _

theorem Spelt.strict (h : Spelt part v s l) : Spelt part v s s := by
  induction h with
  | scalar h => exact .scalar h
  | empty b => exact .empty b
  | filled _ _ ih => exact .filled false ih
  | one hlead _ ih => exact .one hlead ih
  | more hlead _ _ ih ihrest => exact .more hlead ih ihrest

theorem Spelt.untrail_eq (h : Spelt part v s l) : untrail l = s := by
  simpa [untrail] using h.fit.1.untrail_append []

theorem Spelt.isChain (h : Spelt part v s l) : s.IsChain Token.Apart := by
  simpa using h.fit.1.apart [] .nil (by simp)

end

end PropContract.Json
