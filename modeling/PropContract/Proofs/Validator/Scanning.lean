import PropContract.Proofs.Validator.Expansion

namespace PropContract

open List
open Syntax.Lexer (isName)

variable {u : List Char} {texts : List (List Char)}

inductive Scan.Mode where
  | code
  | string (mark : Char)
  | escape (mark : Char)
  deriving DecidableEq

structure Scan where
  awaited : List Char := []
  mode : Scan.Mode := .code
  deriving DecidableEq

namespace Scan

def closing? : Char → Option Char
  | '(' => some ')'
  | '[' => some ']'
  | '{' => some '}'
  | _ => none

/-- Passes over a character. A string ends at a quote like the one it began with, and no line
ends inside it; a bracket is closed by one of its kind. -/
def step (s : Scan) (c : Char) : Option Scan :=
  match s.mode with
  | .escape mark => if c = '\n' ∨ c = '\r' then none else some { s with mode := .string mark }
  | .string mark =>
    if c = mark then some { s with mode := .code }
    else if c = '\\' then some { s with mode := .escape mark }
    else if c = '\n' ∨ c = '\r' then none
    else some s
  | .code =>
    if c = '\'' ∨ c = '"' then some { s with mode := .string c }
    else if (closing? c).isSome then some { s with awaited := (closing? c).toList ++ s.awaited }
    else if c = ')' ∨ c = ']' ∨ c = '}' then
      if s.awaited.head? = some c then some { s with awaited := s.awaited.tail } else none
    else some s

/-- The pieces of a text between the characters `cut` that stand in no string and no bracket,
`done` being what the piece before the text has already, in reverse. There are none if a string or
a bracket does not end. -/
def split (cut : Char → Bool) : Scan → List Char → List Char → Option (List (List Char))
  | s, done, [] => if s = {} then some [done.reverse] else none
  | s, done, c :: cs =>
    if cut c ∧ s = {} then (split cut {} [] cs).map fun pieces => done.reverse :: pieces
    else (s.step c).bind fun s => split cut s (c :: done) cs

def IsBalanced (text : List Char) : Prop :=
  split (fun _ => false) {} [] text = some [text]

def entries? (body : List Char) : Option (List (List Char)) :=
  (split (fun c => c = ',') {} [] body).map fun pieces =>
    if (pieces.getLastD []).all Char.isWhitespace then pieces.dropLast else pieces

def keyName? (key : List Char) : Option String :=
  match Syntax.Lexer.scan false (.ofText key) with
  | (.name text _, ⟨[], _⟩) | (.string text, ⟨[], _⟩) => some text
  | _ => none

def entryName? (entry : List Char) : Option String := do
  let pieces ← split (fun c => c = ':') {} [] entry
  keyName? ((pieces.headD []).dropWhile fun c => c = ' ' ∨ c = '\n')

def marks : List Char :=
  ['\'', '"', '(', ')', '[', ']', '{', '}', ',', ':']

/-- Code in which every string and every bracket ends. What `cut` tells of stands in brackets, or
anywhere if the code is `inside` of some. -/
inductive Closed (cut : Char → Bool) : Bool → List Char → Prop where
  | nil {inside : Bool} : Closed cut inside []
  | char {inside : Bool} {c : Char} : c ∉ marks ∨ (c = ',' ∨ c = ':') ∧ (cut c → inside) →
      Closed cut inside [c]
  | quoted {inside : Bool} (style : QuoteStyle) (s : String) :
      Closed cut inside (Quoted.encode style s).toList
  | append {inside : Bool} {u v : List Char} :
      Closed cut inside u → Closed cut inside v → Closed cut inside (u ++ v)
  | bracket {inside : Bool} {c z : Char} {u : List Char} :
      closing? c = some z → Closed cut true u → Closed cut inside (c :: (u ++ [z]))

variable {cut : Char → Bool}

theorem split_of_step {s s' : Scan} {c : Char} (hcut : ¬ (cut c ∧ s = {}))
    (hstep : s.step c = some s') (done cs : List Char) :
    split cut s done (c :: cs) = split cut s' (c :: done) cs := by
  rw [split, if_neg hcut, hstep, Option.bind_some]

theorem split_of_step_string {awaited : List Char} {mode : Mode} {s : Scan} {c : Char}
    (hstep : step ⟨awaited, mode⟩ c = some s) (hmode : mode ≠ .code) (done cs : List Char) :
    split cut ⟨awaited, mode⟩ done (c :: cs) = split cut s (c :: done) cs := by
  apply split_of_step _ hstep
  simp [hmode]

theorem split_escape {mark : Char} (hmark : mark = '\'' ∨ mark = '"') (awaited done r : List Char)
    (c : Char) :
    split cut ⟨awaited, .string mark⟩ done (Quoted.escape mark c ++ r) =
      split cut ⟨awaited, .string mark⟩ ((Quoted.escape mark c).reverse ++ done) r := by
  rcases Quoted.escape_cases mark c with ⟨d, hd, hn, hr⟩ | ⟨hc, hslash, hm, hn, hr⟩
  · have hslash : step ⟨awaited, .string mark⟩ '\\' = some ⟨awaited, .escape mark⟩ := by
      rcases hmark with rfl | rfl <;> rfl
    have hchar : step ⟨awaited, .escape mark⟩ d = some ⟨awaited, .string mark⟩ := by
      simp [step, hn, hr]
    rw [hd, cons_append, split_of_step_string hslash nofun, cons_append,
      split_of_step_string hchar nofun]
    rfl
  · have hchar : step ⟨awaited, .string mark⟩ c = some ⟨awaited, .string mark⟩ := by
      simp [step, *]
    rw [hc, cons_append, split_of_step_string hchar nofun]
    rfl

theorem split_quoted (awaited done r : List Char) (style : QuoteStyle) (s : String)
    (hcut : cut style.mark = false) :
    split cut ⟨awaited, .code⟩ done ((Quoted.encode style s).toList ++ r) =
      split cut ⟨awaited, .code⟩ ((Quoted.encode style s).toList.reverse ++ done) r := by
  have hmark := Quoted.mark_cases style
  have hopen : step ⟨awaited, .code⟩ style.mark = some ⟨awaited, .string style.mark⟩ := by
    simp [step, hmark]
  have hclose : step ⟨awaited, .string style.mark⟩ style.mark = some ⟨awaited, .code⟩ := by
    simp [step]
  have hbody (u done r : List Char) :
      split cut ⟨awaited, .string style.mark⟩ done (u.flatMap (Quoted.escape style.mark) ++ r) =
        split cut ⟨awaited, .string style.mark⟩
          ((u.flatMap (Quoted.escape style.mark)).reverse ++ done) r := by
    induction u generalizing done with
    | nil => rfl
    | cons c u ih =>
      rw [flatMap_cons, append_assoc, split_escape hmark, ih, reverse_append,
        append_assoc]
  rw [Quoted.toList_encode, split_of_step (by simp [hcut]) hopen, hbody,
    split_of_step_string hclose nofun]
  simp [Quoted.encode]

theorem step_bracket {c z : Char} (h : closing? c = some z) (awaited : List Char) :
    (c ≠ ',' ∧ c ≠ ':') ∧ step ⟨awaited, .code⟩ c = some ⟨z :: awaited, .code⟩ ∧
      step ⟨z :: awaited, .code⟩ z = some ⟨awaited, .code⟩ := by
  unfold closing? at h
  split at h <;> cases h <;> simp [step, closing?]

theorem Closed.split_append {inside : Bool} (h : Closed cut inside u)
    (hcut : ∀ c, cut c → c = ',' ∨ c = ':') {awaited : List Char}
    (hinside : inside → awaited ≠ []) (done r : List Char) :
    split cut ⟨awaited, .code⟩ done (u ++ r) =
      split cut ⟨awaited, .code⟩ (u.reverse ++ done) r := by
  induction h generalizing awaited done r with
  | nil => rfl
  | @char inside c hc =>
    have hstep : step ⟨awaited, .code⟩ c = some ⟨awaited, .code⟩ := by
      rcases hc with hc | ⟨rfl | rfl, -⟩
      · simp only [marks, mem_cons, not_mem_nil, not_or] at hc
        have hnone : closing? c = none := by simp [closing?, hc]
        simp [step, hc, hnone]
      · rfl
      · rfl
    refine split_of_step ?_ hstep done r
    rintro ⟨hc', hstart⟩
    rcases hc with hc | ⟨-, hc⟩
    · rcases hcut c hc' with rfl | rfl <;> simp [marks] at hc
    · exact hinside (hc hc') (congrArg Scan.awaited hstart)
  | quoted style s =>
    apply split_quoted
    cases hmark : cut style.mark with
    | false => rfl
    | true => cases style <;> exact absurd (hcut _ hmark) (by decide)
  | append _ _ ihu ihv =>
    rw [append_assoc, ihu hinside, ihv hinside, reverse_append, append_assoc]
  | @bracket inside c z u hz _ ih =>
    -- Between the brackets one more is awaited, so that nothing is cut there.
    obtain ⟨hne, hopen, hclose⟩ := step_bracket hz awaited
    have hnot : ¬ cut c := fun h => (hcut c h).elim hne.1 hne.2
    rw [cons_append, split_of_step (by simp [hnot]) hopen, append_assoc,
      ih fun _ => cons_ne_nil _ _, cons_append,
      split_of_step (by simp) hclose]
    simp

theorem Closed.split_eq (h : Closed cut false u)
    (hcut : ∀ c, cut c → c = ',' ∨ c = ':') : split cut {} [] u = some [u] := by
  have hpassed : split cut ⟨[], .code⟩ [] (u ++ []) = _ := h.split_append hcut nofun [] []
  rw [append_nil, append_nil] at hpassed
  rw [hpassed, split, if_pos rfl, reverse_reverse]

theorem split_lines (h : ∀ t ∈ texts, Closed (· = ',') false t) :
    split (· = ',') {} ['\n'] (texts.flatMap fun t => t ++ [',', '\n']) =
      some (texts.map ('\n' :: ·) ++ [['\n']]) := by
  induction texts with
  | nil => rfl
  | cons t ts ih =>
    obtain ⟨ht, hts⟩ := forall_mem_cons.mp h
    have hline (u : List Char) : split (· = ',') {} [] ('\n' :: u) = split (· = ',') {} ['\n'] u :=
      split_of_step (by decide) rfl [] u
    rw [flatMap_cons, append_assoc, ht.split_append (by simp) nofun, cons_append,
      split, if_pos (by decide), cons_append, nil_append, hline, ih hts]
    simp

section

variable {inside : Bool}

theorem closed_of_forall (h : ∀ c ∈ u, c ∉ marks) : Closed cut inside u := by
  induction u with
  | nil => exact .nil
  | cons c u ih =>
    obtain ⟨hc, hu⟩ := forall_mem_cons.mp h
    exact .append (.char (.inl hc)) (ih hu)

theorem not_mem_marks {p : Char → Bool} (hp : marks.all fun c => !p c) {c : Char} (hc : p c) :
    c ∉ marks := by
  intro hmark
  have hnot := all_eq_true.mp hp c hmark
  rw [hc] at hnot
  cases hnot

theorem closed_of_test {p : Char → Bool} (hp : marks.all fun c => !p c)
    (h : ∀ c ∈ u, p c) : Closed cut inside u :=
  closed_of_forall fun c hc => not_mem_marks hp (h c hc)

theorem not_mem_marks_of_isName {cs : List Char} (h : isName cs) :
    ∀ c ∈ cs, c ∉ marks := fun c hc =>
  not_mem_marks (by decide +kernel) (Syntax.Lexer.isNamePart_of_mem h hc)

theorem closed_name {cs : List Char} (h : isName cs) : Closed cut inside cs :=
  closed_of_forall (not_mem_marks_of_isName h)

variable (style : QuoteStyle)

theorem closed_key (name : String) : Closed cut inside (Quoted.key style name).toList := by
  unfold Quoted.key
  split
  · exact closed_of_test (by decide +kernel) (Quoted.isNameChar_of_isIdentifier ‹_›).2
  · exact .quoted style name

theorem rest_scan_ne_nil {name : String} (h : Quoted.isMisread name) :
    (Syntax.Lexer.scan false (.ofText name.toList)).2.rest ≠ [] := by
  obtain ⟨h, hname⟩ := Bool.and_eq_true_iff.mp h
  obtain ⟨hne, hall⟩ := Quoted.isNameChar_of_isIdentifier h
  obtain ⟨c, cs, hcs⟩ := exists_cons_of_ne_nil hne
  rw [hcs, isName] at hname
  rw [hcs] at hall ⊢
  cases hstart : Text.isNameStart c with
  | true =>
    -- The name is read up to the first character that is not of a name, and there is one.
    have hrest : cs.dropWhile Text.isNamePart ≠ [] := by
      rw [ne_eq, dropWhile_eq_nil_iff, ← all_eq_true]
      simpa [hstart] using hname
    have hend : ∀ d ∈ (cs.dropWhile Text.isNamePart).head?,
        Text.isNamePart d = false ∧ d ≠ '\\' := by
      intro d hd
      have hchar := hall d (mem_cons_of_mem c
        (dropWhile_subset _ (mem_of_mem_head? hd)))
      have hnot := head?_dropWhile_not Text.isNamePart cs
      rw [hd] at hnot
      refine ⟨hnot, ?_⟩
      rintro rfl
      revert hchar
      decide +kernel
    have hread : isName (c :: cs.takeWhile Text.isNamePart) := by
      rw [isName, hstart, Bool.true_and]
      exact all_takeWhile
    obtain ⟨m, hscan⟩ := Syntax.Lexer.scan_name hread hend false 0
    rw [cons_append, takeWhile_append_dropWhile] at hscan
    rwa [Syntax.Cursor.ofText, hscan]
  | false =>
    have hc : 0x80 ≤ c.toNat := by
      by_contra hascii
      have hascii : c.toNat < 0x80 := by omega
      rw [Text.isNameStart, if_pos hascii, Bool.or_assoc, Bool.or_eq_false_iff] at hstart
      simp_all [Quoted.isIdentifier, Text.isAlphabetic]
    rw [Syntax.Cursor.ofText, Syntax.Lexer.scan_eq_bad hc _ _ hstart]
    exact cons_ne_nil c cs

theorem keyName?_key (name : String) : keyName? (Quoted.key style name).toList =
    if Quoted.isMisread name then none else some name := by
  cases hmisread : Quoted.isMisread name with
  | true =>
    have hrest := rest_scan_ne_nil hmisread
    rw [Quoted.isMisread, Bool.and_eq_true] at hmisread
    rw [Quoted.key, if_pos hmisread.1, keyName?]
    split <;> simp_all
  | false =>
    unfold Quoted.key
    split
    · rename_i hidentifier
      have hname : isName name.toList := by
        simpa [Quoted.isMisread, hidentifier] using hmisread
      obtain ⟨n, hscan⟩ := Syntax.Lexer.scan_name hname (r := []) (by simp) false 0
      rw [append_nil, String.ofList_toList] at hscan
      rw [keyName?, Syntax.Cursor.ofText, hscan]
      rfl
    · obtain ⟨n, hscan⟩ := Quoted.scan_encode style name false [] 0
      rw [append_nil] at hscan
      rw [keyName?, Syntax.Cursor.ofText, hscan]
      rfl

theorem closed_number (v : Double) : Closed cut inside v.plainText.toList := by
  apply closed_of_test (p := fun c => c.isAlphanum || c = '-' || c = '.') (by decide)
  intro c hc
  rw [Double.toList_plainText, mem_append] at hc
  rcases hc with hc | hc
  · cases hn : v.isNegative <;> simp_all [Double.signText]
  · cases v with
    | infinite negative =>
      revert c
      simp [Double.unsignedText]
    | finite negative m e =>
      rcases Double.unsignedText_chars negative m e c hc with hc | rfl <;> simp [Char.isAlphanum, *]

theorem closed_literal (l : Literal) :
    Closed cut inside (Validator.literalText style l).toList := by
  cases l with
  | string s => exact .quoted style s
  | number v => exact closed_number v
  | boolean b =>
    apply closed_of_test (p := Char.isAlpha) (by decide)
    cases b <;> simp [Validator.literalText]
  | null =>
    apply closed_of_test (p := Char.isAlpha) (by decide)
    simp [Validator.literalText]

theorem closed_listed {f : α → List Char} {xs : List α} (h : ∀ x ∈ xs, Closed cut true (f x)) :
    Closed cut true ([',', ' '].intercalate (xs.map f)) := by
  have hcomma : Closed cut true [',', ' '] :=
    .append (.char (.inr ⟨.inl rfl, fun _ => rfl⟩)) (.char (.inl (by decide)))
  induction xs with
  | nil => exact .nil
  | cons x xs ih =>
    obtain ⟨hx, hxs⟩ := forall_mem_cons.mp h
    cases xs with
    | nil => simpa using hx
    | cons y ys =>
      rw [map_cons, map_cons, intercalate_cons_cons]
      exact .append (.append hx hcomma) (ih hxs)

end

end Scan

def Shape.ClassesNamed (s : Shape) : Prop :=
  ∀ name, Shape.Within (.instance name) s → isName name.toList

namespace Validator

open Scan

variable {cut : Char → Bool} {o : ValidatorOptions} {inside : Bool} {v : Validator}

theorem closed_chars (ho : isName o.importedName.toList)
    (hname : ∀ name, v = plain name → name ∈ Check.plainNames)
    (h : Closed cut inside (v.afterWord o [])) : Closed cut inside (v.chars o) := by
  have hword : ∀ c ∈ v.word.toList, c.isAlpha := by
    cases v with
    | plain name =>
      have hnames : ∀ name ∈ Check.plainNames, name.toList.all Char.isAlpha :=
        forall_mem_of_all (by decide)
      exact all_eq_true.mp (hnames name (hname name rfl))
    | _ => exact forall_mem_of_all (by simp only [word]; decide)
  rw [← append_nil (v.chars o), chars_append]
  refine .append (closed_name ho) (.append (.char (.inl (by decide))) (.append ?_ h))
  exact closed_of_test (by decide) hword

theorem closed_oneOf (ho : isName o.importedName.toList) (ls : List Literal) (inside : Bool) :
    Closed cut inside ((oneOf ls).chars o) := by
  refine closed_chars ho (fun _ h => nomatch h) ?_
  have hlist : Closed cut true _ := closed_listed fun l (_ : l ∈ ls) => closed_literal o.quotes l
  have hargument : Closed cut inside _ := .bracket (c := '(') rfl (.bracket (c := '[') rfl hlist)
  simpa [afterWord, argument, listed] using hargument

theorem closed_oneOfType (ho : isName o.importedName.toList) {vs : List Validator}
    (h : ∀ v ∈ vs, ∀ inside, Closed cut inside (v.chars o)) (inside : Bool) :
    Closed cut inside ((oneOfType vs).chars o) := by
  refine closed_chars ho (fun _ h => nomatch h) ?_
  have hlist := closed_listed fun v hv => h v hv true
  have hargument : Closed cut inside _ := .bracket (c := '(') rfl (.bracket (c := '[') rfl hlist)
  simpa [afterWord, argument, listed] using hargument

theorem closed_check (h : Closed cut inside (v.chars o)) (required : Bool) :
    Closed cut inside (' ' :: v.chars o ++ (requiredText required).toList) := by
  refine .append (.append (.char (.inl (by decide))) h) ?_
  cases required with
  | false => exact .nil
  | true => exact closed_of_forall (forall_mem_of_all (by decide))

theorem closed_field (hinside : cut ':' → inside) (h : Closed cut inside (v.chars o))
    (name : String) (required : Bool) : Closed cut inside (fieldChars o (.mk name required v)) := by
  rw [fieldChars, append_assoc, cons_append]
  exact .append (closed_key o.quotes name)
    (.append (.char (.inr ⟨.inr rfl, hinside⟩)) (closed_check h required))

theorem closed_shape (ho : isName o.importedName.toList) {fields : List ValidatorField}
    (h : ∀ f ∈ fields, ∀ inside, Closed cut inside (f.validator.chars o)) (inside : Bool) :
    Closed cut inside ((shape fields).chars o) := by
  refine closed_chars ho (fun _ h => nomatch h) ?_
  have hlist : Closed cut true ([',', ' '].intercalate (fields.map (fieldChars o))) :=
    closed_listed fun ⟨name, required, _⟩ hf =>
      closed_field (fun _ => rfl) (h _ hf true) name required
  have hblank : Closed cut true [' '] := .char (.inl (by decide))
  have hargument : Closed cut inside _ :=
    .bracket (c := '(') rfl (.bracket (c := '{') rfl (.append hblank (.append hlist hblank)))
  simpa [afterWord, argument, listed] using hargument

theorem closedRule (ho : isName o.importedName.toList) :
    Rule (fun _ => True) Shape.ClassesNamed fun v => ∀ inside, Closed cut inside (v.chars o) where
  plain hword _ := closed_chars ho (fun _ h => (plain.inj h) ▸ hword) .nil
  literals _ := closed_oneOf ho _
  oneOf _ := closed_oneOf ho _
  element h name hw := h name (.arrayOf hw)
  arrayOf h _ := closed_chars ho (fun _ h => nomatch h) (.bracket (c := '(') rfl (h true))
  props h _ hp := ⟨trivial, fun name hw => h name (.object hp hw)⟩
  shape h := closed_shape ho fun f hf => (h f hf).2
  members h _ hs name hw := h name (.union hs hw)
  oneOfType := closed_oneOfType ho
  instanceOf h _ :=
    closed_chars ho (fun _ h => nomatch h)
      (.bracket (c := '(') rfl (closed_name (h _ (.refl _))))

end Validator

structure Component.ClassesNamed (c : Component) : Prop where
  props : ∀ p ∈ c.props, p.shape.ClassesNamed
  definitions : ∀ s ∈ c.definitions.values, s.ClassesNamed

namespace Block

open Scan

variable {o : ValidatorOptions} {c : Component}

def entryChars (o : ValidatorOptions) (c : Component) (p : PropInfo) : List Char :=
  ' ' :: ' ' :: Validator.fieldChars o (.mk p.name p.required (Validator.ofComponent o c p.shape))

theorem map_snd_entries (hdocs : o.includeDocs = false) (hcomments : o.includeComments = false) :
    (entries o c).map Prod.snd =
      ((ordered o c).map (entryChars o c)).map fun t => String.ofList (t ++ [',', '\n']) := by
  rw [entries, map_map, map_map]
  refine map_congr_left fun p _ => String.toList_inj.mp ?_
  simp [entry, docText, typeComment, hdocs, hcomments, entryChars, Validator.fieldChars,
    Validator.chars]

def bodyChars (texts : List (List Char)) : List Char :=
  if texts.isEmpty then [] else '\n' :: texts.flatMap fun t => t ++ [',', '\n']

theorem toList_wrap (hcomment : o.comment = none) (name : String) (texts : List (List Char)) :
    (wrap o name (texts.map fun t => String.ofList (t ++ [',', '\n']))).toList =
      (name.toList ++ ".propTypes = ".toList) ++
        '\x7b' :: (bodyChars texts ++ '\x7d' :: [';', '\n']) := by
  cases texts with
  | nil => simp [wrap, commentText, hcomment, bodyChars]
  | cons t ts =>
    simp [wrap, commentText, hcomment, bodyChars, flatMap_def, Function.comp_def]

theorem entries?_bodyChars (h : ∀ t ∈ texts, Closed (· = ',') false t) :
    entries? (bodyChars texts) = some (texts.map ('\n' :: ·)) := by
  unfold bodyChars entries?
  split
  · rename_i hempty
    rw [isEmpty_iff.mp hempty]
    rfl
  · rw [split_of_step (by decide) rfl, split_lines h]
    simp

variable {cut : Char → Bool} {p : PropInfo}

theorem closed_bodyChars (h : ∀ t ∈ texts, Closed cut true t) :
    Closed cut true (bodyChars texts) := by
  have hline : Closed cut true ['\n'] := .char (.inl (by decide))
  have hlines : Closed cut true (texts.flatMap fun t => t ++ [',', '\n']) := by
    induction texts with
    | nil => exact .nil
    | cons t ts ih =>
      obtain ⟨ht, hts⟩ := forall_mem_cons.mp h
      rw [flatMap_cons]
      exact .append (.append ht (.append (.char (.inr ⟨.inl rfl, fun _ => rfl⟩)) hline)) (ih hts)
  unfold bodyChars
  split
  · exact .nil
  · exact .append hline hlines

section

variable (ho : isName o.importedName.toList) (hc : c.ClassesNamed) (hp : p ∈ ordered o c)

include ho hc hp

theorem closed_check (inside : Bool) :
    Closed cut inside ((Validator.ofComponent o c p.shape).chars o) :=
  (Validator.closedRule ho).ofShape ((Validator.closedRule ho).ofReference hc.definitions _ _) _
    (hc.props p ((ordered_perm o c).mem_iff.mp hp)) inside

theorem closed_entryChars {inside : Bool} (hinside : cut ':' → inside) :
    Closed cut inside (entryChars o c p) :=
  .append (u := [' ', ' ']) (closed_of_forall (forall_mem_of_all (by decide)))
    (Validator.closed_field hinside (closed_check ho hc hp inside) p.name p.required)

theorem entryName?_entryChars : entryName? ('\n' :: entryChars o c p) =
    if Quoted.isMisread p.name then none else some p.name := by
  have hkey : Closed (· = ':') false ('\n' :: ' ' :: ' ' :: (Quoted.key o.quotes p.name).toList) :=
    .append (u := ['\n', ' ', ' ']) (closed_of_forall (forall_mem_of_all (by decide)))
      (closed_key o.quotes p.name)
  have hcheck : Closed (· = ':') false _ :=
    Validator.closed_check (closed_check ho hc hp false) p.required
  obtain ⟨ch, hhead, hblank⟩ := Quoted.key_start o.quotes p.name
  obtain ⟨rest, hrest⟩ := head?_eq_some_iff.mp hhead
  have hdrop : ('\n' :: ' ' :: ' ' :: (Quoted.key o.quotes p.name).toList).dropWhile
      (fun ch => ch = ' ' ∨ ch = '\n') = (Quoted.key o.quotes p.name).toList := by
    rw [hrest]
    simpa using hblank
  have hentry : '\n' :: entryChars o c p =
      ('\n' :: ' ' :: ' ' :: (Quoted.key o.quotes p.name).toList) ++ ':' ::
        (' ' :: (Validator.ofComponent o c p.shape).chars o ++
          (Validator.requiredText p.required).toList) := by
    simp [entryChars, Validator.fieldChars]
  rw [entryName?, hentry, hkey.split_append (by simp) (by simp), split, if_pos (by decide),
    hcheck.split_eq (by simp), append_nil, reverse_reverse, Option.map_some,
    Option.bind_eq_bind, Option.bind_some, headD_cons, hdrop, keyName?_key]

end

theorem entries?_body (ho : isName o.importedName.toList) (hc : c.ClassesNamed) :
    entries? (bodyChars ((ordered o c).map (entryChars o c))) =
      some ((ordered o c).map fun p => '\n' :: entryChars o c p) := by
  have hall : ∀ t ∈ (ordered o c).map (entryChars o c), Closed (· = ',') false t := by
    intro t ht
    obtain ⟨p, hp, rfl⟩ := mem_map.mp ht
    exact closed_entryChars ho hc hp (by decide)
  rw [entries?_bodyChars hall, map_map]
  rfl

theorem toList_ofComponent (hdocs : o.includeDocs = false) (hcomments : o.includeComments = false)
    (hcomment : o.comment = none) :
    (ofComponent o c).toList = (c.name.toList ++ ".propTypes = ".toList) ++
      '\x7b' :: (bodyChars ((ordered o c).map (entryChars o c)) ++ '\x7d' :: [';', '\n']) := by
  rw [ofComponent, map_snd_entries hdocs hcomments, toList_wrap hcomment]

theorem not_mem_marks_around {name : List Char} (hname : isName name) :
    ∀ ch ∈ name ++ ".propTypes = ".toList ++ [';', '\n'], ch ∉ marks := by
  rw [append_assoc]
  exact forall_mem_append.mpr ⟨not_mem_marks_of_isName hname, forall_mem_of_all (by decide)⟩

/-- A block without comments reads back. All its strings and brackets end. It has one pair of
braces that stand in no others; between them there is one entry for each property, in the order in
which the properties are written, and the key of each says the name of its property, unless the
name is misread: then it says none. -/
theorem ofComponent_reads_back (o : ValidatorOptions) (c : Component)
    (hdocs : o.includeDocs = false) (hcomments : o.includeComments = false)
    (hcomment : o.comment = none) (ho : isName o.importedName.toList)
    (hname : isName c.name.toList) (hc : c.ClassesNamed) :
    IsBalanced (ofComponent o c).toList ∧ ∃ before body after found,
      (ofComponent o c).toList = before ++ '\x7b' :: (body ++ '\x7d' :: after) ∧
      (∀ ch ∈ before ++ after, ch ∉ marks) ∧ entries? body = some found ∧
      found.map entryName? =
        (ordered o c).map (fun p => if Quoted.isMisread p.name then none else some p.name) ∧
      found.map (fun e => String.ofList (e.tail ++ [',', '\n'])) = (entries o c).map Prod.snd := by
  have htext := toList_ofComponent (c := c) hdocs hcomments hcomment
  have hmarks := not_mem_marks_around hname
  refine ⟨?_, _, _, _, _, htext, hmarks, entries?_body ho hc, ?_, ?_⟩
  · obtain ⟨hbefore, hafter⟩ := forall_mem_append.mp hmarks
    have hbody : Closed (fun _ => false) true (bodyChars ((ordered o c).map (entryChars o c))) := by
      apply closed_bodyChars
      intro t ht
      obtain ⟨p, hp, rfl⟩ := mem_map.mp ht
      exact closed_entryChars ho hc hp nofun
    have hblock : Closed (fun _ => false) false _ :=
      .append (closed_of_forall hbefore)
        (.append (.bracket (c := '\x7b') rfl hbody) (closed_of_forall hafter))
    rw [IsBalanced, htext]
    simpa using hblock.split_eq nofun
  · rw [map_map]
    exact map_congr_left fun p hp => entryName?_entryChars ho hc hp
  · rw [map_snd_entries hdocs hcomments, map_map, map_map]
    rfl

def gallery : Component where
  name := "Gallery"
  origin := default
  kind := .function
  props := [.mk "data-src" true (.oneOf [.string "\x7d, b: [", .null]) none none none,
    .mk "it's, \x7b" false (.reference "Frame") none none none,
    .mk "since" false (.arrayOf (.instance "Date")) none none none]
  definitions := [("Frame", .object [.mk "]" true (.reference "Frame") none none none])]

theorem ofComponent_reads_back_gallery :
    gallery.ClassesNamed ∧ ∃ before body after found,
      (ofComponent { includeDocs := false } gallery).toList =
        before ++ '\x7b' :: (body ++ '\x7d' :: after) ∧
      entries? body = some found ∧
      found.map entryName? = [some "data-src", some "it's, \x7b", some "since"] := by
  have hclasses : gallery.ClassesNamed := by
    constructor
    · intro p hp name h
      simp only [gallery, mem_cons, not_mem_nil, or_false] at hp
      rcases hp with rfl | rfl | rfl
      · nomatch h
      · nomatch h
      · cases h with
        | arrayOf h =>
          cases h
          decide +kernel
    · intro s hs name h
      obtain rfl := mem_singleton.mp hs
      cases h with
      | object hp h =>
        obtain rfl := mem_singleton.mp hp
        nomatch h
  obtain ⟨-, before, body, after, found, htext, -, hfound, hnames, -⟩ :=
    ofComponent_reads_back { includeDocs := false } gallery rfl rfl rfl (by decide +kernel)
      (by decide +kernel) hclasses
  exact ⟨hclasses, before, body, after, found, htext, hfound, hnames⟩

end Block

namespace Text

theorem inRanges_rangesFrom_of_lt {c : Char} {start : Nat} (h : c.toNat < start) (runs : List Nat) :
    inRanges (rangesFrom start runs) c = false := by
  fun_induction rangesFrom start runs with
  | case1 start skipped taken runs first ih =>
    have hrest := ih (by omega)
    rw [inRanges] at hrest ⊢
    rw [any_cons, hrest, Bool.or_false, Bool.and_eq_false_iff, decide_eq_false_iff_not]
    exact .inl (by omega)
  | case2 => rfl

/-- The superscript two is a digit of a word, and no part of a name. -/
theorem superscript_cases : isAlphanumeric '²' = true ∧ isNamePart '²' = false := by
  -- Only the first ranges are looked at: the others lie beyond the character.
  obtain ⟨letters, hletters⟩ : ∃ runs, letterRanges =
      (170, 170) :: (181, 181) :: rangesFrom 182 runs := by
    simp only [letterRanges, rangesIn, String.toList_append, append_assoc]
    exact ⟨_, rfl⟩
  obtain ⟨marks, hmarks⟩ : ∃ runs, markRanges = (768, 879) :: rangesFrom 880 runs := by
    simp only [markRanges, rangesIn, String.toList_append, append_assoc]
    exact ⟨_, rfl⟩
  obtain ⟨digits, hdigits⟩ : ∃ runs, decimalDigitRanges = (1632, 1641) :: rangesFrom 1642 runs := by
    simp only [decimalDigitRanges, rangesIn, String.toList_append, append_assoc]
    exact ⟨_, rfl⟩
  obtain ⟨numbers, hnumbers⟩ : ∃ runs, otherNumberRanges = (178, 179) :: rangesFrom 180 runs := by
    simp only [otherNumberRanges, rangesIn, String.toList_append, append_assoc]
    exact ⟨_, rfl⟩
  have hbeyond (start : Nat) (hstart : '²'.toNat < start) (runs : List Nat) :=
    inRanges_rangesFrom_of_lt hstart runs
  have hcons (low high : Nat) (ranges : List (Nat × Nat)) : inRanges ((low, high) :: ranges) '²' =
      (low ≤ '²'.toNat && '²'.toNat ≤ high || inRanges ranges '²') := rfl
  constructor
  · simp [isAlphanumeric, hnumbers, hcons]
  · have hother : inRanges connectorRanges '²' = false ∧
        inRanges [(0xB7, 0xB7), (0x387, 0x387), (0x1369, 0x1371), (0x19DA, 0x19DA),
          (0x200C, 0x200D), (0x30FB, 0x30FB), (0xFF65, 0xFF65)] '²' = false := by
      decide
    simp [isNamePart, isNameStart, hletters, hmarks, hdigits, hcons, hother, hbeyond]
    decide

end Text

namespace Block

open Scan

def area : Component where
  name := "Area"
  origin := default
  kind := .function
  props := [.mk "m²" true (.primitive .number) none none none]
  definitions := []

theorem area_classesNamed : area.ClassesNamed := by
  constructor
  · intro p hp name hw
    obtain rfl := mem_singleton.mp hp
    nomatch hw
  · exact forall_mem_nil _

/-- The name `m²` stands without quotes, and a program reads only `m` there. -/
theorem ofComponent_misread_superscript :
    ∃ before body after found,
      (ofComponent { includeDocs := false } area).toList =
        before ++ '\x7b' :: (body ++ '\x7d' :: after) ∧
      (∀ ch ∈ before ++ after, ch ∉ marks) ∧ entries? body = some found ∧
      area.props.map PropInfo.name = ["m²"] ∧ found.map entryName? = [none] := by
  have ho : isName ({ includeDocs := false } : ValidatorOptions).importedName.toList := by
    decide +kernel
  have hmisread : Quoted.isMisread "m²" := by
    obtain ⟨hword, hname⟩ := Text.superscript_cases
    have hletter : Text.isAlphabetic 'm' := by decide +kernel
    simp [Quoted.isMisread, Quoted.isIdentifier, isName, hword, hname, hletter]
  have hordered : ordered { includeDocs := false } area =
      [.mk "m²" true (.primitive .number) none none none] := perm_singleton.mp (ordered_perm _ area)
  refine ⟨_, _, _, _, toList_ofComponent rfl rfl rfl, not_mem_marks_around (by decide +kernel),
    entries?_body ho area_classesNamed, rfl, ?_⟩
  have hname := entryName?_entryChars (p := .mk "m²" true (.primitive .number) none none none) ho
    area_classesNamed (by rw [hordered]; exact mem_cons_self)
  rw [PropInfo.name, if_pos hmisread] at hname
  rw [hordered, map_singleton, map_singleton, hname]

end Block

end PropContract
