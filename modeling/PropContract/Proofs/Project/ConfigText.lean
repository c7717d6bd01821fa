import PropContract.Project.Options
import PropContract.Proofs.Json.Tokens

/-!
Cleaning the text of a config file. Both passes leave tokens as they are: the first one takes
comments away between them, the second one commas that have nothing after them.
-/

namespace PropContract.ConfigText

open Json List

variable {cs : List Char} {t : Token}

/-- A pass over a text, outside and inside strings, that looks at strings no further and outside
of them only at one character. -/
structure Scans (code string : List Char → List Char) (stop : Char) : Prop where
  isWordChar_stop : isWordChar stop = false
  isSpace_stop : isSpace stop = false
  plain {c : Char} (hquote : c ≠ '"') (hstop : c ≠ stop) (r : List Char) :
    code (c :: r) = c :: code r
  opening (r : List Char) : code ('"' :: r) = '"' :: string r
  inside {c : Char} (hquote : c ≠ '"') (hslash : c ≠ '\\') (r : List Char) :
    string (c :: r) = c :: string r
  escaped (c : Char) (r : List Char) : string ('\\' :: c :: r) = '\\' :: c :: string r
  closing (r : List Char) : string ('"' :: r) = '"' :: code r

namespace Scans

variable {code string : List Char → List Char} {stop : Char}

theorem all (h : Scans code string stop) (hcs : ∀ c ∈ cs, c ≠ '"' ∧ c ≠ stop)
    (r : List Char) : code (cs ++ r) = cs ++ code r := by
  induction cs with
  | nil => rfl
  | cons c cs ih =>
    obtain ⟨⟨hquote, hstop⟩, hcs⟩ := forall_mem_cons.mp hcs
    rw [cons_append, h.plain hquote hstop, ih hcs, cons_append]

theorem body (h : Scans code string stop) (hcs : IsBody cs) (r : List Char) :
    string (cs ++ '"' :: r) = cs ++ '"' :: code r := by
  induction hcs with
  | nil => exact h.closing r
  | plain hquote hslash _ ih => rw [cons_append, h.inside hquote hslash, ih, cons_append]
  | escaped c _ ih =>
    rw [cons_append, cons_append, h.escaped, ih, cons_append, cons_append]

theorem gap (h : Scans code string stop) (hcs : IsBlank cs) (r : List Char) :
    code (cs ++ r) = cs ++ code r := by
  refine h.all (fun c hc => ⟨?_, ?_⟩) r <;> rintro rfl
  · exact absurd (hcs _ hc) (by decide)
  · exact absurd (hcs _ hc) (by simp [h.isSpace_stop])

theorem token (h : Scans code string stop) (ht : t.IsWritten) (hne : t ≠ .mark stop)
    (r : List Char) : code (t.chars ++ r) = t.chars ++ code r := by
  cases t with
  | mark c =>
    have hquote : c ≠ '"' := fun he => absurd (he ▸ ht : '"' ∈ marks) (by decide)
    exact h.plain hquote (fun he => hne (he ▸ rfl)) r
  | word cs =>
    refine h.all (fun c hc => ⟨?_, ?_⟩) r <;> rintro rfl
    · exact absurd (ht.2 _ hc) (by decide)
    · exact absurd (ht.2 _ hc) (by simp [h.isWordChar_stop])
  | string cs =>
    have hbody := h.body ht r
    simp [Token.chars, h.opening, hbody]

end Scans

theorem scans_stripComments : Scans (stripComments .code) (stripComments .string) '/' where
  isWordChar_stop := by decide
  isSpace_stop := by decide
  plain hquote hstop r := by
    rw [stripComments, if_neg hquote] <;> exact fun _ he => absurd he hstop
  opening r := by simp [stripComments]
  inside hquote hslash r := by
    rw [stripComments, if_neg hquote]
    exact fun _ _ he => absurd he hslash
  escaped c r := by rw [stripComments]
  closing r := by simp [stripComments]

theorem scans_stripTrailingCommas :
    Scans (stripTrailingCommas false) (stripTrailingCommas true) ',' where
  isWordChar_stop := by decide
  isSpace_stop := by decide
  plain hquote hstop r := by simp [stripTrailingCommas, beq_eq_false_iff_ne.mpr hquote, hstop]
  opening r := by simp [stripTrailingCommas]
  inside hquote hslash r := by simp [stripTrailingCommas, bne_iff_ne.mpr hquote, hslash]
  escaped c r := by rw [stripTrailingCommas]
  closing r := by simp [stripTrailingCommas]

inductive Gap : List Char → Prop
  | nil : Gap []
  | space (hc : isSpace c) (h : Gap gap) : Gap (c :: gap)
  | line (body : List Char) (hbody : '\n' ∉ body) (h : Gap gap) :
      Gap ('/' :: '/' :: (body ++ '\n' :: gap))
  | block (body : List Char) (hbody : ¬ ['*', '/'] <:+: body) (h : Gap gap) :
      Gap ('/' :: '*' :: (body ++ '*' :: '/' :: gap))

/-- What may stand after the last token: the end of the text closes a line comment too. -/
inductive Ending : List Char → Prop
  | gap (h : Gap gap) : Ending gap
  | comment (body : List Char) (h : Gap gap) (hbody : '\n' ∉ body) :
      Ending (gap ++ '/' :: '/' :: body)

theorem stripComments_line {body : List Char} (hbody : '\n' ∉ body) (r : List Char) :
    stripComments .lineComment (body ++ r) = stripComments .lineComment r := by
  induction body with
  | nil => rfl
  | cons c body ih =>
    rw [cons_append, stripComments, if_neg (ne_of_not_mem_cons hbody).symm,
      ih (not_mem_of_not_mem_cons hbody)]

theorem stripComments_block {body : List Char} (hbody : ¬ ['*', '/'] <:+: body) (r : List Char) :
    stripComments .blockComment (body ++ '*' :: '/' :: r) = stripComments .code r := by
  induction body with
  | nil => rfl
  | cons c body ih =>
    rw [cons_append, stripComments,
      ih fun h => hbody (h.trans (suffix_cons c body).isInfix)]
    rintro rest rfl hrest
    cases body with
    | nil => cases hrest
    | cons d body =>
      cases hrest
      exact hbody ⟨[], body, rfl⟩

theorem stripComments_space {c : Char} (hc : isSpace c) (r : List Char) :
    stripComments .code (c :: r) = c :: stripComments .code r := by
  have hblank : IsBlank [c] := by simpa [IsBlank] using hc
  exact scans_stripComments.gap hblank r

variable {gap : List Char}

theorem Gap.stripComments_append (h : Gap gap) (r : List Char) :
    stripComments .code (gap ++ r) = stripComments .code gap ++ stripComments .code r := by
  induction h with
  | nil => rfl
  | space hc _ ih => simp [stripComments_space hc, ih]
  | line _ hbody _ ih => simp [stripComments, stripComments_line hbody, ih]
  | block _ hbody _ ih => simp [stripComments, stripComments_block hbody, ih]

theorem Gap.isBlank_stripComments (h : Gap gap) : IsBlank (stripComments .code gap) := by
  induction h with
  | nil => simp [IsBlank, stripComments]
  | space hc _ ih =>
    rw [stripComments_space hc]
    exact forall_mem_cons.mpr ⟨hc, ih⟩
  | line _ hbody _ ih =>
    rw [stripComments, stripComments_line hbody, stripComments, if_pos rfl]
    exact forall_mem_cons.mpr ⟨rfl, ih⟩
  | block _ hbody _ ih =>
    rw [stripComments, stripComments_block hbody]
    exact ih

theorem Ending.isBlank_stripComments {last : List Char} (h : Ending last) :
    IsBlank (stripComments .code last) := by
  cases h with
  | gap h => exact h.isBlank_stripComments
  | comment body h hbody =>
    have hline := stripComments_line hbody []
    rw [append_nil] at hline
    rw [h.stripComments_append, stripComments, hline, stripComments, append_nil]
    exact h.isBlank_stripComments

theorem ne_slash (ht : t.IsWritten) : t ≠ .mark '/' := by
  rintro rfl
  exact absurd ht (by decide : '/' ∉ marks)

variable {ts : List Token} {text : List Char}

theorem written_stripComments (h : Written Gap Ending ts text) :
    Written IsBlank IsBlank ts (stripComments .code text) := by
  induction h with
  | nil hlast => exact .nil hlast.isBlank_stripComments
  | cons hgap ht _ ih =>
    rw [hgap.stripComments_append, scans_stripComments.token ht (ne_slash ht)]
    exact .cons hgap.isBlank_stripComments ht ih

theorem stripComments_eq_self (h : Written IsBlank IsBlank ts text) :
    stripComments .code text = text := by
  induction h with
  | nil hlast => simpa [stripComments] using scans_stripComments.gap hlast []
  | cons hgap ht _ ih =>
    rw [scans_stripComments.gap hgap, scans_stripComments.token ht (ne_slash ht), ih]

theorem isBlank_of_isSpace {c : Char} (h : isSpace c) : Text.isBlank c := by
  simp only [isSpace, Bool.or_eq_true, decide_eq_true_eq] at h
  rcases h with ((rfl | rfl) | rfl) | rfl <;> decide

theorem isBlank_of_isWordChar {c : Char} (h : isWordChar c) : Text.isBlank c = false := by
  rw [isWordChar, Bool.or_eq_true] at h
  cases h with
  | inl h =>
    have hdigit : 48 ≤ c.toNat ∧ c.toNat ≤ 57 := by
      simpa [Json.isDigit, Char.le_def, UInt32.le_iff_toNat_le] using h
    simp only [Text.isBlank, Bool.or_eq_false_iff, Bool.and_eq_false_imp, decide_eq_true_eq,
      decide_eq_false_iff_not, beq_eq_false_iff_ne]
    omega
  | inr h =>
    exact forall_mem_of_all (p := fun c => Text.isBlank c = false) (by decide) c
      (contains_iff_mem.mp h)

theorem closesNext_gap (h : IsBlank gap) (r : List Char) :
    closesNext (gap ++ r) = closesNext r := by
  rw [closesNext, dropWhile_append_of_pos fun c hc => isBlank_of_isSpace (h c hc)]
  rfl

theorem closesNext_token (ht : t.IsWritten) (r : List Char) (ts : List Token) :
    closesNext (t.chars ++ r) = closes (t :: ts) := by
  cases t with
  | mark c =>
    have hc : c ∈ marks := ht
    simp only [marks, mem_cons, not_mem_nil, or_false] at hc
    rcases hc with rfl | rfl | rfl | rfl | rfl | rfl <;> rfl
  | word cs =>
    obtain ⟨hne, hcs⟩ := ht
    cases cs with
    | nil => exact absurd rfl hne
    | cons c cs =>
      have hc := hcs c mem_cons_self
      rw [Token.chars, cons_append, closesNext,
        dropWhile_cons_of_neg (by simp [isBlank_of_isWordChar hc])]
      split
      case h_1 he | h_2 he =>
        cases he
        cases hc
      case h_3 => rfl
  | string cs => rfl

theorem closesNext_written (h : Written IsBlank IsBlank ts text) : closesNext text = closes ts := by
  cases h with
  | nil hlast =>
    have hnext := closesNext_gap hlast []
    rwa [append_nil] at hnext
  | cons hgap ht _ => rw [closesNext_gap hgap, closesNext_token ht]

theorem stripTrailingCommas_kept (ht : t.IsWritten) {r : List Char}
    (h : ¬ (t = .mark ',' ∧ closesNext r)) :
    stripTrailingCommas false (t.chars ++ r) = t.chars ++ stripTrailingCommas false r := by
  by_cases hcomma : t = .mark ','
  · have hnext : ¬ closesNext r := fun hr => h ⟨hcomma, hr⟩
    subst hcomma
    simp [Token.chars, stripTrailingCommas, hnext]
  · exact scans_stripTrailingCommas.token ht hcomma r

theorem written_stripTrailingCommas (h : Written IsBlank IsBlank ts text) :
    Written IsBlank IsBlank (untrail ts) (stripTrailingCommas false text) := by
  induction h with
  | nil hlast =>
    have hblank := scans_stripTrailingCommas.gap hlast []
    rw [append_nil, stripTrailingCommas, append_nil] at hblank
    rw [hblank]
    exact .nil hlast
  | @cons gap r t ts hgap ht h ih =>
    have hnext := closesNext_written h
    rw [scans_stripTrailingCommas.gap hgap, untrail]
    by_cases hdropped : t = .mark ',' ∧ closes ts
    · obtain ⟨rfl, hcloses⟩ := hdropped
      have hcloses' := closes_untrail hcloses
      rw [Token.chars, singleton_append, stripTrailingCommas,
        if_pos (by simp [hcloses]), if_pos (by simp [hnext, hcloses])]
      -- The blanks before a comma that goes stand before the bracket after it.
      generalize untrail ts = us, stripTrailingCommas false r = text at ih hcloses'
      cases ih with
      | nil => cases hcloses'
      | cons hgap' ht' h' =>
        rw [← append_assoc]
        exact .cons (forall_mem_append.mpr ⟨hgap, hgap'⟩) ht' h'
    · rw [stripTrailingCommas_kept ht (by rwa [hnext]), if_neg (by simpa using hdropped)]
      exact .cons hgap ht ih

theorem stripTrailingCommas_eq_self (h : Written IsBlank IsBlank ts text)
    (htokens : untrail ts = ts) : stripTrailingCommas false text = text := by
  induction h with
  | nil hlast => simpa [stripTrailingCommas] using scans_stripTrailingCommas.gap hlast []
  | @cons gap r t ts hgap ht h ih =>
    have hnext := closesNext_written h
    rw [untrail] at htokens
    split at htokens
    · have hle := length_untrail_le ts
      rw [htokens, length_cons] at hle
      omega
    · rw [scans_stripTrailingCommas.gap hgap, stripTrailingCommas_kept ht (by simp_all),
        ih (List.cons.inj htokens).2]

/-- However a value is written, with comments between its tokens and commas after its last
elements, the cleaned text has the tokens of its strict JSON. Strict JSON is left as it is. -/
theorem tokens_clean {v : Json} {strict loose : List Token} (h : Spelt .value v strict loose) :
    (∀ text : String, Written Gap Ending loose text.toList →
      tokens? false (clean text).toList = some strict ∧
        tokens? false (strict.flatMap Token.chars) = some strict) ∧
    ∀ text : String, Written IsBlank IsBlank strict text.toList → clean text = text := by
  constructor
  · intro text htext
    have hclean := written_stripTrailingCommas (written_stripComments htext)
    rw [h.untrail_eq] at hclean
    rw [clean, String.toList_ofList]
    exact ⟨tokens?_written hclean h.isChain, tokens?_written hclean.flatMap_chars h.isChain⟩
  · intro text htext
    rw [clean, stripComments_eq_self htext, stripTrailingCommas_eq_self htext h.strict.untrail_eq,
      String.ofList_toList]

theorem tokens_clean_nested :
    tokens? false (clean "/***/[ \"//,]\\\"\" , // x\n 1 /*/*/ , /*,]*/ ] // end").toList =
        some [.mark '[', .string ['/', '/', ',', ']', '\\', '"'], .mark ',', .word ['1'],
          .mark ']'] ∧
      clean "[ \"//,]\\\"\", 1 ]\n" = "[ \"//,]\\\"\", 1 ]\n" := by
  have hspelt := Spelt.filled true <| .more .item
    (.scalar (@Token.Denotes.string ['/', '/', ',', ']', '\\', '"'] _ ⟨[], rfl⟩)) <|
      .one .item (.scalar (@Token.Denotes.number ['1'] [] _ rfl))
  have hspaced : ∀ {gap}, Gap gap → Gap (' ' :: gap) := .space rfl
  have hmark : ∀ c ∈ marks, (Token.mark c).IsWritten := fun c hc => hc
  have hplain : ∀ c ∈ ['/', ',', ']'], ∀ {body}, IsBody body → IsBody (c :: body) := by
    simp +contextual [IsBody.plain]
  have hstring : (Token.string ['/', '/', ',', ']', '\\', '"']).IsWritten :=
    hplain '/' (by decide) <| hplain '/' (by decide) <| hplain ',' (by decide) <|
      hplain ']' (by decide) <| .escaped '"' .nil
  have hone : (Token.word ['1']).IsWritten := ⟨by simp, forall_mem_of_all (by decide)⟩
  have hloose := Written.cons (.block ['*'] (by decide) .nil) (hmark '[' (by decide)) <|
    .cons (hspaced .nil) hstring <| .cons (hspaced .nil) (hmark ',' (by decide)) <|
    .cons (hspaced (.line [' ', 'x'] (by decide) (hspaced .nil))) hone <|
    .cons (hspaced (.block ['/'] (by decide) (hspaced .nil))) (hmark ',' (by decide)) <|
    .cons (hspaced (.block [',', ']'] (by decide) (hspaced .nil))) (hmark ']' (by decide)) <|
    .nil (Ending.comment [' ', 'e', 'n', 'd'] (hspaced .nil) (by decide))
  have hblank : ∀ gap ∈ [[], [' '], ['\n']], IsBlank gap := by simp [IsBlank, isSpace]
  have hstrict := Written.cons (hblank [] (by simp)) (hmark '[' (by decide)) <|
    .cons (hblank [' '] (by simp)) hstring <| .cons (hblank [] (by simp)) (hmark ',' (by decide)) <|
    .cons (hblank [' '] (by simp)) hone <| .cons (hblank [' '] (by simp)) (hmark ']' (by decide)) <|
    .nil (hblank ['\n'] (by simp))
  refine ⟨((tokens_clean hspelt).1 _ ?_).1, (tokens_clean hspelt).2 _ ?_⟩
  · exact hloose
  · exact hstrict

end PropContract.ConfigText
