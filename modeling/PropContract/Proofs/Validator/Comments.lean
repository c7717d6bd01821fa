import PropContract.Proofs.Text.Lines
import PropContract.Syntax.Token
import PropContract.Validator.Block

namespace PropContract

namespace Syntax.DocComment

open Text

variable {block cs : List Char} {d : String}

theorem joinLines_eq (lines : List (List Char)) : joinLines lines = ['\n'].intercalate lines := by
  induction lines with
  | nil => rfl
  | cons line rest ih =>
    cases rest with
    | nil => simp [joinLines]
    | cons next rest =>
      rw [joinLines, ih, List.intercalate_cons_cons]
      · simp
      · simp

theorem cleanLine_isInfix (line : List Char) : cleanLine line <:+: line := by
  have hdrop (c : Char) (cs : List Char) :
      (if cs.head? = some c then cs.drop 1 else cs) <:+ cs := by
    split
    · exact List.drop_suffix 1 cs
    · exact List.suffix_refl cs
  exact (trimEnd_isPrefix _).isInfix.trans
    (((hdrop ' ' _).trans (hdrop '*' _)).isInfix.trans (trim_isInfix line))

def cleaned (body : List Char) : List Char :=
  trim (['\n'].intercalate ((lines body).map cleanLine))

theorem text?_eq_some_iff : text? block = some d ↔ ∃ body, block = '*' :: body ∧
    body.head? ≠ some '*' ∧ cleaned body ≠ [] ∧ d.toList = cleaned body := by
  unfold text?
  split
  · simp
  · rename_i body hstar
    have hhead : body.head? ≠ some '*' := by
      intro h
      obtain ⟨rest, rfl⟩ := List.head?_eq_some_iff.mp h
      exact hstar rest rfl
    rw [joinLines_eq]
    change (if (cleaned body).isEmpty then none else some (String.ofList (cleaned body))) = _ ↔ _
    by_cases hne : cleaned body = []
    · simp [hne]
    · have hlist : String.ofList (cleaned body) = d ↔ d.toList = cleaned body := by
        rw [← String.toList_inj, String.toList_ofList, eq_comm]
      simp [hne, hhead, hlist]
  · rename_i hother
    simp only [reduceCtorEq, false_iff]
    rintro ⟨body, rfl, -⟩
    exact hother body rfl

/-- How the characters of documentation follow each other: before a line feed stands no other
blank, and before a slash no star. -/
def Adjoins (a b : Char) : Prop :=
  (b = '\n' → isBlank a → a = '\n') ∧ (a = '*' → b ≠ '/')

theorem adjoins_feed (c : Char) : Adjoins '\n' c :=
  ⟨fun _ _ => rfl, fun h => absurd h (by decide)⟩

structure Tidy (cs : List Char) : Prop where
  ne_nil : cs ≠ []
  head : ∀ c ∈ cs.head?, isBlank c = false
  last : ∀ c ∈ cs.getLast?, isBlank c = false
  chain : cs.IsChain Adjoins

theorem adjoins_of_mem_cleaned {body line : List Char}
    (hbody : body.IsChain fun a b => a = '*' → b ≠ '/') (h : line ∈ (lines body).map cleanLine) :
    line.IsChain Adjoins ∧ ∀ c ∈ line.getLast?, isBlank c = false := by
  obtain ⟨raw, hraw, rfl⟩ := List.mem_map.mp h
  obtain ⟨piece, hpiece, hpre⟩ := exists_piece_of_mem_lines hraw
  have hin : cleanLine raw <:+: piece := (cleanLine_isInfix raw).trans hpre.isInfix
  have hfeed : '\n' ∉ piece := not_mem_of_mem_splitOn hpiece
  have hsplit : ['\n'].intercalate (splitOn '\n' body) = body := intercalate_splitOn body
  rw [← hsplit, isChain_intercalate_iff fun _ h => absurd h (by decide)] at hbody
  have hchain := List.IsChain.infix (hbody.1 piece hpiece) hin
  rw [List.isChain_iff_forall_rel_of_append_cons_cons] at hchain ⊢
  refine ⟨fun a b before after heq => ⟨fun hb => ?_, hchain heq⟩,
    fun c => not_blank_of_getLast?_trimEnd⟩
  exact absurd (hin.subset (by rw [heq, hb]; simp)) hfeed

theorem tidy_of_text? (hblock : ¬ ['*', '/'] <:+: block) (h : text? block = some d) :
    Tidy d.toList := by
  obtain ⟨body, rfl, -, hne, hd⟩ := text?_eq_some_iff.mp h
  have hbody : body.IsChain fun a b => a = '*' → b ≠ '/' := by
    rw [List.isChain_iff_forall_rel_of_append_cons_cons]
    rintro a b before after rfl rfl rfl
    exact hblock ⟨'*' :: before, after, by simp⟩
  have hjoined : (['\n'].intercalate ((lines body).map cleanLine)).IsChain Adjoins := by
    rw [isChain_intercalate_iff adjoins_feed]
    refine ⟨fun line hl => (adjoins_of_mem_cleaned hbody hl).1,
      fun line hl c hc => ⟨fun _ hblank => ?_, fun _ => by decide⟩⟩
    rw [(adjoins_of_mem_cleaned hbody (List.dropLast_subset _ hl)).2 c hc] at hblank
    cases hblank
  rw [hd]
  refine ⟨hne, ?_, ?_, ?_⟩
  · exact fun c => not_blank_of_head?_trim
  · exact fun c => not_blank_of_getLast?_trimEnd
  · exact List.IsChain.infix hjoined (trim_isInfix _)

theorem Tidy.exists_pieces (h : Tidy cs) : ∃ front last, cs = ['\n'].intercalate (front ++ [last]) ∧
    last ≠ [] ∧ ∀ piece ∈ front ++ [last], '\n' ∉ piece ∧ piece.IsChain Adjoins ∧
      ∀ c ∈ piece.getLast?, isBlank c = false := by
  have hcs : ['\n'].intercalate (splitOn '\n' cs) = cs := intercalate_splitOn cs
  have hfeed : ∀ piece ∈ splitOn '\n' cs, '\n' ∉ piece := fun piece => not_mem_of_mem_splitOn
  have hchain := h.chain
  rw [← hcs, isChain_intercalate_iff adjoins_feed] at hchain
  rcases List.eq_nil_or_concat (splitOn '\n' cs) with hnil | ⟨front, last, hsplit⟩
  · exact absurd hnil (splitOn_ne_nil cs)
  rw [List.concat_eq_append] at hsplit
  rw [hsplit] at hcs hfeed hchain
  rw [List.dropLast_concat] at hchain
  have hend : cs.getLast? = (front.flatMap (· ++ ['\n']) ++ last).getLast? := by
    rw [← intercalate_concat, hcs]
  refine ⟨front, last, hcs.symm, ?_, fun piece hp => ⟨hfeed piece hp, hchain.1 piece hp, ?_⟩⟩
  · rintro rfl
    rcases List.eq_nil_or_concat front with rfl | ⟨init, piece, rfl⟩
    · exact h.ne_nil (by simpa using hcs.symm)
    · have hblank := h.last '\n' (by simp [hend])
      cases hblank
  · intro c hc
    rcases List.mem_append.mp hp with hp | hp
    · by_contra hblank
      have hn := (hchain.2 piece hp c hc).1 rfl (by simpa using hblank)
      exact hfeed piece (List.mem_append_left _ hp) (hn ▸ List.mem_of_getLast? hc)
    · obtain rfl := List.mem_singleton.mp hp
      apply h.last
      rw [hend, List.getLast?_append, Option.mem_def.mp hc]
      rfl

end Syntax.DocComment

namespace Block

open Text Syntax Syntax.DocComment

def gutter (line : List Char) : List Char :=
  if line.isEmpty then "   *".toList else "   * ".toList ++ line

theorem toList_docLine (line : List Char) :
    (docLine (String.ofList line)).toList = gutter line ++ ['\n'] := by
  cases line with
  | nil => rfl
  | cons c line => simp [docLine, gutter]

variable {line : List Char}

theorem cleanLine_gutter (h : ∀ c ∈ line.getLast?, isBlank c = false) :
    cleanLine (gutter line) = line := by
  cases line with
  | nil => decide
  | cons c line =>
    have hlast : ∀ d ∈ ('*' :: ' ' :: c :: line).getLast?, isBlank d = false := by simpa using h
    have htrim : trim (gutter (c :: line)) = '*' :: ' ' :: c :: line := by
      change trimEnd (("   ".toList ++ '*' :: ' ' :: c :: line).dropWhile isBlank) = _
      rw [dropWhile_append_of_all (forall_mem_of_all (by decide)) (by simp; decide),
        trimEnd_eq_self hlast]
    unfold cleanLine
    rw [htrim]
    exact trimEnd_eq_self h

theorem feed_not_mem_gutter (h : '\n' ∉ line) : '\n' ∉ gutter line := by
  unfold gutter
  split
  · decide
  · simpa using h

theorem getLast?_gutter (h : ∀ c ∈ line.getLast?, isBlank c = false) :
    (gutter line).getLast? ≠ some '\r' := by
  cases line with
  | nil => decide
  | cons c line =>
    intro hc
    have hblank := h '\r' (by simpa [gutter] using hc)
    cases hblank

theorem isChain_gutter (h : line.IsChain Adjoins) :
    (gutter line).IsChain fun a b => a = '*' → b ≠ '/' := by
  have hline := h.imp fun _ _ => And.right
  unfold gutter
  split
  · decide
  · rw [List.isChain_append]
    exact ⟨by decide, hline, by simp⟩

section

variable {o : ValidatorOptions} {p : PropInfo} {d : String} {pieces : List (List Char)}

def docBody (pieces : List (List Char)) : List Char :=
  '*' :: ['\n'].intercalate (([] :: pieces.map gutter) ++ ["   ".toList])

theorem docBody_eq (pieces : List (List Char)) : docBody pieces =
    '*' :: '\n' :: pieces.flatMap (fun line => gutter line ++ ['\n']) ++ "   ".toList := by
  rw [docBody, intercalate_concat]
  simp [List.flatMap_map]

theorem cleaned_docBody (hd : Tidy (['\n'].intercalate pieces)) (hne : pieces ≠ [])
    (hpieces : ∀ piece ∈ pieces, '\n' ∉ piece ∧ ∀ c ∈ piece.getLast?, isBlank c = false) :
    cleaned (docBody pieces).tail = ['\n'].intercalate pieces := by
  have hlines : lines (docBody pieces).tail = ([] :: pieces.map gutter) ++ ["   ".toList] := by
    apply lines_intercalate
    · simp only [List.forall_mem_append, List.forall_mem_cons, List.forall_mem_map]
      exact ⟨⟨by simp, fun piece hp => feed_not_mem_gutter (hpieces piece hp).1⟩, by decide,
        by simp⟩
    · simp only [List.forall_mem_cons, List.forall_mem_map]
      exact ⟨by simp, fun piece hp => getLast?_gutter (hpieces piece hp).2⟩
    · decide
  have hclean : (pieces.map gutter).map cleanLine = pieces := by
    rw [List.map_map]
    exact (List.map_congr_left fun piece hp => cleanLine_gutter (hpieces piece hp).2).trans
      (List.map_id pieces)
  have hjoined : ['\n'].intercalate ([] :: pieces ++ [[]]) =
      ['\n'] ++ (['\n'].intercalate pieces ++ ['\n']) := by
    obtain ⟨front, last, rfl⟩ := (List.eq_nil_or_concat' pieces).resolve_left hne
    rw [intercalate_concat, intercalate_concat]
    simp
  have hhead : ∀ c ∈ (['\n'].intercalate pieces ++ ['\n']).head?, isBlank c = false := by
    rw [List.head?_append_of_ne_nil _ hd.ne_nil]
    exact hd.head
  have hends : cleanLine [] = [] ∧ cleanLine "   ".toList = [] := by decide
  rw [cleaned, hlines, List.map_append, List.map_cons, hclean, List.map_singleton, hends.1, hends.2,
    hjoined, trim, trimStart, dropWhile_append_of_all (forall_mem_of_all (by decide)) hhead,
    trimEnd_append_blanks hd.last (forall_mem_of_all (by decide))]

theorem toList_docText (ho : o.includeDocs) (hp : p.doc = some d)
    (hlines : lines d.toList = pieces) :
    (docText o p).toList = "  /*".toList ++ docBody pieces ++ "*/\n".toList := by
  simp [docText, ho, hp, textLines, hlines, toList_docLine, String.toList_join, List.flatMap_map,
    docBody_eq]

theorem isChain_docBody (hpieces : ∀ piece ∈ pieces, piece.IsChain Adjoins) :
    ("  /*".toList ++ docBody pieces ++ ['*']).IsChain fun a b => a = '*' → b ≠ '/' := by
  have heq : "  /*".toList ++ docBody pieces ++ ['*'] =
      ['\n'].intercalate (("  /**".toList :: pieces.map gutter) ++ ["   *".toList]) := by
    rw [docBody_eq, intercalate_concat]
    simp [List.flatMap_map]
  rw [heq, isChain_intercalate_iff fun _ h => absurd h (by decide)]
  simp only [List.forall_mem_append, List.forall_mem_cons, List.forall_mem_map]
  exact ⟨⟨⟨by decide, fun piece hp => isChain_gutter (hpieces piece hp)⟩, by decide, by simp⟩,
    fun _ _ _ _ _ => by decide⟩

theorem eq_of_star_slash {cs before after : List Char}
    (h : (cs ++ ['*']).IsChain fun a b => a = '*' → b ≠ '/')
    (heq : cs ++ "*/\n".toList = before ++ '*' :: '/' :: after) : after = ['\n'] := by
  have hsplit : (cs ++ ['*']) ++ ['/', '\n'] = before ++ '*' :: '/' :: after := by simpa using heq
  rcases List.append_eq_append_iff.mp hsplit with ⟨between, -, hbetween⟩ | ⟨between, hcs, hbetween⟩
  · have hlength := congrArg List.length hbetween
    cases between with
    | nil => simp at hbetween
    | cons c between => simp at hlength; omega
  · cases between with
    | nil => simp at hbetween
    | cons c between =>
      cases between with
      | nil => simpa using (List.cons.inj hbetween).2
      | cons c' between =>
        obtain ⟨rfl, htail⟩ := List.cons.inj hbetween
        obtain ⟨rfl, -⟩ := List.cons.inj htail
        exact absurd rfl (List.isChain_iff_forall_rel_of_append_cons_cons.mp h hcs rfl)

/-- Documentation that was read from a comment is written as a comment that ends at its own mark,
and from that it is read again. -/
theorem doc_reads_back {block : List Char} {d : String} (hblock : ¬ ['*', '/'] <:+: block)
    (htext : text? block = some d) (o : ValidatorOptions) (ho : o.includeDocs) (c : Component)
    (p : PropInfo) (hp : p ∈ c.props) (hdoc : p.doc = some d) :
    (p.name, entry o c p) ∈ entries o c ∧ (docText o p).toList <+: (entry o c p).toList ∧
      (∀ before after, (docText o p).toList = before ++ '*' :: '/' :: after → after = ['\n']) ∧
      ∃ body, (docText o p).toList = "  /*".toList ++ body ++ "*/\n".toList ∧
        text? body = some d := by
  have htidy := tidy_of_text? hblock htext
  obtain ⟨front, last, hd, hlast, hpieces⟩ := htidy.exists_pieces
  have hlines : lines d.toList = front ++ [last] := by
    rw [hd]
    refine lines_intercalate (fun piece h => (hpieces piece h).1) (fun piece h hr => ?_) hlast
    have hblank := (hpieces piece (List.mem_append_left _ h)).2.2 '\r' hr
    cases hblank
  have hdocText := toList_docText ho hdoc hlines
  refine ⟨?_, ?_, fun before after heq => ?_, docBody (front ++ [last]), hdocText, ?_⟩
  · refine List.mem_map.mpr ⟨p, ?_, rfl⟩
    unfold ordered
    split
    · exact List.mem_mergeSort.mpr hp
    · exact hp
  · simp [entry]
  · exact eq_of_star_slash (isChain_docBody fun piece h => (hpieces piece h).2.1)
      (hdocText.symm.trans heq)
  · have hclean := cleaned_docBody (hd ▸ htidy) (by simp) fun piece h =>
      ⟨(hpieces piece h).1, (hpieces piece h).2.2⟩
    rw [← hd] at hclean
    refine text?_eq_some_iff.mpr ⟨_, rfl, ?_, hclean ▸ htidy.ne_nil, hclean.symm⟩
    change (docBody _).tail.head? ≠ _
    simp [docBody_eq]

/-- Stars and indentation around a text, and a carriage return. -/
theorem doc_reads_back_guttered :
    ∃ body, (docText {} (.mk "x" true (.primitive .string) none
        (some "One.\n\n- two * / 3") none)).toList = "  /*".toList ++ body ++ "*/\n".toList ∧
      text? body = some "One.\n\n- two * / 3" := by
  have hblock : ¬ ['*', '/'] <:+: "*\n * One.\r\n\t*\n * - two * / 3\n ".toList := by decide +kernel
  have htext : text? "*\n * One.\r\n\t*\n * - two * / 3\n ".toList =
      some "One.\n\n- two * / 3" := by decide +kernel
  exact (doc_reads_back hblock htext {} rfl ⟨"A", default, .function, [_], []⟩ _
    List.mem_cons_self rfl).2.2.2

end

def scriptLines : List Char → List (List Char)
  | [] => []
  | '\r' :: '\n' :: cs => [] :: scriptLines cs
  | c :: cs =>
    if isLineEnd c then [] :: scriptLines cs
    else (c :: (scriptLines cs).headD []) :: (scriptLines cs).tail

theorem scriptLines_cons {c : Char} (h : isLineEnd c = false) (cs : List Char) :
    scriptLines (c :: cs) = (c :: (scriptLines cs).headD []) :: (scriptLines cs).tail := by
  rw [scriptLines, if_neg (by simp [h])]
  rintro _ rfl
  cases h

theorem scriptLines_end {c : Char} (h : isLineEnd c) {cs : List Char}
    (hfeed : c = '\r' → cs.head? ≠ some '\n') : scriptLines (c :: cs) = [] :: scriptLines cs := by
  rw [scriptLines, if_pos h]
  rintro rest rfl rfl
  exact hfeed rfl rfl

theorem scriptLines_ne_nil {cs : List Char} (h : cs ≠ []) : scriptLines cs ≠ [] := by
  fun_cases scriptLines cs <;> simp_all

theorem scriptLines_feed (cs rest : List Char) :
    scriptLines (cs ++ '\n' :: rest) = scriptLines (cs ++ ['\n']) ++ scriptLines rest := by
  induction cs using scriptLines.induct with
  | case1 => rfl
  | case2 cs ih => simp [scriptLines, ih]
  | case3 c cs hne hend ih =>
    by_cases hc : c = '\r' ∧ cs = []
    · obtain ⟨rfl, rfl⟩ := hc
      rfl
    · have hhead (r : List Char) : c = '\r' → (cs ++ '\n' :: r).head? ≠ some '\n' := by
        rintro rfl
        cases cs <;> simp_all
      rw [List.cons_append, List.cons_append, scriptLines_end hend (hhead rest),
        scriptLines_end hend (hhead []), ih, List.cons_append]
  | case4 c cs hne hend ih =>
    have hc : isLineEnd c = false := by simpa using hend
    obtain ⟨line, more, hs⟩ :=
      List.exists_cons_of_ne_nil (scriptLines_ne_nil (by simp : cs ++ ['\n'] ≠ []))
    rw [List.cons_append, List.cons_append, scriptLines_cons hc, scriptLines_cons hc, ih, hs]
    rfl

theorem scriptLines_comment (comment : List (List Char)) :
    scriptLines (comment.flatMap fun line => "// ".toList ++ line ++ ['\n']) =
      comment.flatMap fun line => ("// ".toList ++ (scriptLines (line ++ ['\n'])).headD []) ::
        (scriptLines (line ++ ['\n'])).tail := by
  induction comment with
  | nil => rfl
  | cons line comment ih =>
    rw [List.flatMap_cons, List.flatMap_cons, ← ih, List.append_assoc, List.singleton_append,
      scriptLines_feed]
    rfl

/-- The comment before the name of a component is a comment in every line of a script if each of
its lines is one line there, or goes on with the mark of a comment. -/
theorem comment_stays_comment_iff (o : ValidatorOptions) (c : Component) :
    (∃ rest, ofComponent o c = commentText o ++ (c.name ++ rest)) ∧
      ((∀ line ∈ scriptLines (commentText o).toList, "// ".toList <+: line) ↔
        ∀ comment ∈ o.comment, ∀ line ∈ lines comment.toList,
          ∀ more ∈ (scriptLines (line ++ ['\n'])).tail, "// ".toList <+: more) := by
  refine ⟨⟨_, String.append_assoc ..⟩, ?_⟩
  cases hcomment : o.comment with
  | none => simp [commentText, hcomment, scriptLines]
  | some comment =>
    have htext : (commentText o).toList =
        (lines comment.toList).flatMap fun line => "// ".toList ++ line ++ ['\n'] := by
      simp [commentText, hcomment, textLines, String.toList_join, List.flatMap_map]
    rw [htext, scriptLines_comment]
    simp only [List.mem_flatMap, Option.mem_def, Option.some.injEq, forall_eq', List.mem_cons]
    constructor
    · exact fun h line hline more hmore => h more ⟨line, hline, .inr hmore⟩
    · rintro h more ⟨line, hline, rfl | hmore⟩
      · exact List.prefix_append _ _
      · exact h line hline more hmore

/-- A carriage return ends the comment for a script, but not its line. -/
theorem comment_leaves_comment :
    ¬ ∀ line ∈ scriptLines (commentText { comment := some "a\rb" }).toList,
      "// ".toList <+: line := by
  decide

end Block

end PropContract
