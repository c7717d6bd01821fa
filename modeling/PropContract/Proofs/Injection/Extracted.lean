import PropContract.Proofs.Injection.Holders
import PropContract.Proofs.Project.Resolution
import PropContract.Proofs.Resolver.Answers

namespace PropContract.Injection

open Syntax Survey List Project

variable {items : List Item} {k : Extraction.Candidate} {name source : String} {v : Holder}
  {path : Path} {c : Component} {o : InjectOptions}

theorem declarationCandidates_eq (d : Declaration) :
    Extraction.declarationCandidates d =
      (Holder.ofDeclaration d).filterMap fun h => h.2.candidate? h.1 := by
  cases d with
  | function name isAmbient f =>
    cases hf : Extraction.functionCandidate? name f <;>
      simp [Extraction.declarationCandidates, Holder.ofDeclaration, Holder.candidate?, hf]
  | «class» name c =>
    cases hc : Extraction.classCandidate? name c <;>
      simp [Extraction.declarationCandidates, Holder.ofDeclaration, Holder.candidate?, hc]
  | vars kind ds =>
    by_cases hk : kind.isResource
    · simp [Extraction.declarationCandidates, Holder.ofDeclaration, hk]
    · simp only [Extraction.declarationCandidates, Holder.ofDeclaration, hk, Bool.false_eq_true,
        if_false, filterMap_filterMap]
      refine filterMap_congr fun d _ => ?_
      obtain ⟨target, init⟩ := d
      cases target <;> rfl
  | _ => rfl

theorem itemCandidates_eq (item : Item) :
    Extraction.itemCandidates item =
      (Holder.ofItem item).filterMap fun h => h.2.candidate? h.1 := by
  obtain ⟨span, doc, kind⟩ := item
  have hdeclaration : ∀ d, Extraction.declarationCandidates d =
      ([d].flatMap Holder.ofDeclaration).filterMap fun h => h.2.candidate? h.1 := by
    intro d
    rw [flatMap_singleton, declarationCandidates_eq]
  cases kind with
  | statement s =>
    cases s with
    | declaration d => exact hdeclaration d
    | _ => rfl
  | exportDeclaration d | exportDefault d => exact hdeclaration d
  | _ => rfl

theorem flatMap_itemCandidates (items : List Item) :
    items.flatMap Extraction.itemCandidates =
      (holders items).filterMap fun h => h.2.candidate? h.1 := by
  rw [holders, filterMap_flatMap]
  exact flatMap_congr fun item _ => itemCandidates_eq item

theorem mem_of_mem_firstOfEach {ks : List Extraction.Candidate} (h : k ∈ Extraction.firstOfEach ks)
    : k ∈ ks := by
  have hfold : ∀ (ks kept : List Extraction.Candidate),
      k ∈ ks.foldl (fun kept c => if kept.any fun k => k.name == c.name then kept
        else kept ++ [c]) kept → k ∈ kept ∨ k ∈ ks := by
    intro ks
    induction ks with
    | nil => exact fun _ hk => .inl hk
    | cons c ks ih =>
      intro kept hk
      rw [foldl_cons] at hk
      rcases ih _ hk with hk | hk
      · split at hk
        · exact .inl hk
        · rcases mem_append.mp hk with hk | hk
          · exact .inl hk
          · exact .inr (mem_singleton.mp hk ▸ mem_cons_self)
      · exact .inr (mem_cons_of_mem c hk)
  exact (hfold ks [] h).resolve_left not_mem_nil

theorem of_functionCandidate? {f : Function} (h : Extraction.functionCandidate? name f = some k) :
    k.name = name ∧ k.kind = .function ∧ f.params.length ≤ 2 := by
  unfold Extraction.functionCandidate? at h
  split at h
  all_goals
    first
    | cases h
    | rename_i hparams
      obtain ⟨props, -, h⟩ := Option.bind_eq_some_iff.mp h
      obtain ⟨-, -, h⟩ := Option.bind_eq_some_iff.mp h
      cases h
      exact ⟨rfl, rfl, by simp [hparams]⟩

theorem of_classCandidate? {c : ClassBody} (h : Extraction.classCandidate? name c = some k) :
    k.name = name ∧ k.kind = .classBased := by
  obtain ⟨base, -, h⟩ := Option.bind_eq_some_iff.mp h
  obtain ⟨word, -, h⟩ := Option.bind_eq_some_iff.mp h
  obtain ⟨-, -, h⟩ := Option.bind_eq_some_iff.mp h
  cases h
  exact ⟨rfl, rfl⟩

theorem of_wrappedCandidate? {callee : Expr} {types : List TypeExpr} {args : List Expr}
    (h : Extraction.wrappedCandidate? name callee types args = some k) : k.name = name := by
  obtain ⟨-, -, h⟩ := Option.bind_eq_some_iff.mp h
  obtain ⟨inner, -, h⟩ := Option.bind_eq_some_iff.mp h
  cases h
  rfl

theorem name_of_valueCandidate? {e : Expr} (h : Extraction.valueCandidate? name e = some k) :
    k.name = name := by
  unfold Extraction.valueCandidate? at h
  cases he : e.unwrap with
  | arrow f | function f =>
    rw [he] at h
    exact (of_functionCandidate? h).1
  | «class» c =>
    rw [he] at h
    exact (of_classCandidate? h).1
  | call callee types args =>
    rw [he] at h
    exact of_wrappedCandidate? h
  | _ =>
    rw [he] at h
    cases h

theorem Holder.name_of_candidate? (h : v.candidate? name = some k) : k.name = name := by
  cases v with
  | function isAmbient f => exact (of_functionCandidate? h).1
  | classBased c => exact (of_classCandidate? h).1
  | binding type init =>
    unfold candidate? Extraction.variableCandidate? at h
    dsimp only at h
    cases htype : type.bind Extraction.componentType? with
    | none =>
      rw [htype] at h
      obtain ⟨e, -, he⟩ := Option.bind_eq_some_iff.mp h
      exact name_of_valueCandidate? he
    | some props =>
      rw [htype] at h
      cases h
      rfl

theorem isRequire_unwrap (e : Expr) : isRequire e.unwrap = isRequire e := by
  fun_induction Expr.unwrap e with
  | case1 inner ih => rw [ih, isRequire]
  | case2 inner type ih => rw [ih, isRequire]
  | case3 => rfl

theorem accepts_function (e : Expr) :
    (Holder.fingerprintOf? e).any (·.accepts .function) = Holder.isReceived true e := by
  unfold Holder.fingerprintOf? Holder.isReceived
  rw [← isRequire_unwrap]
  cases e.unwrap with
  | function f => cases hbody : f.hasBody <;> simp [isRequire, Fingerprint.accepts, hbody]
  | call callee types args =>
    cases hr : isRequire (.call callee types args) <;> simp [Fingerprint.accepts]
  | paren inner | cast inner type => simp
  | _ => simp [isRequire, Fingerprint.accepts]

theorem accepts_of_valueCandidate? {e : Expr} (hk : Extraction.valueCandidate? name e = some k) :
    (Holder.fingerprintOf? e).any (·.accepts k.kind) = Holder.isReceived false e := by
  unfold Holder.fingerprintOf? Holder.isReceived
  unfold Extraction.valueCandidate? at hk
  rw [← isRequire_unwrap]
  cases he : e.unwrap with
  | arrow f =>
    rw [he] at hk
    obtain ⟨-, hkind, -⟩ := of_functionCandidate? hk
    simp [hkind, isRequire, Fingerprint.accepts]
  | function f =>
    rw [he] at hk
    obtain ⟨-, hkind, -⟩ := of_functionCandidate? hk
    cases hbody : f.hasBody <;> simp [hkind, isRequire, Fingerprint.accepts, hbody]
  | «class» c =>
    rw [he] at hk
    obtain ⟨-, hkind⟩ := of_classCandidate? hk
    simp [hkind, isRequire, Fingerprint.accepts]
  | call callee types args =>
    rw [he] at hk
    cases hr : isRequire (.call callee types args) <;> simp [Fingerprint.accepts]
  | _ =>
    rw [he] at hk
    cases hk

theorem Holder.accepts_of_candidate? (h : v.candidate? name = some k) (hdefined : v.isDefined) :
    v.fingerprint?.any (·.accepts k.kind) = v.receives := by
  cases v with
  | function isAmbient f =>
    obtain ⟨-, hkind, hparams⟩ := of_functionCandidate? h
    have hbody : (!isAmbient && f.hasBody) = true := hdefined
    simp [hkind, fingerprint?, hbody, Fingerprint.accepts, hparams, receives]
  | classBased c =>
    obtain ⟨-, hkind⟩ := of_classCandidate? h
    simp [hkind, fingerprint?, Fingerprint.accepts, receives]
  | binding type init =>
    cases init with
    | none => cases hdefined
    | some e =>
      unfold candidate? Extraction.variableCandidate? at h
      dsimp only at h
      cases htype : type.bind Extraction.componentType? with
      | none =>
        rw [htype] at h
        simpa [receives, htype, fingerprint?] using accepts_of_valueCandidate? h
      | some props =>
        rw [htype] at h
        cases h
        simpa [receives, htype, fingerprint?] using accepts_function e

theorem of_component {s : Resolver.Setting} {id : Nat}
    (h : Extraction.component s id path k = .ok c) : c.name = k.name ∧ c.kind = k.kind := by
  unfold Extraction.component at h
  dsimp only at h
  split at h
  · cases h
  · cases h
    exact ⟨rfl, rfl⟩

theorem exists_candidate?_of_extract {s : Resolver.Setting} {id : Nat} {file : SourceFile}
    {cs : List Component} (hid : s.project.idOf? path = some id)
    (hfile : s.project.file? id = some file) (h : Extraction.extract s path = .ok cs) (hc : c ∈ cs)
    :
    ∃ v ∈ valuesOf c.name file.items, ∃ k, v.candidate? c.name = some k ∧ k.kind = c.kind := by
  simp only [Extraction.extract, hid, hfile] at h
  obtain ⟨k, hk, hcomponent⟩ := exists_of_mem_right (mapM_eq_ok_iff.mp h) hc
  obtain ⟨hname, hkind⟩ := of_component hcomponent
  obtain ⟨k, hfirst, rfl⟩ := mem_map.mp hk
  have hcandidate := mem_of_mem_firstOfEach hfirst
  rw [flatMap_itemCandidates] at hcandidate
  obtain ⟨⟨name, v⟩, hv, hvk⟩ := mem_filterMap.mp hcandidate
  have hheld : k.name = name := Holder.name_of_candidate? hvk
  obtain rfl : c.name = name := hname.trans hheld
  refine ⟨v, mem_map.mpr ⟨_, mem_filter.mpr ⟨hv, ?_⟩, rfl⟩, k, hvk, hkind.symm⟩
  exact beq_self_eq_true c.name

def IsLost (answer : Except InjectError String) : Prop :=
  (∃ name, answer = .error (.notFound name)) ∨ ∃ name count, answer = .error (.ambiguous name count)

theorem not_isLost_answer (d : Document) (r : Except EditError String) : ¬ IsLost (answer d r) := by
  cases r <;> simp [IsLost, answer]

section

variable (hparse : Grammar.parseModule (dialect o) source = .ok items)

include hparse

theorem inject_of_componentEdits {e : InjectError}
    (h : componentEdits o source (ofItems source items) ⟨[c]⟩ c = .error e) :
    inject o ⟨[c]⟩ source = .error e := by
  rw [inject_eq (cons_ne_nil c []) hparse, mapM_cons, h]
  rfl

theorem not_isLost_inject_of_matching {k : Candidate}
    (hk : matching (ofItems source items) c = [k]) :
    ¬ IsLost (inject o ⟨[c]⟩ source) := by
  have hcount : ¬ 1 < ([c].filter fun k => k.name == c.name).length := by simp
  by_cases hallowed : o.conflict ≠ .fail ∨ existingOf (ofItems source items) c = []
  · have haccepted : ∀ c' ∈ [c], Accepted o (ofItems source items) ⟨[c]⟩ c' := by
      intro c' hc'
      obtain rfl := mem_singleton.mp hc'
      exact ⟨Nat.not_lt.mp hcount, by simp [hk], hallowed⟩
    rw [inject_of_injectable (cons_ne_nil c []) hparse ((injectable_iff _ _ _).mpr haccepted)]
    exact not_isLost_answer _ _
  · rw [not_or, not_not] at hallowed
    obtain ⟨x, xs, hxs⟩ := exists_cons_of_ne_nil hallowed.2
    rw [inject_of_componentEdits hparse
      (componentEdits_of_existing hcount hk hallowed.1 hxs)]
    simp [IsLost]

theorem inject_of_valuesOf (hvalues : valuesOf c.name items = [v])
    (hk : v.candidate? c.name = some k) (hkind : k.kind = c.kind) (hdefined : v.isDefined) :
    if v.receives then ¬ IsLost (inject o ⟨[c]⟩ source)
    else inject o ⟨[c]⟩ source = .error (.notFound c.name) := by
  have hlength : (matching (ofItems source items) c).length = if v.receives then 1 else 0 := by
    rw [length_matching (Grammar.regular_of_parseModule hparse) source c, holdersOf, hvalues,
      filter_singleton, ← Holder.accepts_of_candidate? hk hdefined, hkind]
    cases v.fingerprint?.any (·.accepts c.kind) <;> rfl
  split
  · rename_i hreceives
    rw [if_pos hreceives] at hlength
    obtain ⟨k', hk'⟩ := length_eq_one_iff.mp hlength
    exact not_isLost_inject_of_matching hparse hk'
  · rename_i hreceives
    rw [if_neg hreceives] at hlength
    have hnone := length_eq_zero_iff.mp hlength
    exact inject_of_componentEdits hparse
      (componentEdits_of_error (by simp) (by rw [candidateFor_eq, hnone]))

end

theorem not_isLost_inject {d : Document} {e : Grammar.SyntaxError}
    (h : Grammar.parseModule (dialect o) source = .error e) : ¬ IsLost (inject o d source) := by
  have hsurvey : survey o source = .error (.malformed (Position.of source e.offset)) := by
    unfold survey
    rw [h]
  rw [inject, hsurvey]
  split <;> simp [IsLost, bind, Except.bind]

/-- A component that was extracted from a file, where its name is given one value, is not found in
the text of the file exactly when the text can be read and that value is no function, class or call
that an injection looks for. It is never ambiguous. A file without markup has to say the same of
that name when it is read with markup. -/
theorem inject_extracted_eq_notFound_iff {tree : FileTree} {options : CompilerOptions}
    {sources : List (Path × String)} {s : Resolver.Setting} {path : Path} {id : Nat}
    {file : SourceFile} {cs : List Component} {c : Component} {v : Holder} {o : InjectOptions}
    (hproject : Project.ofSources tree options sources = .ok s.project)
    (hid : s.project.idOf? path = some id) (hfile : s.project.file? id = some file)
    (hkind : file.kind ≠ .ambient) (hextract : Extraction.extract s path = .ok cs) (hc : c ∈ cs)
    (honce : valuesOf c.name file.items = [v]) (hdefined : v.isDefined) (htyped : o.typed)
    (hplain : file.kind = .plain → ∀ items,
      Grammar.parseModule (dialect o) file.text = .ok items → valuesOf c.name items = [v]) :
    (∀ name, inject o ⟨[c]⟩ file.text = .error (.notFound name) ↔ name = c.name ∧
      (∃ items, Grammar.parseModule (dialect o) file.text = .ok items) ∧ ¬ v.receives) ∧
    ∀ name count, inject o ⟨[c]⟩ file.text ≠ .error (.ambiguous name count) := by
  have hread : Grammar.parseModule file.kind.dialect file.text = .ok file.items :=
    ofSources_forall parseFile_read hproject file (mem_of_getElem? hfile)
  obtain ⟨v', hv', k, hk, hkkind⟩ := exists_candidate?_of_extract hid hfile hextract hc
  obtain rfl : v' = v := mem_singleton.mp (honce ▸ hv')
  have hvalues : ∀ items, Grammar.parseModule (dialect o) file.text = .ok items →
      valuesOf c.name items = [v'] := by
    cases hfilekind : file.kind with
    | plain => exact hplain hfilekind
    | ambient => exact absurd hfilekind hkind
    | markup =>
      have hdialect : file.kind.dialect = dialect o := by
        simp [hfilekind, SourceKind.dialect, dialect, htyped]
      intro items hitems
      rw [← hdialect, hread] at hitems
      exact Except.ok.inj hitems ▸ honce
  have hfound (h : ¬ IsLost (inject o ⟨[c]⟩ file.text)) :
      (∀ name, inject o ⟨[c]⟩ file.text ≠ .error (.notFound name)) ∧
        ∀ name count, inject o ⟨[c]⟩ file.text ≠ .error (.ambiguous name count) :=
    ⟨fun name heq => h (.inl ⟨name, heq⟩), fun name count heq => h (.inr ⟨name, count, heq⟩)⟩
  cases hparse : Grammar.parseModule (dialect o) file.text with
  | error e => simpa using hfound (not_isLost_inject hparse)
  | ok items =>
    have hanswer := inject_of_valuesOf hparse (hvalues items hparse) hk hkkind hdefined
    split at hanswer
    · rename_i hreceives
      simpa [hreceives] using hfound hanswer
    · rename_i hreceives
      simp [hanswer, hreceives, eq_comm]

def HeldOnce (file : SourceFile) (wanted : Bool) (c : Component) : Prop :=
  ∃ v, valuesOf c.name file.items = [v] ∧ v.isDefined ∧ v.receives = wanted

def isHeldOnce (file : SourceFile) (wanted : Bool) (c : Component) : Bool :=
  ((valuesOf c.name file.items).map fun v => (v.isDefined, v.receives)) == [(true, wanted)]

theorem heldOnce_of_isHeldOnce {file : SourceFile} {wanted : Bool} (h : isHeldOnce file wanted c) :
    HeldOnce file wanted c := by
  obtain ⟨v, hv, hfacts⟩ := map_eq_singleton_iff.mp (eq_of_beq h)
  exact ⟨v, hv, congrArg Prod.fst hfacts, congrArg Prod.snd hfacts⟩

def givesHeld (path : Path) (text : String) (names : List String) (wanted : Bool) (p : Project) :
    Bool :=
  (p.file? 0).any fun file =>
    p.idOf? path == some 0 && file.kind == .markup && file.text == text &&
      (Extraction.extract { project := p } path).toOption.any fun cs =>
        cs.map Component.name == names && cs.all (isHeldOnce file wanted)

theorem of_givesHeld {text : String} {names : List String} {wanted : Bool} {p : Project}
    (h : givesHeld path text names wanted p) :
    ∃ file cs, p.idOf? path = some 0 ∧ p.file? 0 = some file ∧ file.kind = .markup ∧
      file.text = text ∧ Extraction.extract { project := p } path = .ok cs ∧
      cs.map Component.name = names ∧ ∀ c ∈ cs, HeldOnce file wanted c := by
  obtain ⟨file, hfile, h⟩ := (Option.any_eq_true _ _).mp h
  simp only [Bool.and_eq_true, beq_iff_eq] at h
  obtain ⟨⟨⟨hid, hkind⟩, htext⟩, hextract⟩ := h
  cases hcs : Extraction.extract { project := p } path with
  | error e =>
    rw [hcs] at hextract
    cases hextract
  | ok cs =>
    rw [hcs] at hextract
    simp only [Except.toOption, Option.any_some, Bool.and_eq_true, beq_iff_eq, all_eq_true]
      at hextract
    exact ⟨file, cs, hid, hfile, hkind, htext, rfl, hextract.1,
      fun c hc => heldOnce_of_isHeldOnce (hextract.2 c hc)⟩

def wrappersModule : String :=
  "type P = \x7b x: string \x7d;\nexport const A: FC<P> = (p) => null;\n" ++
    "const B = memo<P>(A);\nexport default class C extends Component<P> \x7b\x7d\n"

theorem wrappersModule_read :
    ∃ p, Project.ofSources {} { followImports := false } [(⟨"/a.tsx"⟩, wrappersModule)] = .ok p ∧
      givesHeld ⟨"/a.tsx"⟩ wrappersModule ["A", "B", "C"] true p :=
  exists_ok_of_any (by decide +kernel)

theorem inject_extracted_eq_notFound_iff_wrappers :
    ∃ p cs, Project.ofSources {} { followImports := false } [(⟨"/a.tsx"⟩, wrappersModule)] = .ok p ∧
      Extraction.extract { project := p } ⟨"/a.tsx"⟩ = .ok cs ∧
      cs.map Component.name = ["A", "B", "C"] ∧
      ∀ c ∈ cs, ∀ name, inject { typed := true, conflict := .replace } ⟨[c]⟩ wrappersModule ≠
        .error (.notFound name) := by
  obtain ⟨p, hp, hgives⟩ := wrappersModule_read
  obtain ⟨file, cs, hid, hfile, hkind, htext, hextract, hnames, hheld⟩ := of_givesHeld hgives
  refine ⟨p, cs, hp, hextract, hnames, fun c hc name => ?_⟩
  obtain ⟨v, honce, hdefined, hreceives⟩ := hheld c hc
  rw [← htext, Ne, (inject_extracted_eq_notFound_iff (s := ⟨p, 6⟩) hp hid hfile (by simp [hkind])
    hextract hc honce hdefined rfl (by simp [hkind])).1 name]
  simp [hreceives]

def aliasModule : String :=
  "type P = \x7b x: string \x7d;\nexport const A: FC<P> = Base;\n"

/-- A variable with the type of a component is one, whatever it is given, but an injection does not
look for it when it is given another name. -/
theorem inject_other_name_eq_notFound :
    ∃ p file cs c v,
      Project.ofSources {} { followImports := false } [(⟨"/a.tsx"⟩, aliasModule)] = .ok p ∧
      p.file? 0 = some file ∧ file.kind = .markup ∧ file.text = aliasModule ∧
      Extraction.extract { project := p } ⟨"/a.tsx"⟩ = .ok cs ∧ c ∈ cs ∧ c.name = "A" ∧
      valuesOf c.name file.items = [v] ∧ v.isDefined ∧
      inject { typed := true, conflict := .replace } ⟨[c]⟩ aliasModule =
        .error (.notFound c.name) := by
  have hread : ∃ p,
      Project.ofSources {} { followImports := false } [(⟨"/a.tsx"⟩, aliasModule)] = .ok p ∧
        givesHeld ⟨"/a.tsx"⟩ aliasModule ["A"] false p :=
    exists_ok_of_any (by decide +kernel)
  obtain ⟨p, hp, hgives⟩ := hread
  obtain ⟨file, cs, hid, hfile, hkind, htext, hextract, hnames, hheld⟩ := of_givesHeld hgives
  obtain ⟨c, rfl, hname⟩ := map_eq_singleton_iff.mp hnames
  obtain ⟨v, honce, hdefined, hreceives⟩ := hheld c mem_cons_self
  refine ⟨p, file, [c], c, v, hp, hfile, hkind, htext, hextract, mem_cons_self, hname, honce,
    hdefined, ?_⟩
  have hparse : Grammar.parseModule file.kind.dialect file.text = .ok file.items :=
    ofSources_forall parseFile_read hp file (mem_of_getElem? hfile)
  obtain ⟨v', hv', k, hk, hkkind⟩ := exists_candidate?_of_extract hid hfile hextract
    mem_cons_self
  obtain rfl : v' = v := mem_singleton.mp (honce ▸ hv')
  have hdialect : SourceKind.markup.dialect = dialect { typed := true, conflict := .replace } := rfl
  rw [hkind, htext, hdialect] at hparse
  simpa [hreceives] using inject_of_valuesOf hparse honce hk hkkind hdefined

end PropContract.Injection
