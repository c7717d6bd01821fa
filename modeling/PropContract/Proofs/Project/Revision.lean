import PropContract.Proofs.Project.Loading

namespace PropContract.Project

open List Table

variable {path : Path} {f : SourceFile} {sources : List (Path × String)}

def revised (name text : String) (table : Table String) : Table String :=
  table.map fun entry => (entry.1, if entry.1 = name then text else entry.2)

section Texts

variable (name text : String) (table : Table String)

theorem keys_revised : (revised name text table).keys = table.keys :=
  keys_adjust name (fun _ => text) table

theorem contains_revised (other : String) :
    (revised name text table).contains other = table.contains other :=
  contains_adjust name (fun _ => text) table other

theorem get?_revised (other : String) : (revised name text table).get? other =
    (table.get? other).map fun old => if other = name then text else old :=
  get?_adjust name (fun _ => text) table other

theorem erase_revised (other : String) :
    (revised name text table).erase other = revised name text (table.erase other) := by
  rw [Table.erase, Table.erase, revised, revised, filter_map]
  rfl

theorem put_revised (other old : String) :
    (revised name text table).put other (if other = name then text else old) =
      revised name text (table.put other old) :=
  put_adjust name (fun _ => text) table other old

end Texts

structure Rewritten (file file' : SourceFile) : Prop where
  path_eq : file'.path = file.path
  kind_eq : file'.kind = file.kind
  isRoot_eq : file'.isRoot = file.isRoot
  scope_eq : file'.scope = Scope.ofItems file'.items
  parse_eq : Grammar.parseModule file'.kind.dialect file'.text = .ok file'.items

theorem Rewritten.parseFile {file file' : SourceFile} (hf : Rewritten file file')
    {roots : List String} {kind : SourceKind} {text : String}
    (h : parseFile roots path kind text = .ok file) :
    parseFile roots path kind file'.text = .ok file' := by
  have hkind := (parseFile_scope h).1
  obtain ⟨hpath, hroot⟩ := parseFile_eq_ok h
  have hparse := hf.parse_eq
  rw [hf.kind_eq, hkind] at hparse
  unfold Project.parseFile
  rw [hparse]
  obtain ⟨path', kind', text', items', scope', isRoot'⟩ := file'
  have hpath' := hf.path_eq
  have hkind' := hf.kind_eq
  have hroot' := hf.isRoot_eq
  have hscope' := hf.scope_eq
  dsimp only at hpath' hkind' hroot' hscope'
  rw [hpath', hkind', hroot', hscope', hpath, hkind, hroot]

def replace (p : Project) (n : Nat) (file : SourceFile) : Project :=
  { p with files := p.files.set n file }

def reread (file file' f : SourceFile) : SourceFile :=
  if f.path = file.path then file' else f

def rewrite (file file' : SourceFile) (p : Project) : Project :=
  { p with files := p.files.map (reread file file') }

section Rewrite

variable {file file' : SourceFile} {p : Project}

theorem idAt?_rewrite (hpath : file'.path = file.path) (place : Path) :
    (rewrite file file' p).idAt? place = p.idAt? place := by
  have hsame : (fun f : SourceFile => f.path == place) ∘
      reread file file' = fun f => f.path == place := by
    funext f
    rw [Function.comp_apply, reread]
    split
    · rename_i h
      rw [hpath, h]
    · rfl
  rw [idAt?, idAt?, rewrite, findIdx?_map, hsame]

theorem rewrite_eq_replace (hp : (p.files.map SourceFile.path).Nodup) {n : Nat}
    (hfile : p.file? n = some file) : rewrite file file' p = p.replace n file' := by
  have hfiles : p.files.map (reread file file') = p.files.set n file' := by
    apply ext_getElem?
    intro i
    rw [getElem?_map, getElem?_set]
    by_cases hi : n = i
    · subst hi
      have hlt : n < p.files.length := (List.getElem?_eq_some_iff.mp hfile).1
      rw [if_pos rfl, if_pos hlt, show p.files[n]? = _ from hfile, Option.map_some, reread,
        if_pos rfl]
    · rw [if_neg hi]
      cases hf : p.files[i]? with
      | none => rfl
      | some f =>
        have hne : f.path ≠ file.path := by
          intro he
          have hid := idAt?_of_nodup hp hf
          rw [he, idAt?_of_nodup hp hfile] at hid
          exact hi (Option.some.inj hid)
        rw [Option.map_some, reread, if_neg hne]
  rw [rewrite, replace, hfiles]

end Rewrite

theorem foldl_enqueueOne_filter {p : Project} {exists? : Path → Bool} {importer : Path}
    {leads : String → Bool}
    (hleads : ∀ s, leads s = false → Modules.find? p.options exists? importer s = none)
    (requests : List String) (queue : List Path) :
    requests.foldl (enqueueOne p exists? importer) queue =
      (requests.filter leads).foldl (enqueueOne p exists? importer) queue := by
  induction requests generalizing queue with
  | nil => rfl
  | cons s rest ih =>
    cases hs : leads s with
    | true => rw [filter_cons_of_pos hs, foldl_cons, foldl_cons, ih]
    | false =>
      have hsame : enqueueOne p exists? importer queue s = queue := by
        rw [enqueueOne, hleads s hs]
      rw [filter_cons_of_neg (by simp [hs]), foldl_cons, hsame, ih]

theorem enqueueOne_rewrite {file file' : SourceFile} (hpath : file'.path = file.path)
    (p : Project) :
    enqueueOne (rewrite file file' p) = enqueueOne p := by
  funext exists? importer queue request
  simp only [enqueueOne, idAt?_rewrite hpath]
  rfl

/-- Trees with the same files, and the same texts but for one file. If the file was found in the
tree, its new text is there. -/
structure Revises (file file' : SourceFile) (tree tree' : FileTree) : Prop where
  length_eq : tree'.files.length = tree.files.length
  isFile_eq : ∀ c, tree'.isFile c = tree.isFile c
  read_eq : ∀ c, c.IsNormal → c ≠ file.path → tree'.read c = tree.read c
  read_path : file.isRoot = false → ∀ old, tree.read file.path = .ok old →
    tree'.read file.path = .ok file'.text

def SameRequests (options : CompilerOptions) (there : Path → Bool) (file file' : SourceFile) :
    Prop :=
  file'.scope.requests.filter (fun s => (Modules.find? options there file.path s).isSome) =
    file.scope.requests.filter fun s => (Modules.find? options there file.path s).isSome

theorem sameRequests_of_mem {options : CompilerOptions} {there : Path → Bool}
    {file file' : SourceFile}
    (h : ∀ s, (Modules.find? options there file.path s).isSome →
      (s ∈ file'.scope.requests ↔ s ∈ file.scope.requests)) :
    SameRequests options there file file' := by
  have hsorted (scope : Scope) (leads : String → Bool) :
      (scope.requests.filter leads).Pairwise fun a b => decide (a ≤ b) = true := by
    refine List.Pairwise.filter _ (pairwise_mergeSort (fun a b c => ?_) (fun a b => ?_) _)
    · simpa using fun hab hbc => String.le_trans hab hbc
    · simpa using String.le_total a b
  have hnodup (scope : Scope) (leads : String → Bool) :
      (scope.requests.filter leads).Nodup :=
    ((mergeSort_perm _ _).nodup_iff.mpr (nodup_eraseDups _)).filter _
  refine Perm.eq_of_pairwise (fun a b _ _ hab hba => ?_) (hsorted _ _) (hsorted _ _) ?_
  · exact String.le_antisymm (of_decide_eq_true hab) (of_decide_eq_true hba)
  · refine (perm_ext_iff_of_nodup (hnodup _ _) (hnodup _ _)).mpr fun s => ?_
    rw [mem_filter, mem_filter]
    exact and_congr_left (h s)

section Reread

variable {tree tree' : FileTree} {roots : List String} {options : CompilerOptions}
  {there : Path → Bool} {file file' : SourceFile} (hf : Rewritten file file')
  (htree : Revises file file' tree tree') (hrequests : SameRequests options there file file')

/-- What is known while files are read: `there` are the files that can be found at all, and the
text of `file` is at hand until it is read, if it was asked for. -/
structure Rereading (tree : FileTree) (options : CompilerOptions) (there : Path → Bool)
    (file : SourceFile) (texts : Table String) (queue : List Path) (p : Project) : Prop where
  sameOptions : p.options = options
  normal : ∀ c ∈ queue, c.IsNormal
  there : ∀ c : Path, (texts.contains c.text || tree.isFile c) = true → there c = true
  unread : (p.idAt? file.path).isSome = false → texts.contains file.path.text = file.isRoot

variable {texts : Table String} {queue : List Path} {p : Project}

include hf hrequests in
theorem enqueue_rewrite (hisFile : ∀ c, tree'.isFile c = tree.isFile c)
    (hoptions : p.options = options)
    (hthere : ∀ c : Path, (texts.contains c.text || tree.isFile c) = true → there c = true)
    (queue : List Path) (hfile : f.path = file.path → f = file) :
    enqueue tree' (rewrite file file' p) (reread file file' f)
        ⟨revised file.path.text file'.text texts, queue⟩ = enqueue tree p f ⟨texts, queue⟩ := by
  have hexists : (fun c : Path => (revised file.path.text file'.text texts).contains c.text ||
      tree'.isFile c) = fun c => texts.contains c.text || tree.isFile c := by
    funext c
    rw [contains_revised, hisFile]
  have hnone (s : String) (hs : (Modules.find? options there file.path s).isSome = false) :
      Modules.find? p.options (fun c => texts.contains c.text || tree.isFile c) file.path s =
        none := by
    rw [Option.isSome_eq_false_iff, Option.isNone_iff_eq_none, Modules.find?,
      find?_eq_none] at hs
    rw [hoptions, Modules.find?, find?_eq_none]
    exact fun c hc hfound => hs c hc (hthere c hfound)
  by_cases hfollow : p.options.followImports
  · have hfollow' : (rewrite file file' p).options.followImports := hfollow
    rw [enqueue_eq tree hfollow, enqueue_eq tree' hfollow', enqueueOne_rewrite hf.path_eq, hexists]
    by_cases hpath : f.path = file.path
    · rw [reread, if_pos hpath, hfile hpath, hf.path_eq]
      rw [foldl_enqueueOne_filter hnone, hrequests, ← foldl_enqueueOne_filter hnone]
    · rw [reread, if_neg hpath]
  · have hfollow' : ¬ (rewrite file file' p).options.followImports := hfollow
    rw [enqueue, enqueue, if_neg hfollow, if_neg hfollow']

include hf htree in
theorem parse_reread (h : Rereading tree options there file texts queue p)
    (hnormal : path.IsNormal) (hnew : (p.idAt? path).isSome = false) {kind : SourceKind}
    {text : String} (htext : textAt tree texts path = .ok text)
    (hparse : parseFile roots path kind text = .ok f) (hfile : f.path = file.path → f = file) :
    ∃ text', textAt tree' (revised file.path.text file'.text texts) path = .ok text' ∧
      parseFile roots path kind text' = .ok (reread file file' f) := by
  have hpath := (parseFile_eq_ok hparse).1
  by_cases hplace : path = file.path
  · subst hplace
    obtain rfl := hfile hpath
    refine ⟨file'.text, ?_, ?_⟩
    · rw [textAt, get?_revised]
      rw [textAt] at htext
      cases hold : texts.get? f.path.text with
      | some old => simp only [Option.map_some, if_true]
      | none =>
        have hroot : f.isRoot = false := by
          rw [← h.unread hnew, Table.contains, hold]
          rfl
        rw [hold] at htext
        cases hread : tree.read f.path with
        | error e =>
          rw [hread] at htext
          cases htext
        | ok old =>
          rw [htree.read_path hroot old hread]
          rfl
    · rw [reread, if_pos rfl]
      exact hf.parseFile hparse
  · refine ⟨text, ?_, ?_⟩
    · have hname : path.text ≠ file.path.text := fun he => hplace (congrArg Path.mk he)
      rw [textAt, get?_revised, htree.read_eq path hnormal hplace, ← htext, textAt]
      cases texts.get? path.text with
      | some old => simp only [Option.map_some, if_neg hname]
      | none => rfl
    · rw [reread, if_neg (hpath ▸ hplace)]
      exact hparse

theorem Rereading.passed (h : Rereading tree options there file texts (path :: queue) p) :
    Rereading tree options there file texts queue p :=
  ⟨h.sameOptions, fun c hc => h.normal c (mem_cons_of_mem _ hc), h.there, h.unread⟩

theorem Rereading.read (hpath : f.path = path)
    (h : Rereading tree options there file texts (path :: queue) p) :
    Rereading tree options there file (texts.erase path.text)
      (enqueue tree { p with files := p.files ++ [f] } f ⟨texts.erase path.text, queue⟩)
      { p with files := p.files ++ [f] } where
  sameOptions := h.sameOptions
  normal := by
    intro c hc
    by_cases hfollow : p.options.followImports
    · rw [enqueue_eq (p := { p with files := p.files ++ [f] }) tree hfollow] at hc
      have hgrown := grown_foldl_enqueueOne { p with files := p.files ++ [f] } (fun c =>
        (texts.erase path.text).contains c.text || tree.isFile c) f.path f.scope.requests queue
      obtain hc | ⟨-, s, -, hleads⟩ := hgrown.added c hc
      · exact h.normal c (mem_cons_of_mem _ hc)
      · exact (Modules.isSource_of_find? hleads).1
    · rw [enqueue, if_neg hfollow] at hc
      exact h.normal c (mem_cons_of_mem _ hc)
  there := by
    intro c hc
    apply h.there c
    rw [Bool.or_eq_true] at hc ⊢
    exact hc.imp contains_of_contains_erase id
  unread := by
    intro hunread
    have hother : path.text ≠ file.path.text := by
      intro he
      have hmem : file.path ∈ (p.files ++ [f]).map SourceFile.path := by
        rw [map_append, mem_append, map_singleton, hpath, mem_singleton]
        exact .inr (congrArg Path.mk he).symm
      have hread := (idAt?_isSome_iff { p with files := p.files ++ [f] } file.path).mpr hmem
      rw [hread] at hunread
      cases hunread
    have hbefore : (p.idAt? file.path).isSome = false := by
      rw [Bool.eq_false_iff, ne_eq, idAt?_isSome_iff] at hunread ⊢
      refine fun hmem => hunread ?_
      rw [map_append]
      exact mem_append_left _ hmem
    rw [← h.unread hbefore, Table.contains, get?_erase, if_neg hother]
    rfl

include hf htree hrequests in
theorem readAll_rewrite {fuel : Nat} {q : Project}
    (h : readAll tree roots fuel ⟨texts, queue⟩ p = .ok q)
    (hq : ∀ f ∈ q.files, f.path = file.path → f = file)
    (hr : Rereading tree options there file texts queue p) :
    readAll tree' roots fuel ⟨revised file.path.text file'.text texts, queue⟩
      (rewrite file file' p) = .ok (rewrite file file' q) := by
  induction fuel generalizing texts queue p with
  | zero =>
    cases h
    rfl
  | succ fuel ih =>
    cases queue with
    | nil =>
      cases h
      rfl
    | cons path queue =>
      obtain ⟨hpath, h⟩ | ⟨kind, text, f, hkind, hnew, htext, hparse, h⟩ := readAll_cons h
      · rw [← idAt?_rewrite hf.path_eq] at hpath
        rw [readAll_of_passed hpath]
        exact ih h hr.passed
      · have hmem : f ∈ q.files :=
          (readAll_files_grow h).subset (mem_append_right _ (mem_singleton_self f))
        have hnext := hr.read (parseFile_eq_ok hparse).1
        obtain ⟨text', htext', hparse'⟩ := parse_reread hf htree hr
          (hr.normal path mem_cons_self) hnew htext hparse (hq f hmem)
        have hfiles : { rewrite file file' p with
              files := (rewrite file file' p).files ++ [reread file file' f] } =
            rewrite file file' { p with files := p.files ++ [f] } := by
          rw [rewrite, rewrite, map_append]
          rfl
        have hqueue := enqueue_rewrite hf hrequests htree.isFile_eq hnext.sameOptions hnext.there
          queue (hq f hmem)
        rw [← idAt?_rewrite hf.path_eq] at hnew
        rw [readAll_of_unread hkind hnew, htext']
        simp only [Except.bind, hparse']
        rw [hfiles, erase_revised, hqueue]
        exact ih h hnext

end Reread

def revisedSources (place : Path) (text : String) (sources : List (Path × String)) :
    List (Path × String) :=
  sources.map fun source => (source.1, if source.1.normalize = place then text else source.2)

theorem foldlM_placeOne_revised (place : Path) (text : String)
    {table texts : Table String} (h : sources.foldlM placeOne table = .ok texts) :
    (revisedSources place text sources).foldlM placeOne (revised place.text text table) =
      .ok (revised place.text text texts) := by
  induction sources generalizing table with
  | nil =>
    cases h
    rfl
  | cons source rest ih =>
    rw [foldlM_cons] at h
    obtain ⟨next, hnext, h⟩ := of_bind_eq_ok h
    by_cases habs : source.1.isAbsolute
    · rw [placeOne, if_pos habs] at hnext
      cases hnext
      have hsame : (source.1.normalize = place) = (source.1.normalize.text = place.text) :=
        propext ⟨congrArg Path.text, fun he => congrArg Path.mk he⟩
      rw [revisedSources, map_cons, ← revisedSources, foldlM_cons, placeOne, if_pos habs]
      simp only [hsame, put_revised]
      exact ih h
    · rw [placeOne, if_neg habs] at hnext
      cases hnext

theorem length_revised (name text : String) (table : Table String) :
    (revised name text table).length = table.length :=
  length_map _

def isThere (tree : FileTree) (sources : List (Path × String)) (c : Path) : Bool :=
  (sources.map fun source => source.1.normalize).contains c || tree.isFile c

theorem ofSources_rewrite {tree tree' : FileTree} {options : CompilerOptions} {p : Project}
    (h : ofSources tree options sources = .ok p)
    {n : Nat} {file file' : SourceFile} (hfile : p.file? n = some file)
    (hf : Rewritten file file') (htree : Revises file file' tree tree')
    (hrequests : SameRequests options (isThere tree sources) file file') :
    ofSources tree' options (revisedSources file.path file'.text sources) =
      .ok (p.replace n file') := by
  obtain ⟨texts, htexts, h⟩ := of_bind_eq_ok h
  have hplaced : placed (revisedSources file.path file'.text sources) =
      .ok (revised file.path.text file'.text texts) := by
    rw [placed_eq] at htexts ⊢
    exact foldlM_placeOne_revised file.path file'.text htexts
  have hnodup := readAll_nodup h nodup_nil
  have hroot : file.isRoot = texts.keys.contains file.path.text := by
    refine readAll_forall (P := fun f => f.isRoot = texts.keys.contains f.path.text) ?_ ?_ h file
      (mem_of_getElem? hfile)
    · intro path kind text f _ hparse
      obtain ⟨hpath, hroot⟩ := parseFile_eq_ok hparse
      rw [hroot, hpath]
    · exact forall_mem_nil _
  have hkeys (c : Path) : texts.contains c.text = true →
      (sources.map fun source => source.1.normalize).contains c = true := by
    intro hc
    rw [contains_iff_mem, ← mem_eraseDups, ← (keys_of_placed htexts).2]
    exact mem_map_of_mem ((contains_iff_mem_keys _ _).mp hc)
  have hstart : Rereading tree options (isThere tree sources) file texts
      (texts.keys.map Path.mk) { options } := {
    sameOptions := rfl
    normal := by
      intro c hc
      rw [(keys_of_placed htexts).2, mem_eraseDups] at hc
      obtain ⟨source, -, rfl⟩ := mem_map.mp hc
      exact Path.isNormal_normalize source.1
    there := by
      intro c hc
      rw [Bool.or_eq_true] at hc
      rw [isThere, Bool.or_eq_true]
      exact hc.imp (hkeys c) id
    unread := by
      intro _
      rw [hroot, Bool.eq_iff_iff, contains_iff_mem_keys, contains_iff_mem] }
  have hunique : ∀ f ∈ p.files, f.path = file.path → f = file := fun f hf he =>
    inj_on_of_nodup_map hnodup hf (mem_of_getElem? hfile) he
  have hread := readAll_rewrite hf htree hrequests h hunique hstart
  rw [ofSources, hplaced]
  refine Eq.trans ?_ (hread.trans (congrArg Except.ok (rewrite_eq_replace hnodup hfile)))
  simp only [bind, Except.bind, keys_revised, length_revised, htree.length_eq]
  rfl

end PropContract.Project
