import Mathlib.Data.List.Perm.Subperm
import PropContract.Proofs.Project.Modules
import PropContract.Proofs.Project.Resolution

/-!
Reading a project from a tree of files. It has every file that one of its files leads to, and no
other ones but those that were asked for.
-/

namespace PropContract.Project

open List Table

variable {s : String} {path : Path}

structure Progress where
  done : List Path
  pending : Pending
  project : Project

/-- One round takes a path from the queue. It is passed over if it is no source file or was read
before; otherwise it is read, and what it imports is queued. -/
inductive Round (tree : FileTree) (roots : List String) : Progress → Progress → Prop
  | passed {done texts path queue p}
      (hpath : SourceKind.ofPath? path = none ∨ (p.idAt? path).isSome) :
      Round tree roots ⟨done, ⟨texts, path :: queue⟩, p⟩ ⟨done ++ [path], ⟨texts, queue⟩, p⟩
  | read {done texts path queue p kind text file p'} (hkind : SourceKind.ofPath? path = some kind)
      (hfile : parseFile roots path kind text = .ok file)
      (hp : p' = { p with files := p.files ++ [file] }) :
      Round tree roots ⟨done, ⟨texts, path :: queue⟩, p⟩
        ⟨done ++ [path], ⟨texts.erase path.text,
          enqueue tree p' file ⟨texts.erase path.text, queue⟩⟩, p'⟩

abbrev Run (tree : FileTree) (roots : List String) : Progress → Progress → Prop :=
  Relation.ReflTransGen (Round tree roots)

variable {tree : FileTree} {roots : List String}

theorem Run.invariant {q : Progress → Prop} (hround : ∀ a b, Round tree roots a b → q a → q b)
    {a b : Progress} (h : Run tree roots a b) (ha : q a) : q b := by
  induction h with
  | refl => exact ha
  | tail _ hlast ih => exact hround _ _ hlast ih

variable {p : Project} {options : CompilerOptions} {c : Path} {f : SourceFile}
  {texts : Table String} {sources : List (Path × String)}

theorem exists_run {fuel : Nat} (done : List Path) {pending : Pending} {p' : Project}
    (h : readAll tree roots fuel pending p = .ok p') : ∃ done' pending',
      Run tree roots ⟨done, pending, p⟩ ⟨done', pending', p'⟩ ∧
        (pending'.queue = [] ∨ done'.length = done.length + fuel) := by
  induction fuel generalizing done pending p with
  | zero =>
    cases h
    exact ⟨done, pending, .refl, .inr rfl⟩
  | succ fuel ih =>
    obtain ⟨texts, queue⟩ := pending
    cases queue with
    | nil =>
      cases h
      exact ⟨done, _, .refl, .inl rfl⟩
    | cons path queue =>
      have hrest : ∃ pending' p'', Round tree roots ⟨done, ⟨texts, path :: queue⟩, p⟩
          ⟨done ++ [path], pending', p''⟩ ∧ readAll tree roots fuel pending' p'' = .ok p' := by
        obtain ⟨hpath, h⟩ | ⟨kind, text, file, hkind, -, -, hfile, h⟩ := readAll_cons h
        · exact ⟨_, _, .passed hpath, h⟩
        · exact ⟨_, _, .read hkind hfile rfl, h⟩
      obtain ⟨pending', p'', hround, h⟩ := hrest
      obtain ⟨done', last, hrun, hend⟩ := ih (done ++ [path]) h
      refine ⟨done', last, .head hround hrun, hend.imp id fun hlen => ?_⟩
      rw [hlen, length_append, length_singleton]
      omega

def enqueueOne (p : Project) (exists? : Path → Bool) (importer : Path) (queue : List Path)
    (request : String) : List Path :=
  match Modules.find? p.options exists? importer request with
  | some target =>
    if (p.idAt? target).isSome || queue.contains target then queue else queue ++ [target]
  | none => queue

structure Grown (p : Project) (leads : String → Path → Prop) (requests : List String)
    (queue queue' : List Path) : Prop where
  kept : queue <+: queue'
  added : ∀ c ∈ queue', c ∈ queue ∨ c ∉ p.files.map SourceFile.path ∧ ∃ s ∈ requests, leads s c
  nodup : queue.Nodup → queue'.Nodup
  covers : ∀ s ∈ requests, ∀ c, leads s c → c ∈ p.files.map SourceFile.path ∨ c ∈ queue'

namespace Grown

variable {p : Project} {leads : String → Path → Prop} {requests requests' : List String}
  {queue queue₁ queue₂ : List Path}

theorem of_covered (h : ∀ s ∈ requests, ∀ c, leads s c →
    c ∈ p.files.map SourceFile.path ∨ c ∈ queue) : Grown p leads requests queue queue :=
  ⟨prefix_rfl, fun _ hc => .inl hc, id, h⟩

theorem trans (h : Grown p leads requests queue queue₁)
    (h' : Grown p leads requests' queue₁ queue₂) :
    Grown p leads (requests ++ requests') queue queue₂ where
  kept := h.kept.trans h'.kept
  added := by
    intro c hc
    rcases h'.added c hc with hc | ⟨hnew, s, hs, hl⟩
    · rcases h.added c hc with hc | ⟨hnew, s, hs, hl⟩
      · exact .inl hc
      · exact .inr ⟨hnew, s, mem_append_left _ hs, hl⟩
    · exact .inr ⟨hnew, s, mem_append_right _ hs, hl⟩
  nodup := fun hq => h'.nodup (h.nodup hq)
  covers := by
    intro s hs c hl
    rcases mem_append.mp hs with hs | hs
    · exact (h.covers s hs c hl).imp id fun hc => h'.kept.subset hc
    · exact h'.covers s hs c hl

end Grown

theorem grown_enqueueOne (p : Project) (exists? : Path → Bool) (importer : Path)
    (queue : List Path) (request : String) :
    Grown p (fun s c => Modules.find? p.options exists? importer s = some c) [request] queue
      (enqueueOne p exists? importer queue request) := by
  unfold enqueueOne
  split
  · rename_i target htarget
    split
    · rename_i hthere
      refine .of_covered fun s hs c hc => ?_
      rw [mem_singleton.mp hs, htarget] at hc
      cases hc
      simpa [idAt?_isSome_iff] using hthere
    · rename_i hnew
      simp only [Bool.or_eq_true, not_or, idAt?_isSome_iff, contains_iff_mem] at hnew
      refine ⟨prefix_append _ _, fun c hc => ?_, fun h => ?_, fun s hs c hc => ?_⟩
      · rcases mem_append.mp hc with hc | hc
        · exact .inl hc
        · obtain rfl := mem_singleton.mp hc
          exact .inr ⟨hnew.1, request, mem_singleton_self _, htarget⟩
      · exact nodup_append.mpr ⟨h, nodup_singleton _,
          fun a ha b hb he => hnew.2 (mem_singleton.mp hb ▸ he ▸ ha)⟩
      · rw [mem_singleton.mp hs, htarget] at hc
        cases hc
        exact .inr (mem_append_right _ (mem_singleton_self _))
  · rename_i hnone
    refine .of_covered fun s hs c hc => ?_
    rw [mem_singleton.mp hs, hnone] at hc
    cases hc

theorem grown_foldl_enqueueOne (p : Project) (exists? : Path → Bool) (importer : Path)
    (requests : List String) (queue : List Path) :
    Grown p (fun s c => Modules.find? p.options exists? importer s = some c) requests queue
      (requests.foldl (enqueueOne p exists? importer) queue) := by
  induction requests generalizing queue with
  | nil => exact .of_covered (forall_mem_nil _)
  | cons request rest ih => exact (grown_enqueueOne p exists? importer queue request).trans (ih _)

theorem enqueue_eq (tree : FileTree) (h : p.options.followImports) (file : SourceFile)
    (rest : Pending) : enqueue tree p file rest =
      file.scope.requests.foldl (enqueueOne p
        (fun c => rest.texts.contains c.text || tree.isFile c) file.path) rest.queue := by
  rw [enqueue, if_pos h]
  rfl

def Leads (tree : FileTree) (options : CompilerOptions) (f : SourceFile) (s : String) (c : Path) :
    Prop :=
  Modules.find? options tree.isFile f.path s = some c

def isSourcePath (path : Path) : Bool :=
  (SourceKind.ofPath? path).isSome

/-- What is kept from round to round, when the paths that were asked for are `asked`. -/
structure Reading (tree : FileTree) (options : CompilerOptions) (asked : List Path)
    (a : Progress) : Prop where
  sameOptions : a.project.options = options
  taken : a.project.files.map SourceFile.path = a.done.filter isSourcePath
  nodup : (a.done ++ a.pending.queue).Nodup
  first : asked <+: a.done ++ a.pending.queue
  texts : ∀ name, a.pending.texts.contains name → ⟨name⟩ ∈ asked
  marked : ∀ f ∈ a.project.files, f.isRoot = true ↔ f.path ∈ asked
  led : ∀ c ∈ a.done ++ a.pending.queue, c ∈ asked ∨
    ∃ f ∈ a.project.files, ∃ s ∈ f.scope.requests, Leads tree options f s c
  covers : ∀ f ∈ a.project.files, ∀ s ∈ f.scope.requests, ∀ c, Leads tree options f s c →
    c ∈ a.done ++ a.pending.queue

theorem Leads.isSourcePath (h : Leads tree options f s c) : isSourcePath c :=
  (Modules.isSource_of_find? h).2

theorem Leads.isFile (h : Leads tree options f s c) : tree.isFile c :=
  find?_some h

theorem contains_of_contains_erase {name other : String} (h : (texts.erase other).contains name) :
    texts.contains name := by
  rw [contains_iff_mem_keys] at h ⊢
  obtain ⟨entry, hentry, rfl⟩ := mem_map.mp h
  exact mem_map_of_mem (mem_of_mem_filter hentry)

def placesIn (tree : FileTree) (asked : List Path) : List Path :=
  asked ++ (tree.files.keys.map Path.mk ++
    tree.files.keys.map fun place => ⟨String.ofList (place.toList.drop 1)⟩)

theorem mem_of_isFile (hc : c.IsNormal) (h : tree.isFile c) :
    c ∈ tree.files.keys.map Path.mk ++
      tree.files.keys.map fun place => ⟨String.ofList (place.toList.drop 1)⟩ := by
  obtain ⟨absolute, names, hn, rfl⟩ := hc
  rw [FileTree.isFile, FileTree.resolve?_ofNames tree absolute hn] at h
  have hplace := (contains_iff_mem_keys _ _).mp h
  cases absolute with
  | true => exact mem_append_left _ (mem_map_of_mem hplace)
  | false =>
    refine mem_append_right _ (mem_map.mpr ⟨_, hplace, congrArg Path.mk ?_⟩)
    apply String.toList_inj.mp
    have htext := Path.toList_ofNames false names
    rw [Path.ofNames] at htext
    rw [htext, String.toList_ofList, Path.toList_ofNames]
    simp

section Rounds

variable {options : CompilerOptions} {asked : List Path} (hfollow : options.followImports)
  (hthere : ∀ c ∈ asked, tree.isFile c)

include hfollow hthere

omit hfollow hthere in
theorem Reading.passed {done queue : List Path} {texts : Table String} {p : Project}
    (hpath : SourceKind.ofPath? path = none ∨ (p.idAt? path).isSome)
    (ha : Reading tree options asked ⟨done, ⟨texts, path :: queue⟩, p⟩) :
    Reading tree options asked ⟨done ++ [path], ⟨texts, queue⟩, p⟩ := by
  have hsame : done ++ [path] ++ queue = done ++ path :: queue := by simp
  have hnot : path ∉ done := fun hd =>
    (nodup_append.mp ha.nodup).2.2 path hd path mem_cons_self rfl
  have hkind : isSourcePath path = false := by
    rcases hpath with hpath | hpath
    · simp [isSourcePath, hpath]
    · rw [idAt?_isSome_iff, ha.taken] at hpath
      exact absurd (mem_of_mem_filter hpath) hnot
  exact {
    sameOptions := ha.sameOptions
    taken := by simpa [filter_append, hkind] using ha.taken
    nodup := hsame ▸ ha.nodup
    first := hsame ▸ ha.first
    texts := ha.texts
    marked := ha.marked
    led := hsame ▸ ha.led
    covers := hsame ▸ ha.covers }

variable {p : Project} {texts : Table String}

theorem grown_enqueue (htexts : ∀ name, texts.contains name → ⟨name⟩ ∈ asked)
    (hoptions : p.options = options) (file : SourceFile) (queue : List Path) :
    Grown p (Leads tree options file) file.scope.requests queue
      (enqueue tree p file ⟨texts, queue⟩) := by
  have hexists : (fun c : Path => texts.contains c.text || tree.isFile c) = tree.isFile := by
    funext c
    rw [Bool.or_eq_right_iff_imp]
    exact fun h => hthere c (htexts c.text h)
  have hgrown := grown_foldl_enqueueOne p tree.isFile file.path file.scope.requests queue
  rw [enqueue_eq tree (hoptions ▸ hfollow), hexists]
  rw [hoptions] at hgrown
  exact hgrown

omit hfollow hthere in
theorem isRoot_iff_mem (hroots : roots = asked.map Path.text) {kind : SourceKind}
    {text : String} {file : SourceFile} (h : parseFile roots path kind text = .ok file) :
    file.isRoot = true ↔ file.path ∈ asked := by
  obtain ⟨hpath, hroot⟩ := parseFile_eq_ok h
  rw [hroot, hpath, hroots, contains_iff_mem, mem_map]
  constructor
  · rintro ⟨c, hc, ht⟩
    have hc' : c = path := congrArg Path.mk ht
    exact hc' ▸ hc
  · exact fun h => ⟨path, h, rfl⟩

theorem Reading.read (hroots : roots = asked.map Path.text) {done queue : List Path}
    {p' : Project} {kind : SourceKind} {text : String} {file : SourceFile}
    (hkind : SourceKind.ofPath? path = some kind)
    (hfile : parseFile roots path kind text = .ok file)
    (hp : p' = { p with files := p.files ++ [file] })
    (ha : Reading tree options asked ⟨done, ⟨texts, path :: queue⟩, p⟩) :
    Reading tree options asked ⟨done ++ [path], ⟨texts.erase path.text,
      enqueue tree p' file ⟨texts.erase path.text, queue⟩⟩, p'⟩ := by
  have hfiles : p'.files = p.files ++ [file] := by rw [hp]
  have hoptions : p'.options = options := by rw [hp]; exact ha.sameOptions
  have hsource : isSourcePath path = true := by rw [isSourcePath, hkind]; rfl
  have htaken : p'.files.map SourceFile.path = (done ++ [path]).filter isSourcePath := by
    simpa [hfiles, (parseFile_eq_ok hfile).1, hsource] using ha.taken
  have htexts : ∀ name, (texts.erase path.text).contains name → ⟨name⟩ ∈ asked :=
    fun name h => ha.texts name (contains_of_contains_erase h)
  have hgrown := grown_enqueue hfollow hthere htexts hoptions file queue
  generalize enqueue tree p' file ⟨texts.erase path.text, queue⟩ = queue' at hgrown
  have hsame := append_cons done path queue
  have hbefore : done ++ path :: queue <+: done ++ [path] ++ queue' := by
    rw [hsame]
    exact (prefix_append_right_inj _).mpr hgrown.kept
  obtain ⟨hdone, hqueue, hapart⟩ := nodup_append.mp (hsame ▸ ha.nodup)
  have hold : ∀ c ∈ done ++ [path] ++ queue, c ∈ asked ∨
      ∃ f ∈ p'.files, ∃ s ∈ f.scope.requests, Leads tree options f s c := by
    intro c hc
    refine (ha.led c (hsame ▸ hc)).imp id ?_
    rintro ⟨f, hf, hl⟩
    exact ⟨f, hfiles ▸ mem_append_left _ hf, hl⟩
  exact {
    sameOptions := hoptions
    taken := htaken
    nodup := by
      refine nodup_append.mpr ⟨hdone, hgrown.nodup hqueue, fun c hc d hd he => ?_⟩
      subst he
      rcases hgrown.added c hd with hd | ⟨hnew, s, hs, hl⟩
      · exact hapart c hc c hd rfl
      · exact hnew (htaken ▸ mem_filter.mpr ⟨hc, hl.isSourcePath⟩)
    first := ha.first.trans hbefore
    texts := htexts
    marked := by
      intro f hf
      rw [hfiles] at hf
      rcases mem_append.mp hf with hf | hf
      · exact ha.marked f hf
      · rw [mem_singleton.mp hf]
        exact isRoot_iff_mem hroots hfile
    led := by
      intro c hc
      rcases mem_append.mp hc with hc | hc
      · exact hold c (mem_append_left _ hc)
      · rcases hgrown.added c hc with hc | ⟨-, s, hs, hl⟩
        · exact hold c (mem_append_right _ hc)
        · exact .inr ⟨file, hfiles ▸ mem_append_right _ (mem_singleton_self _), s, hs,
            hl⟩
    covers := by
      intro f hf s hs c hl
      rw [hfiles] at hf
      rcases mem_append.mp hf with hf | hf
      · exact hbefore.subset (ha.covers f hf s hs c hl)
      · obtain rfl := mem_singleton.mp hf
        rcases hgrown.covers s hs c hl with hc | hc
        · rw [htaken] at hc
          exact mem_append_left _ (mem_of_mem_filter hc)
        · exact mem_append_right _ hc }

theorem Reading.round (hroots : roots = asked.map Path.text) {a b : Progress}
    (h : Round tree roots a b) (ha : Reading tree options asked a) :
    Reading tree options asked b := by
  cases h with
  | passed hpath => exact ha.passed hpath
  | read hkind hfile hp => exact Reading.read hfollow hthere hroots hkind hfile hp ha

theorem exists_reading (hasked : asked.Nodup) (htexts : texts.keys = asked.map Path.text)
    (h : readAll tree texts.keys (2 * (texts.length + tree.files.length) + 1)
      ⟨texts, asked⟩ { options } = .ok p) :
    ∃ a, Reading tree options asked a ∧ a.pending.queue = [] ∧ a.project = p := by
  obtain ⟨done, pending, hrun, hend⟩ := exists_run [] h
  have hstart : Reading tree options asked ⟨[], ⟨texts, asked⟩, { options }⟩ := {
    sameOptions := rfl
    taken := rfl
    nodup := hasked
    first := prefix_rfl
    texts := by
      intro name hname
      rw [contains_iff_mem_keys, htexts] at hname
      obtain ⟨c, hc, rfl⟩ := mem_map.mp hname
      exact hc
    marked := forall_mem_nil _
    led := fun c hc => .inl hc
    covers := forall_mem_nil _ }
  have hreading : Reading tree options asked ⟨done, pending, p⟩ :=
    hrun.invariant (fun a b hab => Reading.round hfollow hthere htexts hab) hstart
  refine ⟨⟨done, pending, p⟩, hreading, hend.resolve_right fun hlen => ?_, rfl⟩
  have hsub : (done ++ pending.queue) ⊆ placesIn tree asked := by
    intro c hc
    rcases hreading.led c hc with hc | ⟨f, -, s, -, hl⟩
    · exact mem_append_left _ hc
    · exact mem_append_right _
        (mem_of_isFile (Modules.isSource_of_find? hl).1 hl.isFile)
  have hle := (hreading.nodup.subperm hsub).length_le
  have hkeys : texts.length = asked.length := by
    rw [← length_map (f := Prod.fst), ← Table.keys, htexts, length_map]
  simp only [placesIn, length_append, length_map, Table.keys] at hle
  simp only [length_nil] at hlen
  omega

end Rounds

theorem foldl_addNew (kept added : List Path) :
    added.foldl (fun kept c => if c ∈ kept then kept else kept ++ [c]) kept =
      kept ++ (added.filter fun c => !kept.contains c).eraseDups := by
  induction added generalizing kept with
  | nil => simp
  | cons c rest ih =>
    rw [foldl_cons, ih]
    by_cases hc : c ∈ kept
    · simp [hc]
    · have hsplit : (fun a : Path => !(kept ++ [c]).contains a) =
          fun a => !a == c && !kept.contains a := by
        funext a
        by_cases ha : a = c <;> simp [ha]
      rw [if_neg hc, hsplit, filter_cons_of_pos (by simpa using hc), eraseDups_cons,
        filter_filter, append_assoc]
      rfl

def placeOne (table : Table String) (source : Path × String) : Except ProjectError (Table String) :=
  if source.1.isAbsolute then .ok (table.put source.1.normalize.text source.2)
  else .error (.relative source.1)

theorem placed_eq (sources : List (Path × String)) : placed sources = sources.foldlM placeOne [] :=
  rfl

theorem keys_of_placeOne {texts' : Table String} (h : sources.foldlM placeOne texts = .ok texts') :
    (∀ source ∈ sources, source.1.isAbsolute) ∧ texts'.keys.map Path.mk =
      (sources.map fun source => source.1.normalize).foldl
        (fun kept c => if c ∈ kept then kept else kept ++ [c]) (texts.keys.map Path.mk) := by
  induction sources generalizing texts with
  | nil =>
    cases h
    exact ⟨forall_mem_nil _, rfl⟩
  | cons source rest ih =>
    rw [foldlM_cons] at h
    obtain ⟨table, htable, h⟩ := of_bind_eq_ok h
    unfold placeOne at htable
    split at htable
    · rename_i habs
      cases htable
      obtain ⟨hrest, hkeys⟩ := ih h
      refine ⟨fun s hs => ?_, ?_⟩
      · rcases mem_cons.mp hs with rfl | hs
        · exact habs
        · exact hrest s hs
      · have hmem : source.1.normalize.text ∈ texts.keys ↔
            source.1.normalize ∈ texts.keys.map Path.mk := by
          rw [mem_map]
          exact ⟨fun h => ⟨_, h, rfl⟩, fun ⟨_, h, he⟩ => he ▸ h⟩
        rw [hkeys, map_cons, foldl_cons, keys_put]
        congr 1
        by_cases hin : source.1.normalize.text ∈ texts.keys
        · rw [if_pos hin, if_pos (hmem.mp hin)]
        · rw [if_neg hin, if_neg (mt hmem.mpr hin), map_append]
          rfl
    · cases htable

theorem keys_of_placed (h : placed sources = .ok texts) :
    (∀ source ∈ sources, source.1.isAbsolute) ∧
      texts.keys.map Path.mk = (sources.map fun source => source.1.normalize).eraseDups := by
  rw [placed_eq] at h
  obtain ⟨habs, hkeys⟩ := keys_of_placeOne h
  refine ⟨habs, ?_⟩
  rw [hkeys, foldl_addNew]
  simp [Table.keys]

theorem of_mapM_read {paths : List Path} (h : (paths.mapM fun path => do
      let text ← (tree.read path).mapError (ProjectError.unreadable path)
      pure (path, text)) = .ok sources) :
    sources.map Prod.fst = paths ∧ ∀ source ∈ sources, tree.read source.1 = .ok source.2 := by
  induction paths generalizing sources with
  | nil =>
    cases h
    exact ⟨rfl, forall_mem_nil _⟩
  | cons path rest ih =>
    rw [mapM_cons] at h
    obtain ⟨source, hsource, h⟩ := of_bind_eq_ok h
    obtain ⟨others, hothers, h⟩ := of_bind_eq_ok h
    obtain ⟨text, htext, hpair⟩ := of_bind_eq_ok hsource
    cases h
    cases hpair
    obtain ⟨hpaths, hread⟩ := ih hothers
    refine ⟨by rw [map_cons, hpaths], fun s hs => ?_⟩
    rcases mem_cons.mp hs with rfl | hs
    · cases hr : tree.read path with
      | error e =>
        rw [hr] at htext
        cases htext
      | ok t =>
        rw [hr] at htext
        cases htext
        rfl
    · exact hread s hs

theorem exists_reading_of_load {paths : List Path} (hfollow : options.followImports)
    (h : load tree options paths = .ok p) :
    ∃ a, Reading tree options (paths.map Path.normalize).eraseDups a ∧
      a.pending.queue = [] ∧ a.project = p ∧
      ∀ c ∈ (paths.map Path.normalize).eraseDups, tree.isFile c := by
  obtain ⟨sources, hsources, h⟩ := of_bind_eq_ok h
  obtain ⟨texts, htexts, h⟩ := of_bind_eq_ok h
  obtain ⟨hpaths, hread⟩ := of_mapM_read hsources
  obtain ⟨habs, hkeys⟩ := keys_of_placed htexts
  have hnormal : (sources.map fun source => source.1.normalize) = paths.map Path.normalize := by
    rw [← hpaths, map_map]
    rfl
  rw [hnormal] at hkeys
  have hthere : ∀ c ∈ (paths.map Path.normalize).eraseDups, tree.isFile c := by
    intro c hc
    rw [← hnormal] at hc
    obtain ⟨source, hs, rfl⟩ := mem_map.mp (mem_eraseDups.mp hc)
    exact FileTree.isFile_normalize (habs source hs) (FileTree.isFile_of_read (hread source hs))
  have htexts' : texts.keys = (paths.map Path.normalize).eraseDups.map Path.text := by
    rw [← hkeys, map_map]
    exact (map_id _).symm
  obtain ⟨a, ha, hqueue, hproject⟩ :=
    exists_reading hfollow hthere (nodup_eraseDups _) htexts' (by rw [← hkeys]; exact h)
  exact ⟨a, ha, hqueue, hproject, hthere⟩

theorem idAt?_eq_some {id : Nat} (h : p.idAt? path = some id) :
    ∃ f, p.file? id = some f ∧ f.path = path := by
  obtain ⟨hlt, hpath, -⟩ := findIdx?_eq_some_iff_getElem.mp h
  exact ⟨p.files[id], getElem?_eq_getElem hlt, by simpa using hpath⟩

theorem find?_eq_of_narrower {q r : Path → Bool} {candidates : List Path}
    (hqr : ∀ c, q c → r c) (hr : ∀ c, candidates.find? r = some c → q c) :
    candidates.find? q = candidates.find? r := by
  cases hfound : candidates.find? r with
  | none =>
    rw [find?_eq_none] at hfound ⊢
    exact fun c hc hq => hfound c hc (hqr c hq)
  | some c =>
    obtain ⟨hc, before, after, hsplit, hbefore⟩ := find?_eq_some_iff_append.mp hfound
    refine find?_eq_some_iff_append.mpr ⟨hr c hfound, before, after, hsplit, fun d hd => ?_⟩
    have hnot := hbefore d hd
    simp only [Bool.not_eq_true', Bool.eq_false_iff] at hnot ⊢
    exact mt (hqr d) hnot

theorem idAt?_of_nodup (hp : (p.files.map SourceFile.path).Nodup) {id : Nat}
    (h : p.file? id = some f) : p.idAt? f.path = some id := by
  obtain ⟨hlt, rfl⟩ := List.getElem?_eq_some_iff.mp h
  refine findIdx?_eq_some_iff_getElem.mpr ⟨hlt, by simp, fun j hj hpath => ?_⟩
  have hj' : j < p.files.length := by omega
  have hsame : (p.files.map SourceFile.path)[j]? = (p.files.map SourceFile.path)[id]? := by
    simpa [hj', hlt] using hpath
  have := (getElem?_inj (by simpa using hj') hp).mp hsame
  omega

section Read

variable {options : CompilerOptions} {asked : List Path} {a : Progress}

section

variable (ha : Reading tree options asked a)

include ha

theorem Reading.mem_done {f : SourceFile} (hf : f ∈ a.project.files) : f.path ∈ a.done := by
  have hpath : f.path ∈ a.project.files.map SourceFile.path := mem_map_of_mem hf
  rw [ha.taken] at hpath
  exact mem_of_mem_filter hpath

theorem Reading.mem_paths (hqueue : a.pending.queue = []) {f : SourceFile}
    (hf : f ∈ a.project.files) (hs : s ∈ f.scope.requests) {c : Path}
    (hc : Leads tree options f s c) : c ∈ a.project.files.map SourceFile.path := by
  have hcovered := ha.covers f hf s hs c hc
  rw [hqueue, append_nil] at hcovered
  rw [ha.taken]
  exact mem_filter.mpr ⟨hcovered, hc.isSourcePath⟩

theorem Reading.nodup_paths : (a.project.files.map SourceFile.path).Nodup := by
  rw [ha.taken]
  exact (nodup_append.mp ha.nodup).1.filter _

theorem Reading.moduleOf?_eq_some_iff (hqueue : a.pending.queue = [])
    (hthere : ∀ c ∈ asked, tree.isFile c) {n : Nat} {f : SourceFile}
    (hf : a.project.file? n = some f) (hs : s ∈ f.scope.requests) (target : Nat) :
    a.project.moduleOf? n s = some target ↔
      ∃ g, a.project.file? target = some g ∧ Leads tree options f s g.path := by
  have hread : ∀ c, (a.project.idAt? c).isSome → tree.isFile c := by
    intro c hc
    obtain ⟨g, hg, rfl⟩ := mem_map.mp ((idAt?_isSome_iff _ _).mp hc)
    rcases ha.led g.path (mem_append_left _ (ha.mem_done hg)) with hasked | ⟨_, -, _, -, hl⟩
    · exact hthere _ hasked
    · exact hl.isFile
  have hfind : Modules.find? options (fun c => (a.project.idAt? c).isSome) f.path s =
      Modules.find? options tree.isFile f.path s := by
    apply find?_eq_of_narrower hread
    intro c hc
    exact (idAt?_isSome_iff _ _).mpr (ha.mem_paths hqueue (mem_of_getElem? hf) hs hc)
  have hmodule : a.project.moduleOf? n s =
      (Modules.find? options tree.isFile f.path s).bind a.project.idAt? := by
    rw [moduleOf?, hf, ha.sameOptions]
    simp only [Option.bind_eq_bind, Option.bind_some, hfind]
  rw [hmodule, Option.bind_eq_some_iff]
  constructor
  · rintro ⟨c, hc, hid⟩
    obtain ⟨g, hg, rfl⟩ := idAt?_eq_some hid
    exact ⟨g, hg, hc⟩
  · rintro ⟨g, hg, hl⟩
    exact ⟨g.path, hl, idAt?_of_nodup ha.nodup_paths hg⟩

theorem Reading.roots_first (hqueue : a.pending.queue = []) :
    a.project.roots.map SourceFile.path = asked.filter isSourcePath ∧
      a.project.roots <+: a.project.files := by
  have hfirst := ha.first
  rw [hqueue, append_nil] at hfirst
  obtain ⟨others, hdone⟩ := hfirst
  have hnodup := ha.nodup
  rw [hqueue, append_nil, ← hdone] at hnodup
  have htaken := ha.taken
  rw [← hdone, filter_append] at htaken
  obtain ⟨roots, imported, hfiles, hroots, himported⟩ := map_eq_append_iff.mp htaken
  have hsplit : a.project.roots = roots := by
    have hall : roots.filter SourceFile.isRoot = roots := by
      rw [filter_eq_self]
      intro f hf
      refine (ha.marked f (hfiles ▸ mem_append_left _ hf)).mpr ?_
      exact mem_of_mem_filter (hroots ▸ mem_map_of_mem hf)
    have hnone : imported.filter SourceFile.isRoot = [] := by
      rw [filter_eq_nil_iff]
      intro f hf hroot
      have hasked := (ha.marked f (hfiles ▸ mem_append_right _ hf)).mp hroot
      have hother :=
        mem_of_mem_filter (himported ▸ mem_map_of_mem (f := SourceFile.path) hf)
      exact (nodup_append.mp hnodup).2.2 _ hasked _ hother rfl
    rw [Project.roots, hfiles, filter_append, hall, hnone, append_nil]
  rw [hsplit]
  exact ⟨hroots, hfiles ▸ prefix_append _ _⟩

end

end Read

/-- A project that was read from a tree, with what it imports, is closed: a specifier that a file
mentions stands for the file at the first candidate that is in the tree, and for nothing only if
no candidate is. Every file that was not asked for is what a specifier of some file stands for,
and those that were asked for come first, each once, in the order in which they were asked for. -/
theorem load_closed {options : CompilerOptions} {paths : List Path} {p : Project}
    (hfollow : options.followImports) (h : load tree options paths = .ok p) :
    (∀ id f s, p.file? id = some f → s ∈ f.scope.requests →
        (∀ c, Modules.find? options tree.isFile f.path s = some c ↔
          ∃ target g, p.moduleOf? id s = some target ∧ p.file? target = some g ∧ g.path = c) ∧
        (p.moduleOf? id s = none ↔
          ∀ c ∈ (Modules.bases options f.path s).flatMap Modules.candidates, ¬ tree.isFile c)) ∧
      (∀ id f, p.file? id = some f → f.isRoot = false → ∃ importer g s,
        p.file? importer = some g ∧ s ∈ g.scope.requests ∧ p.moduleOf? importer s = some id) ∧
      (p.files.map SourceFile.path).Nodup ∧
      p.roots.map SourceFile.path =
        (paths.map Path.normalize).eraseDups.filter (fun c => (SourceKind.ofPath? c).isSome) ∧
      p.roots <+: p.files := by
  obtain ⟨a, ha, hqueue, rfl, hthere⟩ := exists_reading_of_load hfollow h
  refine ⟨fun id f s hf hs => ?_, fun id f hf hroot => ?_, ha.nodup_paths, ha.roots_first hqueue⟩
  · have hmodule := ha.moduleOf?_eq_some_iff hqueue hthere hf hs
    have hfound : ∀ c, Modules.find? options tree.isFile f.path s = some c ↔ ∃ target g,
        a.project.moduleOf? id s = some target ∧ a.project.file? target = some g ∧ g.path = c := by
      intro c
      constructor
      · intro hc
        obtain ⟨g, hg, rfl⟩ :=
          mem_map.mp (ha.mem_paths hqueue (mem_of_getElem? hf) hs hc)
        obtain ⟨target, htarget⟩ := mem_iff_getElem?.mp hg
        exact ⟨target, g, (hmodule target).mpr ⟨g, htarget, hc⟩, htarget, rfl⟩
      · rintro ⟨target, g, htarget, hg, rfl⟩
        obtain ⟨g', hg', hl⟩ := (hmodule target).mp htarget
        rw [hg] at hg'
        cases hg'
        exact hl
    refine ⟨hfound, ?_⟩
    rw [← find?_eq_none, Option.eq_none_iff_forall_ne_some, Option.eq_none_iff_forall_ne_some]
    constructor
    · intro hnone c hc
      obtain ⟨target, _, htarget, -⟩ := (hfound c).mp hc
      exact hnone target htarget
    · intro hnone target htarget
      obtain ⟨g, -, hl⟩ := (hmodule target).mp htarget
      exact hnone g.path hl
  · have hnot : f.path ∉ (paths.map Path.normalize).eraseDups := by
      intro hasked
      rw [(ha.marked f (mem_of_getElem? hf)).mpr hasked] at hroot
      cases hroot
    have hdone := ha.mem_done (mem_of_getElem? hf)
    obtain ⟨g, hg, s, hs, hl⟩ := (ha.led f.path (mem_append_left _ hdone)).resolve_left hnot
    obtain ⟨importer, himporter⟩ := mem_iff_getElem?.mp hg
    have hmodule := ha.moduleOf?_eq_some_iff hqueue hthere himporter hs id
    exact ⟨importer, g, s, himporter, hs, hmodule.mpr ⟨f, hf, hl⟩⟩

def mappedTree : FileTree :=
  FileTree.ofFiles [("/app/a.ts", .text "import \x7b T \x7d from '@/lib';\n"),
    ("/app/src/lib.d.ts", .text "export * from '../a';\n"),
    ("/app/src/lib/index.ts", .text "export type T = string;\n")]

def mappedOptions : CompilerOptions :=
  { paths := [("@/*", ["types/*", "src/*"])], pathsBase := some ⟨"/app"⟩ }

theorem mapped_read : ∃ p, load mappedTree mappedOptions [⟨"/app/./a.ts"⟩, ⟨"/app/a.ts"⟩] = .ok p ∧
    p.files.map SourceFile.path = [⟨"/app/a.ts"⟩, ⟨"/app/src/lib.d.ts"⟩] ∧
    p.files.map (fun f => f.scope.requests) = [["@/lib"], ["../a"]] :=
  exists_ok_of_any (by decide +kernel)

theorem load_closed_mapped :
    ∃ p, load mappedTree mappedOptions [⟨"/app/./a.ts"⟩, ⟨"/app/a.ts"⟩] = .ok p ∧
      (∃ target g, p.moduleOf? 0 "@/lib" = some target ∧ p.file? target = some g ∧
        g.path = ⟨"/app/src/lib.d.ts"⟩) ∧
      p.roots.map SourceFile.path = [⟨"/app/a.ts"⟩] := by
  obtain ⟨p, hp, hpaths, hrequests⟩ := mapped_read
  obtain ⟨hagree, -, -, hroots, -⟩ := load_closed rfl hp
  obtain ⟨f, hf, hpath, hrequest⟩ : ∃ f, p.file? 0 = some f ∧ f.path = ⟨"/app/a.ts"⟩ ∧
      f.scope.requests = ["@/lib"] := by
    have hfirst := congrArg (fun l => l[0]?) hpaths
    have hmentions := congrArg (fun l => l[0]?) hrequests
    simp only [getElem?_map, getElem?_cons_zero, Option.map_eq_some_iff]
      at hfirst hmentions
    obtain ⟨f, hf, hpath⟩ := hfirst
    obtain ⟨f', hf', hrequest⟩ := hmentions
    rw [hf] at hf'
    cases hf'
    exact ⟨f, hf, hpath, hrequest⟩
  obtain ⟨hfound, -⟩ := hagree 0 f "@/lib" hf (by rw [hrequest]; exact mem_singleton_self _)
  refine ⟨p, hp, (hfound ⟨"/app/src/lib.d.ts"⟩).mp ?_, hroots.trans (by decide +kernel)⟩
  rw [hpath]
  decide +kernel

end PropContract.Project
