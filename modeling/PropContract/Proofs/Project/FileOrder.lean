import PropContract.Proofs.Extraction.Renumbering
import PropContract.Proofs.Project.Loading

/-!
The order of the files. Another order gives other numbers and nothing else.
-/

namespace PropContract.Project

open List Table

structure Source where
  path : Path
  kind : SourceKind
  text : String

def source? (entry : String × String) : Option Source :=
  (SourceKind.ofPath? ⟨entry.1⟩).map fun kind => ⟨⟨entry.1⟩, kind, entry.2⟩

def Source.parse (roots : List String) (source : Source) : Except ProjectError SourceFile :=
  parseFile roots source.path source.kind source.text

variable {tree : FileTree} {roots : List String} {p : Project} {sources : List (Path × String)}

theorem enqueue_of_queued {file : SourceFile} {rest : Pending}
    (h : ∀ c : Path, c.IsSource → (rest.texts.contains c.text || tree.isFile c) → c ∈ rest.queue) :
    enqueue tree p file rest = rest.queue := by
  by_cases hfollow : p.options.followImports
  · rw [enqueue_eq tree hfollow]
    refine foldl_fixed' (fun request => ?_) _
    unfold enqueueOne
    split
    · rename_i target htarget
      have hthere := find?_some (show List.find? _ _ = _ from htarget)
      have hmem := h target (Modules.isSource_of_find? htarget) hthere
      rw [if_pos (by simp [hmem])]
    · rfl
  · rw [enqueue, if_neg hfollow]

section

variable {fuel : Nat} {texts : Table String} {path : Path} {queue : List Path} {p : Project}

theorem readAll_of_text {kind : SourceKind} {text : String}
    (hkind : SourceKind.ofPath? path = some kind) (hnew : path ∉ p.files.map SourceFile.path)
    (htext : texts.get? path.text = some text) :
    readAll tree roots (fuel + 1) ⟨texts, path :: queue⟩ p =
      (parseFile roots path kind text).bind fun file =>
        readAll tree roots fuel ⟨texts.erase path.text, enqueue tree
          { p with files := p.files ++ [file] } file ⟨texts.erase path.text, queue⟩⟩
          { p with files := p.files ++ [file] } := by
  have hunread : (p.idAt? path).isSome = false := by
    rwa [Bool.eq_false_iff, ne_eq, idAt?_isSome_iff]
  rw [readAll_of_unread hkind hunread, textAt, htext]
  rfl

theorem enqueue_of_texts (htree : ∀ c, tree.isFile c = false) {todo : Table String}
    (htexts : ∀ name, (SourceKind.ofPath? ⟨name⟩).isSome → texts.get? name = todo.get? name)
    (file : SourceFile) :
    enqueue tree p file ⟨texts, todo.keys.map Path.mk⟩ = todo.keys.map Path.mk := by
  apply enqueue_of_queued
  intro c hc hthere
  rw [htree, Bool.or_false] at hthere
  have hmem : c.text ∈ todo.keys := by
    rw [← contains_iff_mem_keys, Table.contains, ← htexts c.text hc.2]
    exact hthere
  exact mem_map_of_mem hmem

end

/-- Texts that are all queued are parsed one after another, if nothing is on the disk. `todo` are
those that are left; the others that are source files were erased. -/
theorem readAll_eq (htree : ∀ c, tree.isFile c = false) {todo : Table String}
    (hnodup : todo.keys.Nodup) {fuel : Nat} (hfuel : todo.length ≤ fuel) {texts : Table String}
    (htexts : ∀ name, (SourceKind.ofPath? ⟨name⟩).isSome → texts.get? name = todo.get? name)
    (hp : ∀ name ∈ todo.keys, ⟨name⟩ ∉ p.files.map SourceFile.path) :
    readAll tree roots fuel ⟨texts, todo.keys.map Path.mk⟩ p =
      ((todo.filterMap source?).mapM (Source.parse roots)).map fun files =>
        { p with files := p.files ++ files } := by
  induction todo generalizing fuel texts p with
  | nil =>
    have hend : readAll tree roots fuel ⟨texts, []⟩ p = .ok p := by cases fuel <;> rfl
    refine hend.trans ?_
    simp [Except.map, pure, Except.pure]
  | cons entry rest ih =>
    obtain ⟨place, text⟩ := entry
    obtain ⟨fuel, rfl⟩ : ∃ n, fuel = n + 1 := ⟨fuel - 1, by simp at hfuel; omega⟩
    have hfuel' : rest.length ≤ fuel := by simpa using hfuel
    obtain ⟨hplace, hrest⟩ := nodup_cons.mp hnodup
    obtain ⟨hnew, hprest⟩ := forall_mem_cons.mp hp
    have hqueue : (Table.keys ((place, text) :: rest)).map Path.mk =
        ⟨place⟩ :: (Table.keys rest).map Path.mk := rfl
    rw [hqueue, filterMap_cons]
    cases hkind : SourceKind.ofPath? ⟨place⟩ with
    | none =>
      rw [readAll_of_passed (.inl hkind)]
      simp only [source?, hkind, Option.map_none]
      refine ih hrest hfuel' (fun name hname => ?_) hprest
      have hne : place ≠ name := by
        rintro rfl
        rw [hkind] at hname
        cases hname
      rw [htexts name hname, Table.get?, if_neg hne]
    | some kind =>
      have htext : texts.get? place = some text := by
        rw [htexts place (by rw [hkind]; rfl), Table.get?, if_pos rfl]
      have herased : ∀ name, (SourceKind.ofPath? ⟨name⟩).isSome →
          (texts.erase place).get? name = Table.get? name rest := by
        intro name hname
        rw [get?_erase, htexts name hname, Table.get?]
        by_cases hname : place = name
        · rw [if_pos hname, ← hname, get?_eq_none_of_not_mem hplace]
        · rw [if_neg hname, if_neg hname]
      rw [readAll_of_text hkind hnew htext]
      simp only [source?, hkind, Option.map_some, mapM_cons, Source.parse,
        enqueue_of_texts htree herased]
      cases hfile : parseFile roots ⟨place⟩ kind text with
      | error e => rfl
      | ok file =>
        have hlater : ∀ name ∈ Table.keys rest,
            ⟨name⟩ ∉ (p.files ++ [file]).map SourceFile.path := by
          intro name hname
          simp only [map_append, map_cons, map_nil, mem_append,
            mem_singleton, (parseFile_eq_ok hfile).1, Path.mk.injEq, not_or]
          exact ⟨hprest name hname, fun he => hplace (he ▸ hname)⟩
        have hread := ih (p := { p with files := p.files ++ [file] }) hrest hfuel' herased hlater
        refine hread.trans ?_
        cases (rest.filterMap source?).mapM (Source.parse roots) with
        | error e => rfl
        | ok files => simp [Except.map, bind, Except.bind, pure, Except.pure]

def textsAt (sources : List (Path × String)) : Table String :=
  sources.map fun source => (source.1.normalize.text, source.2)

theorem nodup_keys_textsAt (h : (sources.map fun source => source.1.normalize).Nodup) :
    (textsAt sources).keys.Nodup := by
  have hkeys : (textsAt sources).keys =
      (sources.map fun source => source.1.normalize).map Path.text := by
    simp only [Table.keys, textsAt, map_map]
    rfl
  rw [hkeys]
  refine h.map fun a b hab => ?_
  cases a
  cases b
  exact congrArg Path.mk hab

theorem foldlM_placeOne (table : Table String) (habs : ∀ source ∈ sources, source.1.isAbsolute)
    (hnodup : (table ++ textsAt sources).keys.Nodup) :
    sources.foldlM placeOne table = .ok (table ++ textsAt sources) := by
  induction sources generalizing table with
  | nil => simp [textsAt, pure, Except.pure]
  | cons source rest ih =>
    have hsplit : table ++ textsAt (source :: rest) =
        (table ++ [(source.1.normalize.text, source.2)]) ++ textsAt rest := by
      simp [textsAt]
    have hnew : source.1.normalize.text ∉ table.keys := by
      simp only [Table.keys, textsAt, map_append, map_cons] at hnodup
      exact fun hmem => (nodup_append.mp hnodup).2.2 _ hmem _ mem_cons_self rfl
    rw [foldlM_cons, placeOne, if_pos (habs source mem_cons_self),
      put_of_not_mem _ hnew, hsplit]
    exact ih _ (fun s hs => habs s (mem_cons_of_mem _ hs)) (hsplit ▸ hnodup)

theorem ofSources_eq (options : CompilerOptions) (habs : ∀ source ∈ sources, source.1.isAbsolute)
    (hnodup : (sources.map fun source => source.1.normalize).Nodup) :
    ofSources {} options sources =
      (((textsAt sources).filterMap source?).mapM (Source.parse (textsAt sources).keys)).map
        fun files => { options, files } := by
  have hkeys := nodup_keys_textsAt hnodup
  have hplaced : placed sources = .ok (textsAt sources) := by
    rw [placed_eq]
    exact foldlM_placeOne [] habs hkeys
  have hisFile : ∀ c, FileTree.isFile {} c = false := by
    intro c
    unfold FileTree.isFile
    split <;> rfl
  rw [ofSources, hplaced]
  exact readAll_eq hisFile hkeys (by simp; omega) (fun _ _ => rfl)
    (fun _ _ => not_mem_nil)

theorem paths_of_parse {sources : List Source} {files : List SourceFile}
    (h : sources.mapM (Source.parse roots) = .ok files) :
    files.map SourceFile.path = sources.map Source.path := by
  induction sources generalizing files with
  | nil =>
    cases h
    rfl
  | cons source rest ih =>
    rw [mapM_cons] at h
    obtain ⟨file, hfile, h⟩ := of_bind_eq_ok h
    obtain ⟨others, hothers, h⟩ := of_bind_eq_ok h
    cases h
    rw [map_cons, map_cons, ih hothers, (parseFile_eq_ok hfile).1]

theorem paths_sublist (texts : Table String) :
    ((texts.filterMap source?).map Source.path).Sublist (texts.keys.map Path.mk) := by
  induction texts with
  | nil => exact .slnil
  | cons entry rest ih =>
    rw [filterMap_cons]
    cases hkind : SourceKind.ofPath? ⟨entry.1⟩ with
    | none =>
      simp only [source?, hkind, Option.map_none]
      exact ih.cons _
    | some kind =>
      simp only [source?, hkind, Option.map_some]
      exact ih.cons_cons _

theorem ofSources_of_perm {options : CompilerOptions} {sources' : List (Path × String)}
    (hperm : sources.Perm sources') (habs : ∀ source ∈ sources, source.1.isAbsolute)
    (hnodup : (sources.map fun source => source.1.normalize).Nodup)
    (h : ofSources {} options sources = .ok p) :
    ∃ q, ofSources {} options sources' = .ok q ∧ q.options = p.options ∧
      q.files.Perm p.files ∧ (p.files.map SourceFile.path).Nodup := by
  have htexts : (textsAt sources).Perm (textsAt sources') := hperm.map _
  have hparse : Source.parse (textsAt sources').keys = Source.parse (textsAt sources).keys := by
    funext source
    have hroots (name : String) :
        (textsAt sources').keys.contains name = (textsAt sources).keys.contains name := by
      rw [Bool.eq_iff_iff, contains_iff_mem, contains_iff_mem]
      exact (htexts.map Prod.fst).mem_iff.symm
    unfold Source.parse parseFile
    rw [hroots]
  rw [ofSources_eq options habs hnodup] at h
  rw [ofSources_eq options (fun s hs => habs s (hperm.mem_iff.mpr hs))
    ((hperm.map _).nodup_iff.mp hnodup), hparse]
  cases hfiles : ((textsAt sources).filterMap source?).mapM
      (Source.parse (textsAt sources).keys) with
  | error e =>
    rw [hfiles] at h
    cases h
  | ok files =>
    rw [hfiles] at h
    cases h
    obtain ⟨files', hfiles', hfilesPerm⟩ := mapM_perm (htexts.filterMap source?) hfiles
    rw [hfiles']
    refine ⟨_, rfl, rfl, hfilesPerm, ?_⟩
    rw [paths_of_parse hfiles]
    refine (paths_sublist _).nodup ((nodup_keys_textsAt hnodup).map ?_)
    exact fun a b hab => (Path.mk.injEq a b).mp hab

def GlobalsApart (p : Project) : Prop :=
  ∀ f ∈ p.files, ∀ g ∈ p.files, f.path ≠ g.path → f.scope.isModule = false →
    g.scope.isModule = false → ∀ name ∈ f.scope.locals.keys, name ∉ g.scope.locals.keys

instance (p : Project) : Decidable p.GlobalsApart :=
  inferInstanceAs (Decidable (∀ f ∈ p.files, ∀ g ∈ p.files, f.path ≠ g.path →
    f.scope.isModule = false → g.scope.isModule = false →
    ∀ name ∈ f.scope.locals.keys, name ∉ g.scope.locals.keys))

section Numbers

variable {p q : Project}

theorem idAt?_of_mem (hp : (p.files.map SourceFile.path).Nodup) {f : SourceFile}
    (hf : f ∈ p.files) : ∃ id, p.idAt? f.path = some id ∧ p.file? id = some f := by
  obtain ⟨id, hid⟩ := mem_iff_getElem?.mp hf
  exact ⟨id, idAt?_of_nodup hp hid, hid⟩

def numberIn (p q : Project) (id : Nat) : Nat :=
  ((p.file? id).bind fun f => q.idAt? f.path).getD id

variable (hperm : q.files.Perm p.files) (hp : (p.files.map SourceFile.path).Nodup)

include hperm hp

theorem numberIn_of_file? {id : Nat} {f : SourceFile} (h : p.file? id = some f) :
    q.idAt? f.path = some (numberIn p q id) ∧ q.file? (numberIn p q id) = some f := by
  have hq : (q.files.map SourceFile.path).Nodup := (hperm.map _).nodup_iff.mpr hp
  have hf : f ∈ q.files := hperm.mem_iff.mpr (mem_of_getElem? h)
  obtain ⟨id', hid', hfile⟩ := idAt?_of_mem hq hf
  have hnumber : numberIn p q id = id' := by
    rw [numberIn, h, Option.bind_some, hid', Option.getD_some]
  rw [hnumber]
  exact ⟨hid', hfile⟩

theorem file?_numberIn (id : Nat) : q.file? (numberIn p q id) = p.file? id := by
  cases h : p.file? id with
  | some f => exact (numberIn_of_file? hperm hp h).2
  | none =>
    rw [numberIn, h, Option.bind_none, Option.getD_none]
    rw [file?, List.getElem?_eq_none_iff] at h ⊢
    rwa [hperm.length_eq]

theorem numberIn_injective : Function.Injective (numberIn p q) := by
  intro a b hab
  have hfile : p.file? a = p.file? b := by
    rw [← file?_numberIn hperm hp a, hab, file?_numberIn hperm hp]
  cases ha : p.file? a with
  | some f =>
    have hb : p.file? b = some f := hfile ▸ ha
    have hida := idAt?_of_nodup hp ha
    rw [idAt?_of_nodup hp hb] at hida
    exact (Option.some.inj hida).symm
  | none =>
    have hb : p.file? b = none := hfile ▸ ha
    simpa [numberIn, ha, hb] using hab

theorem idAt?_numberIn (place : Path) : q.idAt? place = (p.idAt? place).map (numberIn p q) := by
  cases h : p.idAt? place with
  | some id =>
    obtain ⟨f, hf, rfl⟩ := idAt?_eq_some h
    exact (numberIn_of_file? hperm hp hf).1
  | none =>
    rw [Option.map_none, ← Option.not_isSome_iff_eq_none, idAt?_isSome_iff,
      (hperm.map SourceFile.path).mem_iff, ← idAt?_isSome_iff, h]
    simp

theorem global?_numberIn (hapart : p.GlobalsApart) (name : String) :
    q.global? name = (p.global? name).map fun d => ⟨numberIn p q d.file, d.name⟩ := by
  have hunique : ∀ f ∈ p.files, ∀ g ∈ p.files,
      !f.scope.isModule && f.scope.locals.contains name →
      !g.scope.isModule && g.scope.locals.contains name → f = g := by
    intro f hf g hg hdf hdg
    rw [Bool.and_eq_true, Bool.not_eq_true', contains_iff_mem_keys] at hdf hdg
    have hpath : f.path = g.path := by
      by_contra hne
      exact hapart f hf g hg hne hdf.1 hdg.1 name hdf.2 hdg.2
    exact inj_on_of_nodup_map hp hf hg hpath
  rw [global?, global?, Option.map_map]
  cases h : p.files.findIdx? fun f => !f.scope.isModule && f.scope.locals.contains name with
  | none =>
    rw [findIdx?_eq_none_iff] at h
    rw [findIdx?_eq_none_iff.mpr fun f hf => h f (hperm.mem_iff.mp hf)]
    rfl
  | some id =>
    obtain ⟨hlt, hdeclares, -⟩ := findIdx?_eq_some_iff_getElem.mp h
    have hfile : p.file? id = some p.files[id] := getElem?_eq_getElem hlt
    obtain ⟨hid, hfile'⟩ := numberIn_of_file? hperm hp hfile
    obtain ⟨hlt', hget⟩ := List.getElem?_eq_some_iff.mp hfile'
    have hfound : q.files.findIdx? (fun f => !f.scope.isModule && f.scope.locals.contains name) =
        some (numberIn p q id) := by
      refine findIdx?_eq_some_iff_getElem.mpr ⟨hlt', by rwa [hget], fun j hj hother => ?_⟩
      have hq : (q.files.map SourceFile.path).Nodup := (hperm.map _).nodup_iff.mpr hp
      have hsame := hunique _ (hperm.mem_iff.mp (getElem_mem _)) _ (getElem_mem hlt)
        hother hdeclares
      have hfilej : q.file? j = some p.files[id] :=
        hsame ▸ getElem?_eq_getElem (hj.trans hlt')
      have hidj := idAt?_of_nodup hq hfilej
      rw [hid] at hidj
      exact absurd (Option.some.inj hidj) (by omega)
    rw [hfound]
    rfl

def renumbering (hoptions : q.options = p.options) (hapart : p.GlobalsApart) : Renumbering p q where
  number := numberIn p q
  injective := numberIn_injective hperm hp
  sameOptions := hoptions
  sameFiles := hperm
  file?_number := file?_numberIn hperm hp
  idAt?_eq := idAt?_numberIn hperm hp
  global?_eq := global?_numberIn hperm hp hapart

end Numbers

/-- The order of the sources does not matter. Sources under distinct absolute paths are read in one
order if they are read in another one. If no two of the files that are no modules declare the same
name, the projects answer alike, up to the numbers of the files: names, exports, types and modules
stand for the same, and every file has the same components. -/
theorem ofSources_perm (options : CompilerOptions) {sources sources' : List (Path × String)}
    (hperm : sources.Perm sources') (habs : ∀ source ∈ sources, source.1.isAbsolute)
    (hnodup : (sources.map fun source => source.1.normalize).Nodup) :
    ((∃ p, ofSources {} options sources = .ok p) ↔ ∃ q, ofSources {} options sources' = .ok q) ∧
      ∀ p q, ofSources {} options sources = .ok p → ofSources {} options sources' = .ok q →
        p.GlobalsApart → ∃ ρ : Renumbering p q,
          (∀ file name, q.resolveName (ρ.number file) name =
            (p.resolveName file name).map ρ.resolution) ∧
          (∀ file name, q.resolveExport (ρ.number file) name =
            (p.resolveExport file name).map ρ.resolution) ∧
          (∀ file name, q.typeNamed? (ρ.number file) name =
            (p.typeNamed? file name).map ρ.decl) ∧
          (∀ file specifier, q.moduleOf? (ρ.number file) specifier =
            (p.moduleOf? file specifier).map ρ.number) ∧
          ∀ maxDepth path, Extraction.extract ⟨q, maxDepth⟩ path =
            Extraction.extract ⟨p, maxDepth⟩ path := by
  have habs' : ∀ source ∈ sources', source.1.isAbsolute :=
    fun s hs => habs s (hperm.mem_iff.mpr hs)
  have hnodup' := ((hperm.map fun source => source.1.normalize).nodup_iff).mp hnodup
  refine ⟨⟨fun ⟨p, hp⟩ => ?_, fun ⟨q, hq⟩ => ?_⟩, fun p q hp hq hapart => ?_⟩
  · obtain ⟨q, hq, -⟩ := ofSources_of_perm hperm habs hnodup hp
    exact ⟨q, hq⟩
  · obtain ⟨p, hp, -⟩ := ofSources_of_perm hperm.symm habs' hnodup' hq
    exact ⟨p, hp⟩
  · obtain ⟨q', hq', hoptions, hfiles, hpaths⟩ := ofSources_of_perm hperm habs hnodup hp
    rw [hq] at hq'
    cases hq'
    let ρ := renumbering hfiles hpaths hoptions hapart
    refine ⟨ρ, ρ.resolveName_number, ρ.resolveExport_number, ρ.typeNamed?_number,
      ρ.moduleOf?_number, fun maxDepth path => ?_⟩
    have ρ : Renumbering (Resolver.Setting.mk p maxDepth).project
      (Resolver.Setting.mk q maxDepth).project := ρ
    exact ρ.extract_eq rfl path

def themedSources : List (Path × String) :=
  [(⟨"/app/App.tsx"⟩,
      "import \x7b Props \x7d from './types';\nexport function App(p: Props) \x7b return 1; \x7d\n"),
    (⟨"/app/theme.d.ts"⟩, "interface Theme \x7b color: string; inner?: Theme \x7d\n"),
    (⟨"/app/types.ts"⟩, "export interface Props \x7b theme: Theme; label?: string \x7d\n")]

theorem themed_read : ∃ p, ofSources {} {} themedSources = .ok p ∧ p.GlobalsApart ∧
    p.resolveName 0 "Props" = some (.declared ⟨2, "Props"⟩) ∧
    (Extraction.extract ⟨p, 6⟩ ⟨"/app/App.tsx"⟩).toOption.map (fun components =>
      components.map fun c => (c.name, c.props.map PropInfo.name, c.definitions.keys)) =
        some [("App", ["theme", "label"], ["Theme"])] :=
  exists_ok_of_any (by decide +kernel)

theorem ofSources_perm_themed :
    ∃ p q, ofSources {} {} themedSources = .ok p ∧
      ofSources {} {} themedSources.reverse = .ok q ∧ p.GlobalsApart ∧
      (∃ ρ : Renumbering p q, q.resolveName (ρ.number 0) "Props" =
        some (.declared ⟨ρ.number 2, "Props"⟩)) ∧
      (Extraction.extract ⟨q, 6⟩ ⟨"/app/App.tsx"⟩).toOption.map (fun components =>
        components.map fun c => (c.name, c.props.map PropInfo.name, c.definitions.keys)) =
          some [("App", ["theme", "label"], ["Theme"])] := by
  obtain ⟨p, hp, hapart, hname, hcomponents⟩ := themed_read
  obtain ⟨hread, hanswers⟩ := ofSources_perm {} (reverse_perm themedSources).symm
    (by decide) (by decide +kernel)
  obtain ⟨q, hq⟩ := hread.mp ⟨p, hp⟩
  obtain ⟨ρ, hnames, -, -, -, hextract⟩ := hanswers p q hp hq hapart
  refine ⟨p, q, hp, hq, hapart, ⟨ρ, ?_⟩, ?_⟩
  · rw [hnames, hname]
    rfl
  · rw [hextract, hcomponents]

end PropContract.Project
