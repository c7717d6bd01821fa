import PropContract.Proofs.Project.Reading
import PropContract.Proofs.Project.Search

/-!
What names resolve to. The search finds nothing only where no chain leads to an answer.
-/

namespace PropContract

open List

namespace Scope

def Declares (scope : Scope) : Prop :=
  ∀ entry ∈ scope.locals, entry.2 ≠ []

theorem foldl_declares {α : Type} {add : Scope → α → Scope}
    (hadd : ∀ scope a, scope.Declares → (add scope a).Declares) (as : List α) {scope : Scope}
    (h : scope.Declares) : (as.foldl add scope).Declares := by
  induction as generalizing scope with
  | nil => exact h
  | cons a as ih => exact ih (hadd scope a h)

theorem addLocal_declares (scope : Scope) (entry : String × Declared) (h : scope.Declares) :
    (scope.addLocal entry).Declares := by
  intro found hf
  rcases Table.mem_of_mem_put hf with hf | rfl
  · exact h found hf
  · exact append_ne_nil_of_right_ne_nil _ (cons_ne_nil _ _)

theorem addLocals_declares (scope : Scope) (d : Syntax.Declaration) (h : scope.Declares) :
    (scope.addLocals d).Declares :=
  foldl_declares addLocal_declares (bindings d) h

theorem addSpecifier_declares (source : Option String) (scope : Scope)
    (s : Syntax.ExportSpecifier) (h : scope.Declares) : (addSpecifier source scope s).Declares := by
  unfold addSpecifier
  split <;> exact h

theorem addItem_declares (scope : Scope) (item : Syntax.Item) (h : scope.Declares) :
    (scope.addItem item).Declares := by
  unfold addItem
  split
  · exact addLocals_declares scope _ h
  · exact h
  · have hmodule : Declares { scope with isModule := true } := h
    dsimp only
    split
    · apply foldl_declares
      · exact fun _ _ h => h
      · exact hmodule
    · apply foldl_declares
      · exact fun _ _ h => h
      · exact addLocals_declares _ _ hmodule
    · exact foldl_declares (addSpecifier_declares _) _ hmodule
    · exact h
    · apply foldl_declares
      · exact fun _ _ h => h
      · exact addLocals_declares _ _ hmodule
    all_goals exact h

theorem ofItems_declares (items : List Syntax.Item) : (ofItems items).Declares :=
  foldl_declares addItem_declares items (forall_mem_nil _)

end Scope

namespace Project

variable {p : Project}

def Declares (p : Project) : Prop :=
  ∀ f ∈ p.files, f.scope.Declares

theorem parseFile_declares {roots : List String} {path : Path} {kind : SourceKind} {text : String}
    {f : SourceFile} (h : parseFile roots path kind text = .ok f) : f.scope.Declares := by
  unfold parseFile at h
  split at h
  · cases h
  · cases h
    exact Scope.ofItems_declares _

theorem ofSources_declares {tree : FileTree} {options : CompilerOptions}
    {sources : List (Path × String)} (h : ofSources tree options sources = .ok p) : p.Declares :=
  ofSources_forall parseFile_declares h

theorem declarations_ne_nil (hp : p.Declares) {d : DeclRef}
    (h : (p.scopeOf d.file).locals.contains d.name) : p.declarations d ≠ [] := by
  rcases p.scopeOf_cases d.file with hs | ⟨f, hf, hs⟩
  · rw [hs] at h
    cases h
  · obtain ⟨decls, hd⟩ := Option.isSome_iff_exists.mp h
    rw [declarations, hd]
    rw [hs] at hd
    exact hp f hf _ (Table.mem_of_get? hd)

theorem contains_of_declared {x : Visit} {d : DeclRef}
    (h : p.junction x = .answer (.declared d)) : (p.scopeOf d.file).locals.contains d.name := by
  cases x with
  | name file name =>
    rw [junction] at h
    split at h
    · rename_i hc
      cases h
      exact hc
    · split at h
      · split at h <;> cases h
      · split at h <;> cases h
      · split at h
        · rename_i hg
          cases h
          obtain ⟨id, hid, rfl⟩ := Option.map_eq_some_iff.mp hg
          obtain ⟨hlt, hfile, -⟩ := findIdx?_eq_some_iff_getElem.mp hid
          simp only [scopeOf, file?, getElem?_eq_getElem hlt]
          simp only [Bool.and_eq_true] at hfile
          exact hfile.2
        · cases h
  | exported file name =>
    rw [junction] at h
    split at h
    · cases h
    · split at h <;> cases h
    · split at h <;> cases h
    · split at h <;> cases h

theorem depthFirst_name_iff (file : Nat) (name : String) (r : Option Resolution) :
    DepthFirst p Passage.isRemembered [] [⟨.start, .name file name⟩] r ↔
      r = p.resolveName file name :=
  depthFirst_start_iff (.inl rfl) r

theorem depthFirst_exported_iff (file : Nat) (name : String) (r : Option Resolution) :
    DepthFirst p Passage.isRemembered [] [⟨.start, .exported file name⟩] r ↔
      r = p.resolveExport file name :=
  depthFirst_start_iff (.inr rfl) r

theorem eq_none_iff_not_reaches {counts : Passage → Bool} {x : Visit} {r : Option Resolution}
    (h : DepthFirst p counts [] [⟨.start, x⟩] r) : r = none ↔ ¬ p.Reaches x := by
  have hreaches : Alive p counts [] x ↔ p.Reaches x := Alive.iff_reaches
  rw [← hreaches]
  constructor
  · rintro rfl
    exact h.not_alive _ (mem_singleton_self _) fun _ => not_mem_nil
  · intro hn
    cases r with
    | none => rfl
    | some found =>
      obtain ⟨e, he, -, ha⟩ := h.alive
      obtain rfl := mem_singleton.mp he
      exact absurd ha hn

/-- A search that remembers where it has been until it ends finds what a depth-first search finds
that keeps to its path: names count as being on the path, and so do exports that were passed on
from another export. Nothing is found only where no chain leads to an answer, and what is found
declared has declarations. -/
theorem resolve_eq_depthFirst {tree : FileTree} {options : CompilerOptions}
    {sources : List (Path × String)} (hp : ofSources tree options sources = .ok p) (file : Nat)
    (name : String) :
    (∀ r, DepthFirst p Passage.isRemembered [] [⟨.start, .name file name⟩] r ↔
        r = p.resolveName file name) ∧
      (∀ r, DepthFirst p Passage.isRemembered [] [⟨.start, .exported file name⟩] r ↔
        r = p.resolveExport file name) ∧
      (p.resolveName file name = none ↔ ¬ p.Reaches (.name file name)) ∧
      (p.resolveExport file name = none ↔ ¬ p.Reaches (.exported file name)) ∧
      ∀ d, p.resolveName file name = some (.declared d) ∨
        p.resolveExport file name = some (.declared d) → p.declarations d ≠ [] := by
  have hname := (depthFirst_name_iff (p := p) file name _).mpr rfl
  have hexport := (depthFirst_exported_iff (p := p) file name _).mpr rfl
  refine ⟨depthFirst_name_iff file name, depthFirst_exported_iff file name,
    eq_none_iff_not_reaches hname, eq_none_iff_not_reaches hexport, ?_⟩
  rintro d (hd | hd)
  · rw [hd] at hname
    obtain ⟨x, hx⟩ := hname.exists_answer
    exact declarations_ne_nil (ofSources_declares hp) (contains_of_declared hx)
  · rw [hd] at hexport
    obtain ⟨x, hx⟩ := hexport.exists_answer
    exact declarations_ne_nil (ofSources_declares hp) (contains_of_declared hx)

/-- Two files that pass on each other's exports, and before or after them those of a third and a
fourth one, which declare the same name. -/
def circleSources : List (Path × String) :=
  [(⟨"/f.ts"⟩, "export * from './t1';\nexport * from './t2';\n"),
    (⟨"/t1.ts"⟩, "export * from './f';\nexport * from './u';\n"),
    (⟨"/t2.ts"⟩, "export interface X \x7b a: string \x7d\n"),
    (⟨"/u.ts"⟩, "export interface X \x7b b: string \x7d\n")]

theorem circle_read :
    ∃ p, ofSources {} { followImports := false } circleSources = .ok p ∧
      p.junction (.exported 0 "X") =
        .passages [⟨.star, .exported 1 "X"⟩, ⟨.star, .exported 2 "X"⟩] ∧
      p.junction (.exported 1 "X") =
        .passages [⟨.star, .exported 0 "X"⟩, ⟨.star, .exported 3 "X"⟩] ∧
      p.junction (.exported 3 "X") = .passages [⟨.exportedLocal, .name 3 "X"⟩] ∧
      p.junction (.name 3 "X") = .answer (.declared ⟨3, "X"⟩) ∧
      p.resolveExport 0 "X" = some (.declared ⟨2, "X"⟩) ∧ p.resolveExport 0 "Y" = none := by
  exact exists_ok_of_any (by decide +kernel)

theorem resolve_eq_depthFirst_circle :
    ∃ p, ofSources {} { followImports := false } circleSources = .ok p ∧
      DepthFirst p Passage.isRemembered [] [⟨.start, .exported 0 "X"⟩]
        (some (.declared ⟨2, "X"⟩)) ∧
      p.declarations ⟨2, "X"⟩ ≠ [] ∧ ¬ p.Reaches (.exported 0 "Y") := by
  obtain ⟨p, hp, -, -, -, -, hx, hy⟩ := circle_read
  obtain ⟨-, hexport, -, -, hdeclared⟩ := resolve_eq_depthFirst hp 0 "X"
  obtain ⟨-, -, -, hnone, -⟩ := resolve_eq_depthFirst hp 0 "Y"
  exact ⟨p, hp, (hexport _).mpr hx.symm, hdeclared _ (.inr hx), hnone.mp hy⟩

/-- If every place counted as being on the path, the search would not come back to the file that
it starts from, and it would find the declaration in the fourth file and not in the third. -/
theorem resolveExport_ne_of_all_counted :
    ∃ p, ofSources {} { followImports := false } circleSources = .ok p ∧
      (∀ r, DepthFirst p (fun _ => true) [] [⟨.start, .exported 0 "X"⟩] r ↔
        r = some (.declared ⟨3, "X"⟩)) ∧
      p.resolveExport 0 "X" = some (.declared ⟨2, "X"⟩) := by
  obtain ⟨p, hp, h₀, h₁, h₃, hname, hx, -⟩ := circle_read
  have hfound : DepthFirst p (fun _ => true) [] [⟨.start, .exported 0 "X"⟩]
      (some (.declared ⟨3, "X"⟩)) := by
    refine .found (by simp) h₀ (.found (by simp [Passage.extend]) h₁ ?_)
    refine .pruned rfl (by simp [Passage.extend]) ?_
    refine .found (by simp [Passage.extend]) h₃ ?_
    exact .answer (by simp [Passage.extend]) hname
  exact ⟨p, hp, fun r => ⟨fun h => h.unique hfound, fun h => h ▸ hfound⟩, hx⟩

end Project

end PropContract
