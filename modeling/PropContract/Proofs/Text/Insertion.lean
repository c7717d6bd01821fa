import PropContract.Proofs.Text.Splice

/-!
One insertion more: the text that comes out is the one without it, with something put in.
-/

namespace PropContract

open Text List

theorem Patch.isPrefix_after {p : Patch} {start rest : List Char}
    (hbefore : p.before = start ++ rest)
    (hedits : ∀ e ∈ p.edits, byteLength start ≤ e.span.start) : start <+: p.after := by
  obtain ⟨pieces, last⟩ := p
  cases pieces with
  | nil => exact ⟨rest, hbefore.symm⟩
  | cons q qs =>
    have hkept : byteLength start ≤ 0 + byteLength q.kept := hedits _ mem_cons_self
    rw [Nat.zero_add] at hkept
    simp only [before, flatMap_cons, append_assoc] at hbefore
    obtain ⟨middle, hmiddle, -⟩ := split_of_le hbefore.symm hkept
    simp [after, hmiddle]

namespace Edit

theorem Earlier.asymm {a b : Edit × Nat} (h : Earlier a b) : ¬ Earlier b a := by
  simp only [Earlier] at *
  omega

variable {edits : List Edit} {source inserted text : String} {n : Nat}

theorem InOrder.eq_sorted {order : List Edit} (h : InOrder edits order) : order = sorted edits := by
  obtain ⟨numbered, hperm, hearlier, rfl⟩ := h
  obtain ⟨numbered', hperm', hearlier', hsorted⟩ := sorted_inOrder edits
  rw [← hsorted]
  exact congrArg _ ((hperm.trans hperm'.symm).eq_of_pairwise
    (fun a b _ _ hab hba => absurd hba hab.asymm) hearlier hearlier')

theorem sorted_append_singleton (edits : List Edit) (e : Edit) :
    ∃ earlier later, sorted (edits ++ [e]) = earlier ++ e :: later ∧
      sorted edits = earlier ++ later := by
  obtain ⟨numbered, hperm, hearlier, hsorted⟩ := sorted_inOrder (edits ++ [e])
  rw [zipIdx_append] at hperm
  have hmem : (e, edits.length) ∈ numbered := by
    rw [hperm.mem_iff]
    simp
  obtain ⟨earlier, later, rfl⟩ := append_of_mem hmem
  refine ⟨earlier.map Prod.fst, later.map Prod.fst, by simpa using hsorted.symm, ?_⟩
  rw [← map_append]
  refine (InOrder.eq_sorted ⟨earlier ++ later, ?_, ?_, rfl⟩).symm
  · have hcons : ((e, edits.length) :: (earlier ++ later)).Perm
        ((e, edits.length) :: edits.zipIdx) :=
      (perm_middle.symm.trans hperm).trans (by simp)
    exact hcons.cons_inv
  · exact hearlier.sublist (Sublist.append_left (sublist_cons_self _ _) _)

theorem applyFrom_of_boundary {last : Nat} (hlast : isBoundary source last)
    (hn : isBoundary source n) (hle : last ≤ n) {es : List Edit} {rest : String}
    (h : applyFrom source n es = .ok rest) :
    applyFrom source last es = .ok ((slice? source last n).getD "" ++ rest) := by
  obtain ⟨left, right, hsource, rfl⟩ := isBoundary_iff.mp hlast
  obtain ⟨left', right', hsource', rfl⟩ := isBoundary_iff.mp hn
  obtain ⟨kept, rfl, rfl⟩ := split_of_le (hsource.symm.trans hsource') hle
  have hslice := slice?_eq hsource
  rw [byteLength_append, hslice, Option.getD_some]
  cases es with
  | nil =>
    simp only [applyFrom, dropBytes_eq hsource, dropBytes_eq hsource', Except.ok.injEq] at h ⊢
    rw [← h, String.ofList_append]
  | cons e es =>
    obtain ⟨hfits, hstart, rest', hrest, rfl⟩ := (applyFrom_cons source _ e es rest).mp h
    refine (applyFrom_cons source _ e es _).mpr ⟨hfits, by omega, rest', hrest, ?_⟩
    obtain ⟨left₂, right₂, hsource₂, hn₂⟩ := isBoundary_iff.mp hfits.1
    obtain ⟨kept', rfl, rfl⟩ := split_of_le (hsource'.symm.trans hsource₂) (by omega)
    have hboth : source.toList = left ++ ((kept ++ kept') ++ right₂) := by simp [hsource₂]
    rw [← hn₂, byteLength_append (left ++ kept), slice?_eq hsource', ← byteLength_append,
      append_assoc, byteLength_append, slice?_eq hboth]
    simp [String.append_assoc]

theorem applyFrom_append_insertion {last : Nat} (hlast : isBoundary source last)
    {earlier later : List Edit}
    (h : applyFrom source last (earlier ++ ⟨⟨n, n⟩, inserted⟩ :: later) = .ok text) :
    ∃ pre post, applyFrom source last (earlier ++ later) = .ok (pre ++ post) ∧
      text = pre ++ inserted ++ post := by
  induction earlier generalizing last text with
  | nil =>
    obtain ⟨hfits, hstart, rest, hrest, rfl⟩ := (applyFrom_cons source _ _ _ text).mp h
    exact ⟨_, rest, applyFrom_of_boundary hlast hfits.1 hstart hrest, rfl⟩
  | cons e earlier ih =>
    obtain ⟨hfits, hstart, rest, hrest, rfl⟩ := (applyFrom_cons source _ _ _ text).mp h
    obtain ⟨pre, post, hwithout, rfl⟩ := ih hfits.2 hrest
    refine ⟨(slice? source last e.span.start).getD "" ++ e.text ++ pre, post, ?_, ?_⟩
    · exact (applyFrom_cons source _ _ _ _).mpr
        ⟨hfits, hstart, _, hwithout, (String.append_assoc ..).symm⟩
    · simp only [String.append_assoc]

theorem apply_append_insertion (h : apply (edits ++ [⟨⟨n, n⟩, inserted⟩]) source = .ok text) :
    ∃ pre post, apply edits source = .ok (pre ++ post) ∧ text = pre ++ inserted ++ post := by
  obtain ⟨earlier, later, hsorted, hwithout⟩ := sorted_append_singleton edits ⟨⟨n, n⟩, inserted⟩
  have hzero : isBoundary source 0 := isBoundary_iff.mpr ⟨[], source.toList, rfl, rfl⟩
  rw [apply, hsorted] at h
  rw [apply, hwithout]
  exact applyFrom_append_insertion hzero h

theorem isPrefix_of_apply {start rest : List Char} (hsource : source.toList = start ++ rest)
    (hspans : ∀ e ∈ edits, e.span.start ≤ e.span.stop)
    (hstart : ∀ e ∈ edits, byteLength start ≤ e.span.start) (h : apply edits source = .ok text) :
    start <+: text.toList := by
  obtain ⟨p, hedits, hbefore, hafter⟩ := apply_patch hspans h
  rw [← hafter]
  refine Patch.isPrefix_after (hbefore.trans hsource) fun e he => hstart e ?_
  rwa [hedits, mem_sorted] at he

theorem apply_append_leading (hstart : ∀ e ∈ edits, 0 < e.span.start)
    (h : apply (edits ++ [⟨⟨0, 0⟩, inserted⟩]) source = .ok text) :
    ∃ rest, apply edits source = .ok rest ∧ text = inserted ++ rest := by
  obtain ⟨earlier, later, hsorted, hwithout⟩ := sorted_append_singleton edits ⟨⟨0, 0⟩, inserted⟩
  have hfirst : earlier = [] := by
    cases earlier with
    | nil => rfl
    | cons e earlier =>
      have hsort := pairwise_mergeSort before_trans before_total
        (edits ++ [⟨⟨0, 0⟩, inserted⟩])
      rw [← sorted, hsorted] at hsort
      have hbefore := (pairwise_cons.mp hsort).1 ⟨⟨0, 0⟩, inserted⟩ (by simp)
      have hmem : e ∈ edits := mem_sorted.mp (hwithout ▸ mem_cons_self)
      have hpos := hstart e hmem
      simp only [before_iff] at hbefore
      omega
  subst hfirst
  rw [apply, hsorted, nil_append, applyFrom_cons] at h
  obtain ⟨-, -, rest, hrest, rfl⟩ := h
  have hslice : slice? source 0 0 = some "" :=
    slice?_eq_some_iff.mpr ⟨[], source.toList, rfl, rfl, rfl⟩
  exact ⟨rest, by rw [apply, hwithout]; exact hrest, by simp [hslice]⟩

end Edit

end PropContract
