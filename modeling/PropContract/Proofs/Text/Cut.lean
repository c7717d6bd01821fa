import PropContract.Text.Span

namespace PropContract.Text

open List Option

theorem byteLength_eq_zero {cs : List Char} (h : byteLength cs = 0) : cs = [] := by
  cases cs with
  | nil => rfl
  | cons c cs =>
    have hc := c.utf8Size_pos
    simp only [byteLength] at h
    omega

theorem cut?_append (left right : List Char) :
    cut? (byteLength left) (left ++ right) = some (left, right) := by
  induction left with
  | nil => simp [byteLength, cut?]
  | cons c cs ih =>
    obtain ⟨n, hn⟩ : ∃ n, byteLength (c :: cs) = n + 1 :=
      ⟨byteLength (c :: cs) - 1, by have := c.utf8Size_pos; simp only [byteLength]; omega⟩
    have hrest : n + 1 - c.utf8Size = byteLength cs := by simp only [byteLength] at hn; omega
    have hle : c.utf8Size ≤ n + 1 := by simp only [byteLength] at hn; omega
    simp only [hn, cons_append, cut?, hle, if_true, hrest, ih, map_some]

variable {left right : List Char} {n start stop : Nat} {text part : String} {c : Char}

theorem cut?_eq_some_iff {cs : List Char} :
    cut? n cs = some (left, right) ↔ cs = left ++ right ∧ byteLength left = n := by
  constructor
  · intro h
    exact ⟨(append_of_cut? h).symm, byteLength_of_cut? h⟩
  · rintro ⟨rfl, rfl⟩
    exact cut?_append left right

theorem isBoundary_iff :
    isBoundary text n ↔ ∃ left right, text.toList = left ++ right ∧ byteLength left = n := by
  simp only [isBoundary, isSome_iff_exists, Prod.exists, cut?_eq_some_iff]

theorem le_of_isBoundary (h : isBoundary text n) : n ≤ byteLength text.toList := by
  obtain ⟨left, right, htext, rfl⟩ := isBoundary_iff.mp h
  rw [htext, byteLength_append]
  exact Nat.le_add_right _ _

theorem split_of_le {left' right' : List Char} (h : left ++ right = left' ++ right')
    (hle : byteLength left ≤ byteLength left') :
    ∃ middle, left' = left ++ middle ∧ right = middle ++ right' := by
  rcases append_eq_append_iff.mp h with ⟨middle, hl, hr⟩ | ⟨middle, hl, hr⟩
  · exact ⟨middle, hl, hr⟩
  · have hm : middle = [] := by
      apply byteLength_eq_zero
      rw [hl, byteLength_append] at hle
      omega
    subst hm
    exact ⟨[], by simpa using hl.symm, by simpa using hr.symm⟩

theorem slice?_eq {middle : List Char} (h : text.toList = left ++ (middle ++ right)) :
    slice? text (byteLength left) (byteLength left + byteLength middle) =
      some (String.ofList middle) := by
  simp [slice?, h, cut?_append]

theorem slice?_eq_some_iff :
    slice? text start stop = some part ↔
      ∃ left right, text.toList = left ++ (part.toList ++ right) ∧ byteLength left = start ∧
        byteLength left + byteLength part.toList = stop := by
  constructor
  · intro h
    unfold slice? at h
    split at h
    · obtain ⟨⟨left, rest⟩, hl, hrest⟩ := bind_eq_some_iff.mp h
      obtain ⟨⟨middle, right⟩, hm, hpart⟩ := bind_eq_some_iff.mp hrest
      obtain ⟨htext, hstart⟩ := cut?_eq_some_iff.mp hl
      obtain ⟨rfl, hstop⟩ := cut?_eq_some_iff.mp hm
      obtain rfl : String.ofList middle = part := Option.some.inj hpart
      refine ⟨left, right, by rw [htext, String.toList_ofList], hstart, ?_⟩
      rw [String.toList_ofList]
      omega
    · simp at h
  · rintro ⟨left, right, h, rfl, rfl⟩
    rw [slice?_eq h, String.ofList_toList]

theorem dropBytes_eq (h : text.toList = left ++ right) :
    dropBytes text (byteLength left) = String.ofList right := by
  simp [dropBytes, h, cut?_append]

def charBefore? (text : String) (n : Nat) : Option Char :=
  (cut? n text.toList).bind fun (left, _) => left.getLast?

def charAfter? (text : String) (n : Nat) : Option Char :=
  (cut? n text.toList).bind fun (_, right) => right.head?

theorem charBefore?_eq (h : text.toList = left ++ right) :
    charBefore? text (byteLength left) = left.getLast? := by
  simp [charBefore?, h, cut?_append]

theorem charAfter?_eq (h : text.toList = left ++ right) :
    charAfter? text (byteLength left) = right.head? := by
  simp [charAfter?, h, cut?_append]

theorem isBoundary_of_charBefore? (h : charBefore? text n = some c) : isBoundary text n := by
  obtain ⟨_, hcut, -⟩ := bind_eq_some_iff.mp h
  simp [isBoundary, hcut]

theorem isBoundary_of_charAfter? (h : charAfter? text n = some c) : isBoundary text n := by
  obtain ⟨_, hcut, -⟩ := bind_eq_some_iff.mp h
  simp [isBoundary, hcut]

theorem lt_of_charAfter? (h : charAfter? text n = some c) : n < byteLength text.toList := by
  obtain ⟨left, right, htext, rfl⟩ := isBoundary_iff.mp (isBoundary_of_charAfter? h)
  rw [charAfter?_eq htext] at h
  obtain ⟨rest, rfl⟩ := head?_eq_some_iff.mp h
  have := c.utf8Size_pos
  rw [htext, byteLength_append, byteLength]
  omega

theorem charBefore?_mem (h : slice? text start stop = some part) (hn : isBoundary text n)
    (hstart : start < n) (hstop : n ≤ stop) : ∃ c ∈ part.toList, charBefore? text n = some c := by
  obtain ⟨left, right, htext, rfl, rfl⟩ := slice?_eq_some_iff.mp h
  obtain ⟨left', right', htext', rfl⟩ := isBoundary_iff.mp hn
  obtain ⟨inner, rfl, hinner⟩ := split_of_le (htext.symm.trans htext') (Nat.le_of_lt hstart)
  rw [byteLength_append] at hstart hstop
  obtain ⟨others, hpart, -⟩ := split_of_le hinner.symm (by omega)
  have hne : inner ≠ [] := by
    rintro rfl
    simp [byteLength] at hstart
  refine ⟨inner.getLast hne, ?_, ?_⟩
  · rw [hpart]
    exact mem_append_left others (getLast_mem hne)
  · rw [charBefore?_eq htext', getLast?_append, getLast?_eq_some_getLast hne,
      some_or]

theorem charAfter?_mem (h : slice? text start stop = some part) (hn : isBoundary text n)
    (hstart : start ≤ n) (hstop : n < stop) : ∃ c ∈ part.toList, charAfter? text n = some c := by
  obtain ⟨left, right, htext, rfl, rfl⟩ := slice?_eq_some_iff.mp h
  obtain ⟨left', right', htext', rfl⟩ := isBoundary_iff.mp hn
  obtain ⟨inner, rfl, hinner⟩ := split_of_le (htext.symm.trans htext') hstart
  rw [byteLength_append] at hstop
  obtain ⟨others, hpart, hright⟩ := split_of_le hinner.symm (by omega)
  have hne : others ≠ [] := by
    rintro rfl
    rw [hpart, append_nil] at hstop
    omega
  refine ⟨others.head hne, ?_, ?_⟩
  · rw [hpart]
    exact mem_append_right inner (head_mem hne)
  · rw [charAfter?_eq htext', hright, head?_append, head?_eq_some_head hne,
      some_or]

def bytes (cs : List Char) : List UInt8 :=
  cs.flatMap String.utf8EncodeChar

theorem bytes_append (xs ys : List Char) : bytes (xs ++ ys) = bytes xs ++ bytes ys :=
  flatMap_append

theorem length_bytes (cs : List Char) : (bytes cs).length = byteLength cs := by
  induction cs with
  | nil => rfl
  | cons c cs ih => simp [bytes, byteLength, ← ih]

end PropContract.Text
