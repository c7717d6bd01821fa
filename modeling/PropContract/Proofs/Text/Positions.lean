import Mathlib.Data.List.DropRight
import PropContract.Proofs.Text.Cut
import PropContract.Text.Position

/-!
Positions are exact: lines and columns as they are counted in the bytes of a text, as long as the
numbers do not overflow.
-/

namespace PropContract

open Text List

def isFeed (b : UInt8) : Bool :=
  b == 10

def lineStarts (bs : List UInt8) : List Nat :=
  0 :: (bs.findIdxs isFeed).map (· + 1)

def lastLine (bs : List UInt8) : List UInt8 :=
  bs.rtakeWhile fun b => !isFeed b

theorem lineStarts_append (bs more : List UInt8) :
    lineStarts (bs ++ more) = lineStarts bs ++ (more.findIdxs isFeed bs.length).map (· + 1) := by
  simp [lineStarts, findIdxs_append]

theorem length_lineStarts (bs : List UInt8) : (lineStarts bs).length = 1 + bs.countP isFeed := by
  rw [lineStarts, length_cons, length_map, length_findIdxs, Nat.add_comm]

theorem getElem?_lineStarts_append (bs more : List UInt8) {line start : Nat}
    (h : (lineStarts (bs ++ more))[line]? = some start) :
    start ≤ (bs ++ more).length ∧ (bs.length < start ↔ (lineStarts bs).length ≤ line) := by
  rw [lineStarts_append] at h
  by_cases hline : line < (lineStarts bs).length
  · rw [getElem?_append_left hline, lineStarts] at h
    have hmem := mem_of_getElem? h
    simp only [mem_cons, mem_map] at hmem
    have hle : start ≤ bs.length := by
      rcases hmem with rfl | ⟨i, hi, rfl⟩
      · exact Nat.zero_le _
      · have := lt_add_of_mem_findIdxs i hi
        omega
    rw [length_append]
    omega
  · rw [getElem?_append_right (by omega)] at h
    obtain ⟨i, hi, rfl⟩ := mem_map.mp (mem_of_getElem? h)
    have hlow := ge_of_mem_findIdxs i hi
    have hhigh := lt_add_of_mem_findIdxs i hi
    rw [length_append]
    omega

theorem getLastD_lineStarts (bs : List UInt8) :
    (lineStarts bs).getLastD 0 + (lastLine bs).length = bs.length := by
  induction bs using List.reverseRecOn with
  | nil => rfl
  | append_singleton bs b ih =>
    rw [lineStarts_append, lastLine, rtakeWhile_concat]
    cases hb : isFeed b with
    | true => simp [hb]
    | false =>
      rw [lastLine] at ih
      simp [hb, ← ih, Nat.add_assoc]

theorem lastLine_append {bs more : List UInt8} (h : more.countP isFeed = 0) :
    lastLine (bs ++ more) = lastLine bs ++ more := by
  induction more using List.reverseRecOn with
  | nil => rw [append_nil, append_nil]
  | append_singleton more b ih =>
    simp only [countP_append, countP_singleton, Nat.add_eq_zero_iff] at h
    have hb : isFeed b = false := by simpa using h.2
    have hrest := ih h.1
    rw [lastLine] at hrest ⊢
    rw [← append_assoc, rtakeWhile_concat_pos _ _ _ (by simp [hb]), hrest,
      append_assoc]

theorem any_isFeed_utf8EncodeChar {c : Char} (hc : c ≠ '\n') :
    ∀ b ∈ String.utf8EncodeChar c, isFeed b = false := by
  have hval : c.val.toNat ≠ 10 := fun h => hc (Char.ext (UInt32.toNat.inj h))
  have hfeed (n : Nat) (hn : n % 256 ≠ 10) : isFeed (UInt8.ofNat n) = false := by
    rw [isFeed, beq_eq_false_iff_ne]
    exact fun h => hn (congrArg UInt8.toNat h)
  unfold String.utf8EncodeChar
  dsimp only
  split_ifs <;> simp only [forall_mem_cons] <;> grind

namespace LineIndex

theorem startsAfter_eq (offset : Nat) (cs : List Char) :
    startsAfter offset cs =
      ((bytes cs).findIdxs isFeed offset).map fun i => UInt32.ofNat (i + 1) := by
  induction cs generalizing offset with
  | nil => rfl
  | cons c cs ih =>
    have hbytes : bytes (c :: cs) = String.utf8EncodeChar c ++ bytes cs := rfl
    rw [startsAfter, hbytes, findIdxs_append, map_append,
      String.length_utf8EncodeChar, ih]
    split
    · rename_i hc
      subst hc
      rfl
    · rename_i hc
      rw [findIdxs_eq_nil_iff.mpr (any_isFeed_utf8EncodeChar hc)]
      rfl

theorem starts_ofText (text : String) :
    (ofText text).starts = ((lineStarts (bytes text.toList)).map UInt32.ofNat).toArray := by
  rw [ofText, lineStarts, startsAfter_eq, map_cons, map_map]
  rfl

section

variable {text : String} (htext : (bytes text.toList).length < UInt32.size)

include htext

theorem toNat_startAt {line start : Nat}
    (h : (lineStarts (bytes text.toList))[line]? = some start) :
    ((ofText text).startAt line).toNat = start := by
  have hle := (getElem?_lineStarts_append _ [] (by rwa [append_nil])).1
  rw [append_nil] at hle
  have hget : (ofText text).startAt line = UInt32.ofNat start := by
    rw [startAt, starts_ofText, Array.getD_eq_getD_getElem?, getElem?_toArray,
      getElem?_map, h]
    rfl
  rw [hget, UInt32.toNat_ofNat_of_lt' (by omega)]

theorem toNat_clamped (offset : UInt32) :
    ((ofText text).clamped offset).toNat = min offset.toNat (bytes text.toList).length := by
  have hsize : (ofText text).size.toNat = (bytes text.toList).length := by
    rw [ofText, ← length_bytes, UInt32.toNat_ofNat_of_lt' htext]
  rw [clamped, ← hsize]
  simp only [UInt32.lt_iff_toNat_lt]
  split <;> omega

end

/-- If the first `k` lines start at the offset or before it, and none of the others does, then the
last of them is left. -/
theorem narrow_eq {index : LineIndex} {offset : UInt32} {k n : Nat}
    (h : ∀ line < n, offset < index.startAt line ↔ k ≤ line) (base size : Nat)
    (hbase : base < k) (hk : k ≤ base + size) (hn : base + size ≤ n) :
    index.narrow offset base size + 1 = k := by
  fun_induction narrow index offset base size with
  | case1 base size hsize => omega
  | case2 base size hsize middle hless ih =>
    have hle := (h (base + size / 2) (by omega)).mp hless
    exact ih hbase (by omega) (by omega)
  | case3 base size hsize middle hless ih =>
    have hlt := Nat.lt_of_not_le (mt (h (base + size / 2) (by omega)).mpr hless)
    exact ih hlt (by omega) (by omega)

/-- Whether or not a line starts at the offset, the line of the position is the last that starts
there or before it. -/
theorem position_eq_of_narrow {index : LineIndex} {offset : UInt32} (line : Nat)
    (hne : index.starts.isEmpty = false)
    (hline : index.narrow (index.clamped offset) 0 index.starts.size = line)
    (hstart : index.startAt line ≤ index.clamped offset) :
    index.position offset =
      ⟨UInt32.ofNat line + 1, index.clamped offset - index.startAt line + 1⟩ := by
  have hsearch : index.search (index.clamped offset) =
      if index.startAt line = index.clamped offset then .ok line else .error (line + 1) := by
    unfold search
    simp only [hne, hline, Bool.false_eq_true, if_false]
    split
    · rfl
    · rename_i hother
      rw [if_pos (UInt32.lt_of_le_of_ne hstart hother)]
  unfold position
  simp only [hsearch]
  split_ifs <;> rfl

end LineIndex

namespace Position

def Before (p q : Position) : Prop :=
  p.line < q.line ∨ p.line = q.line ∧ p.column < q.column

end Position

theorem getLast?_lineStarts (bs more : List UInt8) :
    (lineStarts (bs ++ more))[bs.countP isFeed]? = some ((lineStarts bs).getLastD 0) := by
  have hlength := length_lineStarts bs
  have hindex : bs.countP isFeed = (lineStarts bs).length - 1 := by omega
  rw [lineStarts_append, getElem?_append_left (by omega), hindex, ← getLast?_eq_getElem?]
  rfl

section

variable {text : String} (htext : (bytes text.toList).length < UInt32.size)

include htext

/-- Lines and columns are those that are counted, up to the overflow of 32 bits. -/
theorem position_eq {bs more : List UInt8} (h : bytes text.toList = bs ++ more) {offset : UInt32}
    (ho : min offset.toNat (bytes text.toList).length = bs.length) :
    (LineIndex.ofText text).position offset =
      ⟨UInt32.ofNat (1 + bs.countP isFeed), UInt32.ofNat (1 + (lastLine bs).length)⟩ := by
  have hoffset := (LineIndex.toNat_clamped htext offset).trans ho
  have hcount : (LineIndex.ofText text).starts.size = (lineStarts (bs ++ more)).length := by
    rw [LineIndex.starts_ofText, h, size_toArray, length_map]
  have hlines := length_lineStarts bs
  -- The lines up to the one of the offset start before it, and all others after it.
  have hless : ∀ line < (LineIndex.ofText text).starts.size,
      (LineIndex.ofText text).clamped offset < (LineIndex.ofText text).startAt line ↔
        (lineStarts bs).length ≤ line := by
    intro line hline
    rw [hcount] at hline
    have hget := getElem?_eq_getElem hline
    rw [UInt32.lt_iff_toNat_lt, hoffset, LineIndex.toNat_startAt htext (by rwa [h])]
    exact (getElem?_lineStarts_append bs more hget).2
  have hfirst := getLast?_lineStarts bs more
  have hin := (List.getElem?_eq_some_iff.mp hfirst).1
  have hnarrow := LineIndex.narrow_eq hless 0 (LineIndex.ofText text).starts.size (by omega)
    (by omega) (by omega)
  have hstart : (LineIndex.ofText text).startAt (bs.countP isFeed) ≤
      (LineIndex.ofText text).clamped offset := by
    rw [← UInt32.not_lt, hless _ (by omega)]
    omega
  have hne : (LineIndex.ofText text).starts.isEmpty = false := by
    rw [LineIndex.starts_ofText]
    rfl
  rw [LineIndex.position_eq_of_narrow (bs.countP isFeed) hne (by omega) hstart]
  have hlast := getLastD_lineStarts bs
  have hcolumn : (LineIndex.ofText text).clamped offset -
      (LineIndex.ofText text).startAt (bs.countP isFeed) = UInt32.ofNat (lastLine bs).length := by
    apply UInt32.toNat_inj.mp
    rw [UInt32.toNat_sub_of_le _ _ hstart, hoffset, LineIndex.toNat_startAt htext (by rwa [h]),
      UInt32.toNat_ofNat_of_lt']
    · omega
    · have hall := congrArg List.length h
      rw [length_append] at hall
      omega
  rw [hcolumn, Nat.add_comm 1, Nat.add_comm 1, UInt32.ofNat_add, UInt32.ofNat_add]
  rfl

theorem position_eq_take (offset : UInt32) :
    (LineIndex.ofText text).position offset =
      ⟨UInt32.ofNat (1 + ((bytes text.toList).take offset.toNat).countP isFeed),
        UInt32.ofNat (1 + (lastLine ((bytes text.toList).take offset.toNat)).length)⟩ :=
  position_eq htext (take_append_drop offset.toNat _).symm length_take.symm

end

theorem length_lastLine_le (bs : List UInt8) : (lastLine bs).length ≤ bs.length :=
  (rtakeWhile_suffix _ _).length_le

section

variable {text : String} (htext : (bytes text.toList).length < UInt32.size - 1)

include htext

theorem toNat_position (offset : UInt32) :
    ((LineIndex.ofText text).position offset).line.toNat =
        1 + ((bytes text.toList).take offset.toNat).countP isFeed ∧
      ((LineIndex.ofText text).position offset).column.toNat =
        1 + (lastLine ((bytes text.toList).take offset.toNat)).length := by
  have hlines := countP_le_length (p := isFeed) (l := (bytes text.toList).take offset.toNat)
  have hcolumns := length_lastLine_le ((bytes text.toList).take offset.toNat)
  have hlength := length_take_le' offset.toNat (bytes text.toList)
  rw [position_eq_take (by omega), UInt32.toNat_ofNat_of_lt' (by omega),
    UInt32.toNat_ofNat_of_lt' (by omega)]
  exact ⟨rfl, rfl⟩

theorem before_of_lt {a b : UInt32} (hab : a < b) (hb : b.toNat ≤ (bytes text.toList).length) :
    ((LineIndex.ofText text).position a).Before ((LineIndex.ofText text).position b) := by
  obtain ⟨hlineA, hcolumnA⟩ := toNat_position htext a
  obtain ⟨hlineB, hcolumnB⟩ := toNat_position htext b
  rw [UInt32.lt_iff_toNat_lt] at hab
  simp only [Position.Before, UInt32.lt_iff_toNat_lt, ← UInt32.toNat_inj, hlineA, hlineB, hcolumnA,
    hcolumnB]
  generalize bytes text.toList = bs at hb
  -- What lies between the offsets adds lines, or else columns.
  obtain ⟨between, hsplit, hlength⟩ : ∃ between,
      bs.take b.toNat = bs.take a.toNat ++ between ∧ between.length = b.toNat - a.toNat := by
    refine ⟨(bs.drop a.toNat).take (b.toNat - a.toNat), ?_, ?_⟩
    · rw [← take_add, Nat.add_sub_cancel' (Nat.le_of_lt hab)]
    · rw [length_take, length_drop]
      omega
  simp only [hsplit, countP_append]
  by_cases hfeed : between.countP isFeed = 0
  · rw [lastLine_append hfeed, length_append]
    omega
  · omega

end

/-- The position of an offset, taken for the end if it lies past it. Its line is one more than the
number of line feeds before the offset, and its column one more than the number of bytes between
the last of them, or the start, and the offset, both as numbers of 32 bits. If the text is shorter
than the largest of these numbers, nothing overflows: the position is exact, a later offset has a
later position, and an offset is found again from the start of its line. -/
theorem position_exact (text : String) (htext : (bytes text.toList).length < UInt32.size) :
    let bs := bytes text.toList
    let position := (LineIndex.ofText text).position
    let before (offset : UInt32) := bs.take (min offset.toNat bs.length)
    (∀ offset, position offset = ⟨UInt32.ofNat (1 + (before offset).countP isFeed),
      UInt32.ofNat (1 + (lastLine (before offset)).length)⟩) ∧
    (bs.length < UInt32.size - 1 →
      (∀ offset, (position offset).line.toNat = 1 + (before offset).countP isFeed ∧
        (position offset).column.toNat = 1 + (lastLine (before offset)).length) ∧
      (∀ a b, a < b → b.toNat ≤ bs.length → (position a).Before (position b)) ∧
      ∀ offset, ∃ start, (lineStarts bs)[(position offset).line.toNat - 1]? = some start ∧
        start + ((position offset).column.toNat - 1) = min offset.toNat bs.length) := by
  intro bs position before
  have hbefore (offset : UInt32) : before offset = bs.take offset.toNat :=
    take_eq_take_min.symm
  simp only [hbefore]
  refine ⟨position_eq_take htext, fun hshort => ⟨toNat_position hshort,
    fun a b => before_of_lt hshort, fun offset => ?_⟩⟩
  obtain ⟨hline, hcolumn⟩ := toNat_position hshort offset
  have hstart := getLast?_lineStarts (bs.take offset.toNat) (bs.drop offset.toNat)
  have hlast := getLastD_lineStarts (bs.take offset.toNat)
  rw [take_append_drop] at hstart
  rw [length_take] at hlast
  rw [hline, hcolumn, Nat.add_sub_cancel_left, Nat.add_sub_cancel_left]
  exact ⟨_, hstart, hlast⟩

/-- An offset at the end of a line and one on an empty line. -/
theorem position_exact_empty_line :
    (bytes "aé\n\nb".toList).length < UInt32.size - 1 ∧
      ((LineIndex.ofText "aé\n\nb").position 3).Before ((LineIndex.ofText "aé\n\nb").position 4) ∧
      (LineIndex.ofText "aé\n\nb").position 4 = ⟨2, 1⟩ := by
  have hshort : (bytes "aé\n\nb".toList).length < UInt32.size - 1 := by decide
  have hexact := position_exact "aé\n\nb" (by decide)
  exact ⟨hshort, (hexact.2 hshort).2.1 3 4 (by decide) (by decide), hexact.1 4⟩

def longLine (n : Nat) : String :=
  String.ofList (List.replicate n 'a')

theorem bytes_longLine (n : Nat) : bytes (longLine n).toList = List.replicate n 97 := by
  rw [longLine, String.toList_ofList]
  induction n with
  | zero => rfl
  | succ n ih =>
    rw [replicate_succ, replicate_succ, ← ih]
    rfl

theorem lastLine_longLine (n : Nat) :
    lastLine (List.replicate n 97) = List.replicate n 97 := by
  rw [lastLine, rtakeWhile_eq_self_iff]
  intro b hb
  rw [eq_of_mem_replicate hb]
  rfl

/-- A line of as many bytes as the largest number of 32 bits has no column for its end. -/
theorem position_overflows :
    ¬ ∀ text : String, let bs := bytes text.toList
      bs.length < UInt32.size → ∀ offset : UInt32,
        ((LineIndex.ofText text).position offset).column.toNat =
          1 + (lastLine (bs.take (min offset.toNat bs.length))).length := by
  intro h
  have hlength : (bytes (longLine (UInt32.size - 1)).toList).length < UInt32.size := by
    rw [bytes_longLine, length_replicate]
    decide
  have hend := h _ hlength (UInt32.ofNat (UInt32.size - 1))
  rw [bytes_longLine, UInt32.toNat_ofNat_of_lt' (by decide), length_replicate, Nat.min_self,
    take_replicate, Nat.min_self, lastLine_longLine, length_replicate] at hend
  have hsmall := UInt32.toNat_lt_size ((LineIndex.ofText (longLine (UInt32.size - 1))).position
    (UInt32.ofNat (UInt32.size - 1))).column
  omega

end PropContract
