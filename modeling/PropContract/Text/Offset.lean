/-!
Byte offsets into text. An offset counts UTF-8 bytes from the start of the text; only some
offsets fall between two characters, and only those can cut the text in two.
-/

namespace PropContract.Text

def byteLength : List Char → Nat
  | [] => 0
  | c :: cs => c.utf8Size + byteLength cs

def cut? : Nat → List Char → Option (List Char × List Char)
  | 0, cs => some ([], cs)
  | _ + 1, [] => none
  | n + 1, c :: cs =>
    if c.utf8Size ≤ n + 1 then
      (cut? (n + 1 - c.utf8Size) cs).map fun (left, right) => (c :: left, right)
    else none

def isBoundary (text : String) (n : Nat) : Bool :=
  (cut? n text.toList).isSome

def slice? (text : String) (start stop : Nat) : Option String :=
  if start ≤ stop then do
    let (_, right) ← cut? start text.toList
    let (middle, _) ← cut? (stop - start) right
    pure (String.ofList middle)
  else none

def dropBytes (text : String) (start : Nat) : String :=
  match cut? start text.toList with
  | some (_, right) => String.ofList right
  | none => ""

theorem byteLength_append (xs ys : List Char) :
    byteLength (xs ++ ys) = byteLength xs + byteLength ys := by
  induction xs with
  | nil => simp [byteLength]
  | cons c cs ih => simp [byteLength, ih, Nat.add_assoc]

theorem append_of_cut? {n : Nat} {cs left right : List Char}
    (h : cut? n cs = some (left, right)) : left ++ right = cs := by
  fun_induction cut? n cs generalizing left right with
  | case1 cs => simp_all
  | case2 => simp at h
  | case3 n c cs hc ih =>
    obtain ⟨⟨l, r⟩, hlr, he⟩ := Option.map_eq_some_iff.1 h
    simp only [Prod.mk.injEq] at he
    obtain ⟨rfl, rfl⟩ := he
    simp [ih hlr]
  | case4 => simp at h

theorem byteLength_of_cut? {n : Nat} {cs left right : List Char}
    (h : cut? n cs = some (left, right)) : byteLength left = n := by
  fun_induction cut? n cs generalizing left right with
  | case1 cs => simp_all [byteLength]
  | case2 => simp at h
  | case3 n c cs hc ih =>
    obtain ⟨⟨l, r⟩, hlr, he⟩ := Option.map_eq_some_iff.1 h
    simp only [Prod.mk.injEq] at he
    obtain ⟨rfl, rfl⟩ := he
    simp only [byteLength, ih hlr]
    omega
  | case4 => simp at h

end PropContract.Text
