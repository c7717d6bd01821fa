import PropContract.Text.Offset

/-!
Lines and columns. Lines end at a line feed; columns count bytes. Both start at one and are, as
offsets are, numbers of 32 bits.
-/

namespace PropContract

structure Position where
  line : UInt32
  column : UInt32
  deriving DecidableEq, Repr, Inhabited

structure LineIndex where
  starts : Array UInt32
  size : UInt32

namespace LineIndex

def startsAfter (offset : Nat) : List Char → List UInt32
  | [] => []
  | c :: cs =>
    let next := offset + c.utf8Size
    if c = '\n' then UInt32.ofNat next :: startsAfter next cs else startsAfter next cs

def ofText (text : String) : LineIndex :=
  ⟨(0 :: startsAfter 0 text.toList).toArray, UInt32.ofNat (Text.byteLength text.toList)⟩

def startAt (index : LineIndex) (line : Nat) : UInt32 :=
  index.starts.getD line 0

def narrow (index : LineIndex) (offset : UInt32) (base size : Nat) : Nat :=
  if size ≤ 1 then base
  else
    let middle := base + size / 2
    if offset < index.startAt middle then narrow index offset base (size - size / 2)
    else narrow index offset middle (size - size / 2)
termination_by size

/-- The line that starts at an offset or, if none does, the place where such a line would stand. -/
def search (index : LineIndex) (offset : UInt32) : Except Nat Nat :=
  let line := index.narrow offset 0 index.starts.size
  let start := index.startAt line
  if index.starts.isEmpty then .error 0
  else if start = offset then .ok line
  else .error (if start < offset then line + 1 else line)

def clamped (index : LineIndex) (offset : UInt32) : UInt32 :=
  if index.size < offset then index.size else offset

/-- The position of an offset. Offsets past the end are taken for the end. -/
def position (index : LineIndex) (offset : UInt32) : Position :=
  let offset := index.clamped offset
  let line := match index.search offset with
    | .ok line => line
    | .error line => line - 1
  ⟨UInt32.ofNat line + 1, offset - index.startAt line + 1⟩

end LineIndex

def Position.of (text : String) (offset : Nat) : Position :=
  (LineIndex.ofText text).position (UInt32.ofNat offset)

end PropContract
