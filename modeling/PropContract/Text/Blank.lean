/-!
Blanks, as in the Unicode property White_Space, and the ways of cutting text at them.
-/

namespace PropContract.Text

def isBlank (c : Char) : Bool :=
  let n := c.toNat
  (9 ≤ n && n ≤ 13) || n == 0x20 || n == 0x85 || n == 0xA0 || n == 0x1680 ||
    (0x2000 ≤ n && n ≤ 0x200A) || n == 0x2028 || n == 0x2029 || n == 0x202F || n == 0x205F ||
    n == 0x3000

def dropEndWhile (p : Char → Bool) (cs : List Char) : List Char :=
  (cs.reverse.dropWhile p).reverse

def trimStart (cs : List Char) : List Char :=
  cs.dropWhile isBlank

def trimEnd (cs : List Char) : List Char :=
  dropEndWhile isBlank cs

def trim (cs : List Char) : List Char :=
  trimEnd (trimStart cs)

def splitOn (sep : Char) : List Char → List (List Char)
  | [] => [[]]
  | c :: cs =>
    if c = sep then [] :: splitOn sep cs
    else
      match splitOn sep cs with
      | [] => [[c]]
      | piece :: pieces => (c :: piece) :: pieces

def dropCarriageReturn (line : List Char) : List Char :=
  match line.reverse with
  | '\r' :: rest => rest.reverse
  | _ => line

/-- Lines end at a line feed, with or without a carriage return before it. Nothing follows the
last line feed unless some text does, and that text keeps its carriage return. -/
def lines (cs : List Char) : List (List Char) :=
  let pieces := splitOn '\n' cs
  let ended := pieces.dropLast.map dropCarriageReturn
  match pieces.getLast? with
  | none | some [] => ended
  | some last => ended ++ [last]

def words (cs : List Char) : List (List Char) :=
  let (last, done) := cs.foldr (fun c (word, words) =>
    if isBlank c then ([], if word.isEmpty then words else word :: words)
    else (c :: word, words)) (([], []) : List Char × List (List Char))
  if last.isEmpty then done else last :: done

end PropContract.Text
