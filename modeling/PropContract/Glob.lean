/-!
Glob patterns. A pattern is matched with a whole path, byte by byte; a star and a question mark
match slashes too.
-/

namespace PropContract.Glob

inductive Piece where
  | char (c : Char)
  | any
  | run
  /-- One byte in some ranges, or outside all of them. -/
  | within (negated : Bool) (ranges : List (UInt8 × UInt8))
  /-- `**` in front: nothing, or directories. -/
  | front
  /-- `/**` at the end: what lies below a directory. -/
  | beneath
  /-- `/**` and a slash: a slash, or directories between two. -/
  | between
  | branches (options : List (List Piece))
  deriving Repr, Inhabited

def slash : UInt8 := 47

def afterSlash? : List UInt8 → Option (List UInt8)
  | [] => none
  | b :: bs => if b = slash then some bs else none

def suffixes : List UInt8 → List (List UInt8)
  | [] => [[]]
  | b :: bs => (b :: bs) :: suffixes bs

def afterDirectories (bs : List UInt8) : List (List UInt8) :=
  (suffixes bs).filterMap afterSlash?

def inRanges (ranges : List (UInt8 × UInt8)) (b : UInt8) : Bool :=
  ranges.any fun (low, high) => low ≤ b && b ≤ high

mutual

def Piece.rests : Piece → List UInt8 → List (List UInt8)
  | .char c, bs =>
    let encoded := String.utf8EncodeChar c
    if encoded.isPrefixOf bs then [bs.drop encoded.length] else []
  | .any, bs => bs.tail?.toList
  | .run, bs => suffixes bs
  | .within negated ranges, bs =>
    match bs with
    | [] => []
    | b :: rest => if inRanges ranges b != negated then [rest] else []
  | .front, bs => bs :: afterDirectories bs
  | .beneath, bs => ((afterSlash? bs).map suffixes).getD []
  | .between, bs => ((afterSlash? bs).map fun rest => rest :: afterDirectories rest).getD []
  | .branches [], bs => [bs]
  | .branches (o :: os), bs => optionRests (o :: os) bs

def allRests : List Piece → List UInt8 → List (List UInt8)
  | [], bs => [bs]
  | p :: ps, bs => ((p.rests bs).flatMap (allRests ps)).eraseDups

def optionRests : List (List Piece) → List UInt8 → List (List UInt8)
  | [], _ => []
  | o :: os, bs => allRests o bs ++ optionRests os bs

end

/-- Ranges of bytes for a range of characters: the range runs from the last byte of the first to
the first byte of the last, and the other bytes stand for themselves. -/
def byteRanges? (low high : Char) : Option (List (UInt8 × UInt8)) :=
  let lows := String.utf8EncodeChar low
  let highs := String.utf8EncodeChar high
  if low = high then some (lows.map fun b => (b, b))
  else
    match lows.getLast?, highs with
    | some a, b :: rest =>
      if a ≤ b then some ((a, b) :: (lows.dropLast ++ rest).map fun c => (c, c)) else none
    | _, _ => none

/-- The ranges of a class up to its closing bracket, which does not count in the first place. The
last range comes first, and `inside` says that a dash after it is still open. -/
def classRanges? (first inside : Bool) (ranges : List (Char × Char)) :
    List Char → Option (List (Char × Char) × List Char)
  | [] => none
  | c :: cs =>
    if c = ']' && !first then some (if inside then ('-', '-') :: ranges else ranges, cs)
    else if c = '-' && !first && !inside then classRanges? false true ranges cs
    else if inside then
      match ranges with
      | (low, _) :: others =>
        if c < low then none else classRanges? false false ((low, c) :: others) cs
      | [] => none
    else classRanges? false false ((c, c) :: ranges) cs

def class? (cs : List Char) : Option (Piece × List Char) := do
  let (negated, cs) := match cs with
    | '!' :: cs | '^' :: cs => (true, cs)
    | cs => (false, cs)
  let (ranges, rest) ← classRanges? true false [] cs
  let ranges ← ranges.mapM fun (low, high) => byteRanges? low high
  pure (.within negated ranges.flatten, rest)

structure Group where
  done : List (List Piece) := []
  pieces : List Piece := []

namespace Group

def push (g : Group) (p : Piece) : Group :=
  { g with pieces := p :: g.pieces }

def nextBranch (g : Group) : Group :=
  ⟨g.done ++ [g.pieces.reverse], []⟩

def isVoid (ps : List Piece) : Bool :=
  ps.all fun
    | .branches [] => true
    | _ => false

def close (g : Group) : Piece :=
  .branches (g.nextBranch.done.filter fun ps => !isVoid ps)

end Group

/-- Puts a piece in the place of the slash before it. Two pieces that reach over directories
already keep their places. -/
def deepen (p : Piece) : List Piece → List Piece
  | .front :: ps => .front :: ps
  | .beneath :: ps => .beneath :: ps
  | _ :: ps => p :: ps
  | [] => []

/-- Two stars. They reach over directories only where they have a segment for themselves;
`before` is the character in front of them and `grouped` says whether they are in a group. -/
def doubleStar (before : Option Char) (grouped : Bool) (ps : List Piece) (rest : List Char) :
    List Piece × List Char :=
  let plain := (.run :: .run :: ps, rest)
  if ps.isEmpty then
    match rest with
    | [] => ([.front], [])
    | '/' :: rest => ([.front], rest)
    | _ => plain
  else if before = some '/' || (grouped && (before = some ',' || before = some '{')) then
    match rest with
    | [] => (deepen .beneath ps, [])
    | '/' :: rest => (deepen .between ps, rest)
    | c :: _ => if grouped && (c = ',' || c = '}') then (deepen .beneath ps, rest) else plain
  else plain

/-- Reads a pattern; `outer` are the groups around the one that is being read. Each step takes
a character, so the length of the pattern is enough fuel. -/
def pieces? : Nat → Option Char → Group → List Group → List Char → Option (List Piece)
  | _, _, g, outer, [] => if outer.isEmpty then some g.pieces.reverse else none
  | 0, _, _, _, _ :: _ => none
  | fuel + 1, before, g, outer, c :: cs =>
    match c with
    | '?' => pieces? fuel (some c) (g.push .any) outer cs
    | '*' =>
      match cs with
      | '*' :: cs =>
        let (ps, rest) := doubleStar before (!outer.isEmpty) g.pieces cs
        let last := if rest.length < cs.length then '/' else '*'
        pieces? fuel (some last) { g with pieces := ps } outer rest
      | _ => pieces? fuel (some c) (g.push .run) outer cs
    | '[' => do
      let (p, rest) ← class? cs
      pieces? fuel (some ']') (g.push p) outer rest
    | '{' => pieces? fuel (some c) {} (g :: outer) cs
    | '}' =>
      match outer with
      | [] => none
      | parent :: outer => pieces? fuel (some c) (parent.push g.close) outer cs
    | ',' =>
      if outer.isEmpty then pieces? fuel (some c) (g.push (.char c)) outer cs
      else pieces? fuel (some c) g.nextBranch outer cs
    | '\\' =>
      match cs with
      | [] => none
      | c :: cs => pieces? fuel (some c) (g.push (.char c)) outer cs
    | _ => pieces? fuel (some c) (g.push (.char c)) outer cs

end Glob

structure Glob where
  pieces : List Glob.Piece
  deriving Repr, Inhabited

namespace Glob

def ofText? (pattern : String) : Option Glob :=
  (pieces? pattern.length none {} [] pattern.toList).map Glob.mk

def isMatch (glob : Glob) (path : String) : Bool :=
  match glob.pieces with
  | [.front] => true
  | ps => (allRests ps path.toUTF8.toList).any List.isEmpty

end Glob

end PropContract
