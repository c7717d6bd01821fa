import PropContract.Text.Blank

namespace PropContract.Syntax.DocComment

open Text

def cleanLine (line : List Char) : List Char :=
  let line := trim line
  let line := if line.head? = some '*' then line.drop 1 else line
  let line := if line.head? = some ' ' then line.drop 1 else line
  trimEnd line

def joinLines : List (List Char) → List Char
  | [] => []
  | [line] => line
  | line :: lines => line ++ '\n' :: joinLines lines

/-- The text of a documentation comment, from what stands between the marks of the block. A
block that opens with three stars or holds no text documents nothing. -/
def text? (block : List Char) : Option String :=
  match block with
  | '*' :: '*' :: _ => none
  | '*' :: body =>
    let text := trim (joinLines ((lines body).map cleanLine))
    if text.isEmpty then none else some (String.ofList text)
  | _ => none

end PropContract.Syntax.DocComment
