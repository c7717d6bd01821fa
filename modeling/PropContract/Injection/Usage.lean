import PropContract.Syntax.Walk

/-!
Which properties a component reads: those that its parameter names, or those that it asks of the
name of its properties. When that name is used in any other way, all of them may be read.
-/

namespace PropContract.Usage

open Syntax

inductive Finding where
  | read (key : String)
  | escape
  deriving DecidableEq, Repr

def patternKeys? (members : List PatternMember) : Option (List String) :=
  members.mapM fun
    | .keyed key _ => key.name?
    | .shorthand name _ => some name
    | .rest _ => none

def search (props : String) : Search Finding where
  expr
    | .member (.name n) key => if n = props then some [.read key] else none
    | .index (.name n) (.string key) => if n = props then some [.read key] else none
    | .index (.name n) _ => if n = props then some [.escape] else none
    | .privateMember (.name n) => if n = props then some [] else none
    | _ => none
  declarator
    | .mk (.object members _) (some (.name n)) =>
      if n = props then
        match patternKeys? members with
        | some keys => some (keys.map .read)
        | none => some [.escape]
      else none
    | _ => none
  use
    | .whole n => if n = props then [.escape] else []
    | .key n key => if n = props then [.read key] else []

def keysOf? (findings : List Finding) : Option (List String) :=
  findings.mapM fun
    | .read key => some key
    | .escape => none

def ofParameter? (body : List Stmt) : Pattern → Option (List String)
  | .object members _ => patternKeys? members
  | .assign target _ => ofParameter? body target
  | .name n _ => keysOf? (Stmt.gatherAll (search n) body)
  | _ => none

def ofFunction? (f : Function) : Option (List String) :=
  match f.params with
  | [] => some []
  | first :: _ => ofParameter? f.body first

mutual

def wrappedIn? : Expr → Option (Option (List String))
  | .paren e => wrappedIn? e
  | .cast e _ => wrappedIn? e
  | .spread e => wrappedIn? e
  | .arrow f => some (ofFunction? f)
  | .function f => some (ofFunction? f)
  | .call _ _ args => some ((wrappedInAny? args).getD none)
  | _ => none

def wrappedInAny? : List Expr → Option (Option (List String))
  | [] => none
  | e :: es => wrappedIn? e <|> wrappedInAny? es

end

def ofCall? (args : List Expr) : Option (List String) :=
  (wrappedInAny? args).getD none

end PropContract.Usage
