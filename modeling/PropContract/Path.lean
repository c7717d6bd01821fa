import PropContract.Text.Blank

/-!
Paths. A path keeps the text it was written with; what it means are its components, which skip
repeated slashes, slashes at the end, and dots that are not in front.
-/

namespace PropContract

structure Path where
  text : String
  deriving DecidableEq, Repr, Inhabited

namespace Path

inductive Component where
  | root
  | here
  | up
  | name (text : String)
  deriving DecidableEq, Repr, Inhabited

def isAbsolute (p : Path) : Bool :=
  p.text.toList.head? == some '/'

def segments (p : Path) : List String :=
  (Text.splitOn '/' p.text.toList).map String.ofList

def isVoid (segment : String) : Bool :=
  segment = "" || segment = "."

def componentOf? (segment : String) : Option Component :=
  if isVoid segment then none
  else if segment = ".." then some .up
  else some (.name segment)

def components (p : Path) : List Component :=
  let body := p.segments.filterMap componentOf?
  if p.isAbsolute then .root :: body
  else if p.segments.head? = some "." then .here :: body
  else body

def names (p : Path) : List String :=
  p.components.filterMap fun
    | .name n => some n
    | _ => none

def samePlace (p q : Path) : Bool :=
  p.components == q.components

def joinSegments (segments : List String) : String :=
  "/".intercalate segments

def ofNames (absolute : Bool) (names : List String) : Path :=
  ⟨(if absolute then "/" else "") ++ joinSegments names⟩

def join (p q : Path) : Path :=
  if q.isAbsolute then q
  else if p.text = "" || p.text.toList.getLast? = some '/' then ⟨p.text ++ q.text⟩
  else ⟨p.text ++ "/" ++ q.text⟩

/-- One step of a walk: names go in, `..` leaves the last directory, `.` stays. -/
def walk (names : List String) : Component → List String
  | .root | .here => names
  | .up => names.dropLast
  | .name n => names ++ [n]

/-- The same place without `.` and `..`, found on the text alone. -/
def normalize (p : Path) : Path :=
  ofNames p.isAbsolute (p.components.foldl walk [])

def trimSegments (absolute : Bool) (segments : List String) : List String :=
  let body := if absolute then segments.drop 1 else segments
  let kept := (body.reverse.dropWhile isVoid).reverse
  if !absolute && kept.isEmpty && segments.head? = some "." then ["."] else kept

def parent? (p : Path) : Option Path :=
  match p.components.getLast? with
  | none | some .root => none
  | some _ =>
    let body := trimSegments p.isAbsolute p.segments
    let rest := trimSegments false (body.dropLast)
    some ⟨(if p.isAbsolute then "/" else "") ++ joinSegments rest⟩

def ancestors (p : Path) : List Path :=
  go p.components.length p
where
  go : Nat → Path → List Path
    | 0, p => [p]
    | n + 1, p =>
      match p.parent? with
      | some parent => p :: go n parent
      | none => [p]

def fileName? (p : Path) : Option String :=
  match p.components.getLast? with
  | some (.name n) => some n
  | _ => none

def startsWith (p base : Path) : Bool :=
  base.components.isPrefixOf p.components

def dropComponents : Nat → List String → List String
  | 0, segments => segments
  | _ + 1, [] => []
  | n + 1, s :: segments =>
    if isVoid s then dropComponents (n + 1) segments else dropComponents n segments

def relativeTo? (p base : Path) : Option Path :=
  if p.startsWith base then
    let named := (base.components.filter fun
      | .root | .here => false
      | _ => true).length
    let rest := (dropComponents named p.segments).dropWhile isVoid
    some ⟨joinSegments ((rest.reverse.dropWhile isVoid).reverse)⟩
  else none

def relativeTo (p base : Path) : Path :=
  (p.relativeTo? base).getD p

def absoluteIn (p base : Path) : Path :=
  if p.isAbsolute then p else base.join p

def rank : Component → Nat
  | .root => 0
  | .here => 1
  | .up => 2
  | .name _ => 3

def componentLe (a b : Component) : Bool :=
  match a, b with
  | .name x, .name y => x ≤ y
  | a, b => rank a ≤ rank b

def le (p q : Path) : Bool :=
  go p.components q.components
where
  go : List Component → List Component → Bool
    | [], _ => true
    | _ :: _, [] => false
    | a :: as, b :: bs => if a = b then go as bs else componentLe a b

end Path

end PropContract
