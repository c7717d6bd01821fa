import PropContract.Resolver.Props

namespace PropContract.Extraction

open Syntax

inductive ExtractError where
  | notInProject (path : Path)
  | unresolved (e : Resolver.ResolveError)
  deriving DecidableEq, Repr

def ExtractError.message : ExtractError → String
  | notInProject path => s!"file is not part of the program: {path.text}"
  | unresolved e => e.message

structure Candidate where
  name : String
  kind : ComponentKind
  props : Option TypeExpr
  defaults : Table Literal := []

def patternDefault? : PatternMember → Option (String × Literal)
  | .shorthand name (some e) => e.literal?.map fun value => (name, value)
  | .keyed key (.assign _ e) => do
    pure (← key.name?, ← e.literal?)
  | _ => none

def withoutDefault : Pattern → Pattern
  | .assign target _ => target
  | p => p

def patternDefaults (p : Pattern) : Table Literal :=
  match withoutDefault p with
  | .object members _ => Table.ofEntries (members.filterMap patternDefault?)
  | _ => []

def propertyDefault? : Property → Option (String × Literal)
  | .keyed _ key _ e => do
    pure (← key.name?, ← e.literal?)
  | _ => none

def objectDefaults (properties : List Property) : Table Literal :=
  Table.ofEntries (properties.filterMap propertyDefault?)

def assignedDefaults? : Expr → Option (String × Table Literal)
  | .assign _ (.member (.name component) "defaultProps") value =>
    match value.unwrap with
    | .object properties => some (component, objectDefaults properties)
    | _ => none
  | _ => none

def parameterType? : Pattern → Option TypeExpr
  | .name _ type | .object _ type => type
  | .assign target _ => parameterType? target
  | _ => none

def startsUpper (name : String) : Bool :=
  match name.toList with
  | c :: _ => 'A' ≤ c && c ≤ 'Z'
  | [] => false

def isElementType : TypeExpr → Bool
  | .reference path _ =>
    ["ReactElement", "ReactNode", "Element", "ReactPortal"].contains (path.getLastD "")
  | _ => false

def functionCandidate? (name : String) (f : Function) : Option Candidate :=
  match f.params with
  | [first] | [first, _] => do
    let props ← parameterType? first
    let rendersElement := (f.result.map isElementType).getD false
    guard (Stmt.hasMarkup f.body || rendersElement || startsUpper name)
    pure { name, kind := .function, props, defaults := patternDefaults first }
  | _ => none

def lastWord? : Expr → Option String
  | .name n => some n
  | .member _ key => some key
  | _ => none

def classDefaults (c : ClassBody) : List (String × Literal) :=
  c.members.flatMap fun
    | .property _ true (.named "defaultProps") _ (some (.object properties)) _ =>
      objectDefaults properties
    | _ => []

def classCandidate? (name : String) (c : ClassBody) : Option Candidate := do
  let base ← lastWord? (← c.base)
  guard (base = "Component" || base = "PureComponent")
  pure {
    name
    kind := .classBased
    props := c.baseArgs.head?
    defaults := Table.ofEntries (classDefaults c) }

def functionOf? (e : Expr) : Option Function :=
  match e.unwrap with
  | .arrow f | .function f => some f
  | _ => none

def firstParam? (e : Expr) : Option Pattern :=
  (functionOf? e).bind fun f => f.params.head?

def wrapperIndex? (callee : Expr) : Option Nat :=
  match lastWord? callee with
  | some "forwardRef" => some 1
  | some "memo" => some 0
  | _ => none

/-- The type of the properties and the first parameter of what a wrapper takes: a function, or
another wrapper. A wrapper that tells neither wraps nothing. -/
def wrapped? : Expr → Option (Option TypeExpr × Option Pattern)
  | .paren e => wrapped? e
  | .cast e _ => wrapped? e
  | .call callee types args =>
    match wrapperIndex? callee with
    | none => some (none, none)
    | some index => do
      let (inner, first) ← match args with
        | [] => some (none, none)
        | .spread arg :: _ => wrapped? arg
        | arg :: _ => wrapped? arg
      let props := types[index]? <|> inner
      guard (props.isSome || first.isSome)
      pure (props, first)
  | .arrow f | .function f => some (f.params.head?.bind parameterType?, f.params.head?)
  | _ => some (none, none)

def wrappedCandidate? (name : String) (callee : Expr) (types : List TypeExpr) (args : List Expr) :
    Option Candidate := do
  guard (wrapperIndex? callee).isSome
  let (props, first) ← wrapped? (.call callee types args)
  pure { name, kind := .wrapped, props, defaults := (first.map patternDefaults).getD [] }

def componentType? : TypeExpr → Option (Option TypeExpr)
  | .reference path args =>
    if ["FC", "FunctionComponent", "VFC", "VoidFunctionComponent", "ComponentType"].contains
        (path.getLastD "") then some args.head?
    else none
  | _ => none

def valueCandidate? (name : String) (e : Expr) : Option Candidate :=
  match e.unwrap with
  | .arrow f | .function f => functionCandidate? name f
  | .class c => classCandidate? name c
  | .call callee types args => wrappedCandidate? name callee types args
  | _ => none

def variableCandidate? : Declarator → Option Candidate
  | .mk (.name name type) init =>
    match type.bind componentType? with
    | some props =>
      let first := init.bind firstParam?
      some { name, kind := .function, props, defaults := (first.map patternDefaults).getD [] }
    | none => init.bind (valueCandidate? name)
  | _ => none

def declarationCandidates : Declaration → List Candidate
  | .function name _ f => (functionCandidate? name f).toList
  | .class name c => (classCandidate? name c).toList
  | .vars kind ds => if kind.isResource then [] else ds.filterMap variableCandidate?
  | _ => []

def itemCandidates (item : Item) : List Candidate :=
  match item.kind with
  | .statement (.declaration d) | .exportDeclaration d | .exportDefault d =>
    declarationCandidates d
  | _ => []

def statementDefaults (items : List Item) : Table (Table Literal) :=
  items.foldl (fun table item =>
    match item.kind with
    | .statement (.expr e) =>
      match assignedDefaults? e with
      | some (component, defaults) =>
        table.put component (Table.putAll defaults ((table.get? component).getD []))
      | none => table
    | _ => table) []

def firstOfEach (candidates : List Candidate) : List Candidate :=
  candidates.foldl
    (fun kept c => if kept.any fun k => k.name == c.name then kept else kept ++ [c]) []

def applyDefault (defaults : Table Literal) (p : PropInfo) : PropInfo :=
  match defaults.get? p.name with
  | some value => p.withDefault value
  | none => p

def component (s : Resolver.Setting) (id : Nat) (path : Path) (c : Candidate) :
    Except ExtractError Component := do
  let resolved := match c.props with
    | some type => (Resolver.resolveProps s (.inline id type)).run.run {}
    | none => (.ok [], {})
  match resolved with
  | (.error e, _) => throw (.unresolved e)
  | (.ok props, ledger) => pure {
      name := c.name
      origin := path
      kind := c.kind
      props := props.map (applyDefault c.defaults)
      definitions := ledger.definitions }

def candidatesOf (file : SourceFile) : List Candidate :=
  let assigned := statementDefaults file.items
  (firstOfEach (file.items.flatMap itemCandidates)).map fun c =>
    { c with defaults := Table.putAll ((assigned.get? c.name).getD []) c.defaults }

def extract (s : Resolver.Setting) (path : Path) : Except ExtractError (List Component) :=
  match s.project.idOf? path with
  | none => .error (.notInProject path)
  | some id =>
    match s.project.file? id with
    | none => .error (.notInProject path)
    | some file => (candidatesOf file).mapM (component s id file.path)

def document (s : Resolver.Setting) (paths : List Path) : Except ExtractError Document := do
  let components ← paths.mapM (extract s)
  pure ⟨components.flatten⟩

end PropContract.Extraction
