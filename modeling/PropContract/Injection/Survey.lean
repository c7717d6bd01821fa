import PropContract.Grammar.Items
import PropContract.Injection.Usage
import PropContract.Shape.Basic

namespace PropContract.Survey

open Syntax

inductive Fingerprint where
  | function (params : Nat)
  | classBased
  | call
  deriving DecidableEq, Repr

def Fingerprint.accepts : Fingerprint → ComponentKind → Bool
  | .function params, .function => params ≤ 2
  | .classBased, .classBased => true
  | .call, _ => true
  | _, _ => false

structure Candidate where
  name : String
  fingerprint : Fingerprint
  stop : Nat
  used : Option (List String) := none

inductive Place where
  | statement
  | classMember
  deriving DecidableEq, Repr

structure HandWritten where
  key : Option String
  text : String
  deriving DecidableEq, Repr

structure Existing where
  component : String
  span : Span
  place : Place
  entries : List HandWritten

structure Findings where
  candidates : List Candidate := []
  existing : List Existing := []
  bindings : List String := []
  lastImport : Option Nat := none
  prologue : Option Nat := none
  isModule : Bool := false
  usesRequire : Bool := false

namespace Findings

def importsByCall (f : Findings) : Bool :=
  !f.isModule && f.usesRequire

def bind (f : Findings) (names : List String) : Findings :=
  { f with bindings := f.bindings ++ names }

def addCandidate (f : Findings) (c : Candidate) : Findings :=
  { f with candidates := f.candidates ++ [c] }

def addExisting (f : Findings) (e : Existing) : Findings :=
  { f with existing := f.existing ++ [e] }

end Findings

def keyOf? : Property → Option String
  | .shorthand _ name | .defaulted _ name _ => some name
  | .keyed _ key _ _ | .method _ key _ => key.name?
  | .spread .. => none

def sliceOf (source : String) (span : Span) : String :=
  (span.slice? source).getD ""

def entriesOf (source : String) (value : Expr) : List HandWritten :=
  match value.unwrap with
  | .object properties => properties.map fun p => ⟨keyOf? p, sliceOf source p.span⟩
  | _ => []

def assigned? (source : String) (span : Span) : Expr → Option Existing
  | .assign true (.member (.name component) "propTypes") value =>
    some ⟨component, span, .statement, entriesOf source value⟩
  | _ => none

def ofMember? (source component : String) : ClassMember → Option Existing
  | .property span true (.named "propTypes") _ value _ =>
    some ⟨component, span, .classMember, (value.map (entriesOf source)).getD []⟩
  | _ => none

def isRequireName : Expr → Bool
  | .name "require" => true
  | _ => false

mutual

def isRequire : Expr → Bool
  | .paren e => isRequire e
  | .cast e _ => isRequire e
  | .call callee _ args => isRequireName callee || anyRequire args
  | _ => false

def anyRequire : List Expr → Bool
  | [] => false
  | .spread _ :: es => anyRequire es
  | e :: es => isRequire e || anyRequire es

end
def isExports : Expr → Bool
  | .name "exports" => true
  | .member (.name "module") "exports" => true
  | _ => false

def isExportTarget : Expr → Bool
  | .member (.name "module") "exports" => true
  | .member e _ | .index e _ | .privateMember e => isExports e
  | _ => false

mutual

def exports : Expr → Bool
  | .assign _ target value => isExportTarget target || exports value
  | .call _ _ (arg :: _) => isExports arg.unspread
  | .sequence parts => anyExports parts
  | _ => false

def anyExports : List Expr → Bool
  | [] => false
  | e :: es => exports e || anyExports es

end

def addFunction (name : String) (stop : Nat) (f : Function) (found : Findings) : Findings :=
  if f.hasBody then
    found.addCandidate
      { name, fingerprint := .function f.params.length, stop, used := Usage.ofFunction? f }
  else found

def addClass (source name : String) (stop : Nat) (c : ClassBody) (found : Findings) : Findings :=
  (c.members.filterMap (ofMember? source name)).foldl Findings.addExisting
    (found.addCandidate { name, fingerprint := .classBased, stop })

def memberName? : PatternMember → Option String
  | .keyed _ (.name n _) | .rest (.name n _) | .shorthand n _ => some n
  | _ => none

def addDeclarator (source : String) (stop : Nat) (found : Findings) :
    Declarator → Findings × Bool
  | .mk (.name name _) init =>
    let found := found.bind [name]
    match init with
    | none => (found, false)
    | some e =>
      if isRequire e then ({ found with usesRequire := true }, true)
      else
        match e.unwrap with
        | .arrow f => (found.addCandidate
            { name, fingerprint := .function f.params.length, stop, used := Usage.ofFunction? f },
            false)
        | .function f => (addFunction name stop f found, false)
        | .class c => (addClass source name stop c found, false)
        | .call _ _ args => (found.addCandidate
            { name, fingerprint := .call, stop, used := Usage.ofCall? args }, false)
        | _ => (found, false)
  | .mk (.object members _) init =>
    (found.bind (members.filterMap memberName?), (init.map isRequire).getD false)
  | .mk _ init => (found, (init.map isRequire).getD false)

def addDeclarators (source : String) (stop : Nat) (found : Findings) :
    List Declarator → Findings × Bool
  | [] => (found, false)
  | d :: ds =>
    let (found, required) := addDeclarator source stop found d
    let (found, others) := addDeclarators source stop found ds
    (found, required || others)

def addDeclaration (source : String) (stop : Nat) (found : Findings) : Declaration → Findings × Bool
  | .function name isAmbient f =>
    let found := found.bind [name]
    (if isAmbient then found else addFunction name stop f found, false)
  | .class name c => (addClass source name stop c (found.bind [name]), false)
  | .vars kind ds =>
    if kind.isResource then (found, false) else addDeclarators source stop found ds
  | _ => (found, false)

def isDirective (item : Item) : Bool :=
  match item.kind with
  | .statement (.expr (.string _)) => true
  | _ => false

def addItem (source : String) (found : Findings) (item : Item) : Findings :=
  let stop := item.span.stop
  match item.kind with
  | .statement (.declaration d) =>
    let (found, required) := addDeclaration source stop found d
    if required then { found with lastImport := some stop } else found
  | .statement (.expr e) =>
    let found := if exports e then { found with usesRequire := true } else found
    match assigned? source item.span e with
    | some existing => found.addExisting existing
    | none => found
  | .statement _ => found
  | kind =>
    let found := { found with isModule := true }
    match kind with
    | .imports _ specifiers =>
      { found.bind (specifiers.map ImportSpecifier.localName) with lastImport := some stop }
    | .exportDeclaration d => (addDeclaration source stop found d).1
    | .exportDefault (.function name _ f) => addFunction name stop f found
    | .exportDefault (.class name c) => addClass source name stop c found
    | _ => found

def ofItems (source : String) (items : List Item) : Findings :=
  let prologue := items.takeWhile isDirective
  (items.drop prologue.length).foldl (addItem source)
    { prologue := prologue.getLast?.map fun item => item.span.stop }

end PropContract.Survey
