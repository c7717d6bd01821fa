import PropContract.Syntax.Tree

namespace PropContract.Syntax

structure Search (α : Type) where
  expr : Expr → Option (List α) := fun _ => none
  declarator : Declarator → Option (List α) := fun _ => none
  use : Use → List α := fun _ => []

namespace Search

variable {α : Type} (s : Search α)

def name (n : String) : List α :=
  s.use (.whole n)

def names (ns : List String) : List α :=
  ns.flatMap s.name

def ofType (t : TypeExpr) : List α :=
  t.uses.flatMap s.use

def ofTypes (ts : List TypeExpr) : List α :=
  (TypeExpr.usesAll ts).flatMap s.use

def ofType? (t : Option TypeExpr) : List α :=
  (TypeExpr.usesOf t).flatMap s.use

def ofTypeParams (ps : List TypeParam) : List α :=
  (ps.flatMap TypeParam.uses).flatMap s.use

def ofBases (bs : List InterfaceBase) : List α :=
  bs.flatMap fun b => b.uses.flatMap s.use ++ s.ofTypes b.args

end Search

mutual

def Expr.gather {α : Type} (s : Search α) : Expr → List α
  | .name n => (s.expr (.name n)).getD (s.name n)
  | .string v => (s.expr (.string v)).getD []
  | .number v => (s.expr (.number v)).getD []
  | .boolean v => (s.expr (.boolean v)).getD []
  | .null => (s.expr .null).getD []
  | .template texts parts =>
    match s.expr (.template texts parts) with
    | some found => found
    | none => Expr.gatherAll s parts
  | .paren e =>
    match s.expr (.paren e) with
    | some found => found
    | none => e.gather s
  | .array elements =>
    match s.expr (.array elements) with
    | some found => found
    | none => Element.gatherAll s elements
  | .object properties =>
    match s.expr (.object properties) with
    | some found => found
    | none => Property.gatherAll s properties
  | .function f =>
    match s.expr (.function f) with
    | some found => found
    | none => f.gather s
  | .arrow f =>
    match s.expr (.arrow f) with
    | some found => found
    | none => f.gather s
  | .class c =>
    match s.expr (.class c) with
    | some found => found
    | none => c.gather s
  | .member e key =>
    match s.expr (.member e key) with
    | some found => found
    | none => e.gather s
  | .index e key =>
    match s.expr (.index e key) with
    | some found => found
    | none => e.gather s ++ key.gather s
  | .privateMember e =>
    match s.expr (.privateMember e) with
    | some found => found
    | none => e.gather s
  | .superMember key =>
    match s.expr (.superMember key) with
    | some found => found
    | none => Expr.gatherOption s key
  | .call callee types args =>
    match s.expr (.call callee types args) with
    | some found => found
    | none => callee.gather s ++ s.ofTypes types ++ Expr.gatherAll s args
  | .chain e =>
    match s.expr (.chain e) with
    | some found => found
    | none => e.gather s
  | .assign plain target value =>
    match s.expr (.assign plain target value) with
    | some found => found
    | none => target.gather s ++ value.gather s
  | .negate e =>
    match s.expr (.negate e) with
    | some found => found
    | none => e.gather s
  | .unary e =>
    match s.expr (.unary e) with
    | some found => found
    | none => e.gather s
  | .binary op left right =>
    match s.expr (.binary op left right) with
    | some found => found
    | none => left.gather s ++ right.gather s
  | .operation parts =>
    match s.expr (.operation parts) with
    | some found => found
    | none => Expr.gatherAll s parts
  | .await e =>
    match s.expr (.await e) with
    | some found => found
    | none => e.gather s
  | .cast e type =>
    match s.expr (.cast e type) with
    | some found => found
    | none => e.gather s ++ s.ofType type
  | .asserted types e =>
    match s.expr (.asserted types e) with
    | some found => found
    | none => s.ofTypes types ++ e.gather s
  | .applied e types =>
    match s.expr (.applied e types) with
    | some found => found
    | none => e.gather s ++ s.ofTypes types
  | .spread e =>
    match s.expr (.spread e) with
    | some found => found
    | none => e.gather s
  | .sequence parts =>
    match s.expr (.sequence parts) with
    | some found => found
    | none => Expr.gatherAll s parts
  | .jsx parts =>
    match s.expr (.jsx parts) with
    | some found => found
    | none => Expr.gatherAll s parts
  | .group types parts =>
    match s.expr (.group types parts) with
    | some found => found
    | none => s.ofTypes types ++ Expr.gatherAll s parts

def Expr.gatherAll {α : Type} (s : Search α) : List Expr → List α
  | [] => []
  | e :: es => e.gather s ++ Expr.gatherAll s es

def Expr.gatherOption {α : Type} (s : Search α) : Option Expr → List α
  | none => []
  | some e => e.gather s

def Element.gather {α : Type} (s : Search α) : Element → List α
  | .hole => []
  | .item _ e => e.gather s
  | .spread _ _ e _ => e.gather s

def Element.gatherAll {α : Type} (s : Search α) : List Element → List α
  | [] => []
  | e :: es => e.gather s ++ Element.gatherAll s es

def PropertyKey.gather {α : Type} (s : Search α) : PropertyKey → List α
  | .named _ | .hidden => []
  | .computed e => e.gather s

def Property.gather {α : Type} (s : Search α) : Property → List α
  | .shorthand _ name => s.name name
  | .keyed _ key _ value => key.gather s ++ value.gather s
  | .method _ key f => key.gather s ++ f.gather s
  | .spread _ _ e _ => e.gather s
  | .defaulted _ name value => s.name name ++ value.gather s

def Property.gatherAll {α : Type} (s : Search α) : List Property → List α
  | [] => []
  | p :: ps => p.gather s ++ Property.gatherAll s ps

def Pattern.gather {α : Type} (s : Search α) : Pattern → List α
  | .name n type => s.name n ++ s.ofType? type
  | .object members type => PatternMember.gatherAll s members ++ s.ofType? type
  | .array elements type => Pattern.gatherAll s elements ++ s.ofType? type
  | .assign target value => target.gather s ++ value.gather s
  | .rest target type => target.gather s ++ s.ofType? type
  | .expr e => e.gather s

def Pattern.gatherAll {α : Type} (s : Search α) : List Pattern → List α
  | [] => []
  | p :: ps => p.gather s ++ Pattern.gatherAll s ps

def PatternMember.gather {α : Type} (s : Search α) : PatternMember → List α
  | .keyed key value => key.gather s ++ value.gather s
  | .shorthand name default => s.name name ++ Expr.gatherOption s default
  | .rest target => target.gather s

def PatternMember.gatherAll {α : Type} (s : Search α) : List PatternMember → List α
  | [] => []
  | m :: ms => m.gather s ++ PatternMember.gatherAll s ms

def Function.gather {α : Type} (s : Search α) : Function → List α
  | .mk names types decorators params result _ body =>
    s.names names ++ s.ofTypes types ++ Expr.gatherAll s decorators ++
      Pattern.gatherAll s params ++ s.ofType? result ++ Stmt.gatherAll s body

def ClassBody.gather {α : Type} (s : Search α) : ClassBody → List α
  | .mk names types decorators base baseArgs implemented members =>
    s.names names ++ s.ofTypes types ++ Expr.gatherAll s decorators ++
      Expr.gatherOption s base ++ s.ofTypes baseArgs ++ s.ofBases implemented ++
      ClassMember.gatherAll s members

def ClassMember.gather {α : Type} (s : Search α) : ClassMember → List α
  | .property _ _ key type value decorators =>
    Expr.gatherAll s decorators ++ key.gather s ++ s.ofType? type ++ Expr.gatherOption s value
  | .method key f decorators => Expr.gatherAll s decorators ++ key.gather s ++ f.gather s
  | .block body => Stmt.gatherAll s body
  | .hidden names types values =>
    s.names names ++ s.ofTypes types ++ Expr.gatherAll s values

def ClassMember.gatherAll {α : Type} (s : Search α) : List ClassMember → List α
  | [] => []
  | m :: ms => m.gather s ++ ClassMember.gatherAll s ms

def Declarator.gather {α : Type} (s : Search α) : Declarator → List α
  | .mk target init =>
    match s.declarator (.mk target init) with
    | some found => found
    | none => target.gather s ++ Expr.gatherOption s init

def Declarator.gatherAll {α : Type} (s : Search α) : List Declarator → List α
  | [] => []
  | d :: ds => d.gather s ++ Declarator.gatherAll s ds

def EnumMember.gather {α : Type} (s : Search α) : EnumMember → List α
  | .mk name isQuoted init => (if isQuoted then [] else s.name name) ++ Expr.gatherOption s init

def EnumMember.gatherAll {α : Type} (s : Search α) : List EnumMember → List α
  | [] => []
  | m :: ms => m.gather s ++ EnumMember.gatherAll s ms

def Declaration.gather {α : Type} (s : Search α) : Declaration → List α
  | .interface i =>
    s.name i.name ++ s.ofTypeParams i.params ++ s.ofBases i.bases ++
      (TypeMember.usesAll i.members).flatMap s.use
  | .typeAlias a => s.name a.name ++ s.ofTypeParams a.params ++ s.ofType a.type
  | .enum name members => s.name name ++ EnumMember.gatherAll s members
  | .class name c => s.name name ++ c.gather s
  | .function name _ f => s.name name ++ f.gather s
  | .vars _ declarators => Declarator.gatherAll s declarators
  | .namespace path body => s.names path ++ Stmt.gatherAll s body

def Stmt.gather {α : Type} (s : Search α) : Stmt → List α
  | .expr e => e.gather s
  | .declaration d => d.gather s
  | .binding p => p.gather s
  | .group parts => Stmt.gatherAll s parts

def Stmt.gatherAll {α : Type} (s : Search α) : List Stmt → List α
  | [] => []
  | t :: ts => t.gather s ++ Stmt.gatherAll s ts

end

def useSearch : Search Use where
  expr
    | .member (.name n) key => some [.key n key]
    | .index (.name n) (.string key) => some [.key n key]
    | .privateMember (.name _) => some []
    | _ => none
  use u := [u]

def Expr.uses (e : Expr) : List Use :=
  e.gather useSearch

def markupSearch : Search Unit where
  expr
    | .jsx _ => some [()]
    | _ => none

def Stmt.hasMarkup (body : List Stmt) : Bool :=
  !(Stmt.gatherAll markupSearch body).isEmpty

end PropContract.Syntax
