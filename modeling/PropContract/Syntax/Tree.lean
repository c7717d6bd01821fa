import PropContract.Syntax.Type

/-!
The trees of modules. Expressions and statements that nothing looks into are groups of their parts.
-/

namespace PropContract.Syntax

inductive VariableKind where
  | const
  | let
  | var
  | using
  | awaitUsing
  deriving DecidableEq, Repr, Inhabited

def VariableKind.isResource : VariableKind → Bool
  | .using | .awaitUsing => true
  | .const | .let | .var => false

/-- A base of an interface or of a class: its name, when it is one, what it mentions, and its
type arguments. -/
structure InterfaceBase where
  path : Option (List String)
  uses : List Use
  args : List TypeExpr
  deriving Inhabited

structure Interface where
  name : String
  params : List TypeParam := []
  bases : List InterfaceBase := []
  members : List TypeMember := []
  deriving Inhabited

structure TypeAlias where
  name : String
  params : List TypeParam := []
  type : TypeExpr
  deriving Inhabited

mutual

inductive Expr where
  | name (text : String)
  | string (value : String)
  | number (value : Double)
  | boolean (value : Bool)
  | null
  | template (texts : List String) (parts : List Expr)
  | paren (inner : Expr)
  | array (elements : List Element)
  | object (properties : List Property)
  | function (f : Function)
  | arrow (f : Function)
  | class (c : ClassBody)
  | member (object : Expr) (key : String)
  | index (object : Expr) (key : Expr)
  | privateMember (object : Expr)
  /-- A member of `super`, with the expression that is its key, if one is. -/
  | superMember (key : Option Expr)
  | call (callee : Expr) (types : List TypeExpr) (args : List Expr)
  /-- A chain of members and calls in which a link may be missing. -/
  | chain (inner : Expr)
  | assign (plain : Bool) (target value : Expr)
  | negate (inner : Expr)
  | unary (inner : Expr)
  | binary (op : String) (left right : Expr)
  | operation (parts : List Expr)
  | await (inner : Expr)
  | cast (inner : Expr) (type : TypeExpr)
  /-- Any other statement about the type of an expression. -/
  | asserted (types : List TypeExpr) (inner : Expr)
  /-- An expression with type arguments, which nothing is called with. -/
  | applied (inner : Expr) (types : List TypeExpr)
  | spread (inner : Expr)
  | sequence (parts : List Expr)
  | jsx (parts : List Expr)
  /-- Any other form, by the types and expressions in it. -/
  | group (types : List TypeExpr) (parts : List Expr)

inductive Element where
  | hole
  | item (start : Nat) (value : Expr)
  /-- The elements of another array; `comma` is where a comma stands right after them. -/
  | spread (start innerStart : Nat) (inner : Expr) (comma : Option Nat)

inductive PropertyKey where
  | named (text : String)
  | computed (key : Expr)
  | hidden

inductive Property where
  | shorthand (span : Span) (name : String)
  | keyed (span : Span) (key : PropertyKey) (valueStart : Nat) (value : Expr)
  | method (span : Span) (key : PropertyKey) (f : Function)
  /-- The properties of another object; `comma` is where a comma stands right after them. -/
  | spread (span : Span) (innerStart : Nat) (inner : Expr) (comma : Option Nat)
  /-- `name = value`, which only a pattern can hold. -/
  | defaulted (span : Span) (name : String) (value : Expr)

inductive Pattern where
  | name (text : String) (type : Option TypeExpr)
  | object (members : List PatternMember) (type : Option TypeExpr)
  | array (elements : List Pattern) (type : Option TypeExpr)
  | assign (target : Pattern) (value : Expr)
  | rest (target : Pattern) (type : Option TypeExpr)
  | expr (inner : Expr)

inductive PatternMember where
  | keyed (key : PropertyKey) (value : Pattern)
  | shorthand (name : String) (default : Option Expr)
  | rest (target : Pattern)

/-- A function of any form. The body of a short arrow function is its one expression. -/
inductive Function where
  | mk (names : List String) (types : List TypeExpr) (decorators : List Expr)
      (params : List Pattern) (result : Option TypeExpr) (hasBody : Bool) (body : List Stmt)

inductive ClassBody where
  | mk (names : List String) (types : List TypeExpr) (decorators : List Expr)
      (base : Option Expr) (baseArgs : List TypeExpr) (implemented : List InterfaceBase)
      (members : List ClassMember)

inductive ClassMember where
  | property (span : Span) (isStatic : Bool) (key : PropertyKey) (type : Option TypeExpr)
      (value : Option Expr) (decorators : List Expr)
  | method (key : PropertyKey) (f : Function) (decorators : List Expr)
  | block (body : List Stmt)
  /-- A member that is looked into only for what it mentions: a private one, a signature, or one
  that is read and written through functions. -/
  | hidden (names : List String) (types : List TypeExpr) (values : List Expr)

inductive Declarator where
  | mk (target : Pattern) (init : Option Expr)

inductive EnumMember where
  | mk (name : String) (isQuoted : Bool) (init : Option Expr)

inductive Declaration where
  | interface (i : Interface)
  | typeAlias (a : TypeAlias)
  | enum (name : String) (members : List EnumMember)
  | class (name : String) (c : ClassBody)
  | function (name : String) (isAmbient : Bool) (f : Function)
  | vars (kind : VariableKind) (declarators : List Declarator)
  /-- A namespace by its names; a module that is declared from outside has none. -/
  | namespace (path : List String) (body : List Stmt)

inductive Stmt where
  | expr (e : Expr)
  | declaration (d : Declaration)
  | binding (p : Pattern)
  | group (parts : List Stmt)

end

instance : Inhabited Expr := ⟨.null⟩

instance : Inhabited Pattern := ⟨.name "" none⟩

instance : Inhabited PropertyKey := ⟨.hidden⟩

instance : Inhabited Function := ⟨.mk [] [] [] [] none false []⟩

instance : Inhabited ClassBody := ⟨.mk [] [] [] none [] [] []⟩

instance : Inhabited Element := ⟨.hole⟩

instance : Inhabited Stmt := ⟨.group []⟩

instance : Inhabited Declaration := ⟨.namespace [] []⟩

namespace Function

def params : Function → List Pattern
  | mk _ _ _ params .. => params

def result : Function → Option TypeExpr
  | mk _ _ _ _ result .. => result

def hasBody : Function → Bool
  | mk _ _ _ _ _ hasBody _ => hasBody

def body : Function → List Stmt
  | mk _ _ _ _ _ _ body => body

end Function

namespace ClassBody

def base : ClassBody → Option Expr
  | mk _ _ _ base .. => base

def baseArgs : ClassBody → List TypeExpr
  | mk _ _ _ _ args .. => args

def members : ClassBody → List ClassMember
  | mk _ _ _ _ _ _ members => members

end ClassBody

namespace PropertyKey

def name? : PropertyKey → Option String
  | named text => some text
  | computed _ | hidden => none

end PropertyKey

namespace Property

def span : Property → Span
  | shorthand span _ | keyed span .. | method span .. | spread span .. | defaulted span .. => span

end Property

namespace Expr

def unwrap : Expr → Expr
  | paren inner => inner.unwrap
  | cast inner _ => inner.unwrap
  | e => e

def unspread : Expr → Expr
  | spread inner => inner
  | e => e

def path? : Expr → Option (List String)
  | .name n => some [n]
  | .member e key => e.path?.map (· ++ [key])
  | _ => none

end Expr

inductive ImportedName where
  | named (name : String)
  | namespace
  deriving DecidableEq, Repr, Inhabited

structure ImportSpecifier where
  localName : String
  imported : ImportedName
  deriving DecidableEq, Repr, Inhabited

structure ExportSpecifier where
  source : ImportedName
  exported : String
  deriving DecidableEq, Repr, Inhabited

inductive ItemKind where
  | statement (s : Stmt)
  | imports (source : String) (specifiers : List ImportSpecifier)
  | exportDeclaration (d : Declaration)
  | exportNames (source : Option String) (specifiers : List ExportSpecifier)
  | exportAll (source : String)
  | exportDefault (d : Declaration)
  | exportValue (e : Expr)
  /-- Any other form that makes the file a module, by what it mentions. -/
  | moduleSyntax (parts : List Expr)

structure Item where
  span : Span
  doc : Option String
  kind : ItemKind

instance : Inhabited ItemKind := ⟨.moduleSyntax []⟩

instance : Inhabited Item := ⟨⟨default, none, default⟩⟩

end PropContract.Syntax
