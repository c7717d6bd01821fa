import Mathlib.Data.List.Forall2
import PropContract.Proofs.Syntax.Nodes
import PropContract.Shape.Literal

namespace PropContract.Syntax

structure MemberHead.Like (R : Span → Span → Prop) (head head' : MemberHead) : Prop where
  span : R head.span head'.span
  keySpan : R head.keySpan head'.keySpan
  key : head'.key = head.key
  isOptional : head'.isOptional = head.isOptional
  doc : head'.doc = head.doc

section

variable (R : Span → Span → Prop) (K : String → Prop)

mutual

inductive TypeExpr.Like : TypeExpr → TypeExpr → Prop
  | keyword (kind : Keyword) : TypeExpr.Like (.keyword kind) (.keyword kind)
  | this : TypeExpr.Like .this .this
  | string (value : String) : TypeExpr.Like (.string value) (.string value)
  | number (value : Double) : TypeExpr.Like (.number value) (.number value)
  | boolean (value : Bool) : TypeExpr.Like (.boolean value) (.boolean value)
  | bigint : TypeExpr.Like .bigint .bigint
  | template (texts : List String) (h : List.Forall₂ TypeExpr.Like ts ts') :
      TypeExpr.Like (.template texts ts) (.template texts ts')
  | reference (known : ∀ name ∈ path.head?, K name) (h : List.Forall₂ TypeExpr.Like args args') :
      TypeExpr.Like (.reference path args) (.reference path args')
  | query (path : List String) (h : List.Forall₂ TypeExpr.Like args args') :
      TypeExpr.Like (.query path args) (.query path args')
  | object (h : List.Forall₂ TypeMember.Like ms ms') : TypeExpr.Like (.object ms) (.object ms')
  | array (h : TypeExpr.Like t t') : TypeExpr.Like (.array t) (.array t')
  | tuple (labels : List String) (h : List.Forall₂ TypeExpr.Like ts ts') :
      TypeExpr.Like (.tuple labels ts) (.tuple labels ts')
  | optional (h : TypeExpr.Like t t') : TypeExpr.Like (.optional t) (.optional t')
  | rest (h : TypeExpr.Like t t') : TypeExpr.Like (.rest t) (.rest t')
  | union (h : List.Forall₂ TypeExpr.Like ts ts') : TypeExpr.Like (.union ts) (.union ts')
  | intersection (h : List.Forall₂ TypeExpr.Like ts ts') :
      TypeExpr.Like (.intersection ts) (.intersection ts')
  | conditional (ha : TypeExpr.Like a a') (hb : TypeExpr.Like b b') (hc : TypeExpr.Like c c')
      (hd : TypeExpr.Like d d') : TypeExpr.Like (.conditional a b c d) (.conditional a' b' c' d')
  | infer (name : String) (h : List.Forall₂ TypeExpr.Like ts ts') :
      TypeExpr.Like (.infer name ts) (.infer name ts')
  | paren (h : TypeExpr.Like t t') : TypeExpr.Like (.paren t) (.paren t')
  | operator (op : TypeOperator) (h : TypeExpr.Like t t') :
      TypeExpr.Like (.operator op t) (.operator op t')
  | indexed (ha : TypeExpr.Like a a') (hb : TypeExpr.Like b b') :
      TypeExpr.Like (.indexed a b) (.indexed a' b')
  | mapped (param : String) (mark : OptionalMark) (hk : TypeExpr.Like keys keys')
      (hr : Option.Rel TypeExpr.Like rename rename') (hv : Option.Rel TypeExpr.Like value value') :
      TypeExpr.Like (.mapped param keys rename mark value) (.mapped param keys' rename' mark value')
  | callable (uses : List Use) (h : List.Forall₂ TypeExpr.Like ts ts') :
      TypeExpr.Like (.callable uses ts) (.callable uses ts')
  | predicate (subject : String) (h : Option.Rel TypeExpr.Like t t') :
      TypeExpr.Like (.predicate subject t) (.predicate subject t')

inductive TypeMember.Like : TypeMember → TypeMember → Prop
  | property (hh : MemberHead.Like R head head') (hs : R span span')
      (h : Option.Rel TypeExpr.Like t t') :
      TypeMember.Like (.property head span t) (.property head' span' t')
  | method (uses : List Use) (hh : MemberHead.Like R head head')
      (h : List.Forall₂ TypeExpr.Like ts ts') :
      TypeMember.Like (.method head uses ts) (.method head' uses ts')
  | getter (hh : MemberHead.Like R head head') (hs : R span span')
      (h : Option.Rel TypeExpr.Like t t') :
      TypeMember.Like (.getter head span t) (.getter head' span' t')
  | setter (uses : List Use) (hh : MemberHead.Like R head head')
      (h : List.Forall₂ TypeExpr.Like ts ts') :
      TypeMember.Like (.setter head uses ts) (.setter head' uses ts')
  | call (uses : List Use) (h : List.Forall₂ TypeExpr.Like ts ts') :
      TypeMember.Like (.call uses ts) (.call uses ts')
  | construct (uses : List Use) (h : List.Forall₂ TypeExpr.Like ts ts') :
      TypeMember.Like (.construct uses ts) (.construct uses ts')
  | index (uses : List Use) (h : List.Forall₂ TypeExpr.Like ts ts') :
      TypeMember.Like (.index uses ts) (.index uses ts')

end

structure TypeParam.Like (a a' : TypeParam) : Prop where
  name : a'.name = a.name
  bound : Option.Rel (TypeExpr.Like R K) a.bound a'.bound
  default : Option.Rel (TypeExpr.Like R K) a.default a'.default

structure InterfaceBase.Like (b b' : InterfaceBase) : Prop where
  path : b'.path = b.path
  known : ∀ path ∈ b.path, ∀ name ∈ path.head?, K name
  uses : b'.uses = b.uses
  args : List.Forall₂ (TypeExpr.Like R K) b.args b'.args

structure Interface.Like (i i' : Interface) : Prop where
  name : i'.name = i.name
  params : List.Forall₂ (TypeParam.Like R K) i.params i'.params
  bases : List.Forall₂ (InterfaceBase.Like R K) i.bases i'.bases
  members : List.Forall₂ (TypeMember.Like R K) i.members i'.members

structure TypeAlias.Like (a a' : TypeAlias) : Prop where
  name : a'.name = a.name
  params : List.Forall₂ (TypeParam.Like R K) a.params a'.params
  type : TypeExpr.Like R K a.type a'.type

mutual

inductive Expr.Like : Expr → Expr → Prop
  | name (text : String) : Expr.Like (.name text) (.name text)
  | string (value : String) : Expr.Like (.string value) (.string value)
  | number (value : Double) : Expr.Like (.number value) (.number value)
  | boolean (value : Bool) : Expr.Like (.boolean value) (.boolean value)
  | null : Expr.Like .null .null
  | template (texts : List String) (h : List.Forall₂ Expr.Like es es') :
      Expr.Like (.template texts es) (.template texts es')
  | paren (h : Expr.Like e e') : Expr.Like (.paren e) (.paren e')
  | array (h : List.Forall₂ Element.Like es es') : Expr.Like (.array es) (.array es')
  | object (h : List.Forall₂ Property.Like ps ps') : Expr.Like (.object ps) (.object ps')
  | function (h : Function.Like f f') : Expr.Like (.function f) (.function f')
  | arrow (h : Function.Like f f') : Expr.Like (.arrow f) (.arrow f')
  | class (h : ClassBody.Like c c') : Expr.Like (.class c) (.class c')
  | member (key : String) (h : Expr.Like e e') : Expr.Like (.member e key) (.member e' key)
  | index (h : Expr.Like e e') (hk : Expr.Like key key') : Expr.Like (.index e key) (.index e' key')
  | privateMember (h : Expr.Like e e') : Expr.Like (.privateMember e) (.privateMember e')
  | superMember (h : Option.Rel Expr.Like key key') :
      Expr.Like (.superMember key) (.superMember key')
  | call (h : Expr.Like e e') (ht : List.Forall₂ (TypeExpr.Like R K) ts ts')
      (he : List.Forall₂ Expr.Like es es') : Expr.Like (.call e ts es) (.call e' ts' es')
  | chain (h : Expr.Like e e') : Expr.Like (.chain e) (.chain e')
  | assign (plain : Bool) (h : Expr.Like e e') (hv : Expr.Like v v') :
      Expr.Like (.assign plain e v) (.assign plain e' v')
  | negate (h : Expr.Like e e') : Expr.Like (.negate e) (.negate e')
  | unary (h : Expr.Like e e') : Expr.Like (.unary e) (.unary e')
  | binary (op : String) (ha : Expr.Like a a') (hb : Expr.Like b b') :
      Expr.Like (.binary op a b) (.binary op a' b')
  | operation (h : List.Forall₂ Expr.Like es es') : Expr.Like (.operation es) (.operation es')
  | await (h : Expr.Like e e') : Expr.Like (.await e) (.await e')
  | cast (h : Expr.Like e e') (ht : TypeExpr.Like R K t t') : Expr.Like (.cast e t) (.cast e' t')
  | asserted (h : Expr.Like e e') (ht : List.Forall₂ (TypeExpr.Like R K) ts ts') :
      Expr.Like (.asserted ts e) (.asserted ts' e')
  | applied (h : Expr.Like e e') (ht : List.Forall₂ (TypeExpr.Like R K) ts ts') :
      Expr.Like (.applied e ts) (.applied e' ts')
  | spread (h : Expr.Like e e') : Expr.Like (.spread e) (.spread e')
  | sequence (h : List.Forall₂ Expr.Like es es') : Expr.Like (.sequence es) (.sequence es')
  | jsx (h : List.Forall₂ Expr.Like es es') : Expr.Like (.jsx es) (.jsx es')
  | group (ht : List.Forall₂ (TypeExpr.Like R K) ts ts') (h : List.Forall₂ Expr.Like es es') :
      Expr.Like (.group ts es) (.group ts' es')

inductive Element.Like : Element → Element → Prop
  | hole : Element.Like .hole .hole
  | item (h : Expr.Like e e') : Element.Like (.item start e) (.item start' e')
  | spread (h : Expr.Like e e') :
      Element.Like (.spread start inside e comma) (.spread start' inside' e' comma')

inductive PropertyKey.Like : PropertyKey → PropertyKey → Prop
  | named (text : String) : PropertyKey.Like (.named text) (.named text)
  | computed (h : Expr.Like e e') : PropertyKey.Like (.computed e) (.computed e')
  | hidden : PropertyKey.Like .hidden .hidden

inductive Property.Like : Property → Property → Prop
  | shorthand (name : String) : Property.Like (.shorthand span name) (.shorthand span' name)
  | keyed (hk : PropertyKey.Like key key') (h : Expr.Like e e') :
      Property.Like (.keyed span key start e) (.keyed span' key' start' e')
  | method (hk : PropertyKey.Like key key') (h : Function.Like f f') :
      Property.Like (.method span key f) (.method span' key' f')
  | spread (h : Expr.Like e e') :
      Property.Like (.spread span inside e comma) (.spread span' inside' e' comma')
  | defaulted (name : String) (h : Expr.Like e e') :
      Property.Like (.defaulted span name e) (.defaulted span' name e')

inductive Pattern.Like : Pattern → Pattern → Prop
  | name (text : String) (ht : Option.Rel (TypeExpr.Like R K) t t') :
      Pattern.Like (.name text t) (.name text t')
  | object (h : List.Forall₂ PatternMember.Like ms ms') (ht : Option.Rel (TypeExpr.Like R K) t t') :
      Pattern.Like (.object ms t) (.object ms' t')
  | array (h : List.Forall₂ Pattern.Like ps ps') (ht : Option.Rel (TypeExpr.Like R K) t t') :
      Pattern.Like (.array ps t) (.array ps' t')
  | assign (h : Pattern.Like p p') (he : Expr.Like e e') :
      Pattern.Like (.assign p e) (.assign p' e')
  | rest (h : Pattern.Like p p') (ht : Option.Rel (TypeExpr.Like R K) t t') :
      Pattern.Like (.rest p t) (.rest p' t')
  | expr (h : Expr.Like e e') : Pattern.Like (.expr e) (.expr e')

inductive PatternMember.Like : PatternMember → PatternMember → Prop
  | keyed (hk : PropertyKey.Like key key') (h : Pattern.Like p p') :
      PatternMember.Like (.keyed key p) (.keyed key' p')
  | shorthand (name : String) (h : Option.Rel Expr.Like e e') :
      PatternMember.Like (.shorthand name e) (.shorthand name e')
  | rest (h : Pattern.Like p p') : PatternMember.Like (.rest p) (.rest p')

inductive Function.Like : Function → Function → Prop
  | mk (names : List String) (hasBody : Bool) (ht : List.Forall₂ (TypeExpr.Like R K) ts ts')
      (hd : List.Forall₂ Expr.Like ds ds') (hp : List.Forall₂ Pattern.Like ps ps')
      (hr : Option.Rel (TypeExpr.Like R K) t t') (hb : List.Forall₂ Stmt.Like body body') :
      Function.Like (.mk names ts ds ps t hasBody body) (.mk names ts' ds' ps' t' hasBody body')

inductive ClassBody.Like : ClassBody → ClassBody → Prop
  | mk (names : List String) (ht : List.Forall₂ (TypeExpr.Like R K) ts ts')
      (hd : List.Forall₂ Expr.Like ds ds') (hb : Option.Rel Expr.Like base base')
      (ha : List.Forall₂ (TypeExpr.Like R K) as as')
      (hi : List.Forall₂ (InterfaceBase.Like R K) is is')
      (hm : List.Forall₂ ClassMember.Like ms ms') :
      ClassBody.Like (.mk names ts ds base as is ms) (.mk names ts' ds' base' as' is' ms')

inductive ClassMember.Like : ClassMember → ClassMember → Prop
  | property (isStatic : Bool) (hk : PropertyKey.Like key key')
      (ht : Option.Rel (TypeExpr.Like R K) t t') (he : Option.Rel Expr.Like e e')
      (hd : List.Forall₂ Expr.Like ds ds') :
      ClassMember.Like (.property span isStatic key t e ds) (.property span' isStatic key' t' e'
        ds')
  | method (hk : PropertyKey.Like key key') (h : Function.Like f f')
      (hd : List.Forall₂ Expr.Like ds ds') :
      ClassMember.Like (.method key f ds) (.method key' f' ds')
  | block (h : List.Forall₂ Stmt.Like body body') : ClassMember.Like (.block body) (.block body')
  | hidden (names : List String) (ht : List.Forall₂ (TypeExpr.Like R K) ts ts')
      (he : List.Forall₂ Expr.Like es es') :
      ClassMember.Like (.hidden names ts es) (.hidden names ts' es')

inductive Declarator.Like : Declarator → Declarator → Prop
  | mk (hp : Pattern.Like p p') (h : Option.Rel Expr.Like e e') :
      Declarator.Like (.mk p e) (.mk p' e')

inductive EnumMember.Like : EnumMember → EnumMember → Prop
  | mk (name : String) (isQuoted : Bool) (h : Option.Rel Expr.Like e e') :
      EnumMember.Like (.mk name isQuoted e) (.mk name isQuoted e')

inductive Declaration.Like : Declaration → Declaration → Prop
  | interface (h : i.Like R K i') : Declaration.Like (.interface i) (.interface i')
  | typeAlias (h : a.Like R K a') : Declaration.Like (.typeAlias a) (.typeAlias a')
  | enum (name : String) (h : List.Forall₂ EnumMember.Like ms ms') :
      Declaration.Like (.enum name ms) (.enum name ms')
  | class (name : String) (h : ClassBody.Like c c') :
      Declaration.Like (.class name c) (.class name c')
  | function (name : String) (isAmbient : Bool) (h : Function.Like f f') :
      Declaration.Like (.function name isAmbient f) (.function name isAmbient f')
  | vars (kind : VariableKind) (h : List.Forall₂ Declarator.Like ds ds') :
      Declaration.Like (.vars kind ds) (.vars kind ds')
  | namespace (path : List String) (h : List.Forall₂ Stmt.Like body body') :
      Declaration.Like (.namespace path body) (.namespace path body')

inductive Stmt.Like : Stmt → Stmt → Prop
  | expr (h : Expr.Like e e') : Stmt.Like (.expr e) (.expr e')
  | declaration (h : Declaration.Like d d') : Stmt.Like (.declaration d) (.declaration d')
  | binding (h : Pattern.Like p p') : Stmt.Like (.binding p) (.binding p')
  | group (h : List.Forall₂ Stmt.Like ss ss') : Stmt.Like (.group ss) (.group ss')

end

inductive ItemKind.Like : ItemKind → ItemKind → Prop
  | statement (h : s.Like R K s') : ItemKind.Like (.statement s) (.statement s')
  | imports (source : String) (specifiers : List ImportSpecifier) :
      ItemKind.Like (.imports source specifiers) (.imports source specifiers)
  | exportDeclaration (h : d.Like R K d') :
      ItemKind.Like (.exportDeclaration d) (.exportDeclaration d')
  | exportNames (source : Option String) (specifiers : List ExportSpecifier) :
      ItemKind.Like (.exportNames source specifiers) (.exportNames source specifiers)
  | exportAll (source : String) : ItemKind.Like (.exportAll source) (.exportAll source)
  | exportDefault (h : d.Like R K d') : ItemKind.Like (.exportDefault d) (.exportDefault d')
  | exportValue (h : e.Like R K e') : ItemKind.Like (.exportValue e) (.exportValue e')
  | moduleSyntax (h : List.Forall₂ (Expr.Like R K) es es') :
      ItemKind.Like (.moduleSyntax es) (.moduleSyntax es')

end

variable {R : Span → Span → Prop} {K : String → Prop}

theorem MemberHead.Like.refl (hR : ∀ s, R s s) (head : MemberHead) : head.Like R head :=
  ⟨hR _, hR _, rfl, rfl, rfl⟩

mutual

theorem TypeExpr.Like.refl (hR : ∀ s, R s s) (hK : ∀ name, K name) (t : TypeExpr) :
    t.Like R K t := by
  cases t with
  | keyword kind => exact .keyword kind
  | this => exact .this
  | string value => exact .string value
  | number value => exact .number value
  | boolean value => exact .boolean value
  | bigint => exact .bigint
  | template texts ts => exact .template texts (TypeExpr.Like.refl_all hR hK ts)
  | reference path args =>
    exact .reference (fun name _ => hK name) (TypeExpr.Like.refl_all hR hK args)
  | query path args => exact .query path (TypeExpr.Like.refl_all hR hK args)
  | object ms => exact .object (TypeMember.Like.refl_all hR hK ms)
  | array t => exact .array (.refl hR hK t)
  | tuple labels ts => exact .tuple labels (TypeExpr.Like.refl_all hR hK ts)
  | optional t => exact .optional (.refl hR hK t)
  | rest t => exact .rest (.refl hR hK t)
  | union ts => exact .union (TypeExpr.Like.refl_all hR hK ts)
  | intersection ts => exact .intersection (TypeExpr.Like.refl_all hR hK ts)
  | conditional a b c d =>
    exact .conditional (.refl hR hK a) (.refl hR hK b) (.refl hR hK c) (.refl hR hK d)
  | infer name ts => exact .infer name (TypeExpr.Like.refl_all hR hK ts)
  | paren t => exact .paren (.refl hR hK t)
  | operator op t => exact .operator op (.refl hR hK t)
  | indexed a b => exact .indexed (.refl hR hK a) (.refl hR hK b)
  | mapped param keys rename mark value =>
    exact .mapped param mark (.refl hR hK keys) (TypeExpr.Like.refl_option hR hK rename)
      (TypeExpr.Like.refl_option hR hK value)
  | callable uses ts => exact .callable uses (TypeExpr.Like.refl_all hR hK ts)
  | predicate subject t => exact .predicate subject (TypeExpr.Like.refl_option hR hK t)

theorem TypeExpr.Like.refl_all (hR : ∀ s, R s s) (hK : ∀ name, K name) (ts : List TypeExpr) :
    List.Forall₂ (TypeExpr.Like R K) ts ts := by
  cases ts with
  | nil => exact .nil
  | cons t ts => exact .cons (.refl hR hK t) (TypeExpr.Like.refl_all hR hK ts)

theorem TypeExpr.Like.refl_option (hR : ∀ s, R s s) (hK : ∀ name, K name) (t : Option TypeExpr) :
    Option.Rel (TypeExpr.Like R K) t t := by
  cases t with
  | none => exact .none
  | some t => exact .some (.refl hR hK t)

theorem TypeMember.Like.refl (hR : ∀ s, R s s) (hK : ∀ name, K name) (m : TypeMember) :
    m.Like R K m := by
  cases m with
  | property head span t =>
    exact .property (.refl hR head) (hR _) (TypeExpr.Like.refl_option hR hK t)
  | method head uses ts => exact .method uses (.refl hR head) (TypeExpr.Like.refl_all hR hK ts)
  | getter head span t => exact .getter (.refl hR head) (hR _) (TypeExpr.Like.refl_option hR hK t)
  | setter head uses ts => exact .setter uses (.refl hR head) (TypeExpr.Like.refl_all hR hK ts)
  | call uses ts => exact .call uses (TypeExpr.Like.refl_all hR hK ts)
  | construct uses ts => exact .construct uses (TypeExpr.Like.refl_all hR hK ts)
  | index uses ts => exact .index uses (TypeExpr.Like.refl_all hR hK ts)

theorem TypeMember.Like.refl_all (hR : ∀ s, R s s) (hK : ∀ name, K name)
    (ms : List TypeMember) : List.Forall₂ (TypeMember.Like R K) ms ms := by
  cases ms with
  | nil => exact .nil
  | cons m ms => exact .cons (.refl hR hK m) (TypeMember.Like.refl_all hR hK ms)

end

section Refl

variable (hR : ∀ s, R s s) (hK : ∀ name, K name)

include hR hK

theorem TypeParam.Like.refl (a : TypeParam) : a.Like R K a :=
  ⟨rfl, TypeExpr.Like.refl_option hR hK _, TypeExpr.Like.refl_option hR hK _⟩

theorem InterfaceBase.Like.refl (b : InterfaceBase) : b.Like R K b :=
  ⟨rfl, fun _ _ name _ => hK name, rfl, TypeExpr.Like.refl_all hR hK _⟩

theorem Interface.Like.refl (i : Interface) : i.Like R K i where
  name := rfl
  params := List.forall₂_same.mpr fun a _ => TypeParam.Like.refl hR hK a
  bases := List.forall₂_same.mpr fun b _ => InterfaceBase.Like.refl hR hK b
  members := TypeMember.Like.refl_all hR hK _

theorem TypeAlias.Like.refl (a : TypeAlias) : a.Like R K a where
  name := rfl
  params := List.forall₂_same.mpr fun a _ => TypeParam.Like.refl hR hK a
  type := TypeExpr.Like.refl hR hK _

end Refl

theorem Expr.Like.literal?_eq {e e' : Expr} (h : e.Like R K e') : e'.literal? = e.literal? := by
  induction e using Expr.literal?.induct generalizing e' with
  | case1 | case2 | case3 | case4 =>
    cases h
    rfl
  | case5 e ih =>
    cases h with
    | negate h => rw [Expr.literal?, Expr.literal?, ih h]
  | case6 texts =>
    cases h with
    | template _ h =>
      cases h
      rfl
  | case7 e ih =>
    cases h with
    | paren h => rw [Expr.literal?, Expr.literal?, ih h]
  | case8 e h1 h2 h3 h4 h5 h6 h7 =>
    cases h <;> simp_all [Expr.literal?]
    rename_i h
    cases h <;> simp_all [Expr.literal?]

theorem Expr.Like.unwrap {e e' : Expr} (h : e.Like R K e') : e.unwrap.Like R K e'.unwrap := by
  induction e using Expr.unwrap.induct generalizing e' with
  | case1 e ih =>
    cases h with
    | paren h =>
      rw [Expr.unwrap, Expr.unwrap]
      exact ih h
  | case2 e t ih =>
    cases h with
    | cast h ht =>
      rw [Expr.unwrap, Expr.unwrap]
      exact ih h
  | case3 e h1 h2 =>
    have hsame := h
    cases h with
    | paren => exact absurd rfl (h1 _)
    | cast => exact absurd rfl (h2 _ _)
    | _ => exact hsame

namespace Node

inductive Like (R : Span → Span → Prop) (K : String → Prop) : Node → Node → Prop
  | expr : x.Like R K x' → Like R K (.expr x) (.expr x')
  | element : x.Like R K x' → Like R K (.element x) (.element x')
  | propertyKey : x.Like R K x' → Like R K (.propertyKey x) (.propertyKey x')
  | property : x.Like R K x' → Like R K (.property x) (.property x')
  | pattern : x.Like R K x' → Like R K (.pattern x) (.pattern x')
  | patternMember : x.Like R K x' → Like R K (.patternMember x) (.patternMember x')
  | function : x.Like R K x' → Like R K (.function x) (.function x')
  | classBody : x.Like R K x' → Like R K (.classBody x) (.classBody x')
  | classMember : x.Like R K x' → Like R K (.classMember x) (.classMember x')
  | declarator : x.Like R K x' → Like R K (.declarator x) (.declarator x')
  | enumMember : x.Like R K x' → Like R K (.enumMember x) (.enumMember x')
  | declaration : x.Like R K x' → Like R K (.declaration x) (.declaration x')
  | stmt : x.Like R K x' → Like R K (.stmt x) (.stmt x')

def isMention : Node → Bool
  | mention _ => true
  | _ => false

structure LikeAll (R : Span → Span → Prop) (K : String → Prop) (ps ps' : List Node) : Prop where
  forall₂ : List.Forall₂ (Like R K) (ps.filter (!isMention ·)) (ps'.filter (!isMention ·))

theorem likeAll_of_mentions {ps ps' : List Node} (h : ∀ n ∈ ps, n.isMention)
    (h' : ∀ n ∈ ps', n.isMention) : LikeAll R K ps ps' := by
  constructor
  rw [List.filter_eq_nil_iff.mpr (by simpa using h), List.filter_eq_nil_iff.mpr (by simpa using h')]
  exact .nil

theorem isMention_ofUses (us : List Use) : ∀ n ∈ ofUses us, n.isMention := by
  simp [ofUses, isMention]

theorem isMention_ofNames (ns : List String) : ∀ n ∈ ofNames ns, n.isMention := by
  simp [ofNames, isMention]

theorem isMention_ofBases (bs : List InterfaceBase) : ∀ n ∈ ofBases bs, n.isMention := by
  intro n hn
  obtain ⟨b, -, hn⟩ := List.mem_flatMap.mp hn
  exact isMention_ofUses _ n hn

theorem likeAll_append {ps ps' qs qs' : List Node} (hp : LikeAll R K ps ps')
    (hq : LikeAll R K qs qs') : LikeAll R K (ps ++ qs) (ps' ++ qs') := by
  constructor
  rw [List.filter_append, List.filter_append]
  exact List.rel_append hp.forall₂ hq.forall₂

variable {n n' : Node}

theorem Like.not_isMention (h : Like R K n n') : n.isMention = false ∧ n'.isMention = false := by
  cases h <;> exact ⟨rfl, rfl⟩

theorem likeAll_cons {ps ps' : List Node} (h : Like R K n n') (hps : LikeAll R K ps ps') :
    LikeAll R K (n :: ps) (n' :: ps') := by
  constructor
  simpa [List.filter_cons, h.not_isMention] using ⟨h, hps.forall₂⟩

theorem likeAll_map {β : Type} {node : β → Node} {rel : β → β → Prop} {xs xs' : List β}
    (h : List.Forall₂ rel xs xs') (hnode : ∀ {x x'}, rel x x' → Like R K (node x) (node x')) :
    LikeAll R K (xs.map node) (xs'.map node) := by
  induction h with
  | nil => exact ⟨.nil⟩
  | cons h _ ih => exact likeAll_cons (hnode h) ih

theorem likeAll_option {e e' : Option Expr} (h : Option.Rel (Expr.Like R K) e e') :
    LikeAll R K (ofOption e) (ofOption e') := by
  cases h with
  | none => exact ⟨.nil⟩
  | some h => exact likeAll_cons (.expr h) ⟨.nil⟩

theorem Like.parts (h : Like R K n n') : LikeAll R K n.parts n'.parts := by
  cases h
  all_goals
    rename_i h
    cases h <;> simp only [Node.parts, ofExprs]
  repeat' first
    | exact ⟨.nil⟩
    | exact likeAll_of_mentions (isMention_ofNames _) (isMention_ofNames _)
    | exact likeAll_of_mentions (isMention_ofUses _) (isMention_ofUses _)
    | exact likeAll_of_mentions (isMention_ofBases _) (isMention_ofBases _)
    | exact likeAll_option ‹_›
    | exact likeAll_map ‹_› fun h => by constructor; exact h
    | exact likeAll_cons (by constructor; assumption) ⟨.nil⟩
    | apply likeAll_append
    | apply likeAll_cons (by constructor; assumption)
    | split

theorem taken_markup (h : Like R K n n') : n'.taken markupSearch = n.taken markupSearch := by
  cases h with
  | expr h => cases h <;> rfl
  | _ => rfl

theorem flatMap_gather_markup (ps : List Node) :
    ps.flatMap (gather markupSearch) =
      (ps.filter (!isMention ·)).flatMap (gather markupSearch) := by
  induction ps with
  | nil => rfl
  | cons n ps ih =>
    rw [List.flatMap_cons, ih, List.filter_cons]
    cases n <;> rfl

theorem flatMap_eq_of_forall₂ {α β : Type} {f : α → List β} {rel : α → α → Prop} {xs ys : List α}
    (h : List.Forall₂ rel xs ys) (hf : ∀ x ∈ xs, ∀ y, rel x y → f y = f x) :
    ys.flatMap f = xs.flatMap f := by
  induction h with
  | nil => rfl
  | cons h _ ih =>
    rw [List.flatMap_cons, List.flatMap_cons, hf _ List.mem_cons_self _ h,
      ih fun x hx => hf x (List.mem_cons_of_mem _ hx)]

theorem Like.gather_markup (h : Like R K n n') :
    n'.gather markupSearch = n.gather markupSearch := by
  induction n using induction_on_parts generalizing n' with
  | h n ih =>
    have htaken := taken_markup h
    cases hn : n.taken markupSearch with
    | some found =>
      rw [gather_of_taken _ hn, gather_of_taken _ (htaken.trans hn)]
    | none =>
      rw [gather_of_not_taken _ hn, gather_of_not_taken _ (htaken.trans hn),
        flatMap_gather_markup n.parts, flatMap_gather_markup n'.parts]
      exact flatMap_eq_of_forall₂ h.parts.forall₂ fun c hc _ h => ih c (List.mem_of_mem_filter hc) h

end Node

theorem Stmt.Like.hasMarkup_eq {ss ss' : List Stmt} (h : List.Forall₂ (Stmt.Like R K) ss ss') :
    Stmt.hasMarkup ss' = Stmt.hasMarkup ss := by
  have hgroup := Node.Like.gather_markup (.stmt (.group h))
  simp only [Node.gather, Stmt.gather] at hgroup
  rw [Stmt.hasMarkup, Stmt.hasMarkup, hgroup]

end PropContract.Syntax
