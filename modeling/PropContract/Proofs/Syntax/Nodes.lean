import Mathlib.Data.List.Basic
import Mathlib.Logic.Relation
import PropContract.Syntax.Walk

namespace PropContract.Syntax

open Relation List

inductive Node where
  | mention (u : Use)
  | expr (e : Expr)
  | element (e : Element)
  | propertyKey (k : PropertyKey)
  | property (p : Property)
  | pattern (p : Pattern)
  | patternMember (m : PatternMember)
  | function (f : Function)
  | classBody (c : ClassBody)
  | classMember (m : ClassMember)
  | declarator (d : Declarator)
  | enumMember (m : EnumMember)
  | declaration (d : Declaration)
  | stmt (t : Stmt)

namespace Node

def ofNames (names : List String) : List Node :=
  names.map fun n => mention (.whole n)

def ofUses (uses : List Use) : List Node :=
  uses.map mention

def ofBases (bases : List InterfaceBase) : List Node :=
  bases.flatMap fun b => ofUses (b.uses ++ TypeExpr.usesAll b.args)

def ofExprs (es : List Expr) : List Node :=
  es.map expr

def ofOption (e : Option Expr) : List Node :=
  ofExprs e.toList

def parts : Node → List Node
  | .mention _ => []
  | .expr e =>
    match e with
    | .name n => ofNames [n]
    | .string _ | .number _ | .boolean _ | .null => []
    | .template _ es | .operation es | .sequence es | .jsx es => ofExprs es
    | .paren e | .member e _ | .privateMember e | .chain e | .negate e | .unary e | .await e
    | .spread e => [.expr e]
    | .array elements => elements.map element
    | .object properties => properties.map property
    | .function f | .arrow f => [.function f]
    | .class c => [.classBody c]
    | .index a b | .assign _ a b | .binary _ a b => [.expr a, .expr b]
    | .superMember key => ofOption key
    | .call callee types args =>
      .expr callee :: ofUses (TypeExpr.usesAll types) ++ ofExprs args
    | .cast e type => .expr e :: ofUses type.uses
    | .asserted types e => ofUses (TypeExpr.usesAll types) ++ [.expr e]
    | .applied e types => .expr e :: ofUses (TypeExpr.usesAll types)
    | .group types es => ofUses (TypeExpr.usesAll types) ++ ofExprs es
  | .element e =>
    match e with
    | .hole => []
    | .item _ e | .spread _ _ e _ => [.expr e]
  | .propertyKey k =>
    match k with
    | .named _ | .hidden => []
    | .computed e => [.expr e]
  | .property p =>
    match p with
    | .shorthand _ name => ofNames [name]
    | .keyed _ key _ value => [.propertyKey key, .expr value]
    | .method _ key f => [.propertyKey key, .function f]
    | .spread _ _ e _ => [.expr e]
    | .defaulted _ name value => ofNames [name] ++ [.expr value]
  | .pattern p =>
    match p with
    | .name n type => ofNames [n] ++ ofUses (TypeExpr.usesOf type)
    | .object members type => members.map patternMember ++ ofUses (TypeExpr.usesOf type)
    | .array elements type => elements.map pattern ++ ofUses (TypeExpr.usesOf type)
    | .assign target value => [.pattern target, .expr value]
    | .rest target type => .pattern target :: ofUses (TypeExpr.usesOf type)
    | .expr e => [.expr e]
  | .patternMember m =>
    match m with
    | .keyed key value => [.propertyKey key, .pattern value]
    | .shorthand name default => ofNames [name] ++ ofOption default
    | .rest target => [.pattern target]
  | .function (.mk names types decorators params result _ body) =>
    ofNames names ++ ofUses (TypeExpr.usesAll types) ++ ofExprs decorators ++
      params.map pattern ++ ofUses (TypeExpr.usesOf result) ++ body.map stmt
  | .classBody (.mk names types decorators base baseArgs implemented members) =>
    ofNames names ++ ofUses (TypeExpr.usesAll types) ++ ofExprs decorators ++ ofOption base ++
      ofUses (TypeExpr.usesAll baseArgs) ++ ofBases implemented ++ members.map classMember
  | .classMember m =>
    match m with
    | .property _ _ key type value decorators =>
      ofExprs decorators ++ [.propertyKey key] ++ ofUses (TypeExpr.usesOf type) ++ ofOption value
    | .method key f decorators => ofExprs decorators ++ [.propertyKey key, .function f]
    | .block body => body.map stmt
    | .hidden names types values =>
      ofNames names ++ ofUses (TypeExpr.usesAll types) ++ ofExprs values
  | .declarator (.mk target init) => .pattern target :: ofOption init
  | .enumMember (.mk name isQuoted init) =>
    (if isQuoted then [] else ofNames [name]) ++ ofOption init
  | .declaration d =>
    match d with
    | .interface i =>
      ofNames [i.name] ++ ofUses (i.params.flatMap TypeParam.uses) ++ ofBases i.bases ++
        ofUses (TypeMember.usesAll i.members)
    | .typeAlias a =>
      ofNames [a.name] ++ ofUses (a.params.flatMap TypeParam.uses) ++ ofUses a.type.uses
    | .enum name members => ofNames [name] ++ members.map enumMember
    | .class name c => ofNames [name] ++ [.classBody c]
    | .function name _ f => ofNames [name] ++ [.function f]
    | .vars _ declarators => declarators.map declarator
    | .namespace path body => ofNames path ++ body.map stmt
  | .stmt t =>
    match t with
    | .expr e => [.expr e]
    | .declaration d => [.declaration d]
    | .binding p => [.pattern p]
    | .group ts => ts.map stmt

section Gather

variable {α : Type} (s : Search α)

def gather : Node → List α
  | mention u => s.use u
  | expr e => e.gather s
  | element e => e.gather s
  | propertyKey k => k.gather s
  | property p => p.gather s
  | pattern p => p.gather s
  | patternMember m => m.gather s
  | function f => f.gather s
  | classBody c => c.gather s
  | classMember m => m.gather s
  | declarator d => d.gather s
  | enumMember m => m.gather s
  | declaration d => d.gather s
  | stmt t => t.gather s

def taken : Node → Option (List α)
  | mention u => some (s.use u)
  | expr e => s.expr e
  | declarator d => s.declarator d
  | _ => none

theorem eq_flatMap_gather {β : Type} (node : β → Node) {all : List β → List α}
    (hnil : all [] = []) (hcons : ∀ x xs, all (x :: xs) = gather s (node x) ++ all xs)
    (xs : List β) : all xs = (xs.map node).flatMap (gather s) := by
  induction xs with
  | nil => exact hnil
  | cons x xs ih => rw [hcons, ih, map_cons, flatMap_cons]

theorem gatherAll_expr (es : List Expr) :
    Expr.gatherAll s es = (ofExprs es).flatMap (gather s) :=
  eq_flatMap_gather s expr rfl (fun _ _ => rfl) es

theorem gatherAll_element (es : List Element) :
    Element.gatherAll s es = (es.map element).flatMap (gather s) :=
  eq_flatMap_gather s element rfl (fun _ _ => rfl) es

theorem gatherAll_property (ps : List Property) :
    Property.gatherAll s ps = (ps.map property).flatMap (gather s) :=
  eq_flatMap_gather s property rfl (fun _ _ => rfl) ps

theorem gatherAll_pattern (ps : List Pattern) :
    Pattern.gatherAll s ps = (ps.map pattern).flatMap (gather s) :=
  eq_flatMap_gather s pattern rfl (fun _ _ => rfl) ps

theorem gatherAll_patternMember (ms : List PatternMember) :
    PatternMember.gatherAll s ms = (ms.map patternMember).flatMap (gather s) :=
  eq_flatMap_gather s patternMember rfl (fun _ _ => rfl) ms

theorem gatherAll_classMember (ms : List ClassMember) :
    ClassMember.gatherAll s ms = (ms.map classMember).flatMap (gather s) :=
  eq_flatMap_gather s classMember rfl (fun _ _ => rfl) ms

theorem gatherAll_declarator (ds : List Declarator) :
    Declarator.gatherAll s ds = (ds.map declarator).flatMap (gather s) :=
  eq_flatMap_gather s declarator rfl (fun _ _ => rfl) ds

theorem gatherAll_enumMember (ms : List EnumMember) :
    EnumMember.gatherAll s ms = (ms.map enumMember).flatMap (gather s) :=
  eq_flatMap_gather s enumMember rfl (fun _ _ => rfl) ms

theorem gatherAll_stmt (ts : List Stmt) :
    Stmt.gatherAll s ts = (ts.map stmt).flatMap (gather s) :=
  eq_flatMap_gather s stmt rfl (fun _ _ => rfl) ts

theorem gatherOption_expr (e : Option Expr) :
    Expr.gatherOption s e = (ofOption e).flatMap (gather s) := by
  cases e with
  | none => rfl
  | some e => exact (append_nil _).symm

theorem names_eq (ns : List String) : s.names ns = (ofNames ns).flatMap (gather s) := by
  rw [ofNames, flatMap_map]
  rfl

theorem flatMap_use (us : List Use) : us.flatMap s.use = (ofUses us).flatMap (gather s) := by
  rw [ofUses, flatMap_map]
  rfl

theorem ofBases_eq (bs : List InterfaceBase) :
    s.ofBases bs = (ofBases bs).flatMap (gather s) := by
  rw [ofBases, flatMap_assoc]
  simp only [← flatMap_use, flatMap_append]
  rfl

theorem name_eq (n : String) : s.name n = (ofNames [n]).flatMap (gather s) :=
  (append_nil _).symm

theorem gather_of_taken {n : Node} {found : List α} (h : n.taken s = some found) :
    n.gather s = found := by
  cases n with
  | mention u => exact Option.some.inj h
  | expr e =>
    change s.expr e = some found at h
    cases e <;> simp only [gather, Expr.gather, h, Option.getD_some]
  | declarator d =>
    change s.declarator d = some found at h
    cases d
    simp only [gather, Declarator.gather, h]
  | _ => cases h

theorem gather_of_not_taken {n : Node} (h : n.taken s = none) :
    n.gather s = n.parts.flatMap (gather s) := by
  cases n with
  | mention u => cases h
  | expr e =>
    change s.expr e = none at h
    cases e <;> simp only [gather, Expr.gather, h, Option.getD_none, parts, gatherAll_expr,
      gatherAll_element, gatherAll_property, gatherOption_expr, name_eq, Search.ofTypes,
      Search.ofType, flatMap_use, flatMap_append, flatMap_cons, flatMap_nil,
      append_nil, append_assoc, cons_append]
  | element e => cases e <;> simp [gather, Element.gather, parts]
  | propertyKey k => cases k <;> simp [gather, PropertyKey.gather, parts]
  | property p => cases p <;> simp [gather, Property.gather, parts, name_eq]
  | pattern p =>
    cases p <;> simp [gather, Pattern.gather, parts, name_eq, Search.ofType?, flatMap_use,
      gatherAll_patternMember, gatherAll_pattern]
  | patternMember m =>
    cases m <;> simp [gather, PatternMember.gather, parts, name_eq, gatherOption_expr]
  | function f =>
    cases f
    simp [gather, Function.gather, parts, names_eq, Search.ofTypes, Search.ofType?, flatMap_use,
      gatherAll_expr, gatherAll_pattern, gatherAll_stmt]
  | classBody c =>
    cases c
    simp [gather, ClassBody.gather, parts, names_eq, Search.ofTypes, flatMap_use, ofBases_eq,
      gatherAll_expr, gatherOption_expr, gatherAll_classMember]
  | classMember m =>
    cases m <;> simp [gather, ClassMember.gather, parts, names_eq, Search.ofTypes, Search.ofType?,
      flatMap_use, gatherAll_expr, gatherOption_expr, gatherAll_stmt]
  | declarator d =>
    change s.declarator d = none at h
    cases d
    simp [gather, Declarator.gather, h, parts, gatherOption_expr]
  | enumMember m =>
    obtain ⟨name, isQuoted, init⟩ := m
    cases isQuoted <;> simp [gather, EnumMember.gather, parts, name_eq, gatherOption_expr]
  | declaration d =>
    cases d <;> simp [gather, Declaration.gather, parts, name_eq, names_eq, Search.ofTypeParams,
      Search.ofType, flatMap_use, ofBases_eq, gatherAll_enumMember, gatherAll_declarator,
      gatherAll_stmt]
  | stmt t => cases t <;> simp [gather, Stmt.gather, parts, gatherAll_stmt]

end Gather

def Part (n c : Node) : Prop :=
  c ∈ n.parts

def Inside (m n : Node) : Prop :=
  ReflTransGen Part n m

noncomputable def size : Node → Nat
  | mention _ => 0
  | expr e => sizeOf e
  | element e => sizeOf e
  | propertyKey k => sizeOf k
  | property p => sizeOf p
  | pattern p => sizeOf p
  | patternMember m => sizeOf m
  | function f => sizeOf f
  | classBody c => sizeOf c
  | classMember m => sizeOf m
  | declarator d => sizeOf d
  | enumMember m => sizeOf m
  | declaration d => sizeOf d
  | stmt t => sizeOf t

structure Fit (k : Nat) (ps : List Node) : Prop where
  size_lt : ∀ c ∈ ps, c.size < k

section Fit

variable {k : Nat} {ps qs : List Node}

theorem fit_nil : Fit k [] :=
  ⟨forall_mem_nil _⟩

theorem fit_cons {p : Node} (hp : p.size < k) (hps : Fit k ps) : Fit k (p :: ps) :=
  ⟨forall_mem_cons.mpr ⟨hp, hps.size_lt⟩⟩

theorem fit_append (hps : Fit k ps) (hqs : Fit k qs) : Fit k (ps ++ qs) :=
  ⟨forall_mem_append.mpr ⟨hps.size_lt, hqs.size_lt⟩⟩

theorem fit_map {β : Type} [SizeOf β] {node : β → Node} {xs : List β} (hxs : sizeOf xs < k)
    (hsize : ∀ x, (node x).size = sizeOf x := by exact fun _ => rfl) : Fit k (xs.map node) := by
  refine ⟨fun c hc => ?_⟩
  obtain ⟨x, hx, rfl⟩ := mem_map.mp hc
  rw [hsize]
  exact Nat.lt_trans (sizeOf_lt_of_mem hx) hxs

theorem fit_exprs {es : List Expr} (hes : sizeOf es < k) : Fit k (ofExprs es) :=
  fit_map hes

theorem fit_option {e : Option Expr} (he : sizeOf e < k) : Fit k (ofOption e) := by
  cases e with
  | none => exact fit_nil
  | some e =>
    refine fit_cons (Nat.lt_trans ?_ he) fit_nil
    simp [size]

theorem fit_uses (us : List Use) (hk : 0 < k) : Fit k (ofUses us) := by
  refine ⟨fun c hc => ?_⟩
  obtain ⟨u, -, rfl⟩ := mem_map.mp hc
  exact hk

theorem fit_names (ns : List String) (hk : 0 < k) : Fit k (ofNames ns) := by
  refine ⟨fun c hc => ?_⟩
  obtain ⟨n, -, rfl⟩ := mem_map.mp hc
  exact hk

theorem fit_bases (bs : List InterfaceBase) (hk : 0 < k) : Fit k (ofBases bs) := by
  refine ⟨fun c hc => ?_⟩
  obtain ⟨b, -, hc⟩ := mem_flatMap.mp hc
  exact (fit_uses _ hk).size_lt c hc

end Fit

theorem fit_parts (n : Node) : Fit n.size n.parts := by
  cases n
  case mention u => exact fit_nil
  case expr x | element x | propertyKey x | property x | pattern x | patternMember x | function x |
      classBody x | classMember x | declarator x | enumMember x | declaration x | stmt x =>
    cases x <;> simp only [parts, size]
    repeat' first
      | exact fit_nil
      | apply fit_names
      | apply fit_uses
      | apply fit_bases
      | apply fit_option
      | apply fit_exprs
      | apply fit_map
      | apply fit_append
      | apply fit_cons
      | split
    all_goals simp [size]
    all_goals omega

theorem induction_on_parts {P : Node → Prop} (h : ∀ n, (∀ c, Part n c → P c) → P n) (n : Node) :
    P n :=
  h n fun c _ => induction_on_parts h c
termination_by n.size
decreasing_by exact (fit_parts n).size_lt c ‹_›

def Onward {α : Type} (s : Search α) (n c : Node) : Prop :=
  n.taken s = none ∧ Part n c

section Gather

variable {α : Type} {s : Search α}

theorem mem_gather_of_onward {n c : Node} (h : Onward s n c) {x : α} (hx : x ∈ c.gather s) :
    x ∈ n.gather s := by
  rw [gather_of_not_taken s h.1]
  exact mem_flatMap.mpr ⟨c, h.2, hx⟩

theorem exists_taken_of_mem_gather {n : Node} {x : α} (hx : x ∈ n.gather s) :
    ∃ m found, ReflTransGen (Onward s) n m ∧ m.taken s = some found ∧ x ∈ found := by
  induction n using induction_on_parts with
  | h n ih =>
    cases hn : n.taken s with
    | some found => exact ⟨n, found, .refl, hn, gather_of_taken s hn ▸ hx⟩
    | none =>
      rw [gather_of_not_taken s hn] at hx
      obtain ⟨c, hc, hx⟩ := mem_flatMap.mp hx
      obtain ⟨m, found, hm, htaken, hx⟩ := ih c hc hx
      exact ⟨m, found, .head ⟨hn, hc⟩ hm, htaken, hx⟩

end Gather

end Node

end PropContract.Syntax
