import PropContract.Proofs.Table
import PropContract.Resolver.Props

namespace PropContract.Resolver

open Syntax List

def unionLeaves (p : Project) (types : List Ty) : List Ty :=
  (types.flatMap (flatten p)).filter fun t => !isNullish t

def Names (p : Project) (t : Ty) (d : DeclRef) (args : List Ty) : Prop :=
  ∃ path types env, t = .written (.reference path types) env ∧ lookup p env path = .decl d ∧
    args = env.all types

/-- The contents of a declaration under some arguments: what it is an alias of, and the types of
its members. -/
inductive Contains (p : Project) (members : MembersOf) (E : Expanding) (d : DeclRef)
    (args : List Ty) : Ty → Prop where
  | aliased : aliasOf? p d = some a →
      Contains p members E d args (.written a.type ((Env.file d.file).bindParams a.params args))
  | member :
      declMembers p (members E) (pathMembers p members (declaredCount p + 1) E) d args = some ms →
      m ∈ ms → Contains p members E d args m.type

/-- While the types of `E` are being expanded, the shape of a type asks for the shape of another
one. The name of a declaration is taken to be expanded, even where it would be cut. -/
inductive Asks (p : Project) (members : MembersOf) (E : Expanding) :
    Ty → Expanding → Ty → Prop where
  | branch : u ∈ unionLeaves p types → Asks p members E (.union types) E u
  | param : lookup p env path = .param u →
      Asks p members E (.written (.reference path types) env) E u
  | content : Names p t d args → Contains p members (d :: E) d args u →
      Asks p members E t (d :: E) u
  | arrayElement : lookup p env path = .unknown name → name = "Array" ∨ name = "ReadonlyArray" →
      (env.all types).head? = some u → Asks p members E (.written (.reference path types) env) E u
  | nonNull : lookup p env path = .unknown "NonNullable" → (env.all types).head? = some t →
      u ∈ unionLeaves p [t] → Asks p members E (.written (.reference path types) env) E u
  | utility : lookup p env path = .unknown name →
      utilityMembers p (members E) name (env.all types) = some ms → m ∈ ms →
      Asks p members E (.written (.reference path types) env) E m.type
  | member : m ∈ literalMembers p env ms → Asks p members E (.written (.object ms) env) E m.type
  | array : Asks p members E (.written (.array t) env) E (.written t env)
  | rest : Asks p members E (.written (.rest t) env) E (.written t env)
  | optional : Asks p members E (.written (.optional t) env) E (.written t env)
  | paren : Asks p members E (.written (.paren t) env) E (.written t env)
  | readonly : Asks p members E (.written (.operator .readonly t) env) E (.written t env)
  | element : u ∈ unionLeaves p (env.all types) →
      Asks p members E (.written (.tuple labels types) env) E u
  | writtenBranch : u ∈ unionLeaves p (env.all types) →
      Asks p members E (.written (.union types) env) E u
  | part : u ∈ env.all types → Asks p members E (.written (.intersection types) env) E u
  | partMember : t ∈ env.all types → members E t = some ms → m ∈ ms →
      Asks p members E (.written (.intersection types) env) E m.type
  | indexed : indexed? p (members E) (.written object env) (.written index env) = some u →
      Asks p members E (.written (.indexed object index) env) E u
  | mapped : mappedMembers p (members E) env param keyType mark value = some ms → m ∈ ms →
      Asks p members E (.written (.mapped param keyType rename mark value) env) E m.type

theorem Asks.cases_expanding {p : Project} {members : MembersOf} {E E' : Expanding} {t u : Ty}
    (h : Asks p members E t E' u) :
    E' = E ∨ ∃ d args, E' = d :: E ∧ Names p t d args ∧ Contains p members E' d args u := by
  cases h with
  | content hn hc => exact .inr ⟨_, _, rfl, hn, hc⟩
  | _ => exact .inl rfl

inductive IsAbout (s : Setting) : Symbol → DeclRef → Prop where
  | declared : IsAbout s (.declared d) d
  | named : s.project.resolveName file name = some (.declared d) → IsAbout s (.named file name) d
  | inline : declaredType? s file type = some d → IsAbout s (.inline file type) d

/-- A question asks for the shapes of the contents of a declared type, while that is being
expanded, or for those of the members of the type that it writes out. -/
inductive Asked (s : Setting) : Symbol → Expanding → Ty → Prop where
  | content : IsAbout s symbol d →
      Contains s.project (membersWithin s.project stepLimit) [d] d [] u → Asked s symbol [d] u
  | member : declaredType? s file type = none →
      membersWithin s.project stepLimit [] (.written type (.file file)) = some ms → m ∈ ms →
      Asked s (.inline file type) [] m.type

theorem mem_values_merge {table : Table Member} {ms : List Member} {m : Member}
    (h : m ∈ (merge table ms).values) : m ∈ table.values ∨ m ∈ ms := by
  induction ms generalizing table with
  | nil => exact .inl h
  | cons first ms ih =>
    rcases ih h with h | h
    · obtain ⟨entry, he, rfl⟩ := mem_map.mp h
      rcases Table.mem_of_mem_put he with he | rfl
      · exact .inl (mem_map.mpr ⟨entry, he, rfl⟩)
      · exact .inr mem_cons_self
    · exact .inr (mem_cons_of_mem first h)

end PropContract.Resolver
