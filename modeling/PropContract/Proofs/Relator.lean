import Mathlib.Data.List.Forall2
import PropContract.Table

variable {α β γ δ : Type} {R : α → β → Prop} {S : γ → δ → Prop}

namespace Option.Rel

variable {a : Option α} {b : Option β}

section

variable (h : Option.Rel R a b)

include h

theorem map {f : α → γ} {g : β → δ} (hfg : ∀ x y, R x y → S (f x) (g y)) :
    Option.Rel S (a.map f) (b.map g) := by
  cases h with
  | none => exact .none
  | some h => exact .some (hfg _ _ h)

theorem bind {f : α → Option γ} {g : β → Option δ} (hfg : ∀ x y, R x y → Option.Rel S (f x) (g y)) :
    Option.Rel S (a.bind f) (b.bind g) := by
  cases h with
  | none => exact .none
  | some h => exact hfg _ _ h

theorem orElse {a' : Option α} {b' : Option β} (h' : Option.Rel R a' b') :
    Option.Rel R (a <|> a') (b <|> b') := by
  cases h with
  | none => exact h'
  | some h => exact .some h

theorem getD {x : α} {y : β} (hxy : R x y) : R (a.getD x) (b.getD y) := by
  cases h with
  | none => exact hxy
  | some h => exact h

theorem isSome_eq : b.isSome = a.isSome := by
  cases h <;> rfl

theorem map_eq {f : α → γ} {g : β → γ} (hfg : ∀ x y, R x y → g y = f x) : b.map g = a.map f := by
  cases h with
  | none => rfl
  | some h => exact congrArg Option.some (hfg _ _ h)

end

end Option.Rel

namespace List.Forall₂

variable {as : List α} {bs : List β} {f : α → Bool} {g : β → Bool}

section

variable (h : List.Forall₂ R as bs)

include h

theorem head? : Option.Rel R as.head? bs.head? := by
  cases h with
  | nil => exact .none
  | cons h _ => exact .some h

theorem tail : List.Forall₂ R as.tail bs.tail := by
  cases h with
  | nil => exact .nil
  | cons _ h => exact h

theorem getElem? (i : Nat) : Option.Rel R as[i]? bs[i]? := by
  induction h generalizing i with
  | nil => exact .none
  | cons h _ ih =>
    cases i with
    | zero => exact .some h
    | succ i => exact ih i

theorem isEmpty_eq : bs.isEmpty = as.isEmpty := by
  cases h <;> rfl

theorem any_eq (hfg : ∀ a b, R a b → g b = f a) : bs.any g = as.any f := by
  induction h with
  | nil => rfl
  | cons h _ ih => rw [List.any_cons, List.any_cons, hfg _ _ h, ih]

theorem all_eq (hfg : ∀ a b, R a b → g b = f a) : bs.all g = as.all f := by
  induction h with
  | nil => rfl
  | cons h _ ih => rw [List.all_cons, List.all_cons, hfg _ _ h, ih]

theorem map_eq {f : α → γ} {g : β → γ} (hfg : ∀ a b, R a b → g b = f a) : bs.map g = as.map f := by
  induction h with
  | nil => rfl
  | cons h _ ih => rw [List.map_cons, List.map_cons, hfg _ _ h, ih]

theorem filterMap_eq {f : α → Option γ} {g : β → Option γ} (hfg : ∀ a b, R a b → g b = f a) :
    bs.filterMap g = as.filterMap f := by
  induction h with
  | nil => rfl
  | cons h _ ih => rw [List.filterMap_cons, List.filterMap_cons, hfg _ _ h, ih]

theorem find? (hfg : ∀ a b, R a b → g b = f a) : Option.Rel R (as.find? f) (bs.find? g) := by
  induction h with
  | nil => exact .none
  | cons h _ ih =>
    rw [List.find?_cons, List.find?_cons, hfg _ _ h]
    split
    · exact .some h
    · exact ih

theorem findIdx?_eq (hfg : ∀ a b, R a b → g b = f a) : bs.findIdx? g = as.findIdx? f := by
  induction h with
  | nil => rfl
  | cons h _ ih => rw [List.findIdx?_cons, List.findIdx?_cons, hfg _ _ h, ih]

end

theorem set {R : α → α → Prop} (hR : ∀ a, R a a) {i : Nat} {a b : α} (ha : as[i]? = some a)
    (hab : R a b) : List.Forall₂ R as (as.set i b) := by
  induction as generalizing i with
  | nil => exact .nil
  | cons c as ih =>
    cases i with
    | zero =>
      cases ha
      exact .cons hab (List.forall₂_same.mpr fun c _ => hR c)
    | succ i => exact .cons (hR c) (ih ha)

section

variable (h : List.Forall₂ R as bs) {f : α → Option γ} {g : β → Option δ}
  (hfg : ∀ a b, R a b → Option.Rel S (f a) (g b))

include h hfg

theorem findSome? : Option.Rel S (as.findSome? f) (bs.findSome? g) := by
  induction h with
  | nil => exact .none
  | cons h _ ih =>
    rw [List.findSome?_cons, List.findSome?_cons]
    have hfound := hfg _ _ h
    revert hfound
    generalize f _ = found, g _ = found'
    rintro (h | h)
    · exact .some h
    · exact ih

theorem mapM : Option.Rel (List.Forall₂ S) (as.mapM f) (bs.mapM g) := by
  induction h with
  | nil => exact .some .nil
  | cons h _ ih =>
    rw [List.mapM_cons, List.mapM_cons]
    refine (hfg _ _ h).bind fun c d hcd => ih.bind fun cs ds hcds => ?_
    exact .some (.cons hcd hcds)

end

theorem mapM_eq {m : Type → Type} [Monad m] [LawfulMonad m] (h : List.Forall₂ R as bs) {f : α → m γ}
    {g : β → m γ} (hfg : ∀ a b, R a b → g b = f a) : bs.mapM g = as.mapM f := by
  induction h with
  | nil => rfl
  | cons h _ ih => rw [List.mapM_cons, List.mapM_cons, hfg _ _ h, ih]

end List.Forall₂

namespace PropContract.Table

def Rel (R : α → β → Prop) : Table α → Table β → Prop :=
  List.Forall₂ fun e e' => e'.1 = e.1 ∧ R e.2 e'.2

namespace Rel

variable {t : Table α} {t' : Table β}

theorem get? (h : Rel R t t') (name : String) : Option.Rel R (t.get? name) (t'.get? name) := by
  induction h with
  | nil => exact .none
  | cons h _ ih =>
    rw [Table.get?, Table.get?, h.1]
    split
    · exact .some h.2
    · exact ih

theorem contains_eq (h : Rel R t t') (name : String) : t'.contains name = t.contains name :=
  (h.get? name).isSome_eq

theorem put (h : Rel R t t') (name : String) {a : α} {b : β} (hab : R a b) :
    Rel R (t.put name a) (t'.put name b) := by
  induction h with
  | nil => exact .cons ⟨rfl, hab⟩ .nil
  | cons he hs ih =>
    rw [Table.put, Table.put, he.1]
    split
    · exact .cons ⟨rfl, hab⟩ hs
    · exact .cons ⟨rfl, he.2⟩ ih

theorem values (h : Rel R t t') : List.Forall₂ R t.values t'.values :=
  List.rel_map (fun _ _ h => h.2) h

end Rel

end PropContract.Table
