import Ilang.Target.IlaSimUpdate

/-!
# When the update functions of the older simulator are exact
-/

namespace Ilang

open Smt

namespace IlaSim

section Declaration

variable {ν : Valuation} {σ : Ilator.Maps ν} {heap : Nat → Node} {a d : Nat} {n : Node} {g g' : Gen}

/-! ### The function of a choice -/

/-- The functions written so far are those of the choices that are defined. -/
def Gen.Inv (g : Gen) : Prop := ∀ f ∈ g.iteFuncs, f.id ∈ g.definedStoreIteSet

section Branches

variable {p : Nat} {c t e : Node} {g₁ g₂ : Gen}

end Branches

end Declaration

/-! ### Runs of the generator -/

/-- What functions of some expressions do to the generator: a choice is defined or called only if it is in one of them. -/
structure Gen.Extends (A : Set Nat) (g g' : Gen) : Prop where
  storeIte : ∀ q ∈ g'.storeIteSet, q ∈ g.storeIteSet ∨ q ∈ A
  defined : ∀ q ∈ g'.definedStoreIteSet, q ∈ g.definedStoreIteSet ∨ q ∈ A
  funcs : g.iteFuncs <+: g'.iteFuncs
  inv : g.Inv → g'.Inv

namespace Gen.Extends

variable {A B : Set Nat} {g g' g₁ : Gen}

theorem refl (g : Gen) : Gen.Extends A g g := ⟨fun _ hq => .inl hq, fun _ hq => .inl hq, List.prefix_rfl, id⟩

theorem trans (h : Gen.Extends A g g₁) (h' : Gen.Extends A g₁ g') : Gen.Extends A g g' where
  storeIte q hq := (h'.storeIte q hq).elim (h.storeIte q) .inr
  defined q hq := (h'.defined q hq).elim (h.defined q) .inr
  funcs := h.funcs.trans h'.funcs
  inv hinv := h'.inv (h.inv hinv)

theorem mono (h : Gen.Extends A g g') (hAB : A ⊆ B) : Gen.Extends B g g' where
  storeIte q hq := (h.storeIte q hq).imp_right (@hAB q)
  defined q hq := (h.defined q hq).imp_right (@hAB q)
  funcs := h.funcs
  inv := h.inv

end Gen.Extends

/-- The applications in the expressions of a function. -/
def Step.apps (s : Step) : Set Nat := {q | ∃ r ∈ s.roots, q ∈ IlaSim.apps r}

section Copy

variable {a d : Nat}

/-- An entry of the map, as an address and a word. -/
def word (a d : Nat) (p : Int × Int) : BitVec a × BitVec d := (BitVec.ofInt a p.1, BitVec.ofInt d p.2)

/-- A member holds a value. -/
def Holds (u : ScVal) : Value → Prop
  | .bool b => u = .bool b
  | .bv w x => u = .big w x
  | .mem a d c => (∃ obj, u = .array obj a d c) ∨ ∃ v f, u = .map v a d f ∧ ∀ i, (f i).getD 0 = c i

end Copy

/-! ### Update functions -/

section Update

variable {ν : Valuation} {σ : Ilator.Maps ν} {heap : Nat → Node}

end Update

/-! ### A choice of two updates -/

/-- A condition. -/
def enable : Var := ⟨1, "c", some "c", .bool⟩

end IlaSim

end Ilang
