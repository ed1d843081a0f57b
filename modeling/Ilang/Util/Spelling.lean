import Mathlib.Logic.Relation
import Mathlib.Tactic

/-!
# Texts that are spelled the same

Some letters of a text are spelled by other letters, which spell themselves. Two texts have one spelling exactly if one can be turned
into the other by spelling letters and by reading letters back.
-/

namespace Ilang

variable {α : Type*} (spell : α → List α)

/-- The text with all its letters spelled. -/
def spelled (s : List α) : List α := s.flatMap spell

/-- One letter is spelled. -/
inductive Respells : List α → List α → Prop
  | letter (a : List α) (c : α) (b : List α) : Respells (a ++ c :: b) (a ++ spell c ++ b)

variable {spell}

theorem spelled_append (s t : List α) : spelled spell (s ++ t) = spelled spell s ++ spelled spell t := List.flatMap_append

theorem spelled_of_plain {s : List α} (h : ∀ c ∈ s, spell c = [c]) : spelled spell s = s := by
  induction s with
  | nil => rfl
  | cons c s ih =>
    rw [spelled, List.flatMap_cons, h c List.mem_cons_self, ← spelled, ih fun d hd => h d (List.mem_cons_of_mem c hd)]
    rfl

theorem Respells.append_left {s t : List α} (h : Respells spell s t) (a : List α) : Respells spell (a ++ s) (a ++ t) := by
  obtain ⟨a', c, b⟩ := h
  rw [← List.append_assoc, ← List.append_assoc, ← List.append_assoc]
  exact .letter (a ++ a') c b

theorem eqvGen_append_left {s t : List α} (h : Relation.EqvGen (Respells spell) s t) (a : List α) :
    Relation.EqvGen (Respells spell) (a ++ s) (a ++ t) := by
  induction h with
  | rel s t h => exact .rel _ _ (h.append_left a)
  | refl s => exact .refl _
  | symm s t _ ih => exact .symm _ _ ih
  | trans s t u _ _ ih₁ ih₂ => exact .trans _ _ _ ih₁ ih₂

theorem eqvGen_spelled (s : List α) : Relation.EqvGen (Respells spell) s (spelled spell s) := by
  induction s with
  | nil => exact .refl _
  | cons c s ih =>
    have hletter : Respells spell (c :: s) (spell c ++ s) := .letter [] c s
    exact .trans _ _ _ (.rel _ _ hletter) (eqvGen_append_left ih (spell c))

theorem Respells.spelled_eq (hspell : ∀ c, ∀ d ∈ spell c, spell d = [d]) {s t : List α} (h : Respells spell s t) :
    spelled spell s = spelled spell t := by
  obtain ⟨a, c, b⟩ := h
  have hc : spelled spell (spell c) = spell c := spelled_of_plain (hspell c)
  rw [spelled_append, spelled_append, spelled_append, hc, List.append_assoc]
  rfl

theorem spelled_eq_iff (hspell : ∀ c, ∀ d ∈ spell c, spell d = [d]) (s t : List α) :
    spelled spell s = spelled spell t ↔ Relation.EqvGen (Respells spell) s t := by
  constructor
  · intro h
    have hs : Relation.EqvGen (Respells spell) s (spelled spell s) := eqvGen_spelled s
    rw [h] at hs
    exact .trans _ _ _ hs (.symm _ _ (eqvGen_spelled t))
  · intro h
    induction h with
    | rel s t h => exact h.spelled_eq hspell
    | refl s => rfl
    | symm s t _ ih => exact ih.symm
    | trans s t u _ _ ih₁ ih₂ => exact ih₁.trans ih₂

end Ilang
