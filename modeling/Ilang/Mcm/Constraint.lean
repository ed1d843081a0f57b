import Ilang.Target.Z3Adapter

/-!
# Constraints on traces

The constraints that a memory model collects are over two things: the states at the steps of the trace, which are constants of
the solver, one for each state and step, and the times of the events of the trace, which are integers. An instruction event and
the event at which its writes become global are different events with times of their own.
-/

namespace Ilang

namespace Mcm

open Smt

/-- An event of a trace: the initial one, an instruction of a core by its position in the program, the global facet of its
writes, and the one on which the final property is read. -/
inductive Ev where
  | init
  | inst (core pos : Nat)
  | facet (core pos : Nat)
  | final
  deriving DecidableEq, Repr

/-- The time of an event. The initial one has the fixed time 0. -/
def Ev.time (T : Ev → Int) : Ev → Int
  | .init => 0
  | e => T e

inductive ZForm where
  | true
  | false
  | and (a b : ZForm)
  | or (a b : ZForm)
  | implies (a b : ZForm)
  | hb (l r : Ev)
  | sync (l r : Ev)
  | positive (e : Ev)
  | eq (l r : Term)
  | holds (t : Term)

namespace ZForm

/-- Satisfaction by a model of the states and times of the events. -/
def Sat (M : Model) (T : Ev → Int) : ZForm → Prop
  | .true => True
  | .false => False
  | .and a b => a.Sat M T ∧ b.Sat M T
  | .or a b => a.Sat M T ∨ b.Sat M T
  | .implies a b => a.Sat M T → b.Sat M T
  | .hb l r => l.time T < r.time T
  | .sync l r => l.time T = r.time T
  | .positive e => 0 < e.time T
  | .eq l r => ∃ v, l.eval M = some v ∧ r.eval M = some v
  | .holds t => t.eval M = some (.bool Bool.true)

instance decidableSat (M : Model) (T : Ev → Int) : (f : ZForm) → Decidable (f.Sat M T)
  | .true => .isTrue trivial
  | .false => .isFalse id
  | .and a b => @instDecidableAnd _ _ (decidableSat M T a) (decidableSat M T b)
  | .or a b => @instDecidableOr _ _ (decidableSat M T a) (decidableSat M T b)
  | .implies a b => @instDecidableForall _ _ (decidableSat M T a) (decidableSat M T b)
  | .hb l r => inferInstanceAs (Decidable (l.time T < r.time T))
  | .sync l r => inferInstanceAs (Decidable (l.time T = r.time T))
  | .positive e => inferInstanceAs (Decidable (0 < e.time T))
  | .eq l r => decidable_of_iff (Value.isTrue ((l.eq r).eval M)) ((Value.isTrue_iff _).trans Term.sat_eq)
  | .holds t => decidable_of_iff (Value.isTrue (t.eval M)) (Value.isTrue_iff _)

/-- The events whose times a formula compares. -/
def events : ZForm → List Ev
  | .true | .false | .eq _ _ | .holds _ => []
  | .and a b | .or a b | .implies a b => a.events ++ b.events
  | .hb l r | .sync l r => [l, r]
  | .positive e => [e]

/-- `Z3ForallList`. -/
def forallList : List ZForm → ZForm
  | [] => .true
  | f :: fs => fs.foldl .and f

/-- `Z3ExistsList`. -/
def existsList : List ZForm → ZForm
  | [] => .false
  | f :: fs => fs.foldl .or f

section Sat

variable {M : Model} {T : Ev → Int}

@[simp] theorem sat_true : Sat M T .true ↔ True := Iff.rfl

@[simp] theorem sat_false : Sat M T .false ↔ False := Iff.rfl

@[simp] theorem sat_and (a b : ZForm) : Sat M T (.and a b) ↔ a.Sat M T ∧ b.Sat M T := Iff.rfl

@[simp] theorem sat_or (a b : ZForm) : Sat M T (.or a b) ↔ a.Sat M T ∨ b.Sat M T := Iff.rfl

@[simp] theorem sat_implies (a b : ZForm) : Sat M T (.implies a b) ↔ (a.Sat M T → b.Sat M T) := Iff.rfl

@[simp] theorem sat_hb (l r : Ev) : Sat M T (.hb l r) ↔ l.time T < r.time T := Iff.rfl

theorem sat_foldl_and (fs : List ZForm) (f : ZForm) : (fs.foldl .and f).Sat M T ↔ f.Sat M T ∧ ∀ g ∈ fs, g.Sat M T := by
  induction fs generalizing f with
  | nil => simp
  | cons g fs ih => rw [List.foldl_cons, ih, sat_and, List.forall_mem_cons, and_assoc]

theorem sat_foldl_or (fs : List ZForm) (f : ZForm) : (fs.foldl .or f).Sat M T ↔ f.Sat M T ∨ ∃ g ∈ fs, g.Sat M T := by
  induction fs generalizing f with
  | nil => simp
  | cons g fs ih => rw [List.foldl_cons, ih, sat_or, List.exists_mem_cons_iff, or_assoc]

theorem sat_forallList (fs : List ZForm) : (forallList fs).Sat M T ↔ ∀ f ∈ fs, f.Sat M T := by
  cases fs with
  | nil => simp [forallList]
  | cons f fs => rw [forallList, sat_foldl_and, List.forall_mem_cons]

theorem sat_existsList (fs : List ZForm) : (existsList fs).Sat M T ↔ ∃ f ∈ fs, f.Sat M T := by
  cases fs with
  | nil => simp [existsList]
  | cons f fs => rw [existsList, sat_foldl_or, List.exists_mem_cons_iff]

theorem sat_forallList_map {α : Type} (l : List α) (g : α → ZForm) :
    (forallList (l.map g)).Sat M T ↔ ∀ a ∈ l, (g a).Sat M T := by
  rw [sat_forallList, List.forall_mem_map]

theorem sat_existsList_map {α : Type} (l : List α) (g : α → ZForm) :
    (existsList (l.map g)).Sat M T ↔ ∃ a ∈ l, (g a).Sat M T := by
  rw [sat_existsList]
  simp only [List.mem_map, exists_exists_and_eq_and]

end Sat

/-- A formula compares the times of certain events only. -/
def Over (S : Ev → Prop) (f : ZForm) : Prop := ∀ e ∈ f.events, S e

section Over

variable {S : Ev → Prop}

@[simp] theorem over_true : Over S .true ↔ True := iff_true_intro (List.forall_mem_nil S)

@[simp] theorem over_false : Over S .false ↔ True := iff_true_intro (List.forall_mem_nil S)

@[simp] theorem over_and (a b : ZForm) : Over S (.and a b) ↔ a.Over S ∧ b.Over S := List.forall_mem_append

@[simp] theorem over_or (a b : ZForm) : Over S (.or a b) ↔ a.Over S ∧ b.Over S := List.forall_mem_append

@[simp] theorem over_implies (a b : ZForm) : Over S (.implies a b) ↔ a.Over S ∧ b.Over S := List.forall_mem_append

@[simp] theorem over_hb (l r : Ev) : Over S (.hb l r) ↔ S l ∧ S r :=
  List.forall_mem_cons.trans (and_congr_right' (List.forall_mem_singleton))

@[simp] theorem over_sync (l r : Ev) : Over S (.sync l r) ↔ S l ∧ S r := over_hb l r

@[simp] theorem over_positive (e : Ev) : Over S (.positive e) ↔ S e := List.forall_mem_singleton

@[simp] theorem over_eq (l r : Term) : Over S (.eq l r) ↔ True := over_true

@[simp] theorem over_holds (t : Term) : Over S (.holds t) ↔ True := over_true

theorem over_foldl {α : Type} {g : ZForm → α → ZForm} (l : List α) {f : ZForm} (hf : f.Over S)
    (hg : ∀ f, f.Over S → ∀ a ∈ l, (g f a).Over S) : (l.foldl g f).Over S := by
  induction l generalizing f with
  | nil => exact hf
  | cons a l ih =>
    have ha : (g f a).Over S := hg f hf a List.mem_cons_self
    exact ih ha fun f hf b hb => hg f hf b (List.mem_cons_of_mem a hb)

variable {M : Model} {T T' : Ev → Int}

theorem sat_congr (hlt : ∀ l r, S l → S r → (l.time T < r.time T ↔ l.time T' < r.time T'))
    (hpos : ∀ e, S e → (0 < e.time T ↔ 0 < e.time T')) (f : ZForm) (hf : f.Over S) :
    f.Sat M T ↔ f.Sat M T' := by
  induction f with
  | true => exact Iff.rfl
  | false => exact Iff.rfl
  | eq l r => exact Iff.rfl
  | holds t => exact Iff.rfl
  | and a b iha ihb => exact and_congr (iha ((over_and a b).mp hf).1) (ihb ((over_and a b).mp hf).2)
  | or a b iha ihb => exact or_congr (iha ((over_or a b).mp hf).1) (ihb ((over_or a b).mp hf).2)
  | implies a b iha ihb => exact imp_congr (iha ((over_implies a b).mp hf).1) (ihb ((over_implies a b).mp hf).2)
  | hb l r => exact hlt l r ((over_hb l r).mp hf).1 ((over_hb l r).mp hf).2
  | sync l r =>
    obtain ⟨hl, hr⟩ := (over_sync l r).mp hf
    have hlr := hlt l r hl hr
    have hrl := hlt r l hr hl
    change l.time T = r.time T ↔ l.time T' = r.time T'
    omega
  | positive e => exact hpos e ((over_positive e).mp hf)

theorem sat_timeless {f : ZForm} (hf : f.Over fun _ => False) : f.Sat M T ↔ f.Sat M T' :=
  sat_congr (fun _ _ h => h.elim) (fun _ h => h.elim) f hf

end Over

end ZForm

end Mcm

end Ilang
