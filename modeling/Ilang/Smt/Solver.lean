import Ilang.Smt.Term

/-!
# Solvers

The assertions of an incremental solver, with backtracking points. Whether they are satisfiable is
answered by an oracle that is sound and complete.
-/

namespace Smt

/-- A decision procedure that is sound and complete. -/
structure Oracle where
  sat : List Term → Bool
  sat_iff : ∀ ts, sat ts = true ↔ ∃ M : Model, ∀ t ∈ ts, M.Sat t

noncomputable instance : Inhabited Oracle := by
  classical
  exact ⟨⟨fun ts => decide (∃ M : Model, ∀ t ∈ ts, M.Sat t), fun ts => by simp⟩⟩

theorem Oracle.sat_eq_false_iff (o : Oracle) {ts : List Term} :
    o.sat ts = false ↔ ∀ M : Model, ¬∀ t ∈ ts, M.Sat t := by
  rw [← Bool.not_eq_true, o.sat_iff, not_exists]

/-- The assertions, and those at each backtracking point, the last one first. -/
structure Solver where
  assertions : List Term
  saved : List (List Term)

namespace Solver

def new : Solver := ⟨[], []⟩

def add (s : Solver) (t : Term) : Solver := { s with assertions := s.assertions ++ [t] }

def push (s : Solver) : Solver := { s with saved := s.assertions :: s.saved }

/-- Back to the last backtracking point. -/
def pop (s : Solver) : Solver :=
  match s.saved with
  | [] => s
  | ts :: saved => ⟨ts, saved⟩

def check (o : Oracle) (s : Solver) : Bool := o.sat s.assertions

@[simp] theorem assertions_new : new.assertions = [] := rfl

@[simp] theorem assertions_add (s : Solver) (t : Term) : (s.add t).assertions = s.assertions ++ [t] := rfl

@[simp] theorem assertions_push (s : Solver) : s.push.assertions = s.assertions := rfl

@[simp] theorem pop_push (s : Solver) : s.push.pop = s := rfl

@[simp] theorem pop_push_add (s : Solver) (t : Term) : (s.push.add t).pop = s := rfl

end Solver

end Smt
