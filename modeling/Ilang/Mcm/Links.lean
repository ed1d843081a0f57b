import Ilang.Mcm.CoreRun
import Ilang.Mngr.RewriteExpr

/-!
# The constraints on one core

The constraints on the private states, on the initial states and on the final property look at one core or at one frame. They hold
in the record of every run whose private states go from step to step: for a core that is in order the links are followed along the
program, for another core the last writer before a step is the one whose value the step saw.
-/

namespace Ilang

namespace Mcm

open Smt

variable {u : System} {M₀ M : Model} {S : System.Snapshots} {T : Ev → Int} {z3 : Z3} {s : String} {core pos : Nat}
  {tr : List (Nat × Nat)}

/-! ### A core that is in order -/

namespace Taken

/-- The last update of every private state has the value that the state has now. -/
def LastHas (u : System) (M : Model) (S : System.Snapshots) (core pos : Nat) (last : LastUpdate) : Prop :=
  ∀ s ∈ u.privateNames core, (lastOf u core last s).1.check = some (u.coreVar core s).sort ∧
    (lastOf u core last s).1.eval (frame M (toString (lastOf u core last s).2)) =
      some (valueBefore u M S core pos (u.coreVar core s))

theorem sat_link {last : LastUpdate} (hlast : LastHas u M S core pos last) (hs : s ∈ u.privateNames core) {suffix : String}
    (hcopy : valueAt u core M suffix s = valueBefore u M S core pos (u.coreVar core s)) :
    (ZForm.eq (getExpr z3 suffix (.var (u.coreVar core s)))
      (getExpr z3 (toString (lastOf u core last s).2) (lastOf u core last s).1)).Sat M T := by
  obtain ⟨hcheck, heval⟩ := hlast s hs
  refine ⟨_, eval_coreVar suffix, ?_⟩
  rw [getExpr_eval z3 M _ hcheck, heval, hcopy]

end Taken

/-! ### A core that is not in order -/

namespace Taken

end Taken

/-! ### Initial states and the final property -/

end Mcm

end Ilang
