import Ilang.Target.IlatorUpdate
import Ilang.Target.Z3Adapter
import Ilang.Util.Sched

/-!
# The generated simulator

`compute` reads the inputs, tests the top-level instructions one after the other and executes each one that is valid
and decoded at that point, and then scans all other instructions of the hierarchy until a scan executes none.
-/

namespace Ilang

open Smt

namespace Ilator

/-! ### `GenerateExecuteKernel` -/

/-- `{valid_func_name}() && {decode_func_name}()`. -/
def enabled (h : HostedInstr) (ν : Valuation) : Bool :=
  Value.isTrue ((h.host.valid.getD (.const (.bool true))).eval ν) && Value.isTrue (h.instr.decode.bind (Expr.eval ν))

/-- `absknob::GetInstr`. -/
def topInstrs (t : Ila) : List HostedInstr := t.data.instrs.map fun i => ⟨t.data, i⟩

/-- The instructions of the loop: those of the tree that are not at the top. -/
def childInstrs (t : Ila) : List HostedInstr :=
  t.getInstrTree.filter fun h => !t.data.instrs.any fun i => i.id == h.instr.id

/-- The state in which the tests begin: initial values on the first call, and the inputs. -/
def start (t : Ila) (setup : Valuation → Valuation) (initialized : Bool) (ports : Var → Option Value) (ν : Valuation) :
    Valuation :=
  (if initialized then ν else setup ν).setVars fun v => if v ∈ t.data.inputs then ports v else none

def kernel : Sched.Actions HostedInstr Valuation := ⟨enabled, updateFunc⟩

/-- One call executes these instructions, and perhaps more. -/
def Computes (t : Ila) (ν : Valuation) (tr : Sched.Fired HostedInstr Valuation) : Prop :=
  Sched.Fires kernel (childInstrs t) (.first (topInstrs t), ν) tr

/-- One call executes these instructions and returns. -/
def Returns (t : Ila) (ν : Valuation) (tr : Sched.Fired HostedInstr Valuation) (ν' : Valuation) : Prop :=
  Sched.Stops kernel (childInstrs t) (.first (topInstrs t), ν) tr ν'

/-! ### The step of an ILA -/

/-- The instructions in the child-program of an instruction. -/
def InProgram (t : Ila) (i a : HostedInstr) : Prop :=
  a ∈ childInstrs t ∧ ∃ n ∈ t.preOrder, i.instr.program = some n.data.id ∧ a ∈ n.getInstrTree

/-! ### One call -/

/-- In every state at most one top-level instruction is enabled, and at most one of those below. -/
structure Deterministic (t : Ila) : Prop where
  top : Sched.AtMostOne kernel (topInstrs t)
  below : Sched.AtMostOne kernel (childInstrs t)

def flag : Var := ⟨0, "flag", some "m", .bool⟩

def setFlag : Instr where
  id := 1
  name := "set"
  decode := some (.op .not [.var flag])
  updates := [("flag", some (.const (.bool true)))]
  program := none

end Ilator

end Ilang
