import Mathlib.Data.List.Dedup
import Ilang.Ila.Ast

/-!
# Instruction-level abstractions

An ILA owns inputs, states and instructions, and has child ILAs. Its children share the variables they
inherited when they were created, so one variable can be a state of several ILAs of the hierarchy. An
instruction stores its updates under state *names*.
-/

namespace Ilang

structure Instr where
  id : Nat
  name : String
  decode : Option Expr
  /-- The updates by state name, in the order of the names. A stored update can be null. -/
  updates : List (String × Option Expr)
  /-- The child-program, by the identity of its ILA. -/
  program : Option Nat

/-- A transition of the child-program sequencing, by the identities of its instructions. -/
structure SeqTran where
  src : Nat
  dst : Nat
  cnd : Expr

/-- One ILA, without its children. -/
structure IlaData where
  id : Nat
  name : String
  /-- What `GetRootName` answers: the names from the top down, separated by dots. -/
  rootName : String
  inputs : List Var
  states : List Var
  inits : List Expr
  fetch : Option Expr
  valid : Option Expr
  instrs : List Instr
  instrSeq : List SeqTran

/-- An ILA as it is created, without a parent. -/
def IlaData.new (id : Nat) (name : String) : IlaData where
  id := id
  name := name
  rootName := name
  inputs := []
  states := []
  inits := []
  fetch := none
  valid := none
  instrs := []
  instrSeq := []

/-- An ILA with its children. -/
inductive Ila where
  | mk (data : IlaData) (childs : List Ila)

/-- An instruction together with the ILA that hosts it. -/
structure HostedInstr where
  host : IlaData
  instr : Instr

namespace Instr

/-- `Instr::update`: the update for a state, looked up by its name. -/
def update (i : Instr) (name : String) : Option Expr := (i.updates.lookup name).join

end Instr

/-- `Unroller::StateUpdCmpl`. -/
def stateUpdCmpl (i : Instr) (v : Var) : Expr := (i.update v.name).getD (.var v)

/-- `Unroller::DecodeCmpl`. -/
def decodeCmpl (i : Instr) : Expr := i.decode.getD (.const (.bool true))

namespace Ila

def data : Ila → IlaData
  | .mk d _ => d

def childs : Ila → List Ila
  | .mk _ cs => cs

mutual

/-- The ILAs of a tree in the order of `DepthFirstVisit`, children before their parent. -/
def postOrder : Ila → List IlaData
  | .mk d cs => postOrderList cs ++ [d]

def postOrderList : List Ila → List IlaData
  | [] => []
  | c :: cs => postOrder c ++ postOrderList cs

end

/-- `absknob::GetSttTree`. The set of the source keeps one copy of a shared state. -/
def getSttTree (top : Ila) : List Var := (top.postOrder.flatMap IlaData.states).dedup

/-- `absknob::GetInstrTree`. -/
def getInstrTree (top : Ila) : List HostedInstr :=
  top.postOrder.flatMap fun m => m.instrs.map fun i => ⟨m, i⟩

end Ila

end Ilang
