import Ilang.Util.Container
import Ilang.Ila.Hierarchy
import Ilang.Verilog.Ports

/-!
# Update functions of the generated simulator

An update function evaluates every update into a holder first and assigns the holders then; a holder declared with
`auto` from a part-select is a reference to the bits of the variable. A memory is updated in place: the stores of its
update are collected in a map and copied into the member. All updates come from the state before exactly when the
holders are settled (`Settled`).

The C++ code of an expression (`Target.Ilator`) stands here for the value of the expression.
-/

namespace Ilang

open Smt

namespace Valuation

/-- A variable takes a value of its sort. -/
def take (v : Var) (old : Value) : Option Value → Value
  | some x => if x.sort = v.sort then x else old
  | none => old

theorem take_sort {v : Var} {old : Value} (h : old.sort = v.sort) (x : Option Value) : (take v old x).sort = v.sort := by
  unfold take
  split
  · split
    · assumption
    · exact h
  · exact h

/-- Some variables take new values. -/
def setVars (ν : Valuation) (f : Var → Option Value) : Valuation where
  atom
    | .var v => take v (ν.atom (.var v)) (f v)
    | .nondet g => ν.atom (.nondet g)
  atom_sort
    | .var v => take_sort (ν.atom_sort (.var v)) (f v)
    | .nondet g => ν.atom_sort (.nondet g)
  func := ν.func
  func_sort := ν.func_sort

/-- The assignment of one variable. -/
def assign (ν : Valuation) (v : Var) (x : Value) : Valuation := ν.setVars fun w => if w = v then some x else none

@[simp] theorem setVars_nondet (ν : Valuation) (f : Var → Option Value) (g : Func) :
    (ν.setVars f).atom (.nondet g) = ν.atom (.nondet g) := rfl

@[simp] theorem setVars_func (ν : Valuation) (f : Var → Option Value) : (ν.setVars f).func = ν.func := rfl

end Valuation

namespace Ilator

/-! ### `GenerateInstrContent` -/

/-- A local that refers to bits of a variable: a part-select of the variable, or a choice between two of them. -/
def live (ν : Valuation) : Expr → Option (Var × Nat × Nat)
  | .op (.extract hi lo) [.var v] => some (v, hi, lo)
  | .op .ite [c, t, e] =>
    match live ν t, live ν e with
    | some p, some q => some (if Value.isTrue (c.eval ν) then p else q)
    | _, _ => none
  | _ => none

/-- What a holder is worth when it is assigned. -/
def held (pre cur : Valuation) (u : Expr) : Option Value :=
  match live pre u with
  | some (v, hi, lo) => (Expr.op (.extract hi lo) [.var v]).eval cur
  | none => u.eval pre

/-- The entry that a store adds to the map. -/
def entry (ν : Valuation) (a d : Nat) (addr data : Expr) : List (BitVec a × BitVec d) :=
  match addr.eval ν, data.eval ν with
  | some (.bv _ x), some (.bv _ y) => [(x.setWidth a, y.setWidth d)]
  | _, _ => []

/-- The stores of a memory update, as the update function executes them. The memory at the bottom is not looked at. -/
def memWrites (ν : Valuation) (a d : Nat) : Expr → List (BitVec a × BitVec d)
  | .op .store [m, addr, data] => memWrites ν a d m ++ entry ν a d addr data
  | .op .ite [c, t, e] => if Value.isTrue (c.eval ν) then memWrites ν a d t else memWrites ν a d e
  | _ => []

/-- The memory at the bottom of an update. -/
def memBase (ν : Valuation) : Expr → Expr
  | .op .store [m, _, _] => memBase ν m
  | .op .ite [c, t, e] => if Value.isTrue (c.eval ν) then memBase ν t else memBase ν e
  | e => e

/-- The value that a state is assigned. -/
def assigned (pre cur : Valuation) (s : Var) (u : Expr) : Option Value :=
  if s.sort.isMem then
    match cur.atom (.var s) with
    | .mem a d c => some (.mem a d (Verilog.commit (memWrites pre a d u) c))
    | _ => none
  else held pre cur u

def assignState (pre cur : Valuation) (p : Var × Expr) : Valuation :=
  match assigned pre cur p.1 p.2 with
  | some x => cur.assign p.1 x
  | none => cur

/-- The updated states with their updates, in the order of the names. -/
def updatedStates (h : HostedInstr) : List (Var × Expr) :=
  h.instr.updates.filterMap fun p => (h.host.states.find? fun s => s.name = p.1).bind fun s => p.2.map (s, ·)

/-- The update function of an instruction. -/
def updateFunc (h : HostedInstr) (ν : Valuation) : Valuation := (updatedStates h).foldl (assignState ν) ν

/-- An instruction gives every state of its ILA the value of its update in the state before. -/
def next (h : HostedInstr) (ν : Valuation) : Valuation :=
  ν.setVars fun s => if s ∈ h.host.states then (stateUpdCmpl h.instr s).eval ν else none

/-! ### What the generator accepts -/

/-- Stores and choices over variables and constants. -/
inductive MemExpr : Expr → Prop
  | var (v : Var) : MemExpr (.var v)
  | const (c : ConstVal) : MemExpr (.const c)
  | store {m : Expr} (addr data : Expr) : MemExpr m → MemExpr (.op .store [m, addr, data])
  | ite (c : Expr) {t e : Expr} : MemExpr t → MemExpr e → MemExpr (.op .ite [c, t, e])

/-- The functions of an instruction compile: there is a decode, updates are of states of the host and of their sorts, and a
memory is updated by a store or a choice. The result of a decode or a valid function is bound to a reference of the name of its
expression, which for a variable is the name of the variable itself. -/
structure Accepted (h : HostedInstr) : Prop where
  decode : h.instr.decode ≠ none
  bound : ∀ e ∈ h.instr.decode.toList ++ h.host.valid.toList, ∀ v, e ≠ .var v
  stateNames : (h.host.states.map Var.name).Nodup
  keys : (h.instr.updates.map Prod.fst).Nodup
  update : ∀ p ∈ h.instr.updates, ∃ s ∈ h.host.states, s.name = p.1 ∧ ∃ u, p.2 = some u ∧ u.check = some s.sort ∧
    (s.sort.isMem = true → MemExpr u ∧ (∀ v, u ≠ .var v) ∧ ∀ c, u ≠ .const c)

/-- A holder is worth what it was in the state before: the variable that a part-select refers to is not assigned other
bits earlier, and what a memory update does not store to is as it was. -/
def SettledAt (ν : Valuation) (earlier : List (Var × Expr)) (s : Var) (u : Expr) : Prop :=
  (∀ v hi lo, s.sort.isMem = false → live ν u = some (v, hi, lo) → ∀ u', (v, u') ∈ earlier →
    (Expr.op (.extract hi lo) [u']).eval ν = (Expr.op (.extract hi lo) [.var v]).eval ν) ∧
  ∀ a d c c', ν.atom (.var s) = .mem a d c → (memBase ν u).eval ν = some (.mem a d c') →
    ∀ i, Verilog.lastAt (memWrites ν a d u) i = none → c' i = c i

def Settled (ν : Valuation) (l : List (Var × Expr)) : Prop :=
  ∀ earlier s u later, l = earlier ++ (s, u) :: later → SettledAt ν earlier s u

/-! ### Update functions -/

section Update

variable {ν : Valuation}

theorem eval_mem {u : Expr} (hu : MemExpr u) {a d : Nat} (hcheck : u.check = some (.mem a d)) :
    ∃ c, (memBase ν u).eval ν = some (.mem a d c) ∧
      u.eval ν = some (.mem a d (Verilog.commit (memWrites ν a d u) c)) := by
  induction hu with
  | var v =>
    obtain ⟨x, hx, hsort⟩ := Expr.eval_of_check hcheck ν
    obtain ⟨c, rfl⟩ := Value.exists_mem hsort
    exact ⟨c, hx, hx⟩
  | const k =>
    obtain ⟨x, hx, hsort⟩ := Expr.eval_of_check hcheck ν
    obtain ⟨c, rfl⟩ := Value.exists_mem hsort
    exact ⟨c, hx, hx⟩
  | @store m addr data hm ih =>
    obtain ⟨hmc, hac, hdc⟩ := Expr.check_store hcheck
    obtain ⟨c, hbase, hval⟩ := ih hmc
    obtain ⟨x, hx, hxs⟩ := Expr.eval_of_check hac ν
    obtain ⟨x, rfl⟩ := Value.exists_bv hxs
    obtain ⟨y, hy, hys⟩ := Expr.eval_of_check hdc ν
    obtain ⟨y, rfl⟩ := Value.exists_bv hys
    refine ⟨c, by rw [memBase]; exact hbase, ?_⟩
    have hentry : entry ν a d addr data = [(x, y)] := by simp [entry, hx, hy]
    rw [memWrites, hentry, Verilog.commit_append, Verilog.commit_cons, Verilog.commit_nil, ← ExprOp.apply_store]
    simp only [Expr.eval, Expr.evalList, hval, hx, hy, Option.bind_some, Option.map_some]
  | @ite k t e ht he iht ihe =>
    obtain ⟨-, htc, hec⟩ := Expr.check_ite hcheck
    rw [Expr.eval_ite hcheck ν, memBase, memWrites]
    split
    · exact iht htc
    · exact ihe hec

/-- The states take their updates at once. -/
def nextOf (ν : Valuation) (l : List (Var × Expr)) : Valuation :=
  ν.setVars fun s => (l.find? fun p => p.1 = s).bind fun p => p.2.eval ν

end Update

end Ilator

end Ilang
