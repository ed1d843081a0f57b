import Ilang.Ila.Abs
import Ilang.Vtarget.Monitor

/-!
# Updates with an unknown branch

An update `ITE(c, x, y)` may leave a state open in one of its branches, by an application of a function `__unknown__`. With the
option for it, the module of the instruction copies the signal of `c` into a register when the instruction is decoded, and the
assertion on the state is disabled by the register. What becomes of the condition is decided in three places:
`getIteUnknownCondVal`, `ExportTopLevelInstr` and `ConstructWrapper_add_varmap_assertions`.

The values of the signals of a cycle are inputs here, by the expressions that they are the signals of.
-/

namespace Ilang

/-! ### The pattern -/

def unknownPrefix : List Char := "__unknown__".toList

/-- `isSpecialUnknownFunctionName`: the prefix, and digits after it. -/
def isSpecialUnknownFunctionName (name : String) : Bool :=
  unknownPrefix.isPrefixOf name.toList && (name.toList.drop unknownPrefix.length).all Char.isDigit

/-- `isSpecialUnknownFunction`. -/
def isSpecialUnknownFunction (f : Func) : Bool := f.args.isEmpty && isSpecialUnknownFunctionName f.name

/-- An application of a special function. -/
def isUnknownApp : Expr → Bool
  | .appFunc f _ => isSpecialUnknownFunction f
  | _ => false

/-- `getIteUnknownCondVal`: the condition and the known value. The first branch is tested before the second. -/
def getIteUnknownCondVal : Expr → Option (Expr × Expr)
  | .op .ite [c, x, y] => if isUnknownApp x then some (c, y) else if isUnknownApp y then some (c, x) else none
  | _ => none

/-! ### The module of an instruction -/

/-- What `ExportTopLevelInstr` writes a module for, and `collect_ite_unknown_update`. -/
structure TopLevelInstr where
  host : IlaData
  instr : Instr
  collectIteUnknownUpdate : Bool

/-- The values of the signals of one bit in a cycle. -/
abbrev Signals := Expr → Bool

namespace TopLevelInstr

variable (g : TopLevelInstr)

/-- The entry of a state in `state_update_ite_unknown`. -/
def stateUpdateIteUnknown (s : Var) : Option Expr :=
  if g.collectIteUnknownUpdate then (getIteUnknownCondVal (stateUpdCmpl g.instr s)).map Prod.fst else none

/-- The cycle in which the module takes its step: it is started, valid and decoded. -/
def Decodes (start : Bool) (sig : Signals) : Prop :=
  start = true ∧ sig (g.host.valid.getD (.const (.bool true))) = true ∧ sig (decodeCmpl g.instr) = true

instance (start : Bool) (sig : Signals) : Decidable (g.Decodes start sig) := inferInstanceAs (Decidable (_ ∧ _))

/-- The register `__ite_ukn_cond_reg_` of a condition after a clock edge. A reset leaves it as it is. -/
def condRegNext (rst start : Bool) (sig reg : Signals) : Signals := fun c =>
  if rst then reg c else if g.Decodes start sig then sig c else reg c

theorem stateUpdateIteUnknown_eq {s : Var} {c x y : Expr}
    (hupd : stateUpdCmpl g.instr s = .op .ite [c, x, y]) (hone : isUnknownApp x ≠ isUnknownApp y) :
    g.stateUpdateIteUnknown s = if g.collectIteUnknownUpdate then some c else none := by
  rw [stateUpdateIteUnknown, hupd, getIteUnknownCondVal]
  cases hx : isUnknownApp x with
  | true => rfl
  | false =>
    have hy : isUnknownApp y = true := by
      rw [hx] at hone
      exact (Bool.eq_true_of_not_eq_false fun hy => hone hy.symm)
    rw [hy]
    rfl

end TopLevelInstr

/-! ### The wrapper -/

/-- A run of the wrapper: the monitor with its conditions, the signals in every cycle, and what the registers hold at first. -/
structure InstrRun where
  cfg : MonitorCfg
  g : TopLevelInstr
  inp : Nat → MonitorInp
  sig : Nat → Signals
  monitor₀ : Monitor
  condReg₀ : Signals

namespace InstrRun

variable (w : InstrRun)

def monitor : Nat → Monitor := Monitor.reg w.cfg w.monitor₀ w.inp

def condReg : Nat → Signals
  | 0 => w.condReg₀
  | t + 1 => w.g.condRegNext (w.inp t).rst (w.monitor t).start (w.sig t) (condReg t)

/-- The instruction is decoded in a cycle. -/
def Decoded (t : Nat) : Prop := w.g.Decodes (w.monitor t).start (w.sig t)

/-- The states are compared in a cycle. -/
def Checked (t : Nat) : Prop := (w.monitor t).checks w.cfg (w.inp t) = true

/-- The assertion on a state is enabled: its precondition, in `ConstructWrapper_add_varmap_assertions`, is false. -/
def Enabled (s : Var) (t : Nat) : Prop :=
  w.Checked t ∧
    match w.g.stateUpdateIteUnknown s with
    | some c => w.condReg t c = true
    | none => True

/-- The condition of an update selects the branch that is known. -/
def SelectsKnown (c x y : Expr) (t : Nat) : Prop := if w.sig t c then isUnknownApp x = false else isUnknownApp y = false

variable {w} {k : Nat} (h : ResetFirst w.inp k)

include h

theorem condReg_of_decoded {u t : Nat} (hu : k ≤ u) (hut : u < t) (hdec : w.Decoded u) (c : Expr) :
    w.condReg t c = w.sig u c := by
  induction t, hut using Nat.le_induction with
  | base =>
    rw [condReg, TopLevelInstr.condRegNext, Monitor.rst_false h hu, if_neg Bool.false_ne_true]
    exact if_pos hdec
  | succ t hut ih =>
    have ht : k ≤ t := Nat.le_trans hu (Nat.le_of_succ_le hut)
    have hnot : ¬ w.Decoded t := fun hdec' =>
      absurd (Monitor.start_unique h hu ht hdec.1 hdec'.1) (Nat.ne_of_lt hut)
    rw [condReg, TopLevelInstr.condRegNext, Monitor.rst_false h ht, if_neg Bool.false_ne_true]
    exact (if_neg hnot).trans ih

theorem lt_of_checked {u t : Nat} (hu : k ≤ u) (ht : k ≤ t) (hdec : w.Decoded u) (hcheck : w.Checked t) : u < t := by
  obtain ⟨s, hs, hst, hstart⟩ := Monitor.start_of_check h ht hcheck
  rwa [Monitor.start_unique h hu hs hdec.1 hstart]

/-- With the option, the assertion on a state with an unknown branch is enabled by the condition, so by the known value exactly
when the unknown is in the second branch. Without it the assertion is enabled always. -/
theorem enabled_iff_selectsKnown {s : Var} {c x y : Expr} (hupd : stateUpdCmpl w.g.instr s = .op .ite [c, x, y])
    (hone : isUnknownApp x ≠ isUnknownApp y) {u t : Nat} (hu : k ≤ u) (ht : k ≤ t) (hdec : w.Decoded u)
    (hcheck : w.Checked t) :
    (w.Enabled s t ↔ w.SelectsKnown c x y u) ↔
      if w.g.collectIteUnknownUpdate then isUnknownApp x = false else w.SelectsKnown c x y u := by
  have hentry := w.g.stateUpdateIteUnknown_eq hupd hone
  have hreg := condReg_of_decoded h hu (lt_of_checked h hu ht hdec hcheck) hdec c
  cases hcollect : w.g.collectIteUnknownUpdate with
  | false =>
    rw [hcollect, if_neg Bool.false_ne_true] at hentry
    have henabled : w.Enabled s t := by
      rw [Enabled, hentry]
      exact ⟨hcheck, trivial⟩
    rw [if_neg Bool.false_ne_true, iff_true_left henabled]
  | true =>
    rw [hcollect, if_pos rfl] at hentry
    have henabled : w.Enabled s t ↔ w.sig u c = true := by
      rw [Enabled, hentry, ← hreg]
      exact and_iff_right hcheck
    rw [henabled, if_pos rfl, SelectsKnown]
    revert hone
    cases isUnknownApp x <;> cases isUnknownApp y <;> cases w.sig u c <;> simp

end InstrRun

section Lamp

def lampVar : Var := ⟨0, "lamp", some "m", .bool⟩

def faultVar : Var := ⟨1, "fault", some "m", .bool⟩

def unknownApp : Expr := .appFunc ⟨2, "__unknown__", "", "", .bool, []⟩ []

/-- An instruction that may leave a lamp open, in a run of four cycles in which all signals are up. -/
def lampRun (update : Expr) : InstrRun where
  cfg := Monitor.signalCfg false
  g := ⟨IlaData.new 0 "m", ⟨0, "i", none, [("lamp", some update)], none⟩, true⟩
  inp := Monitor.eagerInp
  sig _ _ := true
  monitor₀ := ⟨0, false, false, false, false, false, false⟩
  condReg₀ _ := false

theorem lampRun_decoded (update : Expr) : (lampRun update).Decoded 2 := ⟨rfl, rfl, rfl⟩

theorem lampRun_checked (update : Expr) : (lampRun update).Checked 3 := rfl

/-- The lamp is known when there is a fault. -/
theorem lamp_compared : (lampRun (.op .ite [.var faultVar, .var lampVar, unknownApp])).Enabled lampVar 3 ↔
    (lampRun (.op .ite [.var faultVar, .var lampVar, unknownApp])).SelectsKnown (.var faultVar) (.var lampVar) unknownApp 2 :=
  (InstrRun.enabled_iff_selectsKnown (k := 1) Monitor.eagerInp_resetFirst rfl (by decide) (by decide) (by decide)
    (lampRun_decoded _) (lampRun_checked _)).mpr ((if_pos rfl).mpr rfl)

/-- The lamp is unknown when there is a fault, and is compared exactly then. -/
theorem lamp_compared_unknown : ¬ ((lampRun (.op .ite [.var faultVar, unknownApp, .var lampVar])).Enabled lampVar 3 ↔
    (lampRun (.op .ite [.var faultVar, unknownApp, .var lampVar])).SelectsKnown (.var faultVar) unknownApp (.var lampVar) 2) := by
  intro h
  have henabled : (lampRun (.op .ite [.var faultVar, unknownApp, .var lampVar])).Enabled lampVar 3 := ⟨rfl, rfl⟩
  have hselects := h.mp henabled
  have hknown : isUnknownApp unknownApp = false := hselects
  exact absurd hknown (by decide)

end Lamp

end Ilang
