import Ilang.Mngr.MonoUnroll
import Ilang.Mngr.PathUnroll

/-!
# The unroller of the API

`IlaZ3Unroller` makes a path or a monolithic unroller for each formula and gives it the predicates and
the extra suffix. Its accessors go through one more unroller, made by the constructor, which does not
get the suffix.
-/

namespace Ilang

open Smt

structure IlaZ3Unroller where
  extraSuff : String
  globPred : List Expr
  initPred : List Expr
  stepPred : List (Int × Expr)

namespace IlaZ3Unroller

/-- The unroller behind the accessors. -/
def univ : Unroller := Unroller.new ""

variable (a : IlaZ3Unroller) (z3 : Z3)

/-- A new unroller, after `InitializeUnroller`. -/
def unroller : Unroller :=
  let u := a.globPred.foldl Unroller.addGlobPred (Unroller.new a.extraSuff)
  let u := a.initPred.foldl Unroller.addInitPred u
  a.stepPred.foldl (fun u p => u.addStepPred p.2 p.1) u

def unrollPathConn (path : List HostedInstr) (init : Int) : Option Term :=
  PathUnroll.pathAssn z3 a.unroller path init

def unrollPathFree (path : List HostedInstr) (init : Int) : Option Term :=
  PathUnroll.pathNone z3 a.unroller path init

def unrollMonoConn (fresh : Nat) (top : Ila) (k : Nat) (init : Int) : Option Term :=
  MonoUnroll.monoAssn fresh top z3 a.unroller k init

def unrollMonoFree (fresh : Nat) (top : Ila) (k : Nat) (init : Int) : Option Term :=
  MonoUnroll.monoNone fresh top z3 a.unroller k init

/-- `CurrState` and `GetZ3Expr`, which differ in an assertion only. -/
def currState (e : Expr) (t : Int) : Term := getExpr z3 (univ.suffCurr t) e

def nextState (e : Expr) (t : Int) : Term := getExpr z3 (univ.suffNext t) e

/-! ### Accessors against formulas -/

/-- The accessors, `curr` standing for `CurrState` and `GetZ3Expr`. -/
inductive Accessor where
  | curr
  | next
  deriving DecidableEq

/-- The kinds of formulas. -/
inductive Kind where
  | pathConn
  | pathFree
  | monoConn
  | monoFree
  deriving DecidableEq

/-- The steps are connected: the next state of a frame is the state of the frame after it. -/
def Kind.conn : Kind → Bool
  | .pathConn | .monoConn => true
  | .pathFree | .monoFree => false

/-- The formula of a kind, for a path or for a number of steps of a hierarchy. -/
def unroll (kind : Kind) (path : List HostedInstr) (fresh : Nat) (top : Ila) (k : Nat) (init : Int) : Option Term :=
  match kind with
  | .pathConn => a.unrollPathConn z3 path init
  | .pathFree => a.unrollPathFree z3 path init
  | .monoConn => a.unrollMonoConn z3 fresh top k init
  | .monoFree => a.unrollMonoFree z3 fresh top k init

/-- The suffix that an accessor uses. -/
def suffixOf (acc : Accessor) (t : Int) : String :=
  match acc with
  | .curr => univ.suffCurr t
  | .next => univ.suffNext t

def access (acc : Accessor) (e : Expr) (t : Int) : Term :=
  match acc with
  | .curr => currState z3 e t
  | .next => nextState z3 e t

/-- The suffix under which the formula has what an accessor is meant to read: frame `t`, or the state
after it. -/
def target (kind : Kind) (acc : Accessor) (t : Int) : String :=
  match acc with
  | .curr => a.unroller.suffCurr t
  | .next => if kind.conn then a.unroller.suffCurr (t + 1) else a.unroller.suffNext t

/-- Whatever an unroller with this suffix builds, an accessor has in every model the value of the
expression in the frame that it is meant to read. -/
def Agrees (extraSuff : String) (acc : Accessor) (kind : Kind) : Prop :=
  ∀ (z3 : Z3) (a : IlaZ3Unroller), a.extraSuff = extraSuff →
    ∀ (path : List HostedInstr) (fresh : Nat) (top : Ila) (k : Nat) (init : Int) (φ : Term),
      a.unroll z3 kind path fresh top k init = some φ → ∀ M : Model, M.Sat φ →
        ∀ (e : Expr) (s : Srt), e.check = some s → ∀ t : Int,
          (access z3 acc e t).eval M = e.eval (frame M (a.target kind acc t))

variable {a z3}

theorem foldl_extraSuff {α : Type} (f : Unroller → α → Unroller) (hf : ∀ u x, (f u x).extraSuff = u.extraSuff)
    (l : List α) (u : Unroller) : (l.foldl f u).extraSuff = u.extraSuff := by
  induction l generalizing u with
  | nil => rfl
  | cons x l ih => rw [List.foldl_cons, ih, hf]

theorem unroller_extraSuff : a.unroller.extraSuff = a.extraSuff := by
  rw [unroller, foldl_extraSuff (fun (u : Unroller) (p : Int × Expr) => u.addStepPred p.2 p.1) fun _ _ => rfl, foldl_extraSuff Unroller.addInitPred fun _ _ => rfl,
    foldl_extraSuff Unroller.addGlobPred fun _ _ => rfl]
  rfl

theorem access_eval {e : Expr} {s : Srt} (h : e.check = some s) (M : Model) (acc : Accessor) (t : Int) :
    (access z3 acc e t).eval M = e.eval (frame M (suffixOf acc t)) := by
  cases acc <;> exact getExpr_eval z3 M _ h

theorem target_eq_suffixOf {kind : Kind} {acc : Accessor} (hsuff : a.extraSuff = "")
    (hnext : ¬(acc = .next ∧ kind.conn = true)) (t : Int) : a.target kind acc t = suffixOf acc t := by
  have hu : a.unroller.extraSuff = univ.extraSuff := by
    rw [unroller_extraSuff, hsuff]
    rfl
  cases acc with
  | curr => simp only [target, suffixOf, Unroller.suffCurr, hu]
  | next =>
    have hfree : kind.conn ≠ true := fun h => hnext ⟨rfl, h⟩
    simp only [target, suffixOf, Unroller.suffNext, hu, if_neg hfree]

/-! The suffixes differ in every other case, and a formula over no step at all has every model. -/

theorem target_ne_suffixOf {kind : Kind} {acc : Accessor}
    (h : ¬(a.extraSuff = "" ∧ ¬(acc = .next ∧ kind.conn = true))) : a.target kind acc 0 ≠ suffixOf acc 0 := by
  intro heq
  have hlen := congrArg String.length heq
  have hhead := congrArg (fun s : String => s.toList.head?) heq
  cases acc with
  | curr =>
    simp only [target, suffixOf, Unroller.suffCurr, unroller_extraSuff, univ, Unroller.new,
      String.length_append] at hlen
    have hzero : a.extraSuff = "" := String.length_eq_zero_iff.mp (by simpa using hlen)
    exact h ⟨hzero, by simp⟩
  | next =>
    by_cases hconn : kind.conn = true
    · simp [target, suffixOf, hconn, Unroller.suffCurr, Unroller.suffNext] at hhead
      exact absurd hhead (by decide)
    · simp only [target, suffixOf, if_neg hconn, Unroller.suffNext, unroller_extraSuff, univ, Unroller.new,
        String.length_append] at hlen
      have hzero : a.extraSuff = "" := String.length_eq_zero_iff.mp (by simpa using hlen)
      exact h ⟨hzero, fun hn => hconn hn.2⟩

theorem sym_ne_of_suffix_ne {v : Var} {s t : String} (hs : s ≠ "") (ht : t ≠ "") (hst : s ≠ t) :
    v.sym s ≠ v.sym t := by
  intro heq
  have hname := congrArg Sym.name heq
  simp only [Var.sym, formatStr, if_neg hs, if_neg ht] at hname
  have hl := congrArg String.toList hname
  simp only [String.toList_append] at hl
  exact hst (String.toList_inj.mp (List.append_cancel_left hl))

theorem suffixOf_ne_empty (acc : Accessor) (t : Int) : suffixOf acc t ≠ "" := by
  intro h
  have hlen := congrArg String.length h
  cases acc <;> simp [suffixOf, Unroller.suffCurr, Unroller.suffNext, String.length_append] at hlen

theorem target_ne_empty (kind : Kind) (acc : Accessor) (t : Int) : a.target kind acc t ≠ "" := by
  intro h
  have hlen := congrArg String.length h
  cases acc with
  | curr => simp [target, Unroller.suffCurr, String.length_append] at hlen
  | next =>
    cases hconn : kind.conn <;>
      simp [target, hconn, Unroller.suffCurr, Unroller.suffNext, String.length_append] at hlen

theorem exists_unroll_empty (z3 : Z3) (suff : String) (kind : Kind) :
    ∃ φ, unroll ⟨suff, [], [], []⟩ z3 kind [] 0 (.mk (IlaData.new 0 "m") []) 0 0 = some φ ∧
      ∀ M : Model, M.Sat φ := by
  have hassn : ∀ tr, ∃ φ, (Unroller.new suff).unrollAssn z3 tr 0 0 = some φ ∧ ∀ M : Model, M.Sat φ := by
    intro tr
    have hsorted : (Unroller.new suff).Sorted tr 0 ((Unroller.new suff).endPred 0) := by
      simp [Unroller.Sorted, Unroller.endPred, Unroller.new]
    refine ⟨_, if_pos hsorted, fun M => (Unroller.sat_unrollAssn (if_pos hsorted)).mpr ⟨?_, ?_⟩⟩
    · simp
    · simp [Unroller.EndHolds, Unroller.endPred, Unroller.new]
  have hnone : ∀ tr, ∃ φ, (Unroller.new suff).unrollNone z3 tr 0 0 = some φ ∧ ∀ M : Model, M.Sat φ := by
    intro tr
    have hsorted : (Unroller.new suff).Sorted tr 0 [] := by simp [Unroller.Sorted]
    exact ⟨_, if_pos hsorted, fun M => (Unroller.sat_unrollNone (if_pos hsorted)).mpr (by simp)⟩
  cases kind with
  | pathConn | monoConn => exact hassn _
  | pathFree | monoFree => exact hnone _

/-- An accessor agrees with the formulas of a kind exactly when the constructor got no extra suffix and
the accessor is not the next state for connected steps. -/
theorem agrees_iff (extraSuff : String) (acc : Accessor) (kind : Kind) :
    Agrees extraSuff acc kind ↔ extraSuff = "" ∧ ¬(acc = .next ∧ kind.conn = true) := by
  constructor
  · intro hagrees
    by_contra hcond
    obtain ⟨φ, hφ, hsat⟩ := exists_unroll_empty default extraSuff kind
    let a : IlaZ3Unroller := ⟨extraSuff, [], [], []⟩
    have hne : a.target kind acc 0 ≠ suffixOf acc 0 := target_ne_suffixOf hcond
    let x : Var := ⟨0, "x", some "m", .bool⟩
    let M : Model := (default : Model).override fun c => some (.bool (c = x.sym (suffixOf acc 0)))
    have hx := hagrees default a rfl [] 0 _ 0 0 φ hφ M (hsat M) (.var x) .bool rfl 0
    rw [access_eval rfl] at hx
    have hvalue : ∀ s, M.const (x.sym s) = .bool (x.sym s = x.sym (suffixOf acc 0)) :=
      fun s => Model.override_some rfl rfl
    simp only [Expr.eval, frame_atom, Atom.sym_var, hvalue, Option.some.injEq, Value.bool.injEq, decide_true,
      true_eq_decide_iff] at hx
    exact sym_ne_of_suffix_ne (target_ne_empty kind acc 0) (suffixOf_ne_empty acc 0) hne hx
  · rintro ⟨hsuff, hnext⟩ z3 a ha path fresh top k init φ - M - e s he t
    rw [access_eval he, target_eq_suffixOf (ha.trans hsuff) hnext]

/-- With the suffix `s`, the current state of `x` in frame 0 is a constant that the formula does not
mention: it can be true in a model whose execution has `x` false throughout. -/
theorem currState_disagrees : ∃ φ M,
    unrollPathConn ⟨"s", [], [], []⟩ default (MonoUnroll.idle "live").getInstrTree 0 = some φ ∧ M.Sat φ ∧
    (currState default (.var ⟨0, "x", some "m", .bool⟩) 0).eval M = some (.bool true) ∧
    ∀ t : Int, (Expr.var ⟨0, "x", some "m", .bool⟩).eval
      (frame M ((IlaZ3Unroller.mk "s" [] [] []).unroller.suffCurr t)) = some (.bool false) := by
  generalize (default : Z3) = z3
  let x : Var := ⟨0, "x", some "m", .bool⟩
  let M : Model := (default : Model).override fun c => some (.bool (c = x.sym (univ.suffCurr 0)))
  have hvalue : ∀ s, M.const (x.sym s) = .bool (x.sym s = x.sym (univ.suffCurr 0)) :=
    fun s => Model.override_some rfl rfl
  have hfalse : ∀ t : Int, M.const (x.sym ((IlaZ3Unroller.mk "s" [] [] []).unroller.suffCurr t)) = .bool false := by
    intro t
    have hne : (IlaZ3Unroller.mk "s" [] [] []).unroller.suffCurr t ≠ univ.suffCurr 0 := by
      intro h
      have hlast := congrArg (fun s : String => s.toList.getLast?) h
      simp [Unroller.suffCurr, unroller, Unroller.new, univ] at hlast
    rw [hvalue, decide_eq_false (sym_ne_of_suffix_ne ?_ ?_ hne)]
    · exact target_ne_empty (a := ⟨"s", [], [], []⟩) .pathConn .curr t
    · exact suffixOf_ne_empty .curr 0
  obtain ⟨φ, hφ⟩ := Option.isSome_iff_exists.mp
    ((PathUnroll.isSome_pathAssn z3 (IlaZ3Unroller.mk "s" [] [] []).unroller
      (MonoUnroll.idle "live").getInstrTree 0).mpr (by decide))
  refine ⟨φ, M, hφ, ?_, ?_, fun t => congrArg some (hfalse t)⟩
  · rw [PathUnroll.pathAssn, Option.bind_eq_some_iff] at hφ
    obtain ⟨tr, htr, hφ⟩ := hφ
    obtain rfl := PathUnroll.trans_eq_some htr
    refine (Unroller.sat_unrollAssn hφ).mpr ⟨fun i hi => ⟨fun e he => ?_, fun v hv => ?_⟩, fun e he => ?_⟩
    · obtain rfl : i = 0 := Nat.lt_one_iff.mp hi
      obtain rfl := List.mem_singleton.mp he
      rfl
    · obtain rfl : i = 0 := Nat.lt_one_iff.mp hi
      obtain rfl := List.mem_singleton.mp hv
      exact congrArg some ((hfalse _).trans (hfalse _).symm)
    · simp [Unroller.endPred, unroller, Unroller.new] at he
  · rw [currState, getExpr_eval z3 M _ rfl]
    exact congrArg some ((hvalue _).trans (by rw [decide_eq_true rfl]))

end IlaZ3Unroller

end Ilang
