import Ilang.Mngr.SanityCheck

/-!
# Bounded model checking of two ILAs

`LegacyBmc` unrolls two ILAs for a number of steps each, assumes that they start alike, and asks for a difference at the
end. The assertion that the final states are not equal is added for every state on its own, so a difference is one in
all the states at once.
-/

namespace Ilang

open Smt

/-- The initial conditions and the invariants that were added. -/
structure LegacyBmc where
  inits : List Expr
  invs : List Expr

namespace LegacyBmc

section Check

variable (z3 : Z3) (o : Oracle)

/-- `LegacyBmc::Instr`. -/
def instrCnst (m : IlaData) (i : Instr) (prev next : String) (complete : Bool) : Option Term :=
  i.decode.map fun decode => (getExpr z3 prev decode).implies <| m.states.foldl (fun cnst s =>
    match i.update s.name with
    | some update => cnst.conj ((getExpr z3 next (.var s)).eq (getExpr z3 prev update))
    | none => if complete then cnst.conj ((getExpr z3 next (.var s)).eq (getExpr z3 prev (.var s))) else cnst) (.bool true)

/-- The loop over the instructions. -/
def instrsCnst (m : IlaData) (prev next : String) : List Instr → Term → Option Term
  | [], cnst => some cnst
  | i :: is, cnst => (instrCnst z3 m i prev next true).bind fun c => instrsCnst m prev next is (cnst.conj c)

/-- `LegacyBmc::IlaOneHotFlat`. -/
def ilaOneHotFlat (m : IlaData) (prev next : String) : Option Term :=
  m.valid.bind fun valid => (instrsCnst z3 m prev next m.instrs (.bool true)).map (getExpr z3 prev valid).implies

/-- `LegacyBmc::UnrollCmplIla`, from frame 0. -/
def unrollCmplIla (m : IlaData) : Nat → Option Term
  | 0 => some (.bool true)
  | k + 1 => (unrollCmplIla m k).bind fun cnst => (ilaOneHotFlat z3 m (toString k) (toString (k + 1))).map (·.conj cnst)

def findState (m : IlaData) (name : String) : Option Var := m.states.find? (·.name == name)

def findInput (m : IlaData) (name : String) : Option Var := m.inputs.find? (·.name == name)

/-- The assertions on one state: equal at the beginning, different at the end. -/
def stateCnst (k0 : Nat) (m1 : IlaData) (k1 : Nat) (s : Var) : Option (List Term) :=
  (findState m1 s.name).map fun s' =>
    [(getExpr z3 (toString 0) (.var s)).eq (getExpr z3 (toString 0) (.var s')),
      ((getExpr z3 (toString k0) (.var s)).eq (getExpr z3 (toString k1) (.var s'))).neg]

def inputCnst (m1 : IlaData) (x : Var) : Option Term :=
  (findInput m1 x.name).map fun x' => (getExpr z3 (toString 0) (.var x)).eq (getExpr z3 (toString 0) (.var x'))

/-- `LegacyBmc::Check`. The answer is true for `sat`; there is none if something that must be there is not. -/
def check (bmc : LegacyBmc) (m0 : IlaData) (k0 : Nat) (m1 : IlaData) (k1 : Nat) : Option Bool :=
  (unrollCmplIla z3 m0 k0).bind fun cnst0 => (unrollCmplIla z3 m1 k1).bind fun cnst1 =>
    (m0.states.mapM (stateCnst z3 k0 m1 k1)).bind fun states => (m0.inputs.mapM (inputCnst z3 m1)).map fun inputs =>
      o.sat ([cnst0, cnst1] ++ states.flatten ++ inputs ++ (bmc.inits ++ bmc.invs).map (getExpr z3 (toString 0)))

end Check

/-! ### Executions -/

/-- The instruction determines the states of the next frame. -/
def Takes (m : IlaData) (i : Instr) (τ : Trace) (t : Nat) : Prop :=
  ∀ s ∈ m.states, (stateUpdCmpl i s).eval (τ.frame t) = some (τ.atom (t + 1) (.var s))

/-- An execution: each step executes an instruction that is enabled. -/
def Executes (m : IlaData) (k : Nat) (τ : Trace) : Prop :=
  ∀ t < k, ∃ i ∈ m.instrs, HostedInstr.Enabled (τ.frame t) ⟨m, i⟩ ∧ Takes m i τ t

/-- What the unrolling says: every enabled instruction has its effect. -/
def Encodes (m : IlaData) (k : Nat) (τ : Trace) : Prop :=
  ∀ t < k, ∀ i ∈ m.instrs, HostedInstr.Enabled (τ.frame t) ⟨m, i⟩ → Takes m i τ t

/-- The expressions of a model. -/
def exprs (m : IlaData) : List Expr :=
  m.valid.toList ++ m.instrs.flatMap (fun i => i.decode.toList ++ m.states.map (stateUpdCmpl i)) ++
    (m.states ++ m.inputs).map .var

def atoms (m : IlaData) : List Atom := (exprs m).flatMap Expr.atoms

/-- Two traces side by side: the second one for what the second model reads. -/
def joint (m1 : IlaData) (τ0 τ1 : Trace) : Trace where
  atom t a := if a ∈ atoms m1 then τ1.atom t a else τ0.atom t a
  atom_sort t a := by
    split
    · exact τ1.atom_sort t a
    · exact τ0.atom_sort t a
  func := τ0.func
  func_sort := τ0.func_sort

/-- The two traces agree on the functions, start with equal states, and satisfy the initial conditions and the
invariants there. -/
structure Starts (bmc : LegacyBmc) (m0 m1 : IlaData) (τ0 τ1 : Trace) : Prop where
  func : τ1.func = τ0.func
  states : ∀ s ∈ m0.states, ∀ s' ∈ findState m1 s.name, τ0.atom 0 (.var s) = τ1.atom 0 (.var s')
  inits : ∀ e ∈ bmc.inits ++ bmc.invs, ((joint m1 τ0 τ1).frame 0).Holds e

/-- The inputs of the first step are equal. -/
def SameInputs (m0 m1 : IlaData) (τ0 τ1 : Trace) : Prop :=
  ∀ x ∈ m0.inputs, ∀ x' ∈ findInput m1 x.name, τ0.atom 0 (.var x) = τ1.atom 0 (.var x')

/-- What the answer `unsat` should mean. -/
def Sound (bmc : LegacyBmc) (m0 : IlaData) (k0 : Nat) (m1 : IlaData) (k1 : Nat) (sat : Bool) : Prop :=
  sat = false → ∀ τ0 τ1, Executes m0 k0 τ0 → Executes m1 k1 τ1 → Starts bmc m0 m1 τ0 τ1 →
    ∀ s ∈ m0.states, ∀ s' ∈ findState m1 s.name, τ0.atom k0 (.var s) = τ1.atom k1 (.var s')

/-- Two executions can end with different values of some state. -/
def CanDiffer (bmc : LegacyBmc) (m0 : IlaData) (k0 : Nat) (m1 : IlaData) (k1 : Nat) : Prop :=
  ∃ τ0 τ1, (Executes m0 k0 τ0 ∧ Executes m1 k1 τ1) ∧ Starts bmc m0 m1 τ0 τ1 ∧
    ∃ s ∈ m0.states, ∃ s' ∈ findState m1 s.name, τ0.atom k0 (.var s) ≠ τ1.atom k1 (.var s')

/-- Two traces that the unrolling allows, with equal inputs in the first step, can end with different values of all the
states. -/
def CanDifferInAll (bmc : LegacyBmc) (m0 : IlaData) (k0 : Nat) (m1 : IlaData) (k1 : Nat) : Prop :=
  ∃ τ0 τ1, (Encodes m0 k0 τ0 ∧ Encodes m1 k1 τ1) ∧ (Starts bmc m0 m1 τ0 τ1 ∧ SameInputs m0 m1 τ0 τ1) ∧
    ∀ s ∈ m0.states, ∀ s' ∈ findState m1 s.name, τ0.atom k0 (.var s) ≠ τ1.atom k1 (.var s')

/-- At most one instruction is decoded. -/
def OneHot (m : IlaData) : Prop :=
  ∀ ν, m.instrs.Pairwise fun i j => ¬(HostedInstr.Enabled ν ⟨m, i⟩ ∧ HostedInstr.Enabled ν ⟨m, j⟩)

/-- What the unrolling needs of a model. -/
structure Sorted (m : IlaData) : Prop where
  valid : ∃ v, m.valid = some v ∧ v.check = some .bool
  decode : ∀ i ∈ m.instrs, ∃ d, i.decode = some d ∧ d.check = some .bool
  update : ∀ i ∈ m.instrs, ∀ s ∈ m.states, (stateUpdCmpl i s).check = some s.sort

/-- What the comparison needs: the second model has the states and the inputs of the first. -/
structure Comparable (bmc : LegacyBmc) (m0 m1 : IlaData) : Prop where
  sorted0 : Sorted m0
  sorted1 : Sorted m1
  states : ∀ s ∈ m0.states, ∃ s', findState m1 s.name = some s' ∧ s'.sort = s.sort
  inputs : ∀ x ∈ m0.inputs, ∃ x', findInput m1 x.name = some x' ∧ x'.sort = x.sort
  inits : ∀ e ∈ bmc.inits ++ bmc.invs, e.check = some .bool

/-- The models have no variable in common, and different variables have different names in the solver. -/
structure Distinct (bmc : LegacyBmc) (m0 m1 : IlaData) : Prop where
  apart : ∀ a ∈ atoms m0, a ∉ atoms m1
  names : Separate (atoms m0 ++ atoms m1 ++ (bmc.inits ++ bmc.invs).flatMap Expr.atoms)
    ((exprs m0 ++ exprs m1 ++ (bmc.inits ++ bmc.invs)).flatMap Expr.funcs)

/-! ### Frames with a number -/

theorem sym_toString_inj {a b : Atom} {s t : Nat} (h : a.sym (toString s) = b.sym (toString t)) : s = t ∧ a.sym "" = b.sym "" := by
  have hne : ∀ n : Nat, toString n ≠ "" := fun n => Nat.repr_ne_empty
  have hunder : ∀ n : Nat, '_' ∉ (toString n).toList := fun n hmem => by
    simpa using Name.isDigit_of_mem_toString hmem
  have hn := congrArg Sym.name h
  rw [Unroller.name_tag a (hne s), Unroller.name_tag b (hne t)] at hn
  obtain ⟨hbase, htag⟩ := Name.tagged_inj hn (hunder s) (hunder t)
  have hl := congrArg String.toList hbase
  simp only [String.toList_append] at hl
  exact ⟨Name.toString_nat_inj htag, Unroller.sym_eq_of_name h (String.toList_inj.mp (List.append_cancel_right hl))⟩

/-- The trace that a model gives under the numbered names. -/
def numbered (M : Model) : Trace where
  atom t a := M.const (a.sym (toString t))
  atom_sort t a := by rw [M.const_sort, Atom.sort_sym]
  func f := M.func f.z3FuncDecl
  func_sort := func_decl_sort M

theorem exists_numbered {as : List Atom} {fs : List Func} (hsep : Separate as fs) (τ : Trace) :
    ∃ M : Model, (∀ t, ∀ a ∈ as, (numbered M).atom t a = τ.atom t a) ∧ ∀ f ∈ fs, (numbered M).func f = τ.func f := by
  obtain ⟨N, -, hN⟩ := (default : Model).exists_funcs (fun f : { f // f ∈ fs } => f.1.z3FuncDecl)
    (fun f => τ.func f.1) (fun f vs => τ.func_sort f.1 vs) (fun f g hfg => by rw [hsep.func f.1 f.2 g.1 g.2 hfg])
  obtain ⟨M, hfunc, hM, -⟩ := N.exists_assign (fun p : Nat × { a // a ∈ as } => p.2.1.sym (toString p.1))
    (fun p => τ.atom p.1 p.2.1) (fun p => by rw [τ.atom_sort, Atom.sort_sym])
    (by
      rintro ⟨s, a⟩ ⟨t, b⟩ hab
      obtain ⟨rfl, hsym⟩ := sym_toString_inj hab
      rw [hsep.atom a.1 a.2 b.1 b.2 hsym])
  refine ⟨M, fun t a ha => hM (t, ⟨a, ha⟩), fun f hf => ?_⟩
  change M.func f.z3FuncDecl = τ.func f
  rw [hfunc]
  exact hN ⟨f, hf⟩

/-! ### What the unrolling says -/

variable {z3 : Z3} {m : IlaData} {i : Instr}

/-- The equation between a state of the next frame and its update. -/
def nextEq (z3 : Z3) (i : Instr) (prev next : String) (s : Var) : Term :=
  (getExpr z3 next (.var s)).eq (getExpr z3 prev (stateUpdCmpl i s))

theorem instrCnst_complete (prev next : String) : instrCnst z3 m i prev next true =
    i.decode.map fun d => (getExpr z3 prev d).implies ((m.states.map (nextEq z3 i prev next)).foldl .conj (.bool true)) := by
  rw [instrCnst, List.foldl_map]
  congr 1
  funext d
  congr 2
  funext cnst s
  rw [nextEq, stateUpdCmpl]
  cases i.update s.name <;> rfl

theorem sat_nextEq {prev next : String} {s : Var} {M : Model} (hcheck : (stateUpdCmpl i s).check = some s.sort) :
    M.Sat (nextEq z3 i prev next s) ↔ (stateUpdCmpl i s).eval (frame M prev) = some (M.const (s.sym next)) := by
  rw [nextEq, Term.sat_eq, getExpr_var, Term.eval, getExpr_eval z3 M prev hcheck]
  constructor
  · rintro ⟨v, hv, hs⟩
    rw [hs, hv]
  · exact fun h => ⟨_, rfl, h⟩

theorem isBool_nextEq {prev next : String} {s : Var} (hcheck : (stateUpdCmpl i s).check = some s.sort) :
    (nextEq z3 i prev next s).IsBool := by
  refine Term.isBool_eq fun M => ?_
  obtain ⟨v, hv, hsort⟩ := Expr.eval_of_check hcheck (frame M prev)
  refine ⟨M.const (s.sym next), v, by rw [getExpr_var, Term.eval], by rw [getExpr_eval z3 M prev hcheck, hv], ?_⟩
  rw [M.const_sort, hsort]
  rfl

/-- The instruction has its effect in the model if it is decoded. -/
def StepSat (m : IlaData) (M : Model) (prev next : String) (i : Instr) : Prop :=
  (∃ d ∈ i.decode, (frame M prev).Holds d) →
    ∀ s ∈ m.states, (stateUpdCmpl i s).eval (frame M prev) = some (M.const (s.sym next))

variable (z3) in
theorem instrCnst_spec (hm : Sorted m) (hi : i ∈ m.instrs) (prev next : String) :
    ∃ c, instrCnst z3 m i prev next true = some c ∧ c.IsBool ∧ ∀ M : Model, M.Sat c ↔ StepSat m M prev next i := by
  obtain ⟨d, hd, hcheck⟩ := hm.decode i hi
  have hbool : ((m.states.map (nextEq z3 i prev next)).foldl Term.conj (.bool true)).IsBool :=
    Term.isBool_foldl_conj (Term.isBool_bool true)
      (List.forall_mem_map.mpr fun s hs => isBool_nextEq (hm.update i hi s hs))
  refine ⟨_, by rw [instrCnst_complete, hd, Option.map_some], (isBool_getExpr hcheck prev).implies hbool, fun M => ?_⟩
  rw [(isBool_getExpr hcheck prev).sat_implies hbool, sat_getExpr hcheck, Term.sat_foldl_conj, List.forall_mem_map, StepSat]
  simp only [hd, Option.mem_def, Option.some.injEq, exists_eq_left']
  refine imp_congr_right fun _ => ?_
  rw [and_iff_right (Term.sat_bool_true M)]
  exact forall₂_congr fun s hs => sat_nextEq (hm.update i hi s hs)

variable (z3) in
theorem instrsCnst_spec (hm : Sorted m) (prev next : String) {is : List Instr} (his : ∀ i ∈ is, i ∈ m.instrs) {acc : Term}
    (hacc : acc.IsBool) : ∃ c, instrsCnst z3 m prev next is acc = some c ∧ c.IsBool ∧
      ∀ M : Model, M.Sat c ↔ M.Sat acc ∧ ∀ i ∈ is, StepSat m M prev next i := by
  induction is generalizing acc with
  | nil => exact ⟨acc, rfl, hacc, by simp⟩
  | cons i is ih =>
    obtain ⟨hi, his⟩ := List.forall_mem_cons.mp his
    obtain ⟨c, hc, hbool, hsat⟩ := instrCnst_spec z3 hm hi prev next
    obtain ⟨c', hc', hbool', hsat'⟩ := ih his (hacc.conj hbool)
    refine ⟨c', by rw [instrsCnst, hc, Option.bind_some, hc'], hbool', fun M => ?_⟩
    rw [hsat', Term.sat_conj, hsat, List.forall_mem_cons, and_assoc]

variable (z3) in
theorem ilaOneHotFlat_spec (hm : Sorted m) (prev next : String) : ∃ c, ilaOneHotFlat z3 m prev next = some c ∧
    ∀ M : Model, M.Sat c ↔ ∀ i ∈ m.instrs, HostedInstr.Enabled (frame M prev) ⟨m, i⟩ →
      ∀ s ∈ m.states, (stateUpdCmpl i s).eval (frame M prev) = some (M.const (s.sym next)) := by
  obtain ⟨v, hv, hcheck⟩ := hm.valid
  have hvalid : validOf m = v := by rw [validOf, hv, Option.getD_some]
  obtain ⟨c, hc, hbool, hsat⟩ := instrsCnst_spec z3 hm prev next (fun _ h => h) (Term.isBool_bool true)
  refine ⟨_, by rw [ilaOneHotFlat, hv, Option.bind_some, hc, Option.map_some], fun M => ?_⟩
  rw [(isBool_getExpr hcheck prev).sat_implies hbool, sat_getExpr hcheck, hsat, and_iff_right (Term.sat_bool_true M)]
  simp only [HostedInstr.Enabled, hvalid, StepSat]
  exact ⟨fun h i hi hen => h hen.1 i hi hen.2, fun h hval i hi hdec => h i hi ⟨hval, hdec⟩⟩

variable (z3) in
theorem unrollCmplIla_spec (hm : Sorted m) (k : Nat) :
    ∃ c, unrollCmplIla z3 m k = some c ∧ ∀ M : Model, M.Sat c ↔ Encodes m k (numbered M) := by
  induction k with
  | zero => exact ⟨_, rfl, fun M => iff_of_true (Term.sat_bool_true M) fun t ht => absurd ht (Nat.not_lt_zero t)⟩
  | succ k ih =>
    obtain ⟨c, hc, hsat⟩ := ih
    obtain ⟨c', hc', hsat'⟩ := ilaOneHotFlat_spec z3 hm (toString k) (toString (k + 1))
    refine ⟨c'.conj c, by rw [unrollCmplIla, hc, Option.bind_some, hc', Option.map_some], fun M => ?_⟩
    rw [Term.sat_conj, hsat, hsat']
    constructor
    · rintro ⟨hlast, hbefore⟩ t ht
      rcases Nat.lt_succ_iff_lt_or_eq.mp ht with ht | rfl
      · exact hbefore t ht
      · exact hlast
    · exact fun h => ⟨h k (Nat.lt_succ_self k), fun t ht => h t (Nat.lt_succ_of_lt ht)⟩

/-! ### The query -/

theorem sat_eq_vars {s s' : Var} {p q : String} {M : Model} :
    M.Sat ((getExpr z3 p (.var s)).eq (getExpr z3 q (.var s'))) ↔ M.const (s.sym p) = M.const (s'.sym q) := by
  rw [Term.sat_eq, getExpr_var, getExpr_var, Term.eval, Term.eval]
  constructor
  · rintro ⟨v, hs, hs'⟩
    exact Option.some.inj (hs.trans hs'.symm)
  · exact fun h => ⟨_, rfl, congrArg some h.symm⟩

theorem sat_ne_vars {s s' : Var} {p q : String} (hsort : s'.sort = s.sort) {M : Model} :
    M.Sat ((getExpr z3 p (.var s)).eq (getExpr z3 q (.var s'))).neg ↔ M.const (s.sym p) ≠ M.const (s'.sym q) := by
  rw [getExpr_var, getExpr_var]
  refine Term.sat_neg_eq rfl rfl ?_
  rw [M.const_sort, M.const_sort]
  exact hsort.symm

variable {bmc : LegacyBmc} {m0 m1 : IlaData} {k0 k1 : Nat}

/-- The trace of a model satisfies everything that is asserted. -/
structure Asserted (bmc : LegacyBmc) (m0 : IlaData) (k0 : Nat) (m1 : IlaData) (k1 : Nat) (τ : Trace) : Prop where
  encodes0 : Encodes m0 k0 τ
  encodes1 : Encodes m1 k1 τ
  start : ∀ s ∈ m0.states, ∀ s' ∈ findState m1 s.name, τ.atom 0 (.var s) = τ.atom 0 (.var s')
  final : ∀ s ∈ m0.states, ∀ s' ∈ findState m1 s.name, τ.atom k0 (.var s) ≠ τ.atom k1 (.var s')
  inputs : ∀ x ∈ m0.inputs, ∀ x' ∈ findInput m1 x.name, τ.atom 0 (.var x) = τ.atom 0 (.var x')
  inits : ∀ e ∈ bmc.inits ++ bmc.invs, (τ.frame 0).Holds e

variable (z3) in
theorem check_sat (o : Oracle) (k0 k1 : Nat) (h : Comparable bmc m0 m1) : ∃ sat, check z3 o bmc m0 k0 m1 k1 = some sat ∧
    (sat = true ↔ ∃ M : Model, Asserted bmc m0 k0 m1 k1 (numbered M)) := by
  obtain ⟨c0, hc0, hsat0⟩ := unrollCmplIla_spec z3 h.sorted0 k0
  obtain ⟨c1, hc1, hsat1⟩ := unrollCmplIla_spec z3 h.sorted1 k1
  have hstate : ∀ s ∈ m0.states, ∃ ts, stateCnst z3 k0 m1 k1 s = some ts := fun s hs => by
    obtain ⟨s', hs', -⟩ := h.states s hs
    exact ⟨_, by rw [stateCnst, hs', Option.map_some]⟩
  have hinput : ∀ x ∈ m0.inputs, ∃ t, inputCnst z3 m1 x = some t := fun x hx => by
    obtain ⟨x', hx', -⟩ := h.inputs x hx
    exact ⟨_, by rw [inputCnst, hx', Option.map_some]⟩
  obtain ⟨ss, hss⟩ := MapM.exists_eq_some hstate
  obtain ⟨xs, hxs⟩ := MapM.exists_eq_some hinput
  refine ⟨_, by rw [check, hc0, Option.bind_some, hc1, Option.bind_some, hss, Option.bind_some, hxs, Option.map_some], ?_⟩
  rw [o.sat_iff]
  apply exists_congr
  intro M
  have hstates : (∀ t ∈ ss.flatten, M.Sat t) ↔ ∀ s ∈ m0.states, ∀ s' ∈ findState m1 s.name,
      (numbered M).atom 0 (.var s) = (numbered M).atom 0 (.var s') ∧
        (numbered M).atom k0 (.var s) ≠ (numbered M).atom k1 (.var s') := by
    rw [List.forall_mem_flatten, MapM.forall_mem hss]
    refine forall₂_congr fun s hs => ?_
    obtain ⟨s', hs', hsort⟩ := h.states s hs
    simp only [stateCnst, hs', Option.map_some, Option.some.injEq, forall_eq', Option.mem_def, List.forall_mem_cons,
      sat_eq_vars, sat_ne_vars hsort]
    simp only [List.not_mem_nil, false_imp_iff, implies_true, and_true]
    exact Iff.rfl
  have hinputs : (∀ t ∈ xs, M.Sat t) ↔ ∀ x ∈ m0.inputs, ∀ x' ∈ findInput m1 x.name,
      (numbered M).atom 0 (.var x) = (numbered M).atom 0 (.var x') := by
    rw [MapM.forall_mem hxs]
    refine forall₂_congr fun x hx => ?_
    obtain ⟨x', hx', -⟩ := h.inputs x hx
    simp only [inputCnst, hx', Option.map_some, Option.some.injEq, forall_eq', Option.mem_def, sat_eq_vars]
    exact Iff.rfl
  have hinits : (∀ t ∈ (bmc.inits ++ bmc.invs).map (getExpr z3 (toString 0)), M.Sat t) ↔
      ∀ e ∈ bmc.inits ++ bmc.invs, ((numbered M).frame 0).Holds e := by
    rw [List.forall_mem_map]
    exact forall₂_congr fun e he => sat_getExpr (h.inits e he)
  rw [List.forall_mem_append, List.forall_mem_append, List.forall_mem_append, hstates, hinputs, hinits,
    List.forall_mem_cons, List.forall_mem_singleton, hsat0, hsat1]
  constructor
  · rintro ⟨⟨⟨⟨he0, he1⟩, hs⟩, hx⟩, hi⟩
    exact ⟨he0, he1, fun s hs₀ s' hs' => (hs s hs₀ s' hs').1, fun s hs₀ s' hs' => (hs s hs₀ s' hs').2, hx, hi⟩
  · intro hM
    exact ⟨⟨⟨⟨hM.encodes0, hM.encodes1⟩, fun s hs s' hs' => ⟨hM.start s hs s' hs', hM.final s hs s' hs'⟩⟩,
      hM.inputs⟩, hM.inits⟩

/-! ### Two traces in one -/

/-- Two traces that agree on what a model reads. -/
structure SameOn (m : IlaData) (τ τ' : Trace) : Prop where
  atom : ∀ t, ∀ a ∈ atoms m, τ.atom t a = τ'.atom t a
  func : ∀ e ∈ exprs m, ∀ f ∈ e.funcs, τ.func f = τ'.func f

theorem mem_exprs_valid (hm : Sorted m) : validOf m ∈ exprs m := by
  obtain ⟨v, hv, -⟩ := hm.valid
  simp [validOf, hv, exprs]

theorem mem_exprs_decode (hi : i ∈ m.instrs) {d : Expr} (hd : d ∈ i.decode) : d ∈ exprs m := by
  simp only [exprs, List.mem_append, List.mem_flatMap]
  exact .inl (.inr ⟨i, hi, .inl (Option.mem_toList.mpr hd)⟩)

theorem mem_exprs_update (hi : i ∈ m.instrs) {s : Var} (hs : s ∈ m.states) : stateUpdCmpl i s ∈ exprs m := by
  simp only [exprs, List.mem_append, List.mem_flatMap]
  exact .inl (.inr ⟨i, hi, .inr (List.mem_map_of_mem hs)⟩)

theorem mem_atoms_var {v : Var} (hv : v ∈ m.states ++ m.inputs) : .var v ∈ atoms m :=
  List.mem_flatMap.mpr ⟨.var v, List.mem_append_right _ (List.mem_map_of_mem hv), List.mem_singleton_self _⟩

theorem SameOn.eval_eq {τ τ' : Trace} (h : SameOn m τ τ') {e : Expr} (he : e ∈ exprs m) (t : Nat) :
    e.eval (τ.frame t) = e.eval (τ'.frame t) :=
  Expr.eval_congr (fun f hf => h.func e he f hf) fun a ha => h.atom t a (List.mem_flatMap.mpr ⟨e, he, ha⟩)

theorem SameOn.encodes {τ τ' : Trace} (h : SameOn m τ τ') (hm : Sorted m) {k : Nat} (hk : Encodes m k τ) : Encodes m k τ' := by
  intro t ht i hi hen s hs
  have hholds : ∀ e ∈ exprs m, (τ'.frame t).Holds e → (τ.frame t).Holds e := fun e he hhold => (h.eval_eq he t).trans hhold
  obtain ⟨hvalid, d, hd, hdecode⟩ := hen
  have hnext := hk t ht i hi ⟨hholds _ (mem_exprs_valid hm) hvalid, d, hd, hholds _ (mem_exprs_decode hi hd) hdecode⟩ s hs
  rw [← h.eval_eq (mem_exprs_update hi hs), hnext, h.atom (t + 1) _ (mem_atoms_var (List.mem_append_left _ hs))]

theorem mem_of_findState {name : String} {s : Var} (h : findState m name = some s) : s ∈ m.states := List.mem_of_find?_eq_some h

theorem mem_of_findInput {name : String} {x : Var} (h : findInput m name = some x) : x ∈ m.inputs := List.mem_of_find?_eq_some h

theorem asserted_iff (h : Comparable bmc m0 m1) (hd : Distinct bmc m0 m1) :
    (∃ M : Model, Asserted bmc m0 k0 m1 k1 (numbered M)) ↔ CanDifferInAll bmc m0 k0 m1 k1 := by
  constructor
  · rintro ⟨M, hM⟩
    have hjoint : joint m1 (numbered M) (numbered M) = numbered M := by
      rw [joint]
      congr 1
      funext t a
      exact ite_self _
    refine ⟨numbered M, numbered M, ⟨hM.encodes0, hM.encodes1⟩, ⟨⟨rfl, hM.start, ?_⟩, hM.inputs⟩, hM.final⟩
    rw [hjoint]
    exact hM.inits
  · rintro ⟨τ0, τ1, ⟨he0, he1⟩, ⟨hstart, hinputs⟩, hfinal⟩
    obtain ⟨M, hatom, hfunc⟩ := exists_numbered hd.names (joint m1 τ0 τ1)
    have hfuncs : ∀ e ∈ exprs m0 ++ exprs m1 ++ (bmc.inits ++ bmc.invs), ∀ f ∈ e.funcs, (numbered M).func f = τ0.func f :=
      fun e he f hf => hfunc f (List.mem_flatMap.mpr ⟨e, he, hf⟩)
    have hleft : ∀ t, ∀ a ∈ atoms m0, (numbered M).atom t a = τ0.atom t a := fun t a ha => by
      rw [hatom t a (by simp [ha])]
      exact if_neg (hd.apart a ha)
    have hright : ∀ t, ∀ a ∈ atoms m1, (numbered M).atom t a = τ1.atom t a := fun t a ha => by
      rw [hatom t a (by simp [ha])]
      exact if_pos ha
    have hsame0 : SameOn m0 τ0 (numbered M) :=
      ⟨fun t a ha => (hleft t a ha).symm, fun e he f hf => (hfuncs e (by simp [he]) f hf).symm⟩
    have hsame1 : SameOn m1 τ1 (numbered M) := by
      refine ⟨fun t a ha => (hright t a ha).symm, fun e he f hf => ?_⟩
      rw [hstart.func]
      exact (hfuncs e (by simp [he]) f hf).symm
    have hvar0 : ∀ t, ∀ v ∈ m0.states ++ m0.inputs, (numbered M).atom t (.var v) = τ0.atom t (.var v) :=
      fun t v hv => hleft t _ (mem_atoms_var hv)
    have hvar1 : ∀ t, ∀ v ∈ m1.states ++ m1.inputs, (numbered M).atom t (.var v) = τ1.atom t (.var v) :=
      fun t v hv => hright t _ (mem_atoms_var hv)
    refine ⟨M, hsame0.encodes h.sorted0 he0, hsame1.encodes h.sorted1 he1, fun s hs s' hs' => ?_, fun s hs s' hs' => ?_,
      fun x hx x' hx' => ?_, fun e he => ?_⟩
    · rw [hvar0 0 s (by simp [hs]), hvar1 0 s' (by simp [mem_of_findState hs'])]
      exact hstart.states s hs s' hs'
    · rw [hvar0 k0 s (by simp [hs]), hvar1 k1 s' (by simp [mem_of_findState hs'])]
      exact hfinal s hs s' hs'
    · rw [hvar0 0 x (by simp [hx]), hvar1 0 x' (by simp [mem_of_findInput hx'])]
      exact hinputs x hx x' hx'
    · have heval : e.eval ((numbered M).frame 0) = e.eval ((joint m1 τ0 τ1).frame 0) :=
        Expr.eval_congr (fun f hf => hfuncs e (List.mem_append_right _ he) f hf) fun a ha =>
          hatom 0 a (List.mem_append_right _ (List.mem_flatMap.mpr ⟨e, he, ha⟩))
      exact heval.trans (hstart.inits e he)

/-! ### Soundness -/

theorem Executes.encodes (hone : OneHot m) {k : Nat} {τ : Trace} (h : Executes m k τ) : Encodes m k τ := by
  intro t ht j hj henj
  obtain ⟨i, hi, heni, htakes⟩ := h t ht
  have hsymm : Std.Symm fun i j => ¬(HostedInstr.Enabled (τ.frame t) ⟨m, i⟩ ∧ HostedInstr.Enabled (τ.frame t) ⟨m, j⟩) :=
    ⟨fun a b hab hba => hab hba.symm⟩
  by_cases hij : i = j
  · exact hij ▸ htakes
  · exact absurd ⟨heni, henj⟩ ((hone (τ.frame t)).forall hi hj hij)

theorem canDifferInAll_of_canDiffer (hone0 : OneHot m0) (hone1 : OneHot m1) (hinputs : m0.inputs = [])
    (hstates : m0.states.length ≤ 1) (h : CanDiffer bmc m0 k0 m1 k1) : CanDifferInAll bmc m0 k0 m1 k1 := by
  obtain ⟨τ0, τ1, ⟨he0, he1⟩, hstart, s, hs, s', hs', hne⟩ := h
  refine ⟨τ0, τ1, ⟨he0.encodes hone0, he1.encodes hone1⟩, ⟨hstart, fun x hx => ?_⟩, fun r hr r' hr' => ?_⟩
  · rw [hinputs] at hx
    cases hx
  · obtain ⟨u, hu⟩ : ∃ u, m0.states = [u] := by
      apply List.length_eq_one_iff.mp
      have hpos := List.length_pos_of_mem hs
      omega
    rw [hu, List.mem_singleton] at hs hr
    subst hs hr
    obtain rfl : s' = r' := Option.some.inj (hs'.symm.trans hr')
    exact hne

/-- The answer `unsat` is right exactly if two executions that can end with different values of some state come with two
traces of the unrolling that end with different values of all of them. That is so with one state, if the decodes are
one-hot and there are no inputs. -/
theorem check_sound_iff (z3 : Z3) (o : Oracle) (bmc : LegacyBmc) (m0 : IlaData) (k0 : Nat) (m1 : IlaData) (k1 : Nat)
    (h : Comparable bmc m0 m1) (hd : Distinct bmc m0 m1) :
    ∃ sat, check z3 o bmc m0 k0 m1 k1 = some sat ∧
      (Sound bmc m0 k0 m1 k1 sat ↔ (CanDiffer bmc m0 k0 m1 k1 → CanDifferInAll bmc m0 k0 m1 k1)) ∧
      (OneHot m0 → OneHot m1 → m0.inputs = [] → m0.states.length ≤ 1 → Sound bmc m0 k0 m1 k1 sat) := by
  obtain ⟨sat, hcheck, hsat⟩ := check_sat z3 o k0 k1 h
  rw [asserted_iff h hd] at hsat
  have hiff : Sound bmc m0 k0 m1 k1 sat ↔ (CanDiffer bmc m0 k0 m1 k1 → CanDifferInAll bmc m0 k0 m1 k1) := by
    constructor
    · rintro hsound ⟨τ0, τ1, ⟨he0, he1⟩, hstart, s, hs, s', hs', hne⟩
      by_contra hall
      have hfalse : sat = false := by rw [← Bool.not_eq_true, hsat]; exact hall
      exact hne (hsound hfalse τ0 τ1 he0 he1 hstart s hs s' hs')
    · intro himp hfalse τ0 τ1 he0 he1 hstart s hs s' hs'
      by_contra hne
      have htrue := hsat.mpr (himp ⟨τ0, τ1, ⟨he0, he1⟩, hstart, s, hs, s', hs', hne⟩)
      rw [hfalse] at htrue
      cases htrue
  exact ⟨sat, hcheck, hiff, fun hone0 hone1 hinputs hstates =>
    hiff.mpr (canDifferInAll_of_canDiffer hone0 hone1 hinputs hstates)⟩

/-! ### A difference in one of two states -/

/-- An ILA with Boolean states and one instruction that is always enabled. -/
def always (name : String) (id : Nat) (states : List (Nat × String)) (updates : List (String × Option Expr)) : IlaData :=
  { IlaData.new id name with
    states := states.map fun s => ⟨s.1, s.2, some name, .bool⟩
    valid := some (.boolConst true)
    instrs := [⟨id, "go", some (.boolConst true), updates, none⟩] }

def flipY : Expr := .not (.var ⟨3, "y", some "a", .bool⟩)

/-- Two models with the states `x` and `y`, of which the first negates `y`. -/
def flipping : IlaData := always "a" 0 [(2, "x"), (3, "y")] [("y", some flipY)]
def resting : IlaData := always "b" 1 [(4, "x"), (5, "y")] []

def oneFlip : IlaData := always "a" 0 [(3, "y")] [("y", some flipY)]
def oneRest : IlaData := always "b" 1 [(5, "y")] []

theorem oneHot_always (name : String) (id : Nat) (states : List (Nat × String)) (updates : List (String × Option Expr)) :
    OneHot (always name id states updates) := fun _ => List.pairwise_singleton _ _

theorem sorted_always {name : String} {id : Nat} {states : List (Nat × String)} {updates : List (String × Option Expr)}
    (h : ∀ s ∈ (always name id states updates).states, ∀ i ∈ (always name id states updates).instrs,
      (stateUpdCmpl i s).check = some s.sort) : Sorted (always name id states updates) := by
  refine ⟨⟨_, rfl, rfl⟩, fun i hi => ?_, fun i hi s hs => h s hs i hi⟩
  obtain rfl := List.mem_singleton.mp hi
  exact ⟨_, rfl, rfl⟩

theorem comparable_always {s0 s1 : List (Nat × String)} {u0 u1 : List (String × Option Expr)}
    (h0 : Sorted (always "a" 0 s0 u0)) (h1 : Sorted (always "b" 1 s1 u1))
    (h : ∀ s ∈ (always "a" 0 s0 u0).states, ∃ s', findState (always "b" 1 s1 u1) s.name = some s' ∧ s'.sort = s.sort) :
    Comparable ⟨[], []⟩ (always "a" 0 s0 u0) (always "b" 1 s1 u1) :=
  ⟨h0, h1, h, fun _ hx => absurd hx List.not_mem_nil, fun _ he => absurd he List.not_mem_nil⟩

theorem comparable_oneFlip : Comparable ⟨[], []⟩ oneFlip oneRest := by
  refine comparable_always (sorted_always (by decide)) (sorted_always (by decide)) fun s hs => ?_
  obtain rfl := List.mem_singleton.mp hs
  exact ⟨_, rfl, rfl⟩

theorem comparable_flipping : Comparable ⟨[], []⟩ flipping resting := by
  refine comparable_always (sorted_always (by decide)) (sorted_always (by decide)) fun s hs => ?_
  simp only [always, List.map_cons, List.map_nil, List.mem_cons, List.not_mem_nil, or_false] at hs
  rcases hs with rfl | rfl
  · exact ⟨_, rfl, rfl⟩
  · exact ⟨_, rfl, rfl⟩

theorem distinct_oneFlip : Distinct ⟨[], []⟩ oneFlip oneRest := ⟨by decide, ⟨by decide, by decide⟩⟩

theorem enabled_always (name : String) (id : Nat) (states : List (Nat × String)) (updates : List (String × Option Expr))
    (ν : Valuation) : HostedInstr.Enabled ν ⟨always name id states updates, ⟨id, "go", some (.boolConst true), updates, none⟩⟩ :=
  ⟨Expr.holds_boolConst_true, _, rfl, Expr.holds_boolConst_true⟩

theorem not_canDifferInAll_oneFlip : ¬CanDifferInAll ⟨[], []⟩ oneFlip 2 oneRest 1 := by
  rintro ⟨τ0, τ1, ⟨he0, he1⟩, ⟨hstart, -⟩, hne⟩
  let y0 : Var := ⟨3, "y", some "a", .bool⟩
  let y1 : Var := ⟨5, "y", some "b", .bool⟩
  have hflip (t : Nat) (ht : t < 2) : flipY.eval (τ0.frame t) = some (τ0.atom (t + 1) (.var y0)) :=
    he0 t ht _ (List.mem_singleton_self _) (enabled_always _ _ _ _ _) y0 List.mem_cons_self
  have hkeep : some (τ1.atom 0 (.var y1)) = some (τ1.atom 1 (.var y1)) :=
    he1 0 Nat.one_pos _ (List.mem_singleton_self _) (enabled_always _ _ _ _ _) y1 List.mem_cons_self
  have hneg (t : Nat) (b : Bool) (hb : τ0.atom t (.var y0) = .bool b) : flipY.eval (τ0.frame t) = some (.bool !b) := by
    change ExprOp.not.apply [τ0.atom t (.var y0)] = _
    rw [hb]
    rfl
  obtain ⟨b, hb⟩ := Value.exists_bool (τ0.atom_sort 0 (.var y0))
  have h1 : τ0.atom 1 (.var y0) = .bool !b := Option.some.inj ((hflip 0 Nat.two_pos).symm.trans (hneg 0 b hb))
  have h2 : τ0.atom 2 (.var y0) = .bool !!b := Option.some.inj ((hflip 1 Nat.one_lt_two).symm.trans (hneg 1 _ h1))
  refine hne y0 List.mem_cons_self y1 rfl ?_
  rw [h2, Bool.not_not, ← hb, ← Option.some.inj hkeep]
  exact hstart.states y0 List.mem_cons_self y1 rfl

end LegacyBmc

open LegacyBmc in
/-- Two steps that negate a state against one that keeps it: the answer is `unsat`. -/
theorem check_sound_twoFlips : check default default ⟨[], []⟩ oneFlip 2 oneRest 1 = some false ∧
    Sound ⟨[], []⟩ oneFlip 2 oneRest 1 false := by
  obtain ⟨sat, hcheck, hsat⟩ := check_sat default default 2 1 comparable_oneFlip
  rw [asserted_iff comparable_oneFlip distinct_oneFlip] at hsat
  obtain ⟨sat', hcheck', -, hsound⟩ :=
    check_sound_iff default default ⟨[], []⟩ oneFlip 2 oneRest 1 comparable_oneFlip distinct_oneFlip
  obtain rfl := Option.some.inj (hcheck.symm.trans hcheck')
  have hfalse : sat = false := by
    rw [← Bool.not_eq_true, hsat]
    exact not_canDifferInAll_oneFlip
  rw [hfalse] at hcheck hsound
  exact ⟨hcheck, hsound (oneHot_always _ _ _ _) (oneHot_always _ _ _ _) rfl (by decide)⟩

namespace LegacyBmc

/-- Everything is false, but `y` of the first model is set by its step. -/
def flipTrace : Trace where
  atom t a := if a = .var ⟨3, "y", some "a", .bool⟩ then .bool (t ≠ 0) else a.sort.default
  atom_sort t a := by
    split
    · rename_i h
      rw [h]
      rfl
    · exact a.sort.sort_default
  func f _ := f.out.default
  func_sort := func_default_sort

theorem executes_flipping : Executes flipping 1 flipTrace := by
  intro t ht
  obtain rfl : t = 0 := by omega
  refine ⟨_, List.mem_singleton_self _, enabled_always _ _ _ _ _, fun s hs => ?_⟩
  simp only [flipping, always, List.map_cons, List.map_nil, List.mem_cons, List.not_mem_nil, or_false] at hs
  rcases hs with rfl | rfl
  · rfl
  · rfl

theorem executes_resting : Executes resting 1 flipTrace := by
  intro t ht
  obtain rfl : t = 0 := by omega
  refine ⟨_, List.mem_singleton_self _, enabled_always _ _ _ _ _, fun s hs => ?_⟩
  simp only [resting, always, List.map_cons, List.map_nil, List.mem_cons, List.not_mem_nil, or_false] at hs
  rcases hs with rfl | rfl
  · rfl
  · rfl

theorem not_asserted_flipping (τ : Trace) : ¬Asserted ⟨[], []⟩ flipping 1 resting 1 τ := by
  intro h
  let x0 : Var := ⟨2, "x", some "a", .bool⟩
  let x1 : Var := ⟨4, "x", some "b", .bool⟩
  have hx0 : x0 ∈ flipping.states := List.mem_cons_self
  have hx1 : x1 ∈ resting.states := List.mem_cons_self
  have hfind : findState resting x0.name = some x1 := rfl
  have hstep0 := h.encodes0 0 Nat.one_pos _ (List.mem_singleton_self _) (enabled_always _ _ _ _ _) x0 hx0
  have hstep1 := h.encodes1 0 Nat.one_pos _ (List.mem_singleton_self _) (enabled_always _ _ _ _ _) x1 hx1
  have hkeep0 : τ.atom 0 (.var x0) = τ.atom 1 (.var x0) := Option.some.inj hstep0
  have hkeep1 : τ.atom 0 (.var x1) = τ.atom 1 (.var x1) := Option.some.inj hstep1
  refine h.final x0 hx0 x1 hfind ?_
  rw [← hkeep0, ← hkeep1, h.start x0 hx0 x1 hfind]

end LegacyBmc

open LegacyBmc in
/-- The first model negates `y` and the second does not, and the answer is `unsat`. -/
theorem check_misses_difference : check default default ⟨[], []⟩ flipping 1 resting 1 = some false ∧
    ¬Sound ⟨[], []⟩ flipping 1 resting 1 false := by
  constructor
  · obtain ⟨sat, hcheck, hsat⟩ := check_sat default default 1 1 comparable_flipping
    cases sat with
    | false => exact hcheck
    | true =>
      obtain ⟨M, hM⟩ := hsat.mp rfl
      exact absurd hM (not_asserted_flipping _)
  · intro hsound
    have hstart : Starts ⟨[], []⟩ flipping resting flipTrace flipTrace := by
      refine ⟨rfl, fun s hs s' hs' => ?_, fun _ he => absurd he List.not_mem_nil⟩
      simp only [flipping, always, List.map_cons, List.map_nil, List.mem_cons, List.not_mem_nil, or_false] at hs
      rcases hs with rfl | rfl
      · obtain rfl := Option.some.inj hs'
        rfl
      · obtain rfl := Option.some.inj hs'
        rfl
    have heq := hsound rfl flipTrace flipTrace executes_flipping executes_resting hstart ⟨3, "y", some "a", .bool⟩
      (List.mem_cons_of_mem _ List.mem_cons_self) ⟨5, "y", some "b", .bool⟩ rfl
    cases heq

end Ilang
