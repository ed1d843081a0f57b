import Ilang.Target.VerilogExact
import Ilang.Verilog.Ports

/-!
# Memory updates in generated Verilog

The update of a memory is a tree of STORE and ITE nodes over the memory itself. `VisitMemNodes` turns it into one
list of writes for every branch, under the conjunction of the conditions on the way, and `ExportCondWrites` turns
the lists into write ports: port `i` has the `i`-th write of the branch whose condition holds. The writes of a
branch stand from the outside in, and a clock edge executes the ports in that order, so of two stores to one
address the inner one stays. A write to a word that the memory was not declared with is lost.
-/

namespace Ilang

open Smt

namespace VerilogGen

/-! ### The writes of an update -/

structure MemWriteEntry where
  addr : Node
  data : Node

structure MemWrite where
  cond : Node
  writes : List MemWriteEntry

/-- The conditions that the generator builds. Nothing reads their pointers. -/
def andNode (a b : Node) : Node := .app 0 (.op .and) [a, b]

def notNode (a : Node) : Node := .app 0 (.op .not) [a]

def trueNode : Node := .leaf 0 (.const (.bool true))

/-- `CheckMemUpdateNode`: the update is a tree of stores and choices over the memory. -/
def checkMemUpdateNode (sanitizeName : String → String) (memVarName : String) : Node → Bool
  | .leaf _ (.var v) => sanitizeName v.name == memVarName
  | .app _ (.op .store) [m, _, _] => checkMemUpdateNode sanitizeName memVarName m
  | .app _ (.op .ite) [_, t, e] =>
    checkMemUpdateNode sanitizeName memVarName t && checkMemUpdateNode sanitizeName memVarName e
  | _ => false
termination_by structural n => n

/-- What is accepted: stores and choices over one memory variable. -/
inductive MemUpdate (v : Var) : Node → Prop
  | var (p : Nat) : MemUpdate v (.leaf p (.var v))
  | store (p : Nat) {m : Node} (a d : Node) (hm : MemUpdate v m) : MemUpdate v (.app p (.op .store) [m, a, d])
  | ite (p : Nat) (c : Node) {t e : Node} (ht : MemUpdate v t) (he : MemUpdate v e) :
    MemUpdate v (.app p (.op .ite) [c, t, e])

theorem memUpdate_of_check {sanitizeName : String → String} {memVarName : String} {v : Var} {n : Node}
    (hvar : ∀ u, .var u ∈ n.expr.atoms → sanitizeName u.name = memVarName → u = v)
    (h : checkMemUpdateNode sanitizeName memVarName n = true) : MemUpdate v n := by
  fun_induction checkMemUpdateNode sanitizeName memVarName n with
  | case1 p u =>
    obtain rfl := hvar u (by simp [Node.expr, Expr.atoms]) (by simpa using h)
    exact .var p
  | case2 p m a d ih =>
    refine .store p a d (ih (fun u hu => hvar u ?_) h)
    simp [Node.expr, Node.exprList, Expr.atoms, Expr.atomsList, hu]
  | case3 p c t e iht ihe =>
    rw [Bool.and_eq_true] at h
    refine .ite p c (iht (fun u hu => hvar u ?_) h.1) (ihe (fun u hu => hvar u ?_) h.2)
    · simp [Node.expr, Node.exprList, Expr.atoms, Expr.atomsList, hu]
    · simp [Node.expr, Node.exprList, Expr.atoms, Expr.atomsList, hu]
  | case4 n => simp at h

/-- What `VisitMemNodes` works on: the stack of the writes on the way, its back first, and `current_writes`. -/
structure VisitState where
  writesStack : List (List MemWriteEntry)
  currentWrites : List MemWrite

namespace VisitState

def back (st : VisitState) : List MemWriteEntry := st.writesStack.headD []

def push (st : VisitState) (ws : List MemWriteEntry) : VisitState :=
  { st with writesStack := ws :: st.writesStack }

def pop (st : VisitState) : VisitState := { st with writesStack := st.writesStack.tail }

/-- The back of the stack is a reference: the write is added in place. -/
def addWrite (st : VisitState) (w : MemWriteEntry) : VisitState :=
  { st with writesStack := (st.back ++ [w]) :: st.writesStack.tail }

end VisitState

/-- `VisitMemNodes`. -/
def visitMemNodes : Node → Node → VisitState → VisitState
  | .leaf _ _, cond, st => { st with currentWrites := st.currentWrites ++ [⟨cond, st.back⟩] }
  | .app _ (.op .ite) [c, t, e], cond, st =>
    let writes := st.back
    let st₁ := visitMemNodes t (andNode cond c) (st.push writes)
    let st₂ := visitMemNodes e (andNode cond (notNode c)) (st₁.pop.push writes)
    st₂.pop
  | .app _ (.op .store) [m, a, d], cond, st => visitMemNodes m cond (st.addWrite ⟨a, d⟩)
  | _, _, st => st
termination_by structural n => n

/-- `ParseMemUpdateNode`. -/
def parseMemUpdateNode (cond e : Node) : List MemWrite := (visitMemNodes e cond ⟨[[]], []⟩).currentWrites

/-- The writes of the branches of an update below a list of writes, without the stack. -/
def branchWrites : Node → Node → List MemWriteEntry → List MemWrite
  | .leaf _ _, cond, ws => [⟨cond, ws⟩]
  | .app _ (.op .ite) [c, t, e], cond, ws =>
    branchWrites t (andNode cond c) ws ++ branchWrites e (andNode cond (notNode c)) ws
  | .app _ (.op .store) [m, a, d], cond, ws => branchWrites m cond (ws ++ [⟨a, d⟩])
  | _, _, _ => []
termination_by structural n => n

theorem visitMemNodes_eq {v : Var} {n : Node} (h : MemUpdate v n) (cond : Node) (ws : List MemWriteEntry)
    (rest : List (List MemWriteEntry)) (cur : List MemWrite) : ∃ extra,
      visitMemNodes n cond ⟨ws :: rest, cur⟩ = ⟨(ws ++ extra) :: rest, cur ++ branchWrites n cond ws⟩ := by
  induction h generalizing cond ws rest cur with
  | var p => exact ⟨[], by simp [visitMemNodes, branchWrites, VisitState.back]⟩
  | store p a d hm ih =>
    obtain ⟨x, hx⟩ := ih cond (ws ++ [⟨a, d⟩]) rest cur
    refine ⟨⟨a, d⟩ :: x, ?_⟩
    rw [visitMemNodes, branchWrites]
    simp only [VisitState.addWrite, VisitState.back, List.headD_cons, List.tail_cons, hx, List.append_assoc,
      List.singleton_append]
  | ite p c ht he iht ihe =>
    rename_i t e
    obtain ⟨x, hx⟩ := iht (andNode cond c) ws (ws :: rest) cur
    obtain ⟨y, hy⟩ := ihe (andNode cond (notNode c)) ws (ws :: rest) (cur ++ branchWrites t (andNode cond c) ws)
    refine ⟨[], ?_⟩
    rw [visitMemNodes, branchWrites]
    simp only [VisitState.back, VisitState.push, VisitState.pop, List.headD_cons, List.tail_cons, hx, hy,
      List.append_nil, List.append_assoc]

theorem parseMemUpdateNode_eq {v : Var} {e : Node} (h : MemUpdate v e) (cond : Node) :
    parseMemUpdateNode cond e = branchWrites e cond [] := by
  obtain ⟨extra, hvisit⟩ := visitMemNodes_eq h cond [] [] []
  rw [parseMemUpdateNode, hvisit]
  exact List.nil_append _

/-! ### The ports -/

/-- A chain of conditional operators over wires, ending in zero. -/
inductive Chain (α : Type) where
  | zero
  | ite (cond : Node) (val : α) (rest : Chain α)

/-- The wires of a port: its address, its data and whether it writes. -/
structure Port where
  addr : Chain Node
  data : Chain Node
  wen : Chain Unit

/-- One round of the loop over the writes of a branch. -/
def wrapPorts (cond : Node) : List MemWriteEntry → List Port → List Port
  | w :: ws, p :: ps =>
    ⟨.ite cond w.addr p.addr, .ite cond w.data p.data, .ite cond () p.wen⟩ :: wrapPorts cond ws ps
  | _, ps => ps

def maxPortNo (mws : List MemWrite) : Nat := mws.foldr (fun mw n => max mw.writes.length n) 0

/-- The loop over the branches, over a given number of ports that write nothing. It runs from the last branch to
the first. -/
def wrapAll (mws : List MemWrite) (n : Nat) : List Port :=
  mws.foldr (fun mw ps => wrapPorts mw.cond mw.writes ps) (List.replicate n ⟨.zero, .zero, .zero⟩)

/-- `ExportCondWrites`: as many ports as a branch has writes at most. -/
def exportCondWrites (mws : List MemWrite) : List Port := wrapAll mws (maxPortNo mws)

/-! ### What the ports write -/

variable (κ : MemConfig)

/-- The net of an expression. -/
def wire (ν : Valuation) (n : Node) : Option Verilog.Net := ((meaning κ ν).denote (gen κ) n).bind id

def wireBits (ν : Valuation) (w : Nat) (n : Node) : Option (BitVec w) :=
  (wire κ ν n).bind fun
    | .vec _ _ x => some (x.setWidth w)
    | .mem _ _ _ _ => none

def wireBool (ν : Valuation) (n : Node) : Option Bool := (wireBits κ ν 1 n).map fun x => x.getLsbD 0

namespace Chain

def eval {α β : Type} (ν : Valuation) (val : α → Option β) (zero : β) : Chain α → Option β
  | .zero => some zero
  | .ite c a rest => (wireBool κ ν c).bind fun b => if b then val a else rest.eval ν val zero

end Chain

/-- What a port does at an edge: nothing, or a write. With a start signal every enable is conjoined with it. -/
def Port.exec (ν : Valuation) (started : Bool) (a d : Nat) (p : Port) : Option (Option (BitVec a × BitVec d)) :=
  (p.wen.eval κ ν (fun _ => some started) false).bind fun en =>
    (p.addr.eval κ ν (wireBits κ ν a) 0).bind fun x =>
      (p.data.eval κ ν (wireBits κ ν d) 0).map fun y => if en then some (x, y) else none

/-- A memory after the writes of an edge. Those to words that an array does not have are lost. In a register an
address selects a bit, which a register of one bit does not allow in any statement. -/
def MemDecl.commit {a d : Nat} (ports : Nat) (ws : List (BitVec a × BitVec d)) (m : BitVec a → BitVec d) :
    MemDecl → Option (BitVec a → BitVec d)
  | .external => some (Verilog.commit ws m)
  | .array n => some (Verilog.commitIn (fun x => x.toNat < n) ws m)
  | .reg =>
    if ports = 0 then some m
    else if 1 < d then some (Function.update m 0 (Verilog.commitBits ws (m 0))) else none

/-- The memory after the edge: the writes that are enabled, in the order of the ports. The writes to a declared
memory are under the valid signal; what is outside the module sees the enables only. -/
def execPorts (ν : Valuation) (c : MemDecl) (started valid : Bool) {a d : Nat} (ports : List Port)
    (m : BitVec a → BitVec d) : Option (BitVec a → BitVec d) :=
  (ports.mapM (Port.exec κ ν started a d)).bind fun ws =>
    c.commit ports.length (if c = .external ∨ valid = true then ws.filterMap id else []) m

/-! ### Wires that hold the values of conditions, addresses and data -/

/-- The wire of a condition holds its value. -/
structure CondOk (ν : Valuation) (n : Node) (b : Bool) : Prop where
  check : n.expr.check = some .bool
  wire : WireOk κ ν n
  eval : n.expr.eval ν = some (.bool b)

variable {κ} {ν : Valuation}

theorem condOk_true : CondOk κ ν trueNode true := ⟨rfl, rfl, rfl⟩

theorem checkList_conds {ms : List Node} {bs : List Bool} (h : List.Forall₂ (CondOk κ ν) ms bs) :
    Expr.checkList (Node.exprList ms) = some (bs.map fun _ => .bool) := by
  induction h with
  | nil => rfl
  | cons hm _ ih => rw [Node.exprList, Expr.checkList, hm.check, ih]; rfl

theorem evalList_conds {ms : List Node} {bs : List Bool} (h : List.Forall₂ (CondOk κ ν) ms bs) :
    Expr.evalList ν (Node.exprList ms) = some (bs.map .bool) := by
  induction h with
  | nil => rfl
  | cons hm _ ih => rw [Node.exprList, Expr.evalList, hm.eval, ih]; rfl

theorem condOk_of_mem {ms : List Node} {bs : List Bool} (h : List.Forall₂ (CondOk κ ν) ms bs) {m : Node} (hm : m ∈ ms) :
    ∃ b, CondOk κ ν m b := by
  induction h with
  | nil => simp at hm
  | cons hhead _ ih =>
    rcases List.mem_cons.mp hm with rfl | hm
    · exact ⟨_, hhead⟩
    · exact ih hm

theorem condOk_op {o : ExprOp} {ms : List Node} {bs : List Bool} {b : Bool} (h : List.Forall₂ (CondOk κ ν) ms bs)
    (hcheck : o.check (bs.map fun _ => .bool) = some .bool) (happly : o.apply (bs.map .bool) = some (.bool b))
    (htext : (translateBoolOp o).isSome) (hsafe : OpSafe κ o ms (bs.map .bool)) : CondOk κ ν (.app 0 (.op o) ms) b := by
  have hss := checkList_conds h
  have hvs := evalList_conds h
  have hch : (Node.app 0 (.op o) ms).expr.check = some .bool := by
    rw [Node.expr, Expr.check, hss]
    exact hcheck
  have heval : (Node.app 0 (.op o) ms).expr.eval ν = some (.bool b) := by
    rw [Node.expr, Expr.eval, hvs]
    exact happly
  have hsort : (Node.app 0 (.op o) ms).expr.sort = .bool := Expr.sort_of_check hch
  have hpos : ∀ k ∈ ms, 0 < getWidth k.expr.sort := by
    intro k hk
    obtain ⟨_, hok⟩ := condOk_of_mem h hk
    rw [Expr.sort_of_check hok.check]
    decide
  have hwires : ∀ k ∈ ms, WireOk κ ν k := by
    intro k hk
    obtain ⟨_, hok⟩ := condOk_of_mem h hk
    exact hok.wire
  have hplan : (plan κ (.app 0 (.op o) ms)).isSome := by
    simpa only [plan, hsort, Option.isSome_map] using htext
  refine ⟨hch, ?_, heval⟩
  rw [wireOk_app_iff heval rfl]
  exact (denote_op hss hsort rfl hpos hvs happly hwires hplan).mpr hsafe

theorem CondOk.and {m n : Node} {a b : Bool} (hm : CondOk κ ν m a) (hn : CondOk κ ν n b) :
    CondOk κ ν (andNode m n) (a && b) :=
  condOk_op (.cons hm (.cons hn .nil)) rfl rfl rfl trivial

theorem CondOk.not {m : Node} {a : Bool} (hm : CondOk κ ν m a) : CondOk κ ν (notNode m) (!a) :=
  condOk_op (.cons hm .nil) rfl rfl rfl trivial

theorem WireOk.wireBits {n : Node} {w : Nat} {x : BitVec w} (h : WireOk κ ν n) (heval : n.expr.eval ν = some (.bv w x)) :
    wireBits κ ν w n = some x := by
  rw [WireOk, heval] at h
  simp [VerilogGen.wireBits, wire, h, netAs, netOf]

theorem CondOk.wireBool {n : Node} {b : Bool} (h : CondOk κ ν n b) : wireBool κ ν n = some b := by
  have hwire := h.wire
  rw [WireOk, h.eval] at hwire
  simp [VerilogGen.wireBool, VerilogGen.wireBits, VerilogGen.wire, hwire, netAs, netOf]

/-! ### Exactly one branch is active -/

/-- The conditions, addresses and data of an update. -/
def operands : Node → List Node
  | .app _ (.op .store) [m, a, d] => a :: d :: operands m
  | .app _ (.op .ite) [c, t, e] => c :: (operands t ++ operands e)
  | _ => []
termination_by structural n => n

/-- The stores on the branch that the conditions select, from the outside in. -/
def takenStores (ν : Valuation) : Node → List MemWriteEntry
  | .app _ (.op .store) [m, a, d] => ⟨a, d⟩ :: takenStores ν m
  | .app _ (.op .ite) [c, t, e] => if Value.isTrue (c.expr.eval ν) then takenStores ν t else takenStores ν e
  | _ => []
termination_by structural n => n

def bitsOf (w : Nat) : Option Value → BitVec w
  | some (.bv _ x) => x.setWidth w
  | _ => 0

def storeVal (ν : Valuation) (a d : Nat) (w : MemWriteEntry) : BitVec a × BitVec d :=
  (bitsOf a (w.addr.expr.eval ν), bitsOf d (w.data.expr.eval ν))

/-- What the selected branch stores, from the outside in. -/
def takenWrites (ν : Valuation) (a d : Nat) (e : Node) : List (BitVec a × BitVec d) :=
  (takenStores ν e).map (storeVal ν a d)

def AllInactive (κ : MemConfig) (ν : Valuation) (mws : List MemWrite) : Prop := ∀ mw ∈ mws, CondOk κ ν mw.cond false

/-- One branch has a condition that holds, and these are its writes. -/
def OneActive (κ : MemConfig) (ν : Valuation) (mws : List MemWrite) (ws : List MemWriteEntry) : Prop :=
  ∃ pre mw post, mws = pre ++ mw :: post ∧ AllInactive κ ν pre ∧ AllInactive κ ν post ∧ CondOk κ ν mw.cond true ∧
    mw.writes = ws

theorem AllInactive.append {x y : List MemWrite} (hx : AllInactive κ ν x) (hy : AllInactive κ ν y) :
    AllInactive κ ν (x ++ y) := by
  intro mw hmw
  rcases List.mem_append.mp hmw with h | h
  · exact hx mw h
  · exact hy mw h

theorem OneActive.append_right {x y : List MemWrite} {ws : List MemWriteEntry} (hx : OneActive κ ν x ws)
    (hy : AllInactive κ ν y) : OneActive κ ν (x ++ y) ws := by
  obtain ⟨pre, mw, post, rfl, hpre, hpost, hmw, hws⟩ := hx
  exact ⟨pre, mw, post ++ y, by simp, hpre, hpost.append hy, hmw, hws⟩

theorem OneActive.append_left {x y : List MemWrite} {ws : List MemWriteEntry} (hx : AllInactive κ ν x)
    (hy : OneActive κ ν y ws) : OneActive κ ν (x ++ y) ws := by
  obtain ⟨pre, mw, post, rfl, hpre, hpost, hmw, hws⟩ := hy
  exact ⟨x ++ pre, mw, post, by simp, hx.append hpre, hpost, hmw, hws⟩

theorem condOk_of_wireOk {c : Node} (hcheck : c.expr.check = some .bool) (hwire : WireOk κ ν c) :
    CondOk κ ν c (Value.isTrue (c.expr.eval ν)) := by
  obtain ⟨v, hv, hsort⟩ := Expr.eval_of_check hcheck ν
  obtain ⟨b, rfl⟩ := Value.exists_bool hsort
  rw [hv]
  exact ⟨hcheck, hwire, hv⟩

theorem branchWrites_inactive {v : Var} {n : Node} (h : MemUpdate v n) {a d : Nat}
    (hcheck : n.expr.check = some (.mem a d)) (hok : ∀ o ∈ operands n, WireOk κ ν o) {cond : Node}
    (hc : CondOk κ ν cond false) (ws : List MemWriteEntry) : AllInactive κ ν (branchWrites n cond ws) := by
  induction h generalizing cond ws with
  | var p =>
    intro mw hmw
    rw [branchWrites, List.mem_singleton] at hmw
    rw [hmw]
    exact hc
  | store p x y hm ih =>
    rw [branchWrites]
    exact ih (Expr.check_store hcheck).1 (fun o ho => hok o (by simp [operands, ho])) hc _
  | ite p c ht he iht ihe =>
    obtain ⟨hcc, htc, hec⟩ := Expr.check_ite hcheck
    have hcond := condOk_of_wireOk hcc (hok c (by simp [operands]))
    rw [branchWrites]
    exact (iht htc (fun o ho => hok o (by simp [operands, ho])) (hc.and hcond) ws).append
      (ihe hec (fun o ho => hok o (by simp [operands, ho])) (hc.and hcond.not) ws)

theorem branchWrites_active {v : Var} {n : Node} (h : MemUpdate v n) {a d : Nat}
    (hcheck : n.expr.check = some (.mem a d)) (hok : ∀ o ∈ operands n, WireOk κ ν o) {cond : Node}
    (hc : CondOk κ ν cond true) (ws : List MemWriteEntry) :
    OneActive κ ν (branchWrites n cond ws) (ws ++ takenStores ν n) := by
  induction h generalizing cond ws with
  | var p => exact ⟨[], ⟨cond, ws⟩, [], rfl, by simp [AllInactive], by simp [AllInactive], hc, by simp [takenStores]⟩
  | store p x y hm ih =>
    have hm := ih (Expr.check_store hcheck).1 (fun o ho => hok o (by simp [operands, ho])) hc (ws ++ [⟨x, y⟩])
    rw [List.append_assoc] at hm
    exact hm
  | ite p c ht he iht ihe =>
    obtain ⟨hcc, htc, hec⟩ := Expr.check_ite hcheck
    have hcond := condOk_of_wireOk hcc (hok c (by simp [operands]))
    rw [branchWrites, takenStores]
    cases hb : Value.isTrue (c.expr.eval ν) with
    | true =>
      rw [hb] at hcond
      exact (iht htc (fun o ho => hok o (by simp [operands, ho])) (hc.and hcond) ws).append_right
        (branchWrites_inactive he hec (fun o ho => hok o (by simp [operands, ho])) (hc.and hcond.not) ws)
    | false =>
      rw [hb] at hcond
      exact OneActive.append_left
        (branchWrites_inactive ht htc (fun o ho => hok o (by simp [operands, ho])) (hc.and hcond) ws)
        (ihe hec (fun o ho => hok o (by simp [operands, ho])) (hc.and hcond.not) ws)

/-! ### The ports write what the active branch writes -/

variable {started : Bool} {a d : Nat}

theorem exec_wrapPorts_inactive {cond : Node} (hc : CondOk κ ν cond false) (ws : List MemWriteEntry) (ps : List Port) :
    (wrapPorts cond ws ps).mapM (Port.exec κ ν started a d) = ps.mapM (Port.exec κ ν started a d) := by
  induction ws generalizing ps with
  | nil => rw [wrapPorts]; simp
  | cons w ws ih =>
    cases ps with
    | nil => rw [wrapPorts]; simp
    | cons p ps =>
      have hport : Port.exec κ ν started a d ⟨.ite cond w.addr p.addr, .ite cond w.data p.data, .ite cond () p.wen⟩ =
          Port.exec κ ν started a d p := by
        simp [Port.exec, Chain.eval, hc.wireBool]
      rw [wrapPorts, List.mapM_cons, List.mapM_cons, hport, ih]

/-- The wires of a write hold its values. -/
def EntryOk (κ : MemConfig) (ν : Valuation) (a d : Nat) (w : MemWriteEntry) : Prop :=
  wireBits κ ν a w.addr = some (storeVal ν a d w).1 ∧ wireBits κ ν d w.data = some (storeVal ν a d w).2

theorem exec_wrapPorts_active {cond : Node} (hc : CondOk κ ν cond true) {ws : List MemWriteEntry}
    (hws : ∀ w ∈ ws, EntryOk κ ν a d w) {ps : List Port} (hlen : ws.length ≤ ps.length)
    {vals : List (Option (BitVec a × BitVec d))} (hps : ps.mapM (Port.exec κ ν true a d) = some vals) :
    (wrapPorts cond ws ps).mapM (Port.exec κ ν true a d) =
      some ((ws.map fun w => some (storeVal ν a d w)) ++ vals.drop ws.length) := by
  induction ws generalizing ps vals with
  | nil =>
    rw [wrapPorts]
    · simpa using hps
    · simp
  | cons w ws ih =>
    cases ps with
    | nil => simp at hlen
    | cons p ps =>
      rw [List.mapM_cons] at hps
      simp only [Option.bind_eq_bind, Option.bind_eq_some_iff, Option.pure_def, Option.some.injEq] at hps
      obtain ⟨val, -, vals', hvals', rfl⟩ := hps
      have hw := hws w List.mem_cons_self
      have hport : Port.exec κ ν true a d ⟨.ite cond w.addr p.addr, .ite cond w.data p.data, .ite cond () p.wen⟩ =
          some (some (storeVal ν a d w)) := by
        simp [Port.exec, Chain.eval, hc.wireBool, hw.1, hw.2]
      have hrest := ih (fun u hu => hws u (List.mem_cons_of_mem w hu)) (by simpa using hlen) hvals'
      rw [wrapPorts, List.mapM_cons, hport, hrest]
      rfl

theorem length_wrapPorts (cond : Node) (ws : List MemWriteEntry) (ps : List Port) :
    (wrapPorts cond ws ps).length = ps.length := by
  induction ws generalizing ps with
  | nil => rw [wrapPorts]; simp
  | cons w ws ih =>
    cases ps with
    | nil => rw [wrapPorts]; simp
    | cons p ps => rw [wrapPorts, List.length_cons, List.length_cons, ih]

theorem length_wrapAll (mws : List MemWrite) (n : Nat) : (wrapAll mws n).length = n := by
  induction mws with
  | nil => simp [wrapAll]
  | cons mw mws ih => rw [wrapAll, List.foldr_cons, length_wrapPorts]; exact ih

theorem exec_wrapAll_inactive {mws : List MemWrite} (h : AllInactive κ ν mws) (n : Nat) :
    (wrapAll mws n).mapM (Port.exec κ ν started a d) = some (List.replicate n none) := by
  induction mws with
  | nil =>
    induction n with
    | zero => rfl
    | succ n ih =>
      rw [wrapAll, List.foldr_nil, List.replicate_succ, List.mapM_cons]
      rw [wrapAll, List.foldr_nil] at ih
      rw [ih]
      rfl
  | cons mw mws ih =>
    rw [wrapAll, List.foldr_cons, exec_wrapPorts_inactive (h mw List.mem_cons_self)]
    exact ih fun x hx => h x (List.mem_cons_of_mem mw hx)

theorem length_le_maxPortNo {mws : List MemWrite} {mw : MemWrite} (h : mw ∈ mws) : mw.writes.length ≤ maxPortNo mws := by
  induction mws with
  | nil => simp at h
  | cons x mws ih =>
    rw [maxPortNo, List.foldr_cons]
    rcases List.mem_cons.mp h with rfl | h
    · exact Nat.le_max_left _ _
    · exact le_trans (ih h) (Nat.le_max_right _ _)

theorem exec_wrapAll_active {mws : List MemWrite} {ws : List MemWriteEntry} (h : OneActive κ ν mws ws) {n : Nat}
    (hn : ∀ mw ∈ mws, mw.writes.length ≤ n) (hws : ∀ w ∈ ws, EntryOk κ ν a d w) :
    (wrapAll mws n).mapM (Port.exec κ ν true a d) =
      some ((ws.map fun w => some (storeVal ν a d w)) ++ List.replicate (n - ws.length) none) := by
  obtain ⟨pre, mw, post, rfl, hpre, hpost, hmw, rfl⟩ := h
  induction pre with
  | nil =>
    rw [List.nil_append, wrapAll, List.foldr_cons]
    have hlen : mw.writes.length ≤ (wrapAll post n).length := by
      rw [length_wrapAll]
      exact hn mw (by simp)
    have hact := exec_wrapPorts_active hmw hws hlen (exec_wrapAll_inactive hpost n)
    rw [List.drop_replicate] at hact
    exact hact
  | cons x pre ih =>
    rw [List.cons_append, wrapAll, List.foldr_cons, exec_wrapPorts_inactive (hpre x List.mem_cons_self)]
    exact ih (fun m hm => hn m (List.mem_cons_of_mem x hm)) fun m hm => hpre m (List.mem_cons_of_mem x hm)

theorem execPorts_of_oneActive {mws : List MemWrite} {ws : List MemWriteEntry} (h : OneActive κ ν mws ws)
    (hws : ∀ w ∈ ws, EntryOk κ ν a d w) (c : MemDecl) (valid : Bool) (m : BitVec a → BitVec d) :
    execPorts κ ν c true valid (exportCondWrites mws) m =
      c.commit (maxPortNo mws) (if c = .external ∨ valid = true then ws.map (storeVal ν a d) else []) m := by
  have hexec := exec_wrapAll_active h (fun mw hmw => length_le_maxPortNo hmw) hws
  have hvals : ((ws.map fun w => some (storeVal ν a d w)) ++
      List.replicate (maxPortNo mws - ws.length) none).filterMap id = ws.map (storeVal ν a d) := by
    rw [List.filterMap_append, List.filterMap_replicate_of_none rfl, List.append_nil, List.filterMap_map]
    simp
  rw [execPorts, exportCondWrites, hexec, Option.bind_some, hvals, length_wrapAll]

/-- An update stores somewhere, on some branch. -/
def hasStore : Node → Bool
  | .app _ (.op .store) [_, _, _] => true
  | .app _ (.op .ite) [_, t, e] => hasStore t || hasStore e
  | _ => false
termination_by structural n => n

theorem maxPortNo_append (x y : List MemWrite) : maxPortNo (x ++ y) = max (maxPortNo x) (maxPortNo y) := by
  induction x with
  | nil => simp [maxPortNo]
  | cons mw x ih =>
    have hcons : ∀ mws, maxPortNo (mw :: mws) = max mw.writes.length (maxPortNo mws) := fun _ => rfl
    rw [List.cons_append, hcons, hcons, ih, Nat.max_assoc]

theorem maxPortNo_pos {v : Var} {n : Node} (h : MemUpdate v n) (cond : Node) (ws : List MemWriteEntry) :
    0 < maxPortNo (branchWrites n cond ws) ↔ ws ≠ [] ∨ hasStore n = true := by
  induction h generalizing cond ws with
  | var p => simp [branchWrites, maxPortNo, hasStore, List.length_pos_iff]
  | store p x y hm ih =>
    rw [branchWrites, ih]
    simp [hasStore]
  | ite p c ht he iht ihe =>
    rw [branchWrites, maxPortNo_append, lt_max_iff, iht, ihe, hasStore, Bool.or_eq_true]
    tauto

theorem takenStores_eq_nil {v : Var} {n : Node} (h : MemUpdate v n) (hno : hasStore n = false) (ν : Valuation) :
    takenStores ν n = [] := by
  induction h with
  | var p => simp [takenStores]
  | store p x y hm ih => simp [hasStore] at hno
  | ite p c ht he iht ihe =>
    rw [hasStore, Bool.or_eq_false_iff] at hno
    rw [takenStores, iht hno.1, ihe hno.2, ite_self]

/-! ### Where the order and the declaration do not show -/

/-- The stores that are executed, the last of which stays, leave in a declared memory what other stores, the first
of which is to stay, leave in a memory with a word at every address. -/
def StoresAgree (c : MemDecl) (stores : Bool) (executed asked : List (BitVec a × BitVec d)) (m : BitVec a → BitVec d) :
    Prop :=
  match c with
  | .external => ∀ x, (Verilog.lastAt executed x).getD (m x) = (Verilog.firstAt asked x).getD (m x)
  | .array n => ∀ x, (Verilog.firstAt asked x).getD (m x) =
      if x.toNat < n then (Verilog.lastAt executed x).getD (m x) else m x
  | .reg => (stores = true → 1 < d) ∧ (∀ x, x ≠ 0 → (Verilog.firstAt asked x).getD (m x) = m x) ∧
      ∀ i < d, ((Verilog.firstAt asked 0).getD (m 0)).getLsbD i =
        (Verilog.lastBit executed i).getD ((m 0).getLsbD i)

theorem commitBits_eq_iff {ws : List (BitVec a × BitVec d)} {x y : BitVec d} :
    Verilog.commitBits ws x = y ↔ ∀ i < d, y.getLsbD i = (Verilog.lastBit ws i).getD (x.getLsbD i) := by
  constructor
  · rintro rfl i hi
    exact Verilog.getLsbD_commitBits ws x hi
  · intro h
    refine BitVec.eq_of_getLsbD_eq fun i hi => ?_
    rw [Verilog.getLsbD_commitBits ws x hi, h i hi]

theorem commit_reg_iff {executed asked : List (BitVec a × BitVec d)} {m : BitVec a → BitVec d} :
    Function.update m 0 (Verilog.commitBits executed (m 0)) = Verilog.commit asked.reverse m ↔
      (∀ x, x ≠ 0 → (Verilog.firstAt asked x).getD (m x) = m x) ∧
        ∀ i < d, ((Verilog.firstAt asked 0).getD (m 0)).getLsbD i =
          (Verilog.lastBit executed i).getD ((m 0).getLsbD i) := by
  rw [← commitBits_eq_iff, funext_iff]
  constructor
  · intro h
    refine ⟨fun x hx => ?_, ?_⟩
    · have hat := h x
      rw [Function.update_of_ne hx, Verilog.commit_reverse_apply] at hat
      exact hat.symm
    · have hat := h 0
      rw [Function.update_self, Verilog.commit_reverse_apply] at hat
      exact hat
  · rintro ⟨hother, hzero⟩ x
    rw [Verilog.commit_reverse_apply]
    by_cases hx : x = 0
    · subst hx
      rw [Function.update_self, hzero]
    · rw [Function.update_of_ne hx, hother x hx]

theorem commit_eq_iff {c : MemDecl} {ports : Nat} {stores : Bool} (hports : 0 < ports ↔ stores = true)
    {executed asked : List (BitVec a × BitVec d)} (hexec : ports = 0 → executed = []) {m : BitVec a → BitVec d} :
    c.commit ports executed m = some (Verilog.commit asked.reverse m) ↔ StoresAgree c stores executed asked m := by
  cases c with
  | external =>
    rw [MemDecl.commit, Option.some.injEq, funext_iff]
    simp only [Verilog.commit_apply, Verilog.lastAt, List.reverse_reverse]
    rfl
  | array n =>
    rw [MemDecl.commit, Option.some.injEq, funext_iff]
    refine forall_congr' fun x => ?_
    rw [Verilog.commitIn_apply, Verilog.commit_reverse_apply, eq_comm]
    simp
  | reg =>
    rw [MemDecl.commit, StoresAgree, ← commit_reg_iff]
    by_cases hzero : ports = 0
    · have hno : ¬stores = true := fun h => Nat.lt_irrefl 0 (by rw [← hports, hzero] at h; exact h)
      have hself : Function.update m 0 (Verilog.commitBits executed (m 0)) = m := by
        rw [hexec hzero]
        exact Function.update_eq_self 0 m
      rw [if_pos hzero, hself, Option.some.injEq, and_iff_right fun h => absurd h hno]
    · have hyes : stores = true := hports.mp (Nat.pos_of_ne_zero hzero)
      rw [if_neg hzero]
      by_cases hd : 1 < d
      · rw [if_pos hd, Option.some.injEq, and_iff_right fun _ => hd]
      · rw [if_neg hd]
        exact iff_of_false (by simp) fun h => hd (h.1 hyes)

/-! ### The update itself -/

theorem eval_bits {n : Node} {w : Nat} (h : n.expr.check = some (.bv w)) (ν : Valuation) :
    n.expr.eval ν = some (.bv w (bitsOf w (n.expr.eval ν))) := by
  obtain ⟨v, hv, hsort⟩ := Expr.eval_of_check h ν
  obtain ⟨x, rfl⟩ := Value.exists_bv hsort
  simp [hv, bitsOf]

theorem entryOk_of_taken {v : Var} {n : Node} (h : MemUpdate v n) (hcheck : n.expr.check = some (.mem a d))
    (hok : ∀ o ∈ operands n, WireOk κ ν o) : ∀ w ∈ takenStores ν n, EntryOk κ ν a d w := by
  induction h with
  | var p => simp [takenStores]
  | store p x y hm ih =>
    obtain ⟨hmc, hxc, hyc⟩ := Expr.check_store hcheck
    intro w hw
    rw [takenStores, List.mem_cons] at hw
    rcases hw with rfl | hw
    · exact ⟨(hok x (by simp [operands])).wireBits (eval_bits hxc ν),
        (hok y (by simp [operands])).wireBits (eval_bits hyc ν)⟩
    · exact ih hmc (fun o ho => hok o (by simp [operands, ho])) w hw
  | ite p c ht he iht ihe =>
    obtain ⟨-, htc, hec⟩ := Expr.check_ite hcheck
    intro w hw
    rw [takenStores] at hw
    split at hw
    · exact iht htc (fun o ho => hok o (by simp [operands, ho])) w hw
    · exact ihe hec (fun o ho => hok o (by simp [operands, ho])) w hw

theorem eval_update {v : Var} {n : Node} (h : MemUpdate v n) (hcheck : n.expr.check = some (.mem a d))
    {m : BitVec a → BitVec d} (hm : ν.atom (.var v) = .mem a d m) :
    n.expr.eval ν = some (.mem a d (Verilog.commit (takenWrites ν a d n).reverse m)) := by
  induction h with
  | var p => rw [Node.expr, Expr.eval, hm]; rfl
  | store p x y hm ih =>
    rename_i k
    obtain ⟨hmc, hxc, hyc⟩ := Expr.check_store hcheck
    have hargs : Expr.evalList ν (Node.exprList [k, x, y]) =
        some [.mem a d (Verilog.commit (takenWrites ν a d k).reverse m), .bv a (bitsOf a (x.expr.eval ν)),
          .bv d (bitsOf d (y.expr.eval ν))] := by
      simp only [Node.exprList, Expr.evalList, ih hmc]
      rw [eval_bits hxc ν, eval_bits hyc ν]
      simp [bitsOf]
    have htaken : takenWrites ν a d (.app p (.op .store) [k, x, y]) =
        storeVal ν a d ⟨x, y⟩ :: takenWrites ν a d k := rfl
    rw [Node.expr, Expr.eval, hargs, Option.bind_some, ExprOp.apply_store, htaken, List.reverse_cons, Verilog.commit_append,
      Verilog.commit_cons, Verilog.commit_nil]
    rfl
  | ite p c ht he iht ihe =>
    rename_i t e
    obtain ⟨hcc, htc, hec⟩ := Expr.check_ite hcheck
    have htaken : takenWrites ν a d (.app p (.op .ite) [c, t, e]) =
        if Value.isTrue (c.expr.eval ν) then takenWrites ν a d t else takenWrites ν a d e := by
      rw [takenWrites, takenStores]
      split <;> rfl
    have heval : (Node.app p (.op .ite) [c, t, e]).expr.eval ν = _ := Expr.eval_ite hcheck ν
    rw [heval, htaken]
    split
    · exact iht htc
    · exact ihe hec

/-- The ports of an accepted update leave the memory that the update denotes exactly when the stores of the
selected branch do not show their order, nor the declaration of the memory. -/
theorem execPorts_eq_eval_iff {sanitizeName : String → String} {memVarName : String} {v : Var} {cond e : Node}
    (hname : ∀ u, .var u ∈ e.expr.atoms → sanitizeName u.name = memVarName → u = v)
    (haccept : checkMemUpdateNode sanitizeName memVarName e = true) (hcheck : e.expr.check = some (.mem a d))
    (hcond : CondOk κ ν cond true) (hwires : ∀ o ∈ operands e, WireOk κ ν o) {m : BitVec a → BitVec d}
    (hm : ν.atom (.var v) = .mem a d m) :
    (∃ m', execPorts κ ν (κ.decl v) true true (exportCondWrites (parseMemUpdateNode cond e)) m = some m' ∧
      e.expr.eval ν = some (.mem a d m')) ↔
      StoresAgree (κ.decl v) (hasStore e) (takenWrites ν a d e) (takenWrites ν a d e) m := by
  have h := memUpdate_of_check hname haccept
  have hone := branchWrites_active h hcheck hwires hcond []
  have hports := maxPortNo_pos h cond []
  rw [List.nil_append] at hone
  simp only [ne_eq, not_true_eq_false, false_or] at hports
  have hexec : maxPortNo (branchWrites e cond []) = 0 → takenWrites ν a d e = [] := by
    intro hzero
    have hno : hasStore e = false := by
      by_contra hyes
      exact absurd (hports.mpr (by simpa using hyes)) (by omega)
    rw [takenWrites, takenStores_eq_nil h hno, List.map_nil]
  rw [parseMemUpdateNode_eq h, execPorts_of_oneActive hone (entryOk_of_taken h hcheck hwires), if_pos (.inr rfl),
    eval_update h hcheck hm, ← commit_eq_iff hports hexec]
  simp [takenWrites, eq_comm]

/-! ### Two stores, one inside the other -/

def memVar : Var := ⟨0, "mem", some "m", .mem 2 8⟩

/-- The inner store is of 1 at address 0, the outer one of 2 at a given address. -/
def twoStores (addr : Nat) : Node :=
  .app 6 (.op .store)
    [.app 3 (.op .store) [.leaf 0 (.var memVar), .leaf 1 (.const (.bv 0 2)), .leaf 2 (.const (.bv 1 8))],
      .leaf 4 (.const (.bv addr 2)), .leaf 5 (.const (.bv 2 8))]

theorem twoStores_wires (κ : MemConfig) (ν : Valuation) (addr : Nat) : ∀ o ∈ operands (twoStores addr), WireOk κ ν o := by
  simp only [twoStores, operands, List.mem_cons, List.not_mem_nil, or_false]
  rintro o (rfl | rfl | rfl | rfl) <;> rfl

theorem twoStores_accepted (addr : Nat) : checkMemUpdateNode id "mem" (twoStores addr) = true := rfl

theorem twoStores_names (addr : Nat) (u : Var) (hu : .var u ∈ (twoStores addr).expr.atoms) (_ : id u.name = "mem") :
    u = memVar := by
  simpa [twoStores, Node.expr, Node.exprList, Expr.atoms, Expr.atomsList] using hu

/-- Internal memories of two words. -/
def twoWords : MemConfig := ⟨false, fun _ => none, fun _ => 2⟩

/-- At different addresses, which are there, the two stores end up as they should. -/
theorem execPorts_eq_eval_twoStores : twoWords.decl memVar = .array 2 ∧
    ∃ m', execPorts twoWords (frame default "") (twoWords.decl memVar) true true
      (exportCondWrites (parseMemUpdateNode trueNode (twoStores 1))) (fun _ => 0) = some m' ∧
      (twoStores 1).expr.eval (frame default "") = some (.mem 2 8 m') := by
  refine ⟨rfl, (execPorts_eq_eval_iff (twoStores_names 1) (twoStores_accepted 1) rfl condOk_true
    (twoStores_wires _ _ 1) rfl).mpr ?_⟩
  have hwrites : takenWrites (frame default "") 2 8 (twoStores 1) = [(1#2, 2#8), (0#2, 1#8)] := rfl
  have hdecl : twoWords.decl memVar = .array 2 := rfl
  rw [hwrites, hdecl]
  intro x
  revert x
  decide

/-- At one address the inner store is executed last and stays. -/
theorem execPorts_ne_eval_twoStores : ¬∀ (κ : MemConfig) (sanitizeName : String → String) (memVarName : String)
    (v : Var) (e : Node) (ν : Valuation) (a d : Nat) (m : BitVec a → BitVec d),
    (∀ u, .var u ∈ e.expr.atoms → sanitizeName u.name = memVarName → u = v) →
    checkMemUpdateNode sanitizeName memVarName e = true → e.expr.check = some (.mem a d) →
    (∀ o ∈ operands e, WireOk κ ν o) → ν.atom (.var v) = .mem a d m →
    ∃ m', execPorts κ ν (κ.decl v) true true (exportCondWrites (parseMemUpdateNode trueNode e)) m = some m' ∧
      e.expr.eval ν = some (.mem a d m') := by
  intro h
  obtain ⟨m', hports, heval⟩ := h internalMems id "mem" memVar (twoStores 0) (frame default "") 2 8 (fun _ => 0)
    (twoStores_names 0) rfl rfl (twoStores_wires _ _ 0) rfl
  have hup := memUpdate_of_check (twoStores_names 0) (twoStores_accepted 0)
  rw [eval_update (a := 2) (d := 8) hup rfl rfl] at heval
  have hone := branchWrites_active (a := 2) (d := 8) hup rfl (twoStores_wires internalMems (frame default "") 0)
    condOk_true []
  rw [parseMemUpdateNode_eq hup, execPorts_of_oneActive hone
    (entryOk_of_taken hup rfl (twoStores_wires _ _ 0))] at hports
  have hwrites : takenWrites (frame default "") 2 8 (twoStores 0) = [(0#2, 2#8), (0#2, 1#8)] := rfl
  have hdecl : internalMems.decl memVar = .array 4 := rfl
  rw [hwrites] at heval
  have hmem : Verilog.commit [(0#2, 1#8), (0#2, 2#8)] (fun _ => 0) = m' := by simpa using heval
  have hmem' : Verilog.commitIn (fun x => x.toNat < 4) [(0#2, 2#8), (0#2, 1#8)] (fun _ => 0) = m' := by
    rw [hdecl] at hports
    exact Option.some.inj hports
  have hat := congrFun (hmem.trans hmem'.symm) 0#2
  exact absurd hat (by decide)

end VerilogGen

end Ilang
