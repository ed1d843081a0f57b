import Ilang.Ila.Abs
import Ilang.Target.VerilogMem

/-!
# The module of an ILA

`VerilogGenerator::ExportIla` writes one module for an ILA without children. A clock edge under the valid signal
gives each register the update of the first instruction whose decode and whose grant bit hold. A memory gets one
update expression, built from the updates of all instructions in turn, each in an ITE on its decode: the grant is
not part of it, and the last instruction is the outermost. The write enables of an external memory do not contain
the valid signal either. With one instruction the grant and the decode signals are declared without a range, and
a bit of them is not there to be selected.
-/

namespace Ilang

open Smt

namespace Node

mutual

/-- An expression as a node. The pointers are not looked at. -/
def ofExpr : Expr → Node
  | .var v => .leaf 0 (.var v)
  | .const c => .leaf 0 (.const c)
  | .op o args => .app 0 (.op o) (ofExprList args)
  | .appFunc f args => .app 0 (.appFunc f) (ofExprList args)

def ofExprList : List Expr → List Node
  | [] => []
  | a :: as => ofExpr a :: ofExprList as

end

theorem exprList_ofExprList {args : List Expr} (h : ∀ a ∈ args, (ofExpr a).expr = a) :
    exprList (ofExprList args) = args := by
  induction args with
  | nil => rfl
  | cons a as ih =>
    rw [ofExprList, exprList, h a List.mem_cons_self, ih fun b hb => h b (List.mem_cons_of_mem a hb)]

@[simp] theorem expr_ofExpr (e : Expr) : (ofExpr e).expr = e := by
  induction e using Expr.ind with
  | var v => rfl
  | const c => rfl
  | op o args ih => rw [ofExpr, expr, exprList_ofExprList ih]
  | appFunc f args ih => rw [ofExpr, expr, exprList_ofExprList ih]

end Node

namespace VerilogGen

open Node (ofExpr)

/-! ### What is written -/

/-- The valid signal; an unset condition is true. -/
def validNode (m : IlaData) : Node := ofExpr (m.valid.getD (.const (.bool true)))

/-- The decode signal of an instruction. -/
def decodeNode (i : Instr) : Node := ofExpr (decodeCmpl i)

/-- The branches of the conditional assignment to a register: the position of the instruction, its decode signal
and its update. -/
def regBranches (m : IlaData) (s : Var) : List (Nat × Node × Node) :=
  m.instrs.zipIdx.filterMap fun p => (p.1.update s.name).map fun u => (p.2, decodeNode p.1, ofExpr u)

def iteNode (c t e : Node) : Node := .app 0 (.op .ite) [c, t, e]

/-- The update expression of a memory. A null decode does not get through `asthub::Ite`. -/
def memUpdateExpr (s : Var) (is : List Instr) : Option Node :=
  is.foldlM (fun e i =>
    match i.update s.name with
    | none => some e
    | some u => i.decode.map fun c => iteNode (ofExpr c) (ofExpr u) e) (.leaf 0 (.var s))

/-! ### A clock edge -/

variable (κ : MemConfig) (ν : Valuation) (grant : Nat → Bool) (m : IlaData)

/-- The value a register takes from its branches: the first that is decoded and granted. -/
def regValue (s : Var) : List (Nat × Node × Node) → Option Value
  | [] => some (ν.atom (.var s))
  | (k, c, u) :: rest => (wireBool κ ν c).bind fun b =>
    if b && grant k then (wire κ ν u).bind (valueOf s.sort) else regValue s rest

/-- A register after the edge. -/
def regNext (s : Var) : Option Value :=
  (wireBool κ ν (validNode m)).bind fun v =>
    if v then regValue κ ν grant s (regBranches m s) else some (ν.atom (.var s))

/-- A memory after the edge, out of reset and started. -/
def memNext (s : Var) : Option Value :=
  (wireBool κ ν (validNode m)).bind fun v =>
    match ν.atom (.var s) with
    | .mem a d c => (memUpdateExpr s m.instrs).bind fun e =>
      (execPorts κ ν (κ.decl s) true v (exportCondWrites (parseMemUpdateNode trueNode e)) c).map fun c' => .mem a d c'
    | _ => none

/-- The declarations allow what is written. With one instruction `WidthToRange` makes scalars of the grant and of
the decode signals, and both are selected from. -/
def Selectable : Prop := m.instrs.length ≠ 1

instance : Decidable (Selectable m) := inferInstanceAs (Decidable (_ ≠ _))

/-- A state after the edge. -/
def next (s : Var) : Option Value :=
  if Selectable m then if s.sort.isMem then memNext κ ν m s else regNext κ ν grant m s else none

/-! ### The granted instruction -/

/-- The instruction at a position is decoded, valid and granted. -/
def Granted (i : Instr) (k : Nat) : Prop :=
  ν.Holds (m.valid.getD (.const (.bool true))) ∧ ν.Holds (decodeCmpl i) ∧ grant k = true

/-- What a state is to be after the edge: the granted instruction's update, or what it was. -/
def IsNext (s : Var) (v : Value) : Prop :=
  (∀ i k, (i, k) ∈ m.instrs.zipIdx → Granted ν grant m i k → (stateUpdCmpl i s).eval ν = some v) ∧
    ((∀ i k, (i, k) ∈ m.instrs.zipIdx → ¬Granted ν grant m i k) → v = ν.atom (.var s))

/-- What the generator accepts, with wires that hold the values of their expressions. -/
structure Exportable (κ : MemConfig) (ν : Valuation) (m : IlaData) : Prop where
  valid : CondOk κ ν (validNode m) (Value.isTrue ((m.valid.getD (.const (.bool true))).eval ν))
  decode : ∀ i ∈ m.instrs, CondOk κ ν (decodeNode i) (Value.isTrue ((decodeCmpl i).eval ν))
  reg : ∀ s ∈ m.states, s.sort.isMem = false → ∀ i ∈ m.instrs, ∀ u, i.update s.name = some u →
    u.check = some s.sort ∧ WireOk κ ν (ofExpr u)
  mem : ∀ s ∈ m.states, s.sort.isMem = true → ∀ i ∈ m.instrs, ∀ u, i.update s.name = some u →
    i.decode.isSome ∧ u.check = some s.sort ∧ MemUpdate s (ofExpr u) ∧ ∀ o ∈ operands (ofExpr u), WireOk κ ν o

/-- The stores of the last instruction that is decoded and updates the memory, from the outside in. -/
def decodedWrites (a d : Nat) (s : Var) (is : List Instr) : List (BitVec a × BitVec d) :=
  is.foldl (fun ws i =>
    match i.update s.name with
    | none => ws
    | some u => if Value.isTrue ((decodeCmpl i).eval ν) then takenWrites ν a d (ofExpr u) else ws) []

def grantedInstr : Option (Instr × Nat) :=
  m.instrs.zipIdx.find? fun p => Value.isTrue ((decodeCmpl p.1).eval ν) && grant p.2

/-- The stores of the granted instruction to the memory, from the outside in. -/
def grantedWrites (a d : Nat) (s : Var) : List (BitVec a × BitVec d) :=
  match (grantedInstr ν grant m).bind fun p => p.1.update s.name with
  | some u => takenWrites ν a d (ofExpr u)
  | none => []

/-- Some instruction stores to the memory, on some branch. -/
def storesTo (s : Var) : Bool := m.instrs.any fun i => (i.update s.name).any fun u => hasStore (ofExpr u)

/-- The stores that are executed: those of the last decoded instruction, for an internal memory under the valid
signal. -/
def executedWrites (a d : Nat) (s : Var) : List (BitVec a × BitVec d) :=
  if κ.decl s = .external ∨ Value.isTrue ((m.valid.getD (.const (.bool true))).eval ν) = true then
    decodedWrites ν a d s m.instrs
  else []

/-- The stores that are asked for: those of the granted instruction. -/
def askedWrites (a d : Nat) (s : Var) : List (BitVec a × BitVec d) :=
  if Value.isTrue ((m.valid.getD (.const (.bool true))).eval ν) = true then grantedWrites ν grant m a d s else []

/-- What a memory is left with by the one is what the other asks for. -/
def MemAgree (s : Var) : Prop :=
  ∀ a d c, ν.atom (.var s) = .mem a d c →
    StoresAgree (κ.decl s) (storesTo m s) (executedWrites κ ν m a d s) (askedWrites ν grant m a d s) c

/-- At most one of the decoded instructions is granted. -/
def AtMostOne : Prop :=
  ∀ i j k l, (i, k) ∈ m.instrs.zipIdx → (j, l) ∈ m.instrs.zipIdx → Granted ν grant m i k → Granted ν grant m j l → k = l

variable {κ ν grant m} {s : Var}

theorem holds_iff_isTrue {e : Expr} : ν.Holds e ↔ Value.isTrue (e.eval ν) = true :=
  (Value.isTrue_iff _).symm

theorem eq_of_mem_zipIdx {l : List Instr} {i j : Instr} {k : Nat} (hi : (i, k) ∈ l.zipIdx) (hj : (j, k) ∈ l.zipIdx) :
    i = j :=
  Option.some.inj ((List.mem_zipIdx_iff_getElem?.mp hi).symm.trans (List.mem_zipIdx_iff_getElem?.mp hj))

theorem granted_iff {i : Instr} {k : Nat} (hv : ν.Holds (m.valid.getD (.const (.bool true)))) :
    Granted ν grant m i k ↔ (Value.isTrue ((decodeCmpl i).eval ν) && grant k) = true := by
  rw [Granted, holds_iff_isTrue (e := decodeCmpl i), Bool.and_eq_true]
  exact and_iff_right hv

theorem isNext_iff (hone : AtMostOne ν grant m) (hv : ν.Holds (m.valid.getD (.const (.bool true)))) {v : Value} :
    IsNext ν grant m s v ↔
      ((grantedInstr ν grant m).elim (.var s) fun p => stateUpdCmpl p.1 s : Expr).eval ν = some v := by
  cases hfind : grantedInstr ν grant m with
  | none =>
    have hnone : ∀ i k, (i, k) ∈ m.instrs.zipIdx → ¬Granted ν grant m i k := by
      intro i k hik hg
      have hnot := List.find?_eq_none.mp hfind (i, k) hik
      exact hnot ((granted_iff hv).mp hg)
    rw [Option.elim_none, Expr.eval, Option.some.injEq]
    constructor
    · intro h
      exact (h.2 hnone).symm
    · intro h
      exact ⟨fun i k hik hg => absurd hg (hnone i k hik), fun _ => h.symm⟩
  | some p =>
    obtain ⟨i, k⟩ := p
    have hmem : (i, k) ∈ m.instrs.zipIdx := List.mem_of_find?_eq_some hfind
    have hg : Granted ν grant m i k := (granted_iff hv).mpr (by simpa using List.find?_some hfind)
    rw [Option.elim_some]
    constructor
    · intro h
      exact h.1 i k hmem hg
    · intro h
      refine ⟨fun j l hjl hgj => ?_, fun hnone => absurd hg (hnone i k hmem)⟩
      obtain rfl : k = l := hone i j k l hmem hjl hg hgj
      rw [← eq_of_mem_zipIdx hmem hjl]
      exact h

theorem isNext_of_not_valid (hv : ¬ν.Holds (m.valid.getD (.const (.bool true)))) {v : Value} :
    IsNext ν grant m s v ↔ v = ν.atom (.var s) := by
  constructor
  · intro h
    exact h.2 fun i k _ hg => hv hg.1
  · intro h
    exact ⟨fun i k _ hg => absurd hg.1 hv, fun _ => h⟩

/-! ### Registers -/

theorem WireOk.wireValue {e : Expr} {t : Srt} (h : WireOk κ ν (ofExpr e)) (hcheck : e.check = some t)
    (hmem : t.isMem = false) : (wire κ ν (ofExpr e)).bind (valueOf t) = e.eval ν := by
  obtain ⟨v, hv, hsort⟩ := Expr.eval_of_check hcheck ν
  have hnet : v.sort.isMem = false := by rwa [hsort]
  rw [WireOk, Node.expr_ofExpr, hv, Option.bind_some, netAs_eq hnet] at h
  rw [wire, h, hv, ← hsort]
  exact valueOf_netOf (by rw [hsort]; exact hmem)

/-- The branches of some of the instructions. -/
def branchesOf (s : Var) (L : List (Instr × Nat)) : List (Nat × Node × Node) :=
  L.filterMap fun p => (p.1.update s.name).map fun u => (p.2, decodeNode p.1, ofExpr u)

theorem regValue_none {L : List (Instr × Nat)} (hdec : ∀ p ∈ L, CondOk κ ν (decodeNode p.1) (Value.isTrue ((decodeCmpl p.1).eval ν)))
    (h : ∀ p ∈ L, (Value.isTrue ((decodeCmpl p.1).eval ν) && grant p.2) = false) :
    regValue κ ν grant s (branchesOf s L) = some (ν.atom (.var s)) := by
  induction L with
  | nil => rfl
  | cons p L ih =>
    have htail := ih (fun q hq => hdec q (List.mem_cons_of_mem p hq)) fun q hq => h q (List.mem_cons_of_mem p hq)
    rw [branchesOf, List.filterMap_cons]
    cases hu : p.1.update s.name with
    | none => exact htail
    | some u =>
      rw [Option.map_some, regValue, (hdec p List.mem_cons_self).wireBool, Option.bind_some, h p List.mem_cons_self]
      exact htail

theorem regValue_eq {L : List (Instr × Nat)} (hnodup : L.Nodup)
    (huniq : ∀ p ∈ L, ∀ q ∈ L, (Value.isTrue ((decodeCmpl p.1).eval ν) && grant p.2) = true →
      (Value.isTrue ((decodeCmpl q.1).eval ν) && grant q.2) = true → p = q)
    (hdec : ∀ p ∈ L, CondOk κ ν (decodeNode p.1) (Value.isTrue ((decodeCmpl p.1).eval ν))) (hmem : s.sort.isMem = false)
    (hreg : ∀ p ∈ L, ∀ u, p.1.update s.name = some u → u.check = some s.sort ∧ WireOk κ ν (ofExpr u)) :
    regValue κ ν grant s (branchesOf s L) =
      (((L.find? fun p => Value.isTrue ((decodeCmpl p.1).eval ν) && grant p.2).elim (.var s)
        fun p => stateUpdCmpl p.1 s : Expr)).eval ν := by
  induction L with
  | nil => rfl
  | cons p L ih =>
    obtain ⟨hp, hnodup⟩ := List.nodup_cons.mp hnodup
    have hdecL : ∀ q ∈ L, CondOk κ ν (decodeNode q.1) (Value.isTrue ((decodeCmpl q.1).eval ν)) :=
      fun q hq => hdec q (List.mem_cons_of_mem p hq)
    rw [List.find?_cons]
    cases hpass : (Value.isTrue ((decodeCmpl p.1).eval ν) && grant p.2) with
    | true =>
      rw [Option.elim_some, branchesOf, List.filterMap_cons, stateUpdCmpl]
      cases hu : p.1.update s.name with
      | none =>
        rw [Option.getD_none, Expr.eval]
        refine regValue_none hdecL fun q hq => ?_
        by_contra hne
        have heq := huniq p List.mem_cons_self q (List.mem_cons_of_mem p hq) hpass (by simpa using hne)
        exact hp (heq ▸ hq)
      | some u =>
        obtain ⟨hcheck, hwire⟩ := hreg p List.mem_cons_self u hu
        rw [Option.map_some, Option.getD_some, regValue, (hdec p List.mem_cons_self).wireBool, Option.bind_some, hpass]
        exact hwire.wireValue hcheck hmem
    | false =>
      have htail := ih hnodup (fun q hq r hr => huniq q (List.mem_cons_of_mem p hq) r (List.mem_cons_of_mem p hr)) hdecL
        fun q hq => hreg q (List.mem_cons_of_mem p hq)
      rw [branchesOf, List.filterMap_cons]
      cases hu : p.1.update s.name with
      | none => exact htail
      | some u =>
        rw [Option.map_some, regValue, (hdec p List.mem_cons_self).wireBool, Option.bind_some, hpass]
        exact htail

theorem nodup_zipIdx {α : Type} (l : List α) : l.zipIdx.Nodup := by
  have h : (l.zipIdx.map Prod.snd).Nodup := by
    rw [List.zipIdx_map_snd]
    exact List.nodup_range'
  exact List.Nodup.of_map _ h

theorem mem_instrs_of_zipIdx {i : Instr} {k : Nat} (h : (i, k) ∈ m.instrs.zipIdx) : i ∈ m.instrs :=
  List.mem_of_getElem? (List.mem_zipIdx_iff_getElem?.mp h)

theorem eval_stateUpdCmpl (hexp : Exportable κ ν m) (hs : s ∈ m.states) {i : Instr} (hi : i ∈ m.instrs) :
    ∃ v, (stateUpdCmpl i s).eval ν = some v := by
  have hcheck : (stateUpdCmpl i s).check = some s.sort := by
    rw [stateUpdCmpl]
    cases hu : i.update s.name with
    | none => rfl
    | some u =>
      cases hmem : s.sort.isMem with
      | false => exact (hexp.reg s hs hmem i hi u hu).1
      | true => exact (hexp.mem s hs hmem i hi u hu).2.1
  obtain ⟨v, hv, -⟩ := Expr.eval_of_check hcheck ν
  exact ⟨v, hv⟩

theorem eval_granted (grant : Nat → Bool) (hexp : Exportable κ ν m) (hs : s ∈ m.states) :
    ∃ v, ((grantedInstr ν grant m).elim (.var s) fun p => stateUpdCmpl p.1 s : Expr).eval ν = some v := by
  cases hfind : grantedInstr ν grant m with
  | none => exact ⟨_, rfl⟩
  | some p => exact eval_stateUpdCmpl hexp hs (mem_instrs_of_zipIdx (List.mem_of_find?_eq_some hfind))

theorem regNext_isNext (hexp : Exportable κ ν m) (hone : AtMostOne ν grant m) (hs : s ∈ m.states)
    (hmem : s.sort.isMem = false) : ∃ v, regNext κ ν grant m s = some v ∧ IsNext ν grant m s v := by
  by_cases hv : ν.Holds (m.valid.getD (.const (.bool true)))
  · have hvalid := hexp.valid.wireBool
    rw [holds_iff_isTrue.mp hv] at hvalid
    have huniq : ∀ p ∈ m.instrs.zipIdx, ∀ q ∈ m.instrs.zipIdx, (Value.isTrue ((decodeCmpl p.1).eval ν) && grant p.2) = true →
        (Value.isTrue ((decodeCmpl q.1).eval ν) && grant q.2) = true → p = q := by
      rintro ⟨i, k⟩ hp ⟨j, l⟩ hq hpi hqj
      obtain rfl : k = l := hone i j k l hp hq ((granted_iff hv).mpr hpi) ((granted_iff hv).mpr hqj)
      rw [eq_of_mem_zipIdx hp hq]
    have hreg := regValue_eq (s := s) (nodup_zipIdx m.instrs) huniq
      (fun p hp => hexp.decode p.1 (mem_instrs_of_zipIdx hp)) hmem
      fun p hp u hu => hexp.reg s hs hmem p.1 (mem_instrs_of_zipIdx hp) u hu
    obtain ⟨v, hval⟩ := eval_granted grant hexp hs
    refine ⟨v, ?_, (isNext_iff hone hv).mpr hval⟩
    rw [regNext, hvalid, Option.bind_some, if_pos rfl]
    exact hreg.trans hval
  · have hvalid := hexp.valid.wireBool
    rw [show Value.isTrue _ = false from by simpa using fun h => hv (holds_iff_isTrue.mpr h)] at hvalid
    exact ⟨_, by rw [regNext, hvalid]; rfl, (isNext_of_not_valid hv).mpr rfl⟩

/-! ### Memories -/

/-- The update expression of a memory so far, what it stores, and whether it can. -/
structure MemExpr (κ : MemConfig) (ν : Valuation) (s : Var) (a d : Nat) (e : Node) (ws : List (BitVec a × BitVec d))
    (stores : Bool) : Prop where
  update : MemUpdate s e
  check : e.expr.check = some (.mem a d)
  wires : ∀ o ∈ operands e, WireOk κ ν o
  writes : takenWrites ν a d e = ws
  stores : hasStore e = stores

theorem MemExpr.ite {a d : Nat} {e t c : Node} {ws us : List (BitVec a × BitVec d)} {x y b : Bool}
    (he : MemExpr κ ν s a d e ws x) (ht : MemExpr κ ν s a d t us y) (hc : CondOk κ ν c b) :
    MemExpr κ ν s a d (iteNode c t e) (if b then us else ws) (y || x) := by
  refine ⟨.ite 0 c ht.update he.update, ?_, ?_, ?_, ?_⟩
  · simp [iteNode, Node.expr, Node.exprList, Expr.check, Expr.checkList, hc.check, ht.check, he.check, ExprOp.check,
      ExprOp.inRange, ExprOp.smt, Op.check]
  · simp only [iteNode, operands, List.mem_cons, List.mem_append]
    rintro o (rfl | ho | ho)
    · exact hc.wire
    · exact ht.wires o ho
    · exact he.wires o ho
  · rw [takenWrites, iteNode, takenStores, hc.eval, Value.isTrue]
    cases b with
    | true => exact ht.writes
    | false => exact he.writes
  · rw [iteNode, hasStore, ht.stores, he.stores]

theorem memUpdateExpr_spec {a d : Nat} {is : List Instr} {e : Node} {ws : List (BitVec a × BitVec d)} {x : Bool}
    (he : MemExpr κ ν s a d e ws x)
    (hdec : ∀ i ∈ is, CondOk κ ν (decodeNode i) (Value.isTrue ((decodeCmpl i).eval ν)))
    (hmem : ∀ i ∈ is, ∀ u, i.update s.name = some u →
      i.decode.isSome ∧ MemExpr κ ν s a d (ofExpr u) (takenWrites ν a d (ofExpr u)) (hasStore (ofExpr u))) :
    ∃ e', is.foldlM (fun e i =>
      match i.update s.name with
      | none => some e
      | some u => i.decode.map fun c => iteNode (ofExpr c) (ofExpr u) e) e = some e' ∧
      MemExpr κ ν s a d e' (is.foldl (fun ws i =>
        match i.update s.name with
        | none => ws
        | some u => if Value.isTrue ((decodeCmpl i).eval ν) then takenWrites ν a d (ofExpr u) else ws) ws)
        ((is.any fun i => (i.update s.name).any fun u => hasStore (ofExpr u)) || x) := by
  induction is generalizing e ws x with
  | nil => exact ⟨e, rfl, he⟩
  | cons i is ih =>
    have hdecL : ∀ j ∈ is, CondOk κ ν (decodeNode j) (Value.isTrue ((decodeCmpl j).eval ν)) :=
      fun j hj => hdec j (List.mem_cons_of_mem i hj)
    have hmemL := fun j hj => hmem j (List.mem_cons_of_mem i hj)
    rw [List.foldlM_cons, List.foldl_cons, List.any_cons]
    cases hu : i.update s.name with
    | none => exact ih he hdecL hmemL
    | some u =>
      obtain ⟨hsome, hexpr⟩ := hmem i List.mem_cons_self u hu
      obtain ⟨c, hc⟩ := Option.isSome_iff_exists.mp hsome
      have hcond := hdec i List.mem_cons_self
      rw [decodeNode, decodeCmpl, hc, Option.getD_some] at hcond
      rw [decodeCmpl, hc, Option.getD_some, Option.any_some, Bool.or_assoc, Bool.or_left_comm]
      exact ih (he.ite hexpr hcond) hdecL hmemL

theorem getD_takenWrites {a d : Nat} {c : BitVec a → BitVec d} {u : Expr} (hu : MemUpdate s (ofExpr u))
    (hcheck : u.check = some (.mem a d)) (hat : ν.atom (.var s) = .mem a d c) :
    u.eval ν = some (.mem a d (Verilog.commit (takenWrites ν a d (ofExpr u)).reverse c)) := by
  have heval := eval_update hu (by rw [Node.expr_ofExpr]; exact hcheck) hat
  rw [Node.expr_ofExpr] at heval
  exact heval

theorem eval_granted_mem {a d : Nat} {c : BitVec a → BitVec d} (hexp : Exportable κ ν m) (hs : s ∈ m.states)
    (hsort : s.sort = .mem a d) (hat : ν.atom (.var s) = .mem a d c) :
    ((grantedInstr ν grant m).elim (.var s) fun p => stateUpdCmpl p.1 s : Expr).eval ν =
      some (.mem a d (Verilog.commit (grantedWrites ν grant m a d s).reverse c)) := by
  rw [grantedWrites]
  cases hfind : grantedInstr ν grant m with
  | none => rw [Option.elim_none, Expr.eval, hat]; rfl
  | some p =>
    rw [Option.elim_some, Option.bind_some, stateUpdCmpl]
    cases hu : p.1.update s.name with
    | none => rw [Option.getD_none, Expr.eval, hat]; rfl
    | some u =>
      have hi := mem_instrs_of_zipIdx (List.mem_of_find?_eq_some hfind)
      obtain ⟨-, hcheck, hup, -⟩ := hexp.mem s hs (by rw [hsort]; rfl) p.1 hi u hu
      exact getD_takenWrites hup (hcheck.trans (congrArg some hsort)) hat

theorem isNext_mem_iff {a d : Nat} {c : BitVec a → BitVec d} (hexp : Exportable κ ν m) (hone : AtMostOne ν grant m)
    (hs : s ∈ m.states) (hsort : s.sort = .mem a d) (hat : ν.atom (.var s) = .mem a d c) {v : Value} :
    IsNext ν grant m s v ↔ v = .mem a d (Verilog.commit (askedWrites ν grant m a d s).reverse c) := by
  by_cases hv : ν.Holds (m.valid.getD (.const (.bool true)))
  · rw [isNext_iff hone hv, eval_granted_mem hexp hs hsort hat, askedWrites, if_pos (holds_iff_isTrue.mp hv),
      Option.some.injEq, eq_comm]
  · rw [isNext_of_not_valid hv, askedWrites, if_neg fun h => hv (holds_iff_isTrue.mpr h), hat]
    rfl

theorem memNext_eq {a d : Nat} {c : BitVec a → BitVec d} (hexp : Exportable κ ν m) (hs : s ∈ m.states)
    (hsort : s.sort = .mem a d) (hat : ν.atom (.var s) = .mem a d c) :
    ∃ ports, (0 < ports ↔ storesTo m s = true) ∧ (ports = 0 → executedWrites κ ν m a d s = []) ∧
      memNext κ ν m s = ((κ.decl s).commit ports (executedWrites κ ν m a d s) c).map fun c' => .mem a d c' := by
  have hleaf : MemExpr κ ν s a d (.leaf 0 (.var s)) [] false :=
    ⟨.var 0, congrArg some hsort, by simp [operands], rfl, by simp [hasStore]⟩
  obtain ⟨e, he, hexpr⟩ := memUpdateExpr_spec hleaf hexp.decode fun i hi u hu => by
    obtain ⟨hdec, hcheck, hup, hwires⟩ := hexp.mem s hs (by rw [hsort]; rfl) i hi u hu
    exact ⟨hdec, hup, by rw [Node.expr_ofExpr, hcheck, hsort], hwires, rfl, rfl⟩
  have hstores : hasStore e = storesTo m s := hexpr.stores.trans (Bool.or_false _)
  have hports := maxPortNo_pos hexpr.update trueNode []
  rw [hstores] at hports
  simp only [ne_eq, not_true_eq_false, false_or] at hports
  have hwrites : takenWrites ν a d e = decodedWrites ν a d s m.instrs := hexpr.writes
  have hone := branchWrites_active hexpr.update hexpr.check hexpr.wires condOk_true []
  refine ⟨_, hports, fun hzero => ?_, ?_⟩
  · have hno : hasStore e = false := by
      by_contra hyes
      have hpos := hports.mpr (by rw [← hstores]; simpa using hyes)
      omega
    rw [executedWrites, ← hwrites, takenWrites, takenStores_eq_nil hexpr.update hno, List.map_nil, ite_self]
  · have hexec := execPorts_of_oneActive hone (entryOk_of_taken hexpr.update hexpr.check hexpr.wires) (κ.decl s)
      (Value.isTrue ((m.valid.getD (.const (.bool true))).eval ν)) c
    rw [memNext, hexp.valid.wireBool, Option.bind_some, hat]
    change (memUpdateExpr s m.instrs).bind _ = _
    rw [memUpdateExpr, he, Option.bind_some, parseMemUpdateNode_eq hexpr.update, hexec, executedWrites, ← hwrites]
    rfl

theorem memNext_isNext_iff (hexp : Exportable κ ν m) (hone : AtMostOne ν grant m) (hs : s ∈ m.states)
    (hmem : s.sort.isMem = true) :
    (∃ v, memNext κ ν m s = some v ∧ IsNext ν grant m s v) ↔ MemAgree κ ν grant m s := by
  obtain ⟨a, d, hsort⟩ : ∃ a d, s.sort = .mem a d := by
    cases hs' : s.sort with
    | mem a d => exact ⟨a, d, rfl⟩
    | bool => simp [hs', Srt.isMem] at hmem
    | bv w => simp [hs', Srt.isMem] at hmem
  obtain ⟨c, hat⟩ : ∃ c, ν.atom (.var s) = .mem a d c := Value.exists_mem ((ν.atom_sort (.var s)).trans hsort)
  obtain ⟨ports, hports, hnil, hnext⟩ := memNext_eq hexp hs hsort hat
  have hagree : MemAgree κ ν grant m s ↔
      StoresAgree (κ.decl s) (storesTo m s) (executedWrites κ ν m a d s) (askedWrites ν grant m a d s) c := by
    constructor
    · intro h
      exact h a d c hat
    · intro h a' d' c' hat'
      rw [hat] at hat'
      cases hat'
      exact h
  rw [hagree, ← commit_eq_iff hports hnil, hnext]
  simp only [isNext_mem_iff hexp hone hs hsort hat, exists_eq_right, Option.map_eq_some_iff]
  constructor
  · rintro ⟨c', hc', heq⟩
    cases heq
    exact hc'
  · intro h
    exact ⟨_, h, rfl⟩

/-- After a clock edge every register and every memory is what the granted instruction says exactly when there is
not just one instruction, and every memory is left with what the granted instruction asks for. -/
theorem next_isNext_iff (hexp : Exportable κ ν m) (hone : AtMostOne ν grant m) :
    (∀ s ∈ m.states, ∃ v, next κ ν grant m s = some v ∧ IsNext ν grant m s v) ↔
      ∀ s ∈ m.states, Selectable m ∧ (s.sort.isMem = true → MemAgree κ ν grant m s) := by
  refine forall₂_congr fun s hs => ?_
  rw [next]
  by_cases hsel : Selectable m
  · rw [if_pos hsel, and_iff_right hsel]
    cases hmem : s.sort.isMem with
    | true =>
      rw [if_pos rfl, memNext_isNext_iff hexp hone hs hmem]
      simp
    | false =>
      rw [if_neg Bool.false_ne_true]
      exact iff_of_true (regNext_isNext hexp hone hs hmem) fun h => absurd h Bool.false_ne_true
  · rw [if_neg hsel]
    exact iff_of_false (by simp) fun h => hsel h.1

/-! ### Two instructions that store -/

def storeData (data : Nat) : Expr := .op .store [.var memVar, .const (.bv 0 2), .const (.bv data 8)]

def storeInstr (data : Nat) (decode : Bool) : Instr where
  id := data
  name := "st"
  decode := some (.const (.bool decode))
  updates := [("mem", some (storeData data))]
  program := none

/-- The first is always decoded, the second as given. -/
def storeIla (second : Bool) : IlaData :=
  { IlaData.new 0 "m" with states := [memVar], instrs := [storeInstr 1 true, storeInstr 2 second] }

theorem mem_storeIla {second : Bool} {i : Instr} (h : i ∈ (storeIla second).instrs) : ∃ data b, i = storeInstr data b := by
  simp only [storeIla, List.mem_cons, List.not_mem_nil, or_false] at h
  rcases h with rfl | rfl
  · exact ⟨1, true, rfl⟩
  · exact ⟨2, second, rfl⟩

theorem storeInstr_update {data : Nat} {b : Bool} {u : Expr} (h : (storeInstr data b).update memVar.name = some u) :
    u = storeData data := by
  simpa [storeInstr, Instr.update, memVar, eq_comm] using h

theorem storeIla_exportable (κ : MemConfig) (ν : Valuation) (second : Bool) : Exportable κ ν (storeIla second) where
  valid := condOk_true
  decode i hi := by
    obtain ⟨data, b, rfl⟩ := mem_storeIla hi
    exact ⟨rfl, rfl, by cases b <;> rfl⟩
  reg s hs hmem := by
    obtain rfl : s = memVar := by simpa [storeIla] using hs
    simp [memVar, Srt.isMem] at hmem
  mem s hs _ i hi u hu := by
    obtain rfl : s = memVar := by simpa [storeIla] using hs
    obtain ⟨data, b, rfl⟩ := mem_storeIla hi
    obtain rfl := storeInstr_update hu
    refine ⟨rfl, rfl, .store 0 _ _ (.var 0), ?_⟩
    simp only [storeData, ofExpr, Node.ofExprList, operands, List.mem_cons, List.not_mem_nil, or_false]
    rintro o (rfl | rfl) <;> rfl

theorem storeIla_atMostOne (ν : Valuation) {grant : Nat → Bool} (second : Bool) (h : grant 0 = false ∨ grant 1 = false) :
    AtMostOne ν grant (storeIla second) := by
  have hpos : ∀ i k, (i, k) ∈ (storeIla second).instrs.zipIdx → k = 0 ∨ k = 1 := by
    intro i k hik
    have hzip : (storeIla second).instrs.zipIdx = [(storeInstr 1 true, 0), (storeInstr 2 second, 1)] := rfl
    rw [hzip] at hik
    simp only [List.mem_cons, Prod.mk.injEq, List.not_mem_nil, or_false] at hik
    omega
  intro i j k l hi hj hgi hgj
  have hk := hgi.2.2
  have hl := hgj.2.2
  rcases hpos i k hi with rfl | rfl
  · rcases hpos j l hj with rfl | rfl
    · rfl
    · simp_all
  · rcases hpos j l hj with rfl | rfl
    · simp_all
    · rfl

/-- The first instruction is granted and the only one that is decoded: its store is executed. -/
theorem next_isNext_granted : (storeIla false).states = [memVar] ∧
    ∃ v, next internalMems (frame default "") (fun k => k == 0) (storeIla false) memVar = some v ∧
      IsNext (frame default "") (fun k => k == 0) (storeIla false) memVar v := by
  refine ⟨rfl, (next_isNext_iff (storeIla_exportable _ _ _) (storeIla_atMostOne _ _ (.inr rfl))).mpr
    (fun s hs => ⟨by decide, fun _ => ?_⟩) memVar List.mem_cons_self⟩
  obtain rfl : s = memVar := by simpa [storeIla] using hs
  intro a d c hat
  have hat' : Value.mem 2 8 (fun _ => 0) = .mem a d c := hat
  cases hat'
  have hdec : executedWrites internalMems (frame default "") (storeIla false) 2 8 memVar = [(0#2, 1#8)] := rfl
  have hgr : askedWrites (frame default "") (fun k => k == 0) (storeIla false) 2 8 memVar = [(0#2, 1#8)] := rfl
  have hdecl : internalMems.decl memVar = .array 4 := rfl
  rw [hdec, hgr, hdecl]
  intro x
  revert x
  decide

/-- A store is executed without a grant as well. -/
theorem next_ignores_grant : ¬∀ (κ : MemConfig) (ν : Valuation) (grant : Nat → Bool) (m : IlaData), Exportable κ ν m →
    AtMostOne ν grant m → ∀ s ∈ m.states, ∃ v, next κ ν grant m s = some v ∧ IsNext ν grant m s v := by
  intro h
  obtain ⟨v, hnext, hspec⟩ := h internalMems (frame default "") (fun _ => false) (storeIla true)
    (storeIla_exportable _ _ _) (storeIla_atMostOne _ _ (.inl rfl)) memVar List.mem_cons_self
  have hkeep : v = .mem 2 8 fun _ => 0 := hspec.2 fun i k _ hg => Bool.false_ne_true hg.2.2
  obtain ⟨ports, -, -, hstore⟩ := memNext_eq (a := 2) (d := 8) (s := memVar)
    (storeIla_exportable internalMems (frame default "") true) List.mem_cons_self rfl rfl
  have hmem : next internalMems (frame default "") (fun _ => false) (storeIla true) memVar =
      memNext internalMems (frame default "") (storeIla true) memVar := rfl
  have hdec : executedWrites internalMems (frame default "") (storeIla true) 2 8 memVar = [(0#2, 2#8)] := rfl
  have hdecl : internalMems.decl memVar = .array 4 := rfl
  rw [hmem, hstore, hkeep, hdec, hdecl] at hnext
  have hfun : Verilog.commitIn (fun x => x.toNat < 4) [(0#2, 2#8)] (fun _ => 0) = fun _ => 0#8 := by
    simpa [MemDecl.commit] using hnext
  exact absurd (congrFun hfun 0#2) (by decide)

end VerilogGen

end Ilang
