import Ilang.Ila.Abs
import Ilang.Mcm.Constraint

/-!
# Memory models

`InterIlaUnroller` unrolls a program of several ILAs, the cores, without an order between the cores. A state that belongs to more
than one core is shared. At every step a core has its own copy of each state, and a memory model says which write a shared state
is read from: `Sc` and `Tso` have the same axiom for this, over different relations between events. `SetLocalState` links the
private states of a core, which are read from the core's own writes.

The trace steps of the source have unique names, which are the events here. An instruction is given with its decode function and
its updates, which the unroller checks to be there.
-/

namespace Ilang

namespace Mcm

open Smt

/-! ### Reads and writes of an expression -/

mutual

/-- `VarUseFinder::Traverse`: the memory that a store goes to is not a use of it. -/
def uses : Expr → List String
  | .var v => [v.name]
  | .const _ => []
  | .op .store (.var _ :: args) => usesList args
  | .op _ args => usesList args
  | .appFunc _ args => usesList args

def usesList : List Expr → List String
  | [] => []
  | e :: es => uses e ++ usesList es

end

/-- A load that `VisitNodeForMemoryRead` finds at a node: the memory, the address and the node. -/
def loadAt (o : ExprOp) (args : List Expr) : List (String × Expr × Expr) :=
  match o, args with
  | .load, .var v :: addr :: _ => [(v.name, addr, .op o args)]
  | _, _ => []

mutual

/-- `FindAddrDataPairVecInExpr`. -/
def loads : Expr → List (String × Expr × Expr)
  | .var _ => []
  | .const _ => []
  | .op o args => loadsList args ++ loadAt o args
  | .appFunc _ args => loadsList args

def loadsList : List Expr → List (String × Expr × Expr)
  | [] => []
  | e :: es => loads e ++ loadsList es

end

mutual

/-- `NestedMemAddrDataAvoider::NotNested`. -/
def notNested (inAddrOrData : Bool) : Expr → Bool
  | .var _ => true
  | .const _ => true
  | .op .load args => !inAddrOrData && notNestedList true args
  | .op .store args => !inAddrOrData && notNestedList true args
  | .op _ args => notNestedList inAddrOrData args
  | .appFunc _ args => notNestedList inAddrOrData args

def notNestedList (inAddrOrData : Bool) : List Expr → Bool
  | [] => true
  | e :: es => notNested inAddrOrData e && notNestedList inAddrOrData es

end

/-- `CheckAndPeel` of a store. -/
def checkAndPeel (argn : Nat) : Expr → Option Expr
  | .op .store args => if notNested false (.op .store args) then args[argn]? else none
  | _ => none

/-! ### Systems -/

structure McmInstr where
  name : String
  decode : Expr
  updates : List (String × Expr)

def McmInstr.update (i : McmInstr) (s : String) : Option Expr := i.updates.lookup s

/-- The cores, the program of each core, which cores are in order, and the final property. -/
structure System where
  ilas : List IlaData
  tmpl : List (List McmInstr)
  ordered : List Bool
  property : Expr

def globalName : String := "__GLOBAL_INIT__"

namespace System

variable (u : System)

/-- The states of all cores, which are found by name. -/
def states : List Var := u.ilas.flatMap IlaData.states

/-- `FindSharedStates`: a state with a name that more than one core has. -/
def shared : List String := (u.states.map Var.name).dedup.filter fun s => 1 < (u.states.map Var.name).count s

/-- A state of the global ILA. -/
def globalVar (s : String) : Var :=
  ⟨0, s, some globalName, ((u.states.find? fun v => v.name == s).map Var.sort).getD .bool⟩

def ilaName (core : Nat) : String := ((u.ilas[core]?).map IlaData.name).getD ""

/-- `InstrLvlAbs::state` of a core. -/
def coreVar (core : Nat) (s : String) : Var :=
  ((u.ilas[core]?).bind fun d => d.states.find? fun v => v.name == s).getD ⟨0, s, some (u.ilaName core), .bool⟩

/-- The instruction of the global ILA, which updates every state to itself. -/
def initInstr : McmInstr := ⟨"__INIT__", .const (.bool true), u.shared.map fun s => (s, .var (u.globalVar s))⟩

def instr (core pos : Nat) : McmInstr :=
  ((u.tmpl[core]?).bind (·[pos]?)).getD ⟨"", .const (.bool true), []⟩

end System

/-! ### Trace steps -/

structure TraceStep where
  ev : Ev
  hostName : String
  stateVar : String → Var
  suffix : String
  inst : McmInstr
  readSet : List String
  writeSet : List String
  loads : List (String × Expr × Expr)

namespace TraceStep

/-- A step of an instruction. Positions count from 1 in the suffix. -/
def ofInstr (ev : Ev) (hostName : String) (stateVar : String → Var) (pos : Nat) (i : McmInstr) : TraceStep where
  ev := ev
  hostName := hostName
  stateVar := stateVar
  suffix := toString pos
  inst := i
  readSet := uses i.decode ++ i.updates.flatMap fun p => uses p.2
  writeSet := i.updates.map Prod.fst
  loads := Mcm.loads i.decode ++ i.updates.flatMap fun p => Mcm.loads p.2

/-- `ConvertZ3OnThisStep`. -/
def conv (z3 : Z3) (ts : TraceStep) (e : Expr) : Term := getExpr z3 ts.suffix e

def isInit (ts : TraceStep) : Bool := ts.ev == .init

/-- `FindAddrDataPairVecInInst`. -/
def addrData (ts : TraceStep) (s : String) : List (Expr × Expr) := (ts.loads.filter fun p => p.1 == s).map Prod.snd

end TraceStep

namespace System

variable (u : System)

def step : Ev → TraceStep
  | .init => .ofInstr .init globalName u.globalVar 0 u.initInstr
  | .inst core pos => .ofInstr (.inst core pos) (u.ilaName core) (u.coreVar core) (pos + 1) (u.instr core pos)
  | .facet core pos => .ofInstr (.facet core pos) (u.ilaName core) (u.coreVar core) (pos + 1) (u.instr core pos)
  | .final =>
    { ev := .final
      hostName := globalName
      stateVar := u.globalVar
      suffix := "final"
      inst := ⟨"", .const (.bool true), []⟩
      readSet := uses u.property
      writeSet := []
      loads := loads u.property }

/-- The instruction events, core by core. -/
def instEvs : List Ev :=
  (List.range u.tmpl.length).flatMap fun core =>
    (List.range ((u.tmpl[core]?).getD []).length).map fun pos => .inst core pos

/-- `_all_inst_trace_steps`. -/
def allInstEvs : List Ev := u.instEvs ++ [.init]

def reads (e : Ev) (s : String) : Bool := decide (s ∈ (u.step e).readSet)

def writes (e : Ev) (s : String) : Bool := decide (s ∈ (u.step e).writeSet)

def readsShared (e : Ev) : Bool := (u.step e).readSet.any fun s => decide (s ∈ u.shared)

def writesShared (e : Ev) : Bool := (u.step e).writeSet.any fun s => decide (s ∈ u.shared)

/-- `WRITE_list`. -/
def writeList : List Ev := u.allInstEvs.filter u.writesShared

/-- `READ_list`. The initial step does not read. -/
def readList : List Ev := (u.instEvs ++ [Ev.final]).filter u.readsShared

end System

/-! ### The check of two steps -/

namespace System

variable (u : System)

/-- The states of the ILA of a step. -/
def hostStates : Ev → List Var
  | .init | .final => u.shared.map u.globalVar
  | .inst core _ | .facet core _ => ((u.ilas[core]?).map IlaData.states).getD []

def hostState (e : Ev) (s : String) : Option Var := (u.hostStates e).find? fun v => v.name == s

/-- The names that both steps access. -/
def intersect (l r : TraceStep) : List String := (l.readSet ++ l.writeSet).filter fun s => s ∈ r.readSet ++ r.writeSet

/-- `same_type_intersect`. There is no result if a name that both steps access is no state of one of their ILAs, since the sort of a
null pointer is asked for. -/
def sameTypeIntersect (l r : TraceStep) : Option (List String) :=
  if (intersect l r).all fun s => (u.hostState l.ev s).isSome && (u.hostState r.ev s).isSome then
    some ((intersect l r).filter fun s => (u.hostState l.ev s).map Var.sort = (u.hostState r.ev s).map Var.sort)
  else none

/-- `SameAddrDataSanityCheck` of two steps that were not checked before. -/
def sanityCheck (l r : TraceStep) (s : String) : Bool := (u.sameTypeIntersect l r).any fun names => decide (s ∈ names)

end System

/-! ### Same address and same data -/

inductive AxiomFuncHint where
  | none
  | read
  | write
  deriving DecidableEq

section Same

variable (z3 : Z3) (l r : TraceStep)

def convEq (a b : Expr) : ZForm := .eq (l.conv z3 a) (r.conv z3 b)

/-- `MemVarSameAddress`. -/
def memVarSameAddress (leftW : Option Expr) (leftR : List (Expr × Expr)) (rightW : Option Expr) (rightR : List (Expr × Expr)) :
    ZForm :=
  if leftW.isNone && leftR.isEmpty then .true
  else if rightW.isNone && rightR.isEmpty then .true
  else
    let wr : Option ZForm :=
      match leftW with
      | some w => if rightR.isEmpty then none else some (rightR.foldl (fun f p => .or f (convEq z3 l r w p.1)) .false)
      | none => none
    let rw : Option ZForm :=
      match rightW with
      | some w => if leftR.isEmpty then none else some (leftR.foldl (fun f p => .or f (convEq z3 r l w p.1)) .false)
      | none => none
    match wr, rw with
    | some a, some b => .and (.and .true a) b
    | some a, none => .and .true a
    | none, some b => .and .true b
    | none, none =>
      match leftW, rightW with
      | some a, some b => convEq z3 l r a b
      | _, _ => leftR.foldl (fun f p => rightR.foldl (fun f q => .or f (convEq z3 l r p.1 q.1)) f) .true

/-- The store that a step is looked at as. -/
def storeArg (ts : TraceStep) (s : String) (hint : AxiomFuncHint) (argn : Nat) : Option Expr :=
  if hint = .read then none else (ts.inst.update s).bind (checkAndPeel argn)

def loadArgs (ts : TraceStep) (s : String) (hint : AxiomFuncHint) : List (Expr × Expr) :=
  if hint = .write then [] else ts.addrData s

/-- `SameAddress`. -/
def sameAddress (s : String) (lhint rhint : AxiomFuncHint) : ZForm :=
  if (l.stateVar s).sort.isMem then
    if l.isInit then .true
    else if r.isInit then .true
    else memVarSameAddress z3 l r (storeArg l s lhint 1) (loadArgs l s lhint) (storeArg r s rhint 1) (loadArgs r s rhint)
  else .true

/-- Data at an address of the initial memory. -/
def initData (mem : Term) (ts : TraceStep) (p : Expr × Expr) : ZForm :=
  .eq (.op .select [mem, ts.conv z3 p.1]) (ts.conv z3 p.2)

/-- Where the addresses are the same the data is. -/
def dataMatch (p q : Expr × Expr) : ZForm := .implies (convEq z3 l r p.1 q.1) (convEq z3 l r p.2 q.2)

/-- `MemVarSameData`. -/
def memVarSameData (leftW : Option (Expr × Expr)) (leftR : List (Expr × Expr)) (rightW : Option (Expr × Expr))
    (rightR : List (Expr × Expr)) (mem : Term) : ZForm :=
  if l.isInit && r.isInit then .true
  else if l.isInit then (rightW.toList ++ rightR).foldl (fun f p => .and f (initData z3 mem r p)) .true
  else if r.isInit then (leftW.toList ++ leftR).foldl (fun f p => .and f (initData z3 mem l p)) .true
  else if leftW.isNone && leftR.isEmpty then .true
  else if rightW.isNone && rightR.isEmpty then .true
  else
    let wr : Option ZForm :=
      match leftW with
      | some w => if rightR.isEmpty then none else some (rightR.foldl (fun f p => .and f (dataMatch z3 l r w p)) .true)
      | none => none
    let rw : Option ZForm :=
      match rightW with
      | some w => if leftR.isEmpty then none else some (leftR.foldl (fun f p => .and f (dataMatch z3 r l w p)) .true)
      | none => none
    match wr, rw with
    | some a, some b => .and (.and .true a) b
    | some a, none => .and .true a
    | none, some b => .and .true b
    | none, none =>
      match leftW, rightW with
      | some a, some b => dataMatch z3 l r a b
      | _, _ => leftR.foldl (fun f p => rightR.foldl (fun f q => .and f (dataMatch z3 l r p q)) f) .true

/-- `NonMemVarSameData`. -/
def nonMemVarSameData (s : String) (lhint rhint : AxiomFuncHint) : ZForm :=
  let leftW := decide (s ∈ l.writeSet) && decide (lhint ≠ .read)
  let leftR := decide (s ∈ l.readSet) && decide (lhint ≠ .write)
  let rightW := decide (s ∈ r.writeSet) && decide (rhint ≠ .read)
  let rightR := decide (s ∈ r.readSet) && decide (rhint ≠ .write)
  let update (ts : TraceStep) : Expr := (ts.inst.update s).getD (.var (ts.stateVar s))
  if !leftW && !leftR then .true
  else if !rightW && !rightR then .true
  else
    let wr : ZForm := if leftW && rightR then .and .true (convEq z3 l r (update l) (.var (r.stateVar s))) else .true
    let rw : ZForm := if rightW && leftR then .and wr (convEq z3 r l (update r) (.var (l.stateVar s))) else wr
    if (leftW && rightR) || (rightW && leftR) then rw
    else
      let ww : ZForm := if leftW && rightW then .and rw (convEq z3 l r (update l) (update r)) else rw
      if leftR && rightR then .and ww (convEq z3 l r (.var (l.stateVar s)) (.var (l.stateVar s))) else ww

/-- `SameData`. -/
def sameData (global : String → Var) (s : String) (lhint rhint : AxiomFuncHint) : ZForm :=
  let store (ts : TraceStep) (hint : AxiomFuncHint) : Option (Expr × Expr) :=
    (storeArg ts s hint 1).bind fun addr => (storeArg ts s hint 2).map fun data => (addr, data)
  if (l.stateVar s).sort.isMem then
    memVarSameData z3 l r (store l lhint) (loadArgs l s lhint) (store r rhint) (loadArgs r s rhint)
      (getExpr z3 "0" (.var (global s)))
  else nonMemVarSameData z3 l r s lhint rhint

/-- `Decode`. -/
def decodeOf : ZForm := .holds (l.conv z3 l.inst.decode)

end Same

/-! ### The axiom of reads -/

/-- `SameCore`. -/
def sameCore (u : System) (l r : Ev) : Bool := (u.step l).hostName == (u.step r).hostName

/-- The relations that a model gives between writes and reads. -/
structure Relations where
  rf : Ev → Ev → ZForm
  fr : Ev → Ev → ZForm
  co : Ev → Ev → ZForm

section Axiom

variable (z3 : Z3) (u : System) (R : Relations)

/-- Another write to what is read comes before the write that is read from, or after the read. -/
def noWriteBetween (s : String) (r w w2 : Ev) : ZForm :=
  .implies .true (.implies (.and (sameAddress z3 (u.step r) (u.step w2) s .read .write) (decodeOf z3 (u.step w2)))
    (.or (R.co w2 w) (R.fr r w2)))

/-- The read is from the write. -/
def readsFrom (s : String) (r w : Ev) : ZForm :=
  .and .true (.and (.and (.and (.and (sameAddress z3 (u.step w) (u.step r) s .write .read)
      (sameData z3 (u.step w) (u.step r) u.globalVar s .write .read)) (decodeOf z3 (u.step w))) (R.rf w r))
    (.forallList ((u.writeList.filter fun w2 => w2 ≠ w ∧ w2 ≠ r ∧ u.writes w2 s).map (noWriteBetween z3 u R s r w))))

/-- `RF_CO_FR`. -/
def rfCoFr : ZForm :=
  .forallList (u.shared.map fun s => .forallList ((u.readList.filter fun r => u.reads r s).map fun r =>
    .implies .true (.existsList ((u.writeList.filter fun w => w ≠ r ∧ u.writes w s).map (readsFrom z3 u R s r)))))

variable {z3 u R} {M : Model} {T : Ev → Int} {s : String} {r w : Ev}

theorem sat_readsFrom : (readsFrom z3 u R s r w).Sat M T ↔
    (sameAddress z3 (u.step w) (u.step r) s .write .read).Sat M T ∧
      (sameData z3 (u.step w) (u.step r) u.globalVar s .write .read).Sat M T ∧ (decodeOf z3 (u.step w)).Sat M T ∧
      (R.rf w r).Sat M T ∧ ∀ w' ∈ u.writeList, w' ≠ w → w' ≠ r → u.writes w' s →
        (sameAddress z3 (u.step r) (u.step w') s .read .write).Sat M T → (decodeOf z3 (u.step w')).Sat M T →
        (R.co w' w).Sat M T ∨ (R.fr r w').Sat M T := by
  simp only [readsFrom, noWriteBetween, ZForm.sat_and, ZForm.sat_true, true_and, and_assoc, ZForm.sat_forallList_map,
    List.mem_filter, ZForm.sat_implies, ZForm.sat_or, forall_const, decide_eq_true_eq, and_imp, ne_eq]

theorem sat_rfCoFr : (rfCoFr z3 u R).Sat M T ↔ ∀ s ∈ u.shared, ∀ r ∈ u.readList, u.reads r s →
    ∃ w ∈ u.writeList, w ≠ r ∧ u.writes w s ∧ (readsFrom z3 u R s r w).Sat M T := by
  simp only [rfCoFr, ZForm.sat_forallList_map, List.mem_filter, ZForm.sat_implies, ZForm.sat_true, forall_const,
    ZForm.sat_existsList_map, decide_eq_true_eq, and_imp, and_assoc]

end Axiom

/-! ### Private states -/

section Local

variable (z3 : Z3) (u : System)

/-- `m_ila_private_state_names` of a core, by the name of its ILA. -/
def System.privateNames (core : Nat) : List String :=
  ((u.ilas.filter fun d => d.name == u.ilaName core).flatMap fun d => d.states.map Var.name).filter fun s => s ∉ u.shared

/-- `last_update_of_a_state`: an expression and the position that it is read at. -/
abbrev LastUpdate := List (String × Expr × Nat)

def lastOf (core : Nat) (last : LastUpdate) (s : String) : Expr × Nat := (last.lookup s).getD (.var (u.coreVar core s), 0)

/-- The update of a state by a step: nothing changes if the decode function is false. -/
def conditionalUpdate (ts : TraceStep) (s : String) : Expr :=
  .op .ite [ts.inst.decode, (ts.inst.update s).getD (.var (ts.stateVar s)), .var (ts.stateVar s)]

/-- The private states that a step reads are what was last written to them. -/
def linkReads (core : Nat) (last : LastUpdate) (ts : TraceStep) : List ZForm :=
  ((u.privateNames core).filter fun s => s ∈ ts.readSet).map fun s =>
    .eq (ts.conv z3 (.var (u.coreVar core s))) (getExpr z3 (toString (lastOf u core last s).2) (lastOf u core last s).1)

def addWrites (core pos : Nat) (last : LastUpdate) (ts : TraceStep) : LastUpdate :=
  (((u.privateNames core).filter fun s => s ∈ ts.writeSet).map fun s => (s, conditionalUpdate ts s, pos + 1)) ++ last

/-- The steps of a core that is in order, from a position on. -/
def linkOrdered (core : Nat) : Nat → Nat → LastUpdate → List ZForm
  | _, 0, last =>
    (u.privateNames core).map fun s =>
      .eq (getExpr z3 "final" (.var (u.coreVar core s)))
        (getExpr z3 (toString (lastOf u core last s).2) (lastOf u core last s).1)
  | pos, n + 1, last =>
    let ts := u.step (.inst core pos)
    linkReads z3 u core last ts ++ (if pos = 0 then [] else [.hb (.inst core (pos - 1)) (.inst core pos)]) ++
      linkOrdered core (pos + 1) n (addWrites u core pos last ts)

/-- A write to a private state: the expression, the decode function, the event and the position. -/
structure Define where
  expr : Expr
  decode : Expr
  ev : Ev
  pos : Nat

/-- `all_update_of_a_state`. -/
def defines (core : Nat) (s : String) : List Define :=
  ⟨.var (u.coreVar core s), .const (.bool true), .init, 0⟩ ::
    ((List.range ((u.tmpl[core]?).getD []).length).filter fun pos => u.writes (.inst core pos) s).map fun pos =>
      ⟨((u.instr core pos).update s).getD (.var (u.coreVar core s)), (u.instr core pos).decode, .inst core pos, pos + 1⟩

def defineDecode (d : Define) : ZForm := .holds (getExpr z3 (toString d.pos) d.decode)

/-- A read of a private state at a position, from one of the writes. -/
def linkUnorderedRead (core pos : Nat) (s : String) : ZForm :=
  let defs := (defines u core s).filter fun d => d.pos ≠ pos + 1
  (defs.map fun d => (defs.filter fun i => i.pos ≠ d.pos).foldl
      (fun f i => .and f (.implies (defineDecode z3 i) (.or (.hb i.ev d.ev) (.hb (.inst core pos) i.ev))))
      (.and (.and (.eq (getExpr z3 (toString (pos + 1)) (.var (u.coreVar core s))) (getExpr z3 (toString d.pos) d.expr))
        (.hb d.ev (.inst core pos))) (defineDecode z3 d))).foldl .or .false

/-- The final value of a private state, from the last of the writes. -/
def linkUnorderedFinal (core : Nat) (s : String) : ZForm :=
  ((defines u core s).map fun d => ((defines u core s).filter fun i => i.pos ≠ d.pos).foldl
      (fun f i => .and f (.implies (defineDecode z3 i) (.hb i.ev d.ev)))
      (.and (.eq (getExpr z3 "final" (.var (u.coreVar core s))) (getExpr z3 (toString d.pos) d.expr))
        (defineDecode z3 d))).foldl .or .false

def linkUnordered (core : Nat) : List ZForm :=
  ((List.range ((u.tmpl[core]?).getD []).length).flatMap fun pos =>
    ((u.privateNames core).filter fun s => u.reads (.inst core pos) s).map (linkUnorderedRead z3 u core pos)) ++
  (u.privateNames core).map (linkUnorderedFinal z3 u core)

/-- `SetLocalState`. -/
def setLocalState : List ZForm :=
  (List.range u.tmpl.length).flatMap fun core =>
    if (u.ordered[core]?).getD false then linkOrdered z3 u core 0 ((u.tmpl[core]?).getD []).length []
    else linkUnordered z3 u core

end Local

/-! ### Initial states and the final property -/

mutual

/-- `RecordAndReplaceIf`: the shared states of an initial condition are those of the global ILA. -/
def replaceHost (shared : List String) : Expr → Expr
  | .var v => if v.name ∈ shared then .var { v with host := some globalName } else .var v
  | .const c => .const c
  | .op o args => .op o (replaceHostList shared args)
  | .appFunc f args => .appFunc f (replaceHostList shared args)

def replaceHostList (shared : List String) : List Expr → List Expr
  | [] => []
  | e :: es => replaceHost shared e :: replaceHostList shared es

end

/-- `GenSysInitConstraints`. The conditions of the cores before are repeated. -/
def genSysInitConstraints (z3 : Z3) (u : System) : List ZForm :=
  (List.range u.ilas.length).map fun idx =>
    ((u.ilas.take (idx + 1)).flatMap IlaData.inits).foldl
      (fun f e => .and f (.holds (getExpr z3 "0" (replaceHost u.shared e)))) .true

/-- `SetFinalProperty`. -/
def setFinalProperty (z3 : Z3) (u : System) : List ZForm :=
  u.allInstEvs.map (fun e => .hb e .final) ++ [.holds ((u.step .final).conv z3 u.property)]

/-! ### Sequential consistency -/

namespace Sc

def relations : Relations := ⟨fun w r => .hb w r, fun r w => .hb r w, fun w1 w2 => .hb w1 w2⟩

/-- The constraints of the constructors of the trace steps. -/
def registerSteps (u : System) : List ZForm := u.instEvs.map .positive

/-- The constraints of an unrolled program. -/
def constraints (z3 : Z3) (u : System) : List ZForm :=
  registerSteps u ++ genSysInitConstraints z3 u ++ setFinalProperty z3 u ++ [rfCoFr z3 u relations] ++ setLocalState z3 u

end Sc

/-! ### Total store order -/

namespace Tso

/-- `__wfe_global`. -/
def wfeGlobal : Ev → Ev
  | .inst core pos => .facet core pos
  | e => e

def relations (u : System) : Relations where
  rf w r := if sameCore u w r then .hb w r else .hb (wfeGlobal w) r
  fr r w := if sameCore u r w then .hb r w else .hb r (wfeGlobal w)
  co w1 w2 := if sameCore u w1 w2 then .hb w1 w2 else .hb (wfeGlobal w1) (wfeGlobal w2)

section

variable (u : System)

def isFence (e : Ev) : Bool := decide ((u.step e).inst.name ∈ ["fence", "Fence", "FENCE"])

def isRmw (e : Ev) : Bool := decide ((u.step e).inst.name ∈ ["atomic_add", "atomic_and"])

def fenceList : List Ev := u.instEvs.filter (isFence u)

def rmwList : List Ev := u.instEvs.filter (isRmw u)

/-- `PureWrite_list`, which is made before the initial step is a write. -/
def pureWriteList : List Ev := u.instEvs.filter fun e => u.writesShared e && !isRmw u e

/-- The constraints of the constructors of the trace steps and of the facets of the writes. -/
def registerSteps : List ZForm :=
  u.instEvs.map .positive ++ (u.instEvs.filter u.writesShared).map fun e => .positive (wfeGlobal e)

def writeFacetOrder : ZForm := .forallList ((pureWriteList u).map fun w => .hb w (wfeGlobal w))

def storeOrder : ZForm :=
  .forallList (u.writeList.map fun w1 => .forallList ((u.writeList.filter fun w2 => w2 ≠ w1 ∧ sameCore u w1 w2).map fun w2 =>
    .implies .true (.implies (.and .true (.hb w1 w2)) (.hb (wfeGlobal w1) (wfeGlobal w2)))))

def fenceOrder : ZForm :=
  .forallList ((fenceList u).map fun f => .forallList ((u.writeList.filter fun w => sameCore u w f).map fun w =>
    .implies (.and .true (.hb w f)) (.hb (wfeGlobal w) f)))

def rmwOrder : ZForm := .forallList ((rmwList u).map fun i => .sync i (wfeGlobal i))

end

/-- The constraints of an unrolled program. There is no facet to synchronise a read-modify-write with that writes no shared
state. -/
def constraints (z3 : Z3) (u : System) : Option (List ZForm) :=
  if (rmwList u).all u.writesShared then
    some (registerSteps u ++ genSysInitConstraints z3 u ++ setFinalProperty z3 u ++
      [rfCoFr z3 u (relations u), writeFacetOrder u, storeOrder u, fenceOrder u, rmwOrder u] ++ setLocalState z3 u)
  else none

end Tso

end Mcm

end Ilang
