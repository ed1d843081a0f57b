import Ilang.Target.IlaSimExact
import Ilang.Util.OrdMap

/-!
# Update functions of the older simulator

`IlaSim` writes a function for every state that an instruction updates. The members for the applications are shared by all functions
of the simulator, so a function has to assign to a member before it reads it. A set of the applications searched in a function
keeps a statement from being written twice.

A memory update fills `mem_update_map`, which is copied into the memory afterwards. A choice between memories has a function of its
own, which is defined before the functions that call it. Two sets keep such a function from being defined and from being called
twice; they are not cleared from one update to the next.

The functions are members of one class, and the names that they get need not be different.
-/

namespace Ilang

open Smt

namespace IlaSim

/-! ### The text -/

/-- `get_arg_str`: the member of a variable, a constant, or the member of an application. -/
inductive Arg where
  | name (r : Name)
  | temp (id : Nat)

def getArgStr : Node → Arg
  | .leaf _ (.var v) => .name (.var v)
  | .leaf p (.const c) => .name (.const p c)
  | .app p _ _ => .temp p

/-- A line: `c_{id} = ..;`, `mem_update_map[{addr}] = {data};` and `ite_{id}(mem_update_map);`. -/
inductive Line where
  | assign (id : Nat) (rhs : Rhs) (args : List Arg)
  | put (addr data : Arg)
  | call (id : Nat)

/-- A function `ite_{id}`. -/
structure IteFunc where
  id : Nat
  condLines : List Line
  cond : Arg
  onTrue : List Line
  onFalse : List Line

/-- A function for a state. -/
structure UpdateFunc where
  state : Var
  lines : List Line
  ret : Arg

/-- A stream of lines, with the sets that `dfs_kernel` looks at. -/
structure Text where
  searchedIdSet : Finset Nat
  storeIteSet : Finset Nat
  lines : List Line

def Text.write (t : Text) (l : Line) : Text := { t with lines := t.lines ++ [l] }

/-- The generator between two functions. -/
structure Gen where
  searchedIdSet : Finset Nat
  storeIteSet : Finset Nat
  definedStoreIteSet : Finset Nat
  iteFuncs : List IteFunc

/-- `sim_gen_init` -/
def Gen.init : Gen := ⟨∅, ∅, ∅, []⟩

section Visit

variable {S : Type} (f : Node → S → Option S)

mutual

/-- `Expr::DepthFirstVisit`, which visits a node again wherever it stands. -/
def depthFirstVisit : Node → S → Option S
  | .leaf p l, s => f (.leaf p l) s
  | .app p h args, s => (depthFirstVisitList args s).bind (f (.app p h args))

def depthFirstVisitList : List Node → S → Option S
  | [], s => some s
  | a :: as, s => (depthFirstVisit a s).bind (depthFirstVisitList as)

end

variable {f}

variable {R : S → S → Prop} (hrefl : ∀ s, R s s) (htrans : ∀ {s t u}, R s t → R t u → R s u)

include hrefl htrans

end Visit

namespace Text

/-- `dfs_ite_op` for memories: a choice that was called before is not called again. -/
def dfsIteOp (t : Text) (id : Nat) : Text :=
  if id ∈ t.storeIteSet then t
  else { searchedIdSet := insert id t.searchedIdSet, storeIteSet := insert id t.storeIteSet, lines := t.lines ++ [.call id] }

/-- `dfs_kernel`. -/
def dfsKernel (n : Node) (t : Text) : Option Text :=
  match n with
  | .leaf _ _ => some t
  | .app id h args =>
    if id ∈ t.searchedIdSet then some t
    else
      let t := { t with searchedIdSet := insert id t.searchedIdSet }
      (IlaSim.dfsKernel (.app id h args)).bind fun
        | .inr rhs => some (t.write (.assign id rhs (args.map getArgStr)))
        | .inl _ =>
          match h, args with
          | .op .store, [_, addr, data] => some (t.write (.put (getArgStr addr) (getArgStr data)))
          | .op .ite, _ => some (t.dfsIteOp id)
          | _, _ => none

end Text

namespace Gen

/-- An empty stream with the sets of the generator. -/
def text (g : Gen) : Text := ⟨g.searchedIdSet, g.storeIteSet, []⟩

/-- The function of a choice. The three parts are written one after the other. -/
def defineIte (g : Gen) (id : Nat) (c t e : Node) : Option Gen :=
  (depthFirstVisit Text.dfsKernel c g.text).bind fun tc =>
    (depthFirstVisit Text.dfsKernel t { tc with lines := [] }).bind fun tt =>
      (depthFirstVisit Text.dfsKernel e { tt with lines := [] }).map fun te =>
        { searchedIdSet := te.searchedIdSet
          storeIteSet := te.storeIteSet
          definedStoreIteSet := insert id g.definedStoreIteSet
          iteFuncs := g.iteFuncs ++ [⟨id, tc.lines, getArgStr c, tt.lines, te.lines⟩] }

/-- `mem_state_update_decl`. -/
def memStateUpdateDecl (n : Node) (g : Gen) : Option Gen :=
  match n with
  | .app id (.op .ite) [c, t, e] =>
    if (Node.app id (.op .ite) [c, t, e]).expr.sort.isMem ∧ id ∉ g.definedStoreIteSet then g.defineIte id c t e else some g
  | _ => some g

end Gen

def isStore : Node → Bool
  | .app _ (.op .store) _ => true
  | _ => false

/-- `load_from_store_analysis`. -/
def loadFromStoreAnalysis (n : Node) : Bool :=
  n.subs.any fun
    | .app _ (.op .load) args => (args.take 2).any isStore
    | _ => false

/-- What the functions of an instruction are named by. -/
structure InstrName where
  host : String
  name : String
  decode : Nat

/-- The name of `create_decode`. It is readable, or has the pointer of the expression. -/
def decodeFuncName (readable : Bool) (i : InstrName) : String :=
  if readable then "decode_" ++ i.host ++ "_" ++ i.name else "decode_" ++ toString i.decode

/-- A state, with the name of its ILA and its pointer. -/
structure StateObj where
  host : String
  ptr : Nat
  var : Var

/-- The name of `create_state_update`. -/
def stateUpdateFuncName (readable : Bool) (i : InstrName) (s : StateObj) : String :=
  decodeFuncName readable i ++ "_update_" ++ s.host ++ "_" ++ s.var.name

/-- A function is written: one that initialises or decodes, from the expressions that it visits, or an update. -/
inductive Step where
  | init (ila : String) (roots : List Node)
  | decode (instr : InstrName) (roots : List Node)
  | update (instr : InstrName) (state : StateObj) (update : Node)

namespace Step

def roots : Step → List Node
  | .init _ roots => roots
  | .decode _ roots => roots
  | .update _ _ n => [n]

/-- The member that is declared. A state that keeps its value has no function. -/
def funcName (readable : Bool) : Step → Option String
  | .init ila _ => some ("init_" ++ ila)
  | .decode i _ => some (decodeFuncName readable i)
  | .update i s n => if s.ptr = n.ptr then none else some (stateUpdateFuncName readable i s)

end Step

namespace Gen

/-- `create_decode` and `create_init`. -/
def createOther (g : Gen) (roots : List Node) : Option Gen :=
  (depthFirstVisitList Text.dfsKernel roots { g.text with searchedIdSet := ∅ }).map fun t =>
    { g with searchedIdSet := t.searchedIdSet, storeIteSet := t.storeIteSet }

/-- `state_update_decl`, as far as it writes functions. -/
def stateUpdateDecl (g : Gen) (state : Var) (update : Node) : Option Gen :=
  if state.sort.isMem then depthFirstVisit memStateUpdateDecl update { g with searchedIdSet := ∅ }
  else some { g with searchedIdSet := ∅ }

/-- `create_state_update` for one state. -/
def createStateUpdate (g : Gen) (state : StateObj) (update : Node) : Option (Gen × Option UpdateFunc) :=
  if loadFromStoreAnalysis update then none
  else if state.ptr = update.ptr then some (g, none)
  else
    (g.stateUpdateDecl state.var update).bind fun g =>
      (depthFirstVisit Text.dfsKernel update g.text).map fun t =>
        ({ g with searchedIdSet := t.searchedIdSet, storeIteSet := t.storeIteSet }, some ⟨state.var, t.lines, getArgStr update⟩)

def step (g : Gen) : Step → Option (Gen × Option UpdateFunc)
  | .init _ roots => (g.createOther roots).map fun g => (g, none)
  | .decode _ roots => (g.createOther roots).map fun g => (g, none)
  | .update _ state update => g.createStateUpdate state update

/-- The functions are written in some order: those that initialise the children, those that decode, and the updates. For each step
there is the function of the update. -/
def run (g : Gen) : List Step → Option (Gen × List (Option UpdateFunc))
  | [] => some (g, [])
  | s :: steps => (g.step s).bind fun r => (r.1.run steps).map fun q => (q.1, r.2 :: q.2)

end Gen

/-- The members of the applications, and the reads of the maps so far. -/
structure Members where
  temps : Nat → Option ScVal
  reads : List Ilator.Read

/-- A statement is executed. -/
def Members.write (m : Members) (id : Nat) (u : ScVal) (reads : List Ilator.Read) : Members :=
  ⟨Function.update m.temps id (some u), m.reads ++ reads⟩

/-- The members, and the map that is passed to the functions of a memory update. -/
structure Env where
  members : Members
  memUpdateMap : Option (OrdMap Int Int)

/-- What an `int` is given: the lower 32 bits. -/
def toInt (x : Nat) : Int := (BitVec.ofNat 32 x).toInt

section Exec

variable {ν : Valuation} (σ : Ilator.Maps ν)

def Arg.value (members : Members) : Arg → Option ScVal
  | .name r => (effects σ).name r
  | .temp id => members.temps id

/-- A line, where the functions of the choices are given. There is no result where a member or an operator has no value. -/
def execLine (call : Nat → Env → Option Env) (env : Env) : Line → Option Env
  | .assign id rhs args =>
    (args.mapM (Arg.value σ env.members)).bind fun us =>
      (stmt ν rhs (us.map (ScVal.after env.members.reads))).map fun u =>
        { env with members := env.members.write id u (readsOf rhs us) }
  | .put addr data =>
    env.memUpdateMap.bind fun m => (addr.value σ env.members).bind fun u => u.int?.bind fun x =>
      (data.value σ env.members).bind fun u' => u'.int?.map fun y => { env with memUpdateMap := some (m.assign (toInt x) (toInt y)) }
  | .call id => if env.memUpdateMap.isSome then call id env else none

def execLines (call : Nat → Env → Option Env) (lines : List Line) (env : Env) : Option Env := lines.foldlM (execLine σ call) env

end Exec

end IlaSim

end Ilang
