import Ilang.Ila.Hierarchy
import Ilang.Ila.Node

/-!
# Hierarchies with the nodes of their expressions

A target that remembers nodes by their identities is given a hierarchy in which every expression is a `Node`.
-/

namespace Ilang

open Smt

/-- An instruction with the nodes of its expressions. -/
structure InstrGraph where
  instr : Instr
  decode : Option Node
  updates : List (String × Option Node)
  decode_expr : decode.map Node.expr = instr.decode
  updates_expr : (updates.map fun u => (u.1, u.2.map Node.expr)) = instr.updates

/-- An ILA with the nodes of its expressions. -/
structure IlaGraph where
  data : IlaData
  inits : List Node
  fetch : Option Node
  valid : Option Node
  instrs : List InstrGraph
  inits_expr : inits.map Node.expr = data.inits
  fetch_expr : fetch.map Node.expr = data.fetch
  valid_expr : valid.map Node.expr = data.valid
  instrs_instr : instrs.map InstrGraph.instr = data.instrs

inductive GraphTree where
  | mk (graph : IlaGraph) (childs : List GraphTree)

namespace Node

/-- The node of a variable. Its pointer is the identity of its name. -/
def ofVar (v : Var) : Node := .leaf v.id (.var v)

end Node

namespace InstrGraph

/-- `Instr::update`, the state itself where there is none. -/
def next (i : InstrGraph) (v : Var) : Node := ((i.updates.lookup v.name).join).getD (.ofVar v)

end InstrGraph

namespace GraphTree

@[elab_as_elim]
theorem ind {P : GraphTree → Prop} (mk : ∀ g cs, (∀ c ∈ cs, P c) → P (.mk g cs)) : ∀ t, P t
  | .mk g cs => mk g cs fun c _ => ind mk c

def graph : GraphTree → IlaGraph
  | .mk g _ => g

mutual

/-- The hierarchy itself. -/
def ila : GraphTree → Ila
  | .mk g cs => .mk g.data (ilaList cs)

def ilaList : List GraphTree → List Ila
  | [] => []
  | c :: cs => ila c :: ilaList cs

end

mutual

/-- The ILAs, parents first. -/
def graphs : GraphTree → List IlaGraph
  | .mk g cs => g :: graphsList cs

def graphsList : List GraphTree → List IlaGraph
  | [] => []
  | c :: cs => graphs c ++ graphsList cs

end

end GraphTree

/-- The expressions that are written for an instruction. -/
def InstrGraph.roots (host : IlaGraph) (i : InstrGraph) : List Node := i.decode.toList ++ host.data.states.map i.next

/-- The expressions that are written for an ILA, in their order. -/
def IlaGraph.roots (g : IlaGraph) : List Node :=
  g.data.inputs.map .ofVar ++ (g.data.states.map .ofVar ++ (g.fetch.toList ++ (g.valid.toList ++
    (g.instrs.flatMap (InstrGraph.roots g) ++ g.inits))))

def GraphTree.roots (t : GraphTree) : List Node := t.graphs.flatMap IlaGraph.roots

/-- The valid condition and the decodes are set. -/
structure IlaGraph.Complete (g : IlaGraph) : Prop where
  valid : g.valid ≠ none
  decode : ∀ i ∈ g.instrs, i.decode ≠ none

namespace GraphTree

theorem mem_graphsList {cs : List GraphTree} {g : IlaGraph} : g ∈ graphsList cs ↔ ∃ c ∈ cs, g ∈ c.graphs := by
  induction cs with
  | nil => simp [graphsList]
  | cons c cs ih => simp [graphsList, ih]

theorem mem_graphs_mk {g g' : IlaGraph} {cs : List GraphTree} :
    g' ∈ (mk g cs).graphs ↔ g' = g ∨ ∃ c ∈ cs, g' ∈ c.graphs := by
  rw [graphs, List.mem_cons, mem_graphsList]

end GraphTree

end Ilang
