import Ilang.Target.IlatorExact
import Ilang.Target.IlatorUpdate

/-!
# Memory updates in the generated simulator

A memory update is compiled to a function that fills a map, `tmp_memory`, with what is stored. A choice between memories has a
function of its own, which the functions around it call. When all updates are computed the map is copied into the memory. The
memory at the bottom of the update is not looked at, so the copy is right where this memory is the one updated, or happens to have
the same words.

The functions make entries in the maps that they load from, and what they call makes more. What an update needs of its expressions is
asked of them for any such entries.
-/

namespace Ilang

open Smt

namespace Ilator

/-! ### Functions -/

/-- A line of a function: the declaration of a local, `tmp_memory[{address}] = {data};`, and `{ite_update_func}(tmp_memory);`. -/
inductive MemLine where
  | decl (s : Stmt Name Decl)
  | put (addr data : Ref Name)
  | call (n : Node)

def MemLine.stmt? : MemLine → Option (Stmt Name Decl)
  | .decl s => some s
  | _ => none

structure MemBuffer where
  lut : Nat → Option (Ref Name)
  code : List MemLine

namespace MemBuffer

/-- The declarations, with the names that they give. -/
def decls (b : MemBuffer) : Buffer Name Decl := ⟨b.lut, b.code.filterMap MemLine.stmt?⟩

def push (b : MemBuffer) (l : MemLine) : MemBuffer := ⟨b.lut, b.code ++ [l]⟩

/-- A node gets a name. -/
def add (b : MemBuffer) (n : Node) : Name ⊕ Decl → Option MemBuffer
  | .inl r => some ⟨Function.update b.lut n.ptr (some (.name r)), b.code⟩
  | .inr s => (n.args.mapM fun a => b.lut a.ptr).map fun refs =>
    ⟨Function.update b.lut n.ptr (some (.loc b.decls.code.length)), b.code ++ [.decl ⟨s, refs⟩]⟩

end MemBuffer

def isMemOp (n : Node) : Bool :=
  match n with
  | .leaf _ _ => false
  | .app _ _ _ => n.expr.sort.isMem

def isMemIte (n : Node) : Bool :=
  match n with
  | .app _ (.op .ite) _ => isMemOp n
  | _ => false

/-- `DfsOpMemory`: what is no store is called. -/
def dfsOpMemory (b : MemBuffer) : Node → Option MemBuffer
  | .app _ (.op .store) [_, addr, data] => (b.lut addr.ptr).bind fun r => (b.lut data.ptr).map fun r' => b.push (.put r r')
  | .app _ (.op .store) _ => none
  | n => some (b.push (.call n))

/-- `DfsExpr`. -/
def dfsExpr (n : Node) (b : MemBuffer) : Option MemBuffer :=
  if (b.lut n.ptr).isSome then some b
  else if isMemOp n then dfsOpMemory b n
  else (plan n).bind (b.add n)

mutual

/-- `RenderMemUpdate`, which does not go into a choice between memories. -/
def renderMemUpdate : Node → MemBuffer → Option MemBuffer
  | .leaf p l, b => dfsExpr (.leaf p l) b
  | .app p h args, b =>
    if isMemIte (.app p h args) then dfsExpr (.app p h args) b
    else (renderMemUpdateList args b).bind (dfsExpr (.app p h args))

def renderMemUpdateList : List Node → MemBuffer → Option MemBuffer
  | [], b => some b
  | a :: as, b => (renderMemUpdate a b).bind (renderMemUpdateList as)

end

/-- A map from addresses to words. -/
abbrev WordMap (a d : Nat) := BitVec a → Option (BitVec d)

/-- The locals of a function, the reads so far, and `tmp_memory`. -/
structure MemState (a d : Nat) where
  env : List (Option ScVal)
  reads : List Read
  tmp : WordMap a d

section Run

variable {ν : Valuation} (σ : Maps ν) {a d : Nat}

/-- An assignment to an element of `tmp_memory`. -/
def putEntry (tmp : WordMap a d) (u v : Option (Option ScVal)) : Option (WordMap a d) :=
  match u, v with
  | some (some (.big _ x)), some (some (.big _ y)) => some (Function.update tmp (x.setWidth a) (some (y.setWidth d)))
  | _, _ => none

/-- One line, where the functions that are called are given. -/
def execLine (call : Node → List Read × WordMap a d → Option (List Read × WordMap a d)) (st : MemState a d) :
    MemLine → Option (MemState a d)
  | .decl s => ((effects σ).step (st.env, st.reads) s).map fun p => ⟨p.1, p.2, st.tmp⟩
  | .put r r' => (putEntry st.tmp ((effects σ).value st.env r) ((effects σ).value st.env r')).map fun tmp => { st with tmp := tmp }
  | .call n => (call n (st.reads, st.tmp)).map fun p => ⟨st.env, p.1, p.2⟩

def execLines (call : Node → List Read × WordMap a d → Option (List Read × WordMap a d)) (st : MemState a d) (code : List MemLine) :
    Option (MemState a d) := code.foldlM (execLine σ call) st

end Run

/-! ### Lines of code -/

section Lines

variable {ν : Valuation} {σ : Maps ν} {a d : Nat} {heap : Nat → Node} {b b' : MemBuffer} {n : Node}

variable {μ : Meaning Name Decl (Option ScVal)} {env : List (Option ScVal)}

variable {call : Node → List Read × WordMap a d → Option (List Read × WordMap a d)}

theorem execLines_append (st : MemState a d) (l l' : List MemLine) :
    execLines σ call st (l ++ l') = (execLines σ call st l).bind fun st => execLines σ call st l' := by
  rw [execLines, List.foldlM_append]
  rfl

end Lines

/-! ### What a function stores -/

/-- The expressions that are evaluated on the way down an update are safe, whatever has been read. -/
def SafeMem {ν : Valuation} (σ : Maps ν) : Node → Prop
  | .app _ (.op .store) [m, addr, data] => SafeMem σ m ∧ AlwaysSafe σ addr ∧ AlwaysSafe σ data
  | .app _ (.op .ite) [c, t, e] => AlwaysSafe σ c ∧ if Value.isTrue (c.expr.eval ν) then SafeMem σ t else SafeMem σ e
  | _ => True

section Stored

variable {ν : Valuation} {σ : Maps ν} {a d : Nat}

variable {heap : Nat → Node} {b b' : MemBuffer} {env : List (Option ScVal)} {n : Node} {τ : Nat → List Read}
  {call : Node → List Read × WordMap a d → Option (List Read × WordMap a d)}

end Stored

/-- A memory with two words of one bit. -/
def twoWords : Var := ⟨0, "m", some "c", .mem 1 1⟩

end Ilator

end Ilang
