import Ilang.Target.Ilator

/-!
# Expressions in the older simulator

`IlaSim` writes an expression over members of the simulator class. Every application has a member with a declared type,
and its statement assigns to it, so what is assigned is cut to the width of the type. A constant has no member: it stands
in the text as a literal, an integer of C++. Two literals are combined in `int` or in `long`, a literal cannot be shifted
by a SystemC integer, and it has no bits to select.

The operators on SystemC integers are those that the code of `Ilator` uses. A read of a map makes an entry, as it does there.
-/

namespace Ilang

open Smt

namespace IlaSim

/-- What an operand stands for. Memories of up to 16 address bits are arrays, like memory constants; others are maps. -/
inductive ScVal where
  | bool (b : Bool)
  | lit (z : Nat)
  | big (w : Nat) (x : BitVec w)
  | array (obj : Var ⊕ Nat) (a d : Nat) (words : BitVec a → BitVec d)
  | map (v : Var) (a d : Nat) (entries : BitVec a → Option (BitVec d))

/-- `get_arg_str` of what no statement assigns to: the member of a variable, a constant, and the name `c_<id>` of an
update of a memory, which is not declared. -/
inductive Name where
  | var (v : Var)
  | const (id : Nat) (c : ConstVal)
  | undeclared

/-- The statements, by their templates. -/
inductive Rhs where
  | unary (o : ExprOp) (type : Srt)
  | binaryBoolOut (o : ExprOp)
  | binaryNonMem (o : ExprOp) (type : Srt)
  | concat (width₀ width₁ : Nat) (type : Srt)
  | load (type : Srt)
  | extract (param₀ param₁ : Nat) (type : Srt)
  | zext (type : Srt)
  | sext (sign : Nat) (type : Srt)
  | func (f : Func)
  | ite (type : Srt)

/-- The checks on the sort of the result. -/
def checked (ok : Bool) (r : Rhs) : Option (Name ⊕ Rhs) := if ok then some (.inr r) else none

def dfsUnaryOp (o : ExprOp) (sort : Srt) : Option (Name ⊕ Rhs) := checked (!sort.isMem) (.unary o sort)

def dfsBinaryOpBoolOut (o : ExprOp) (sort : Srt) : Option (Name ⊕ Rhs) := checked (sort == .bool) (.binaryBoolOut o)

def dfsBinaryOpNonMem (o : ExprOp) (sort : Srt) (argSorts : List Srt) : Option (Name ⊕ Rhs) :=
  checked (!sort.isMem) <|
    if o = .concat then .concat (bitWidth (ExprOp.argSort argSorts 0)) (bitWidth (ExprOp.argSort argSorts 1)) sort
    else .binaryNonMem o sort

/-- A store writes to the map of updates and defines nothing. -/
def dfsBinaryOpMem (o : ExprOp) (sort : Srt) : Name ⊕ Rhs := if o = .load then .inr (.load sort) else .inl .undeclared

def dfsExtOp (o : ExprOp) (sort : Srt) (argSorts : List Srt) : Rhs :=
  match o with
  | .zext _ => .zext sort
  | _ => .sext (bitWidth (ExprOp.argSort argSorts 0) - 1) sort

/-- A choice between memories is a call of a function that writes to the map of updates. -/
def dfsIteOp (sort : Srt) : Name ⊕ Rhs := if sort.isMem then .inl .undeclared else .inr (.ite sort)

def dfsFuncOp (f : Func) : Option (Name ⊕ Rhs) := checked (!f.out.isMem) (.func f)

/-- The operators of `dfs_kernel`; for any other there is an error. -/
def dfsOp (o : ExprOp) (sort : Srt) (argSorts : List Srt) : Option (Name ⊕ Rhs) :=
  match o with
  | .neg | .not | .compl => dfsUnaryOp o sort
  | .eq | .lt | .gt | .ult | .ugt | .imply => dfsBinaryOpBoolOut o sort
  | .sub | .and | .or | .xor | .shl | .ashr | .lshr | .add | .mul | .div | .concat | .urem =>
    dfsBinaryOpNonMem o sort argSorts
  | .load | .store => some (dfsBinaryOpMem o sort)
  | .extract hi lo => some (.inr (.extract hi lo sort))
  | .zext _ | .sext _ => some (.inr (dfsExtOp o sort argSorts))
  | .ite => some (dfsIteOp sort)
  | .srem | .smod | .lRotate _ | .rRotate _ => none

/-- `dfs_kernel` at a node that has not been searched. -/
def dfsKernel : Node → Option (Name ⊕ Rhs)
  | .leaf _ (.var v) => some (.inl (.var v))
  | .leaf p (.const c) => some (.inl (.const p c))
  | .app p (.op o) args => dfsOp o (Node.app p (.op o) args).expr.sort (args.map fun a => a.expr.sort)
  | .app _ (.appFunc f) _ => dfsFuncOp f

/-- The statement of a node. -/
structure Decl where
  node : Node
  rhs : Rhs

def gen : Emitter Name Decl := ⟨fun n => (dfsKernel n).map (Sum.map id (Decl.mk n))⟩

theorem gen_plan (n : Node) : gen.plan n = (dfsKernel n).map (Sum.map id (Decl.mk n)) := rfl

theorem plan_eq_inr {n : Node} {r : Rhs} (h : dfsKernel n = some (.inr r)) : gen.plan n = some (.inr ⟨n, r⟩) := by
  rw [gen_plan, h]
  rfl

theorem plan_eq_inl {n : Node} {r : Name} (h : dfsKernel n = some (.inl r)) : gen.plan n = some (.inl r) := by
  rw [gen_plan, h]
  rfl

theorem plan_isSome {n : Node} : (gen.plan n).isSome ↔ (dfsKernel n).isSome := by
  rw [gen_plan, Option.isSome_map]

theorem exists_plan {n : Node} {s : Decl} (h : gen.plan n = some (.inr s)) : dfsKernel n = some (.inr s.rhs) ∧ s.node = n := by
  obtain ⟨pl, hpl, heq⟩ := Option.map_eq_some_iff.mp h
  cases pl with
  | inl r => cases heq
  | inr r =>
    obtain rfl := Sum.inr.inj heq
    exact ⟨hpl, rfl⟩

/-! ### The meaning of the text -/

namespace ScVal

def isLit : ScVal → Bool
  | .lit _ => true
  | _ => false

/-- The integer of an operand. -/
def int? : ScVal → Option Nat
  | .lit z => some z
  | .big _ x => some x.toNat
  | _ => none

end ScVal

/-- What is assigned: a truth value or an integer. -/
inductive Res where
  | bool (b : Bool)
  | int (z : Int)

/-- An assignment to a member of a type. -/
def assign : Srt → Res → Option ScVal
  | .bool, .bool b => some (.bool b)
  | .bv w, .int z => some (.big w (BitVec.ofInt w z))
  | _, _ => none

/-- The type of a literal has 32 or 64 bits, one of them for the sign. -/
def litBits (z : Nat) : Nat := if z < 2 ^ 31 then 32 else 64

/-- Where C++ defines an operator on operands of which some are literals: a sum or a product of two literals has to fit
in their common type, a shifted literal in its own, and the distance is less than the bits of that type. A literal that
is shifted by a SystemC integer does not compile. -/
def Defined (o : ExprOp) (lit lit' : Bool) (x y : Nat) : Prop :=
  match o, lit, lit' with
  | .add, true, true => x + y < 2 ^ (max (litBits x) (litBits y) - 1)
  | .mul, true, true => x * y < 2 ^ (max (litBits x) (litBits y) - 1)
  | .shl, true, true => y < litBits x ∧ x <<< y < 2 ^ (litBits x - 1)
  | .lshr, true, true => y < litBits x
  | .ashr, true, true => y < litBits x
  | .shl, true, false => False
  | .lshr, true, false => False
  | .ashr, true, false => False
  | _, _, _ => True

instance (o : ExprOp) (lit lit' : Bool) (x y : Nat) : Decidable (Defined o lit lit' x y) := by
  unfold Defined
  split <;> infer_instance

/-- `({arg} {op} {arg})` on integers. -/
def integer (o : ExprOp) (u v : ScVal) : Option Int :=
  u.int?.bind fun x => v.int?.bind fun y => if Defined o u.isLit v.isLit x y then Ilator.integer o x y else none

/-- `{op}{arg}`. The complement of a SystemC integer has its length; that of a literal is signed. -/
def unary (o : ExprOp) (u : ScVal) : Option Res :=
  match o, u with
  | .not, .bool b => some (.bool !b)
  | .neg, u => u.int?.map fun x => .int (-(x : Int))
  | .compl, .big _ x => some (.int (~~~x).toNat)
  | .compl, .lit z => some (.int (-(z : Int) - 1))
  | _, _ => none

/-- `{arg} {op} {arg}` and `(!{arg}) & {arg}`. Arrays are compared by their addresses. -/
def binaryBoolOut (o : ExprOp) (u v : ScVal) : Option Bool :=
  match u, v with
  | .bool a, .bool b => if o = .imply then some (!a && b) else Ilator.logical o a b
  | .array obj _ _ _, .array obj' _ _ _ => if o = .eq then some (decide (obj = obj')) else none
  | .map _ a d f, .map _ a' d' g =>
    if ha : a' = a then
      if hd : d' = d then
        if o = .eq then some (Ilator.mapEq f fun i => (g (i.cast ha.symm)).map (BitVec.cast hd)) else none
      else none
    else none
  | u, v => u.int?.bind fun x => v.int?.bind fun y => Ilator.compare o x y

def binaryNonMem (o : ExprOp) (u v : ScVal) : Option Res :=
  match u, v with
  | .bool a, .bool b => (Ilator.logical o a b).map .bool
  | u, v => (integer o u v).map .int

/-- `(sc_biguint<width>({arg}) , sc_biguint<width>({arg}))`. -/
def concat (w w' : Nat) (u v : ScVal) : Option Res :=
  u.int?.bind fun x => v.int?.map fun y => .int (BitVec.ofNat w x ++ BitVec.ofNat w' y).toNat

/-- `to_int` has the lower 32 bits as a signed integer; a literal is an index by itself. -/
def index (lit : Bool) (x : Nat) : Int := if lit then x else (BitVec.ofNat 32 x).toInt

/-- `{mem}[i]`. A map converts the index to its addresses. -/
def readAt (u : ScVal) (i : Int) : Option Nat :=
  match u with
  | .array _ a _ words => if 0 ≤ i ∧ i < (2 ^ a : Nat) then some (words (BitVec.ofInt a i)).toNat else none
  | .map _ a _ f => some ((f (BitVec.ofInt a i)).getD 0).toNat
  | _ => none

/-- `{arg}.range(hi, lo)`. -/
def range (hi lo : Nat) (u : ScVal) : Option Res :=
  match u with
  | .big w x => if lo ≤ hi ∧ hi < w then some (.int (x.extractLsb hi lo).toNat) else none
  | _ => none

/-- The value of an operand. -/
def ScVal.res : ScVal → Option Res
  | .bool b => some (.bool b)
  | u => u.int?.map fun z => .int z

/-- The two assignments of a sign extension: the complement of a negative operand, and the complement of that. -/
def signExtend (sign : Nat) (type : Srt) (u : ScVal) : Option ScVal :=
  match u, type with
  | .big w x, .bv outw =>
    if sign < w then
      let c : BitVec outw := BitVec.ofNat outw (if x.getLsbD sign then ~~~x else x).toNat
      some (.big outw (if x.getLsbD sign then ~~~c else c))
    else none
  | _, _ => none

/-- What a parameter of an external function is converted to. The parameter for a memory has the type of a word. -/
def valueOf : Srt → ScVal → Option Value
  | .bool, .bool b => some (.bool b)
  | .bv w, u => u.int?.map fun z => .bv w (BitVec.ofNat w z)
  | _, _ => none

/-- The result of an external function. -/
def resOf : Value → Option Res
  | .bool b => some (.bool b)
  | .bv _ x => some (.int x.toNat)
  | .mem _ _ _ => none

def stmt (ν : Valuation) : Rhs → List ScVal → Option ScVal
  | .unary o type, [u] => (unary o u).bind (assign type)
  | .binaryBoolOut o, [u, v] => (binaryBoolOut o u v).map .bool
  | .binaryNonMem o type, [u, v] => (binaryNonMem o u v).bind (assign type)
  | .concat w w' type, [u, v] => (concat w w' u v).bind (assign type)
  | .load type, [u, v] => v.int?.bind fun x => (readAt u (index v.isLit x)).bind fun z => assign type (.int z)
  | .extract hi lo type, [u] => (range hi lo u).bind (assign type)
  | .zext type, [u] => u.res.bind (assign type)
  | .sext sign type, [u] => signExtend sign type u
  | .ite type, [.bool c, u, v] => (if c then u else v).res.bind (assign type)
  | .func f, vs => (((f.args.zip vs).mapM fun p => valueOf p.1 p.2).bind (ν.app f)).bind fun v =>
    (resOf v).bind (assign f.out)
  | _, _ => none

/-- A map after some reads. -/
def ScVal.after (reads : List Ilator.Read) : ScVal → ScVal
  | .map v a d f => .map v a d (Ilator.touched (.var v) reads f)
  | u => u

/-- The read that a statement makes. -/
def readsOf : Rhs → List ScVal → List Ilator.Read
  | .load _, [.map v a _ _, u] => (u.int?.map fun x => ⟨.var v, (BitVec.ofInt a (index u.isLit x)).toNat⟩).toList
  | _, _ => []

/-- `dfs_const_node` of a memory, and the literals. The initialiser of an array lists the entries, zero for an address
without one; the size is computed in 32 bits. No type has a decimal literal from `2 ^ 63` on. -/
def scConst (id : Nat) : ConstVal → Option ScVal
  | .bool b => some (.bool b)
  | .bv x _ => if x < 2 ^ 63 then some (.lit x) else none
  | .mem _ valMap a d =>
    if a < 32 ∧ ∀ p ∈ valMap, p.1 < 2 ^ a → p.2 < 2 ^ 63 then
      some (.array (.inr id) a d fun i => BitVec.ofNat d (((valMap.find? fun p => p.1 = i.toNat).map Prod.snd).getD 0))
    else none

/-- `MEM_MAP_ARRAY_DIV` -/
def memMapArrayDiv : Nat := 16

/-- The member of a variable, in a simulator state that stands for a valuation. -/
def scVar {ν : Valuation} (σ : Ilator.Maps ν) (v : Var) : ScVal :=
  match ν.atom (.var v) with
  | .bool b => .bool b
  | .bv w x => .big w x
  | .mem a d c => if a ≤ memMapArrayDiv then .array (.inl v) a d c else .map v a d (σ.entries v a d)

/-- A statement finds the maps as the reads so far have left them. -/
def effects {ν : Valuation} (σ : Ilator.Maps ν) : Effects Name Decl (Option ScVal) Ilator.Read where
  name
    | .var v => some (scVar σ v)
    | .const id c => scConst id c
    | .undeclared => none
  stmt reads s vs := (vs.mapM id).bind fun us => stmt ν s.rhs (us.map (ScVal.after reads))
  effect s vs := ((vs.mapM id).map (readsOf s.rhs)).getD []

/-- The statements, when the reads before the statement of each node are given. -/
def meaning {ν : Valuation} (σ : Ilator.Maps ν) (τ : Nat → List Ilator.Read) : Meaning Name Decl (Option ScVal) :=
  (effects σ).under fun s => τ s.node.ptr

/-- A constant is a literal in the text. -/
def lit : Node → Bool
  | .leaf _ (.const (.bv _ _)) => true
  | _ => false

/-- The read that the statement of a node makes when its address has the value of the expression. -/
def readsAt {ν : Valuation} (σ : Ilator.Maps ν) : Node → List Ilator.Read
  | .app _ (.op .load) [.leaf _ (.var v), x] =>
    match scVar σ v, x.expr.eval ν with
    | .map v a _ _, some (.bv _ i) => [⟨.var v, (BitVec.ofInt a (index (lit x) i.toNat)).toNat⟩]
    | _, _ => []
  | _ => []

/-- The reads before the statement of a node: those before the function, and those of the statements above. -/
def readsBefore {ν : Valuation} (σ : Ilator.Maps ν) (past : List Ilator.Read) (code : List (Stmt Name Decl)) : Nat → List Ilator.Read :=
  Buffer.Coded.before Decl.node (fun s => readsAt σ s.node) past code

end IlaSim

end Ilang
