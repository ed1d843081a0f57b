import Ilang.Target.HubSound
import Ilang.Util.OrdMap
import Ilang.Util.WordBlock

/-!
# Nodes of the synthesis engine

`SynthAbsConverter::CnvtNodeToExpr` makes an expression of every node of a synthesized abstraction, with the functions of `asthub`.
The nodes have the operators of the engine, whose values are given here, and their types; a node is made by the engine only if its
operands have the types its operator is for, so it has a value.
-/

namespace Ilang

open Smt WordBlock

namespace Itsy

/-! ### Nodes -/

/-- `BoolOp::Op`. -/
inductive BoolOp where
  | not | and | or | xor | xnor | nand | nor | imply
  | slt | sgt | sle | sge | ult | ugt | ule | uge
  | equal | distinct | ite
  deriving DecidableEq, Repr

/-- `BitvectorOp::Op`, with the parameters. The application of a function is a node of its own. -/
inductive BitvectorOp where
  | negate | complement | lRotate (n : Nat) | rRotate (n : Nat) | zExt (width : Nat) | sExt (width : Nat) | extract (hi lo : Nat)
  | add | sub | and | or | xor | xnor | nand | nor | sdiv | udiv | srem | urem | smod | shl | lshr | ashr | mul
  | concat | getBit (i : Nat) | readMem | readMemBlock (chunks : Nat) (endian : Endian) | ite
  deriving DecidableEq, Repr

/-- `MemOp::Op`. -/
inductive MemOp where
  | store | storeBlock (endian : Endian) | ite
  deriving DecidableEq, Repr

inductive NodeOp where
  | bool (o : BoolOp)
  | bv (o : BitvectorOp)
  | mem (o : MemOp)
  deriving DecidableEq, Repr

/-- A node, with its type. A variable is the one that was ported for it, and so is a function. -/
inductive Node where
  | var (name host : String) (type : Srt)
  | boolConst (val : Bool)
  | bvConst (val width : Nat)
  | memConst (defValue : Nat) (values : List (Nat × Nat)) (addrWidth dataWidth : Nat)
  | op (o : NodeOp) (args : List Node) (type : Srt)
  | applyFunc (f : AstFunc) (args : List Node) (type : Srt)

namespace Node

def type : Node → Srt
  | .var _ _ t => t
  | .boolConst _ => .bool
  | .bvConst _ w => .bv w
  | .memConst _ _ a d => .mem a d
  | .op _ _ t => t
  | .applyFunc _ _ t => t

mutual

def subs : Node → List Node
  | .op o args t => .op o args t :: subsList args
  | .applyFunc f args t => .applyFunc f args t :: subsList args
  | n => [n]

def subsList : List Node → List Node
  | [] => []
  | a :: as => subs a ++ subsList as

end

@[elab_as_elim]
theorem ind {P : Node → Prop} (var : ∀ n h t, P (.var n h t)) (boolConst : ∀ b, P (.boolConst b))
    (bvConst : ∀ x w, P (.bvConst x w)) (memConst : ∀ x m a d, P (.memConst x m a d))
    (op : ∀ o args t, (∀ a ∈ args, P a) → P (.op o args t))
    (applyFunc : ∀ f args t, (∀ a ∈ args, P a) → P (.applyFunc f args t)) : ∀ n, P n
  | .var n h t => var n h t
  | .boolConst b => boolConst b
  | .bvConst x w => bvConst x w
  | .memConst x m a d => memConst x m a d
  | .op o args t => op o args t fun a _ => ind var boolConst bvConst memConst op applyFunc a
  | .applyFunc f args t => applyFunc f args t fun a _ => ind var boolConst bvConst memConst op applyFunc a

theorem mem_subsList {args : List Node} {m : Node} : m ∈ subsList args ↔ ∃ a ∈ args, m ∈ a.subs := by
  induction args with
  | nil => simp only [subsList, List.not_mem_nil, false_and, exists_false]
  | cons a as ih => simp only [subsList, List.mem_append, ih, List.exists_mem_cons_iff]

theorem self_mem_subs (n : Node) : n ∈ n.subs := by
  cases n <;> simp only [subs, List.mem_cons, true_or]

theorem forall_mem_op {P : Node → Prop} {o : NodeOp} {args : List Node} {t : Srt} :
    (∀ m ∈ (Node.op o args t).subs, P m) ↔ P (.op o args t) ∧ ∀ a ∈ args, ∀ m ∈ a.subs, P m := by
  simp only [subs, List.forall_mem_cons, mem_subsList, forall_exists_index, and_imp]
  exact and_congr_right fun _ => ⟨fun h a ha m hm => h m a ha hm, fun h m a ha hm => h a ha m hm⟩

theorem forall_mem_applyFunc {P : Node → Prop} {f : AstFunc} {args : List Node} {t : Srt} :
    (∀ m ∈ (Node.applyFunc f args t).subs, P m) ↔ P (.applyFunc f args t) ∧ ∀ a ∈ args, ∀ m ∈ a.subs, P m := by
  simp only [subs, List.forall_mem_cons, mem_subsList, forall_exists_index, and_imp]
  exact and_congr_right fun _ => ⟨fun h a ha m hm => h m a ha hm, fun h m a ha hm => h a ha m hm⟩

end Node

/-! ### Values -/

section Shapes

def boolUn (f : Bool → Bool) : List Value → Option Value
  | [.bool a] => some (.bool (f a))
  | _ => none

def compared (f : Bool → Bool) : List Value → Option Value
  | [u, v] => (u.eq? v).map fun b => .bool (f b)
  | _ => none

def chosen : List Value → Option Value
  | [.bool c, t, f] => if t.sort = f.sort then some (if c then t else f) else none
  | _ => none

def bvTo (f : (w : Nat) → BitVec w → Option Value) : List Value → Option Value
  | [.bv w x] => f w x
  | _ => none

def concatenated : List Value → Option Value
  | [.bv w x, .bv w' y] => some (.bv (w + w') (x ++ y))
  | _ => none

/-- An operation at an address of a memory. -/
def atAddr (f : (a d : Nat) → (BitVec a → BitVec d) → BitVec a → Option Value) : List Value → Option Value
  | [.mem a d m, .bv w x] => if h : w = a then f a d m (x.cast h) else none
  | _ => none

/-- An operation with data at an address of a memory. -/
def dataAt (f : (a d : Nat) → (BitVec a → BitVec d) → BitVec a → (w : Nat) → BitVec w → Option Value) : List Value → Option Value
  | [.mem a d m, .bv w x, .bv w' y] => if h : w = a then f a d m (x.cast h) w' y else none
  | _ => none

end Shapes

/-- The operators on Boolean values and the comparisons. -/
def BoolOp.apply : BoolOp → List Value → Option Value
  | .not => boolUn fun a => !a
  | .and => Op.boolBin fun a b => a && b
  | .or => Op.boolBin fun a b => a || b
  | .xor => Op.boolBin fun a b => a ^^ b
  | .xnor => Op.boolBin fun a b => !(a ^^ b)
  | .nand => Op.boolBin fun a b => !(a && b)
  | .nor => Op.boolBin fun a b => !(a || b)
  | .imply => Op.boolBin fun a b => !a || b
  | .slt => Op.bvCmp fun _ x y => x.slt y
  | .sgt => Op.bvCmp fun _ x y => y.slt x
  | .sle => Op.bvCmp fun _ x y => x.sle y
  | .sge => Op.bvCmp fun _ x y => y.sle x
  | .ult => Op.bvCmp fun _ x y => x.ult y
  | .ugt => Op.bvCmp fun _ x y => y.ult x
  | .ule => Op.bvCmp fun _ x y => x.ule y
  | .uge => Op.bvCmp fun _ x y => y.ule x
  | .equal => compared id
  | .distinct => compared fun b => !b
  | .ite => chosen

/-- The operators on bit-vectors, with the conventions of SMT-LIB for a division by zero. A block is read from consecutive
addresses; its width is an `int`. -/
def BitvectorOp.apply : BitvectorOp → List Value → Option Value
  | .negate => Op.bvUn fun _ x => -x
  | .complement => Op.bvUn fun _ x => ~~~x
  | .lRotate n => Op.bvUn fun _ x => x.rotateLeft n
  | .rRotate n => Op.bvUn fun _ x => x.rotateRight n
  | .zExt width => bvTo fun w x => if w ≤ width then some (.bv width (x.setWidth width)) else none
  | .sExt width => bvTo fun w x => if w ≤ width then some (.bv width (x.signExtend width)) else none
  | .extract hi lo => bvTo fun w x => if lo ≤ hi ∧ hi < w then some (.bv (hi - lo + 1) (x.extractLsb hi lo)) else none
  | .add => Op.bvBin fun _ x y => x + y
  | .sub => Op.bvBin fun _ x y => x - y
  | .and => Op.bvBin fun _ x y => x &&& y
  | .or => Op.bvBin fun _ x y => x ||| y
  | .xor => Op.bvBin fun _ x y => x ^^^ y
  | .xnor => Op.bvBin fun _ x y => ~~~(x ^^^ y)
  | .nand => Op.bvBin fun _ x y => ~~~(x &&& y)
  | .nor => Op.bvBin fun _ x y => ~~~(x ||| y)
  | .sdiv => Op.bvBin fun _ x y => x.smtSDiv y
  | .udiv => Op.bvBin fun _ x y => x.smtUDiv y
  | .srem => Op.bvBin fun _ x y => x.srem y
  | .urem => Op.bvBin fun _ x y => x.umod y
  | .smod => Op.bvBin fun _ x y => x.smod y
  | .shl => Op.bvBin fun _ x y => x <<< y
  | .lshr => Op.bvBin fun _ x y => x >>> y
  | .ashr => Op.bvBin fun _ x y => x.sshiftRight' y
  | .mul => Op.bvBin fun _ x y => x * y
  | .concat => concatenated
  | .getBit i => bvTo fun w x => if i < w then some (.bv 1 (BitVec.ofBool (x.getLsbD i))) else none
  | .readMem => atAddr fun _ d f x => some (.bv d (f x))
  | .readMemBlock chunks endian => atAddr fun _ d f x =>
    if 0 < chunks ∧ chunks * d < 2 ^ 31 then some (.bv (chunks * d) (read f x endian chunks)) else none
  | .ite => chosen

/-- The operators on memories. A block that is written is a whole number of words. -/
def MemOp.apply : MemOp → List Value → Option Value
  | .store => dataAt fun a d f x w y => if h : w = d then some (.mem a d (Function.update f x (y.cast h))) else none
  | .storeBlock endian => dataAt fun a d f x w y =>
    if 0 < d ∧ d ∣ w ∧ w < 2 ^ 31 then some (.mem a d (write f x y endian (w / d) (w / d))) else none
  | .ite => chosen

theorem BitvectorOp.readMemBlock_words {chunks a d : Nat} {endian : Endian} {f : BitVec a → BitVec d} {x : BitVec a} {v : Value}
    (h : (BitvectorOp.readMemBlock chunks endian).apply [.mem a d f, .bv a x] = some v) :
    ∃ y : BitVec (chunks * d), v = .bv (chunks * d) y ∧ ∀ i < chunks, wordAt d y (endian.pos chunks i) = f (addr x i) := by
  obtain ⟨-, hv⟩ := Option.ite_none_right_eq_some.mp ((dif_pos rfl).symm.trans h)
  exact ⟨_, (Option.some.inj hv).symm, fun i hi => wordAt_read f x hi⟩

theorem MemOp.storeBlock_words {a d w : Nat} {endian : Endian} {f : BitVec a → BitVec d} {x : BitVec a} {y : BitVec w} {v : Value}
    (h : (MemOp.storeBlock endian).apply [.mem a d f, .bv a x, .bv w y] = some v) :
    ∃ g : BitVec a → BitVec d, v = .mem a d g ∧ (∀ z, (∀ i < w / d, addr x i ≠ z) → g z = f z) ∧
      (w / d ≤ 2 ^ a → ∀ i < w / d, g (addr x i) = wordAt d y (endian.pos (w / d) i)) := by
  obtain ⟨-, hv⟩ := Option.ite_none_right_eq_some.mp ((dif_pos rfl).symm.trans h)
  refine ⟨_, (Option.some.inj hv).symm, fun z hz => write_of_ne f x y endian _ hz, fun hle i hi => ?_⟩
  exact write_addr f x y endian _ hle hi

def NodeOp.apply : NodeOp → List Value → Option Value
  | .bool o => o.apply
  | .bv o => o.apply
  | .mem o => o.apply

namespace Node

section Eval

variable (M : Model) (suffix : String)

mutual

/-- The value of a node where variables and functions have those of a model of the solver. -/
def eval : Node → Option Value
  | .var n h t => (AstSort.ofSrt t).srt?.map fun t => M.const ⟨formatStr n h suffix, t⟩
  | .boolConst b => some (.bool b)
  | .bvConst x w => if 0 < w ∧ x < 2 ^ w then some (.bv w (BitVec.ofNat w x)) else none
  | .memConst x m a d => if 0 < a ∧ 0 < d then some (.mem a d (ConstVal.contents a d x m)) else none
  | .op o args _ => (evalList args).bind o.apply
  | .applyFunc f args _ =>
    if args.isEmpty then f.out.srt?.map fun t => M.const ⟨formatStr f.name "" suffix, t⟩
    else f.z3FuncDecl.bind fun g => (evalList args).bind (M.apply g)

def evalList : List Node → Option (List Value)
  | [] => some []
  | a :: as => (eval a).bind fun v => (evalList as).map (v :: ·)

end

end Eval

/-- A node that the engine makes has a value of its type. -/
def WellTyped (suffix : String) (n : Node) : Prop :=
  n.type.Pos ∧ ∀ M : Model, ∃ v, n.eval M suffix = some v ∧ v.sort = n.type

end Node

/-! ### The conversion -/

section Arguments

variable {α : Type}

def arg1 (f : α → Option α) : List α → Option α
  | [a] => f a
  | _ => none

def arg2 (f : α → α → Option α) : List α → Option α
  | [a, b] => f a b
  | _ => none

def arg3 (f : α → α → α → Option α) : List α → Option α
  | [a, b, c] => f a b c
  | _ => none

end Arguments

open AstHub in
/-- `CnvtNodeToExprBoolOp`. -/
def cnvtBoolOp : BoolOp → List AstExpr → Option AstExpr
  | .not => arg1 fun a => some (not a)
  | .and => arg2 (and 2)
  | .or => arg2 (or 2)
  | .xor => arg2 (xor 2)
  | .xnor => arg2 fun a b => (xor 2 a b).map not
  | .nand => arg2 fun a b => (and 2 a b).map not
  | .nor => arg2 fun a b => (or 2 a b).map not
  | .imply => arg2 fun a b => some (imply a b)
  | .slt => arg2 fun a b => some (lt a b)
  | .sgt => arg2 fun a b => some (gt a b)
  | .sle => arg2 fun a b => some (le a b)
  | .sge => arg2 fun a b => some (ge a b)
  | .ult => arg2 fun a b => some (ult a b)
  | .ugt => arg2 fun a b => some (ugt a b)
  | .ule => arg2 fun a b => some (ule a b)
  | .uge => arg2 fun a b => some (uge a b)
  | .equal => arg2 fun a b => some (eq a b)
  | .distinct => arg2 fun a b => some (ne a b)
  | .ite => arg3 fun a b c => some (ite a b c)

open AstHub in
/-- An address of a block. The literal has to fit the address. -/
def addrAt (addr : AstExpr) (i : Nat) : Option AstExpr := (literal addr (.ofInt i)).map (add addr)

open AstHub in
/-- The loop of `READMEMBLOCK` from the chunk `i` on, with so many to go. -/
def readChunks (endian : Endian) (mem addr : AstExpr) : Nat → Nat → Option AstExpr → Option AstExpr
  | 0, _, expr => expr
  | k + 1, i, expr => (addrAt addr i).bind fun addr_i =>
    let data_i := load mem addr_i
    (match expr with
      | none => some data_i
      | some expr => if endian = Endian.little then concat data_i expr else concat expr data_i).bind fun expr =>
        readChunks endian mem addr k (i + 1) (some expr)

open AstHub in
/-- `CnvtNodeToExprBvOp`. -/
def cnvtBvOp : BitvectorOp → List AstExpr → Option AstExpr
  | .negate => arg1 fun a => some (negate a)
  | .complement => arg1 fun a => some (complement a)
  | .lRotate n => arg1 fun a => some (lRotate a n)
  | .rRotate n => arg1 fun a => some (rRotate a n)
  | .zExt width => arg1 fun a => some (zExt a width)
  | .sExt width => arg1 fun a => some (sExt a width)
  | .extract hi lo => arg1 fun a => some (extract a hi lo)
  | .add => arg2 fun a b => some (add a b)
  | .sub => arg2 fun a b => some (sub a b)
  | .and => arg2 (and 2)
  | .or => arg2 (or 2)
  | .xor => arg2 (xor 2)
  | .xnor => arg2 fun a b => (xor 2 a b).map not
  | .nand => arg2 fun a b => (and 2 a b).map not
  | .nor => arg2 fun a b => (or 2 a b).map not
  | .sdiv => fun _ => none
  | .udiv => arg2 fun a b => some (div a b)
  | .srem => arg2 fun a b => some (sRem a b)
  | .urem => arg2 fun a b => some (uRem a b)
  | .smod => arg2 fun a b => some (sMod a b)
  | .shl => arg2 fun a b => some (shl a b)
  | .lshr => arg2 fun a b => some (lshr a b)
  | .ashr => arg2 fun a b => some (ashr a b)
  | .mul => arg2 fun a b => some (mul a b)
  | .concat => arg2 concat
  | .getBit i => arg1 fun a => some (extract a i i)
  | .readMem => arg2 fun a b => some (load a b)
  | .readMemBlock chunks endian => arg2 fun mem addr => readChunks endian mem addr chunks 0 none
  | .ite => arg3 fun a b c => some (ite a b c)

open AstHub in
/-- The loop of `STOREBLOCK` from the chunk `i` on, with so many to go. -/
def storeChunks (chunkSize bitInc : Int) (addr data : AstExpr) : Nat → Nat → Int → AstExpr → Option AstExpr
  | 0, _, _, expr => some expr
  | k + 1, i, bitIdx, expr => (addrAt addr i).bind fun addr_i =>
    storeChunks chunkSize bitInc addr data k (i + 1) (bitIdx + bitInc)
      (store expr addr_i (extract data (bitIdx + chunkSize - 1) bitIdx))

open AstHub in
/-- `CnvtNodeToExprMemOp`, with the types of the operands. -/
def cnvtMemOp (ts : List Srt) : MemOp → List AstExpr → Option AstExpr
  | .store => arg3 fun a b c => some (store a b c)
  | .storeBlock endian => arg3 fun mem addr data =>
    let totalSize := bitWidth (ts.getD 2 .bool)
    let chunkSize := dataWidth (ts.getD 0 .bool)
    storeChunks chunkSize (if endian = Endian.little then chunkSize else -chunkSize) addr data chunkSize 0
      (if endian = Endian.little then 0 else totalSize - chunkSize) mem
  | .ite => arg3 fun a b c => some (ite a b c)

def cnvtOp (ts : List Srt) : NodeOp → List AstExpr → Option AstExpr
  | .bool o => cnvtBoolOp o
  | .bv o => cnvtBvOp o
  | .mem o => cnvtMemOp ts o

namespace Node

section Convert

-- the conversion of a number of the engine to `int`
variable (toInt : Nat → Int)

/-- The entries of a `MemVal`, which keeps the data that an address was given first. -/
def memVal (values : List (Nat × Nat)) : OrdMap BvValType BvValType :=
  values.foldl (fun m p => m.emplace (.ofInt (toInt p.1)) (.ofInt (toInt p.2))) .empty

mutual

/-- `CnvtNodeToExpr`, with `CnvtNodeToExprConst`. Nothing is made if an error is reported. -/
def convert : Node → Option AstExpr
  | .var n h t => some (.var n h (.ofSrt t))
  | .boolConst b => some (AstHub.boolConst b)
  | .bvConst x w => AstHub.bvConst (.ofInt (toInt x)) w
  | .memConst x m a d => some (AstHub.memConst (.ofInt (toInt x)) (memVal toInt m).entries a d)
  | .op o args _ => (convertList args).bind (cnvtOp (args.map type) o)
  | .applyFunc f args _ => (convertList args).map (AstHub.appFunc f)

def convertList : List Node → Option (List AstExpr)
  | [] => some []
  | a :: as => (convert a).bind fun e => (convertList as).map (e :: ·)

end

end Convert

end Node

end Itsy

end Ilang
