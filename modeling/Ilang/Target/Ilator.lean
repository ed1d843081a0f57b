import Ilang.Target.EmitEffects
import Ilang.Target.Z3Adapter
import Ilang.Util.Bits

/-!
# Expressions in generated SystemC

`Ilator` turns an expression into C++ statements over SystemC integers, one local variable for every application.
The arithmetic of `sc_biguint` is that of unsigned integers, without overflow; a local with a declared type cuts its
value to the width of the type. Locals declared with `auto` take over the length of their right-hand side: an
extension has the length of what is extended, a choice that of the branch taken. The length matters where bits are
addressed from above, in a complement, a part-select and the sign test of an extension.

A memory is a map from addresses to words. A word that is not in the map reads as zero, and the read makes an entry for it, which only a
comparison of the map can tell from no entry. The log of a function is the list of the reads so far.
-/

namespace Ilang

open Smt

namespace Ilator

/-- The maps: the member of a memory variable, and that of a memory constant, which is named by the id of the constant. -/
inductive MapId where
  | var (v : Var)
  | const (id : Nat)
  deriving DecidableEq, Repr

/-- A read of a map at an address. -/
structure Read where
  map : MapId
  addr : Nat
  deriving DecidableEq, Repr

/-- What a C++ variable holds: a truth value, an unsigned integer of some length, or a map. -/
inductive ScVal where
  | bool (b : Bool)
  | big (len : Nat) (x : BitVec len)
  | map (id : MapId) (a d : Nat) (entries : BitVec a → Option (BitVec d))

/-- What depends on no other local: the member of a variable, the local that is set to a constant. -/
inductive Name where
  | var (v : Var)
  | const (id : Nat) (c : ConstVal)

/-- The statements, by their templates. -/
inductive Rhs where
  /-- `{type} {local} = {op}{arg}` and `{type} {local} = ({arg} {op} {arg})`. -/
  | regular (o : ExprOp) (type : Srt)
  | load
  | concat (type₀ type₁ : Nat)
  | extract (hi lo : Nat)
  | extend (sign : Nat)
  | imply
  | ite
  | appFunc (f : Func)

/-- The statement of a node. -/
structure Decl where
  node : Node
  rhs : Rhs

/-- The operators of `kOpSymbols`. -/
def hasSymbol : ExprOp → Bool
  | .neg | .not | .compl | .eq | .lt | .gt | .ult | .ugt | .and | .or | .xor | .shl | .lshr | .ashr | .add | .sub | .mul
  | .div | .urem => true
  | _ => false

/-- `DfsOp`. An operator of a memory writes to the memory under update and has no local; the assertion on the
operator table is `none`. -/
def dfsOp (o : ExprOp) (sort : Srt) (args : List Node) : Option Rhs :=
  if sort.isMem then none
  else
    match o with
    | .load => some .load
    | .concat => some (.concat (bitWidth (ExprOp.argSort (args.map fun a => a.expr.sort) 0))
        (bitWidth (ExprOp.argSort (args.map fun a => a.expr.sort) 1)))
    | .extract hi lo => some (.extract hi lo)
    | .zext _ => some (.extend (bitWidth (ExprOp.argSort (args.map fun a => a.expr.sort) 0) - 1))
    | .sext _ => some (.extend (bitWidth (ExprOp.argSort (args.map fun a => a.expr.sort) 0) - 1))
    | .imply => some .imply
    | .ite => some .ite
    | o => if hasSymbol o then some (.regular o sort) else none

/-- `DfsExpr` at a node that has no local yet. -/
def plan : Node → Option (Name ⊕ Decl)
  | .leaf _ (.var v) => some (.inl (.var v))
  | .leaf p (.const c) => some (.inl (.const p c))
  | .app p (.op o) args => (dfsOp o (Node.app p (.op o) args).expr.sort args).map fun r => .inr ⟨.app p (.op o) args, r⟩
  | .app p (.appFunc f) args => if f.out.isMem then none else some (.inr ⟨.app p (.appFunc f) args, .appFunc f⟩)

def gen : Emitter Name Decl := ⟨plan⟩

@[simp] theorem gen_plan (n : Node) : gen.plan n = plan n := rfl

theorem decl_node {n : Node} {s : Decl} (h : gen.plan n = some (.inr s)) : s.node = n := by
  rw [gen_plan] at h
  cases n with
  | leaf p l => cases l <;> cases h
  | app p hd args =>
    cases hd with
    | op o =>
      obtain ⟨r, -, heq⟩ := Option.map_eq_some_iff.mp h
      rw [← Sum.inr.inj heq]
    | appFunc f =>
      obtain ⟨-, h⟩ := Option.ite_none_left_eq_some.mp h
      rw [← Sum.inr.inj (Option.some.inj h)]

/-! ### The meaning of the statements -/

/-- `{type} {local} = {op}{arg}`: the negation of an unsigned integer is a signed one. -/
def assignUnary (o : ExprOp) (type : Srt) (v : ScVal) : Option ScVal :=
  match type, o, v with
  | .bool, .not, .bool b => some (.bool !b)
  | .bv w, .neg, .big _ x => some (.big w (BitVec.ofInt w (-(x.toNat : Int))))
  | .bv w, .compl, .big _ x => some (.big w ((~~~x).setWidth w))
  | _, _, _ => none

/-- The integer operators, before the result is cut to its type. A quotient or a remainder by zero is an error. -/
def integer (o : ExprOp) (x y : Nat) : Option Int :=
  match o with
  | .and => some (x &&& y : Nat)
  | .or => some (x ||| y : Nat)
  | .xor => some (x ^^^ y : Nat)
  | .shl => some (x <<< y : Nat)
  | .lshr => some (x >>> y : Nat)
  | .ashr => some (x >>> y : Nat)
  | .add => some ((x : Int) + y)
  | .sub => some ((x : Int) - y)
  | .mul => some ((x : Int) * y)
  | .div => if y = 0 then none else some (x / y : Nat)
  | .urem => if y = 0 then none else some (x % y : Nat)
  | _ => none

def compare (o : ExprOp) (x y : Nat) : Option Bool :=
  match o with
  | .eq => some (decide (x = y))
  | .lt => some (decide (x < y))
  | .ult => some (decide (x < y))
  | .gt => some (decide (y < x))
  | .ugt => some (decide (y < x))
  | _ => none

def logical (o : ExprOp) (a b : Bool) : Option Bool :=
  match o with
  | .and => some (a && b)
  | .or => some (a || b)
  | .xor => some (a ^^ b)
  | .eq => some (a == b)
  | _ => none

/-- Two maps are equal if they have the same entries. -/
def mapEq {a d : Nat} (f g : BitVec a → Option (BitVec d)) : Bool :=
  decide (∀ i : Fin (2 ^ a), f (BitVec.ofFin i) = g (BitVec.ofFin i))

theorem mapEq_eq_true {a d : Nat} {f g : BitVec a → Option (BitVec d)} : mapEq f g = true ↔ f = g := by
  rw [mapEq, decide_eq_true_iff]
  exact ⟨fun h => funext fun x => h x.toFin, fun h _ => congrFun h _⟩

/-- `{type} {local} = ({arg} {op} {arg})`. -/
def assignBinary (o : ExprOp) (type : Srt) (u v : ScVal) : Option ScVal :=
  match type, u, v with
  | .bool, .bool a, .bool b => (logical o a b).map .bool
  | .bool, .big _ x, .big _ y => (compare o x.toNat y.toNat).map .bool
  | .bool, .map _ a d f, .map _ a' d' g =>
    if ha : a' = a then
      if hd : d' = d then
        if o = .eq then some (.bool (mapEq f fun i => (g (i.cast ha.symm)).map (BitVec.cast hd))) else none
      else none
    else none
  | .bv w, .big _ x, .big _ y => (integer o x.toNat y.toNat).map fun z => .big w (BitVec.ofInt w z)
  | _, _, _ => none

/-- What an argument of an external function is converted to. -/
def valueOf : Srt → ScVal → Option Value
  | .bool, .bool b => some (.bool b)
  | .bv w, .big _ x => some (.bv w (x.setWidth w))
  | .mem a d, .map _ _ _ f => some (.mem a d fun i => ((f (i.setWidth _)).getD 0).setWidth d)
  | _, _ => none

/-- The result of an external function. -/
def scOf : Value → Option ScVal
  | .bool b => some (.bool b)
  | .bv w x => some (.big w x)
  | .mem _ _ _ => none

def stmt (ν : Valuation) : Rhs → List ScVal → Option ScVal
  | .regular o type, [v] => assignUnary o type v
  | .regular o type, [u, v] => assignBinary o type u v
  | .load, [.map _ a d f, .big _ x] => some (.big d ((f (x.setWidth a)).getD 0))
  | .concat w w', [.big _ x, .big _ y] => some (.big (w + w') (x.setWidth w ++ y.setWidth w'))
  | .extract hi lo, [.big len x] =>
    if lo ≤ hi ∧ hi < len then some (.big (hi - lo + 1) (x.extractLsb hi lo)) else none
  | .extend sign, [.big len x] =>
    -- The complement is taken twice, if at all.
    if sign < len then some (.big len (if x.getLsbD sign then ~~~(~~~x) else x)) else none
  | .imply, [.bool a, .bool b] => some (.bool (!a && b))
  | .ite, [.bool c, u, v] => some (if c then u else v)
  | .appFunc f, vs => (((f.args.zip vs).mapM fun p => valueOf p.1 p.2).bind (ν.app f)).bind scOf
  | _, _ => none

/-- A map after some reads: `operator[]` makes an entry with a zero where there is none. -/
def touched {a d : Nat} (id : MapId) (reads : List Read) (f : BitVec a → Option (BitVec d)) (i : BitVec a) : Option (BitVec d) :=
  (f i).or (if ⟨id, i.toNat⟩ ∈ reads then some 0 else none)

theorem getD_touched {a d : Nat} (id : MapId) (reads : List Read) (f : BitVec a → Option (BitVec d)) (i : BitVec a) :
    (touched id reads f i).getD 0 = (f i).getD 0 := by
  rw [touched]
  cases f i with
  | none =>
    rw [Option.none_or]
    split <;> rfl
  | some x => rfl

def ScVal.after (reads : List Read) : ScVal → ScVal
  | .map id a d f => .map id a d (touched id reads f)
  | u => u

/-- The read that a statement makes. -/
def readsOf : Rhs → List ScVal → List Read
  | .load, [.map id a _ _, .big _ x] => [⟨id, (x.setWidth a).toNat⟩]
  | _, _ => []

/-- The entries that a memory constant is initialised with; its default value is not among them. -/
def constEntries (a d : Nat) (valMap : List (Nat × Nat)) (i : BitVec a) : Option (BitVec d) :=
  (valMap.find? fun p => BitVec.ofNat a p.1 = i).map fun p => BitVec.ofNat d p.2

/-- The integers that are written for a constant have a type: no decimal literal has one from `2 ^ 63` on. -/
def HasLiterals : ConstVal → Prop
  | .bool _ => True
  | .bv x _ => x < 2 ^ 63
  | .mem _ valMap _ _ => ∀ p ∈ valMap, p.1 < 2 ^ 63 ∧ p.2 < 2 ^ 63

instance (c : ConstVal) : Decidable (HasLiterals c) := by
  unfold HasLiterals
  split <;> infer_instance

/-- The local of a constant; a memory constant is a static member, which keeps the entries that reads make. -/
def constLocal (id : Nat) : ConstVal → ScVal
  | .bool b => .bool b
  | .bv x w => .big w (BitVec.ofNat w x)
  | .mem _ valMap a d => .map (.const id) a d (constEntries a d valMap)

def scConst (id : Nat) (c : ConstVal) : Option ScVal := if HasLiterals c then some (constLocal id c) else none

/-- The maps of the memories in a simulator state that stands for a valuation. -/
structure Maps (ν : Valuation) where
  entries : Var → (a d : Nat) → BitVec a → Option (BitVec d)
  words : ∀ v a d c, ν.atom (.var v) = .mem a d c → ∀ i, (entries v a d i).getD 0 = c i

/-- The maps in which every address has an entry. -/
def Maps.full (ν : Valuation) : Maps ν where
  entries v a d i :=
    match ν.atom (.var v) with
    | .mem a' _ c => some ((c (i.setWidth a')).setWidth d)
    | _ => none
  words v a d c hv i := by simp [hv]

def scVar {ν : Valuation} (σ : Maps ν) (v : Var) : ScVal :=
  match ν.atom (.var v) with
  | .bool b => .bool b
  | .bv w x => .big w x
  | .mem a d _ => .map (.var v) a d (σ.entries v a d)

/-- A statement finds the maps as the reads so far have left them. -/
def effects {ν : Valuation} (σ : Maps ν) : Effects Name Decl (Option ScVal) Read where
  name
    | .var v => some (scVar σ v)
    | .const id c => scConst id c
  stmt reads s vs := (vs.mapM id).bind fun us => stmt ν s.rhs (us.map (ScVal.after reads))
  effect s vs := ((vs.mapM id).map (readsOf s.rhs)).getD []

/-- The statements, when the reads before the statement of each node are given. -/
def meaning {ν : Valuation} (σ : Maps ν) (τ : Nat → List Read) : Meaning Name Decl (Option ScVal) :=
  (effects σ).under fun s => τ s.node.ptr

/-- What `{memory_source}` names. -/
def mapId : Node → Option MapId
  | .leaf _ (.var v) => some (.var v)
  | .leaf p (.const _) => some (.const p)
  | .app _ _ _ => none

/-- The read that the statement of a node makes when its address has the value of the expression. -/
def readsAt (ν : Valuation) : Node → List Read
  | .app _ (.op .load) [m, x] =>
    match mapId m, x.expr.eval ν with
    | some id, some (.bv _ i) => [⟨id, i.toNat⟩]
    | _, _ => []
  | _ => []

/-- The reads before the statement of a node: those before the function, and those of the statements above. -/
def readsBefore (ν : Valuation) (past : List Read) (code : List (Stmt Name Decl)) : Nat → List Read :=
  Buffer.Coded.before Decl.node (fun s => readsAt ν s.node) past code

/-! ### The statement of one operator -/

/-- A variable holds a value: the truth value, or the integer. -/
def Agrees : ScVal → Value → Prop
  | .bool b, .bool b' => b = b'
  | .big _ x, .bv _ y => x.toNat = y.toNat
  | _, _ => False

def ScVal.len : ScVal → Nat
  | .big len _ => len
  | _ => 0

/-- Where the statement of an operator computes the operator, given the lengths of the operands. Implication is
written as the negation of the converse, signed comparisons and the arithmetic shift as unsigned ones, a sign
extension keeps the integer, and a quotient is unsigned. A complement and the sign test need all the bits of their
operand, a part-select those it takes. -/
def OpSafe (o : ExprOp) (lens : List Nat) (vs : List Value) : Prop :=
  match o, lens, vs with
  | .compl, [l], [.bv w _] => w ≤ l
  | .zext _, [l], [.bv w _] => w ≤ l
  | .sext outw, [l], [.bv w x] => w ≤ l ∧ (x.msb = false ∨ outw = w)
  | .extract hi _, [l], _ => hi < l
  | .imply, _, [.bool a, .bool b] => a ≠ b
  | .lt, _, [.bv w x, .bv _ y] => x.msb = (y.setWidth w).msb
  | .gt, _, [.bv w x, .bv _ y] => x.msb = (y.setWidth w).msb
  | .ashr, _, [.bv _ x, .bv w y] => x.msb = false ∨ y = 0#w
  | .div, _, [.bv w x, .bv _ y] => Bits.DivAgree x (y.setWidth w)
  | .urem, _, [_, .bv w y] => y ≠ 0#w
  | _, _, _ => True

theorem agrees_bv {u : ScVal} {w : Nat} {y : BitVec w} (h : Agrees u (.bv w y)) :
    ∃ len x, u = .big len x ∧ x.toNat = y.toNat := by
  cases u with
  | big len x => exact ⟨len, x, rfl, h⟩
  | bool b => exact h.elim
  | map id a d f => exact h.elim

theorem agrees_bool {u : ScVal} {b : Bool} (h : Agrees u (.bool b)) : u = .bool b := by
  cases u with
  | bool b' => rw [show b' = b from h]
  | big len x => exact h.elim
  | map id a d f => exact h.elim

theorem Agrees.after {u : ScVal} {v : Value} (h : Agrees u v) (reads : List Read) : u.after reads = u := by
  cases u with
  | bool b => rfl
  | big len x => rfl
  | map id a d f => cases v <;> exact h.elim

/-- A statement has at most one result, and it is right exactly under a condition. -/
def RightIff (res : Option ScVal) (v : Value) (P : Prop) : Prop := (∃ u, res = some u ∧ Agrees u v) ↔ P

theorem rightIff_bool {a b : Bool} {P : Prop} (h : a = b ↔ P) : RightIff (some (.bool a)) (.bool b) P := by
  rw [RightIff, ← h]
  simp [Agrees]

theorem rightIff_big {l w : Nat} {x : BitVec l} {y : BitVec w} {P : Prop} (h : x.toNat = y.toNat ↔ P) :
    RightIff (some (.big l x)) (.bv w y) P := by
  rw [RightIff, ← h]
  simp [Agrees]

theorem rightIff_none {v : Value} {P : Prop} (h : ¬P) : RightIff none v P := by
  rw [RightIff]
  simp [h]

section Operands

variable {w l l' : Nat} {x y : BitVec w} {x' : BitVec l} {y' : BitVec l'} {o : ExprOp}

theorem rightIff_integer (hx : x'.toNat = x.toNat) (hy : y'.toNat = y.toNat) {z : Int}
    (h : integer o x.toNat y.toNat = some z) {r : BitVec w} {P : Prop} (hz : BitVec.ofInt w z = r ↔ P) :
    RightIff (assignBinary o (.bv w) (.big l x') (.big l' y')) (.bv w r) P := by
  rw [assignBinary, hx, hy, h, Option.map_some]
  exact rightIff_big (BitVec.toNat_inj.trans hz)

theorem rightIff_compare (hx : x'.toNat = x.toNat) (hy : y'.toNat = y.toNat) {b : Bool}
    (h : compare o x.toNat y.toNat = some b) {r : Bool} {P : Prop} (hb : b = r ↔ P) :
    RightIff (assignBinary o .bool (.big l x') (.big l' y')) (.bool r) P := by
  rw [assignBinary, hx, hy, h, Option.map_some]
  exact rightIff_bool hb

theorem rightIff_logical {a b c r : Bool} (h : logical o a b = some c) (hc : c = r) :
    RightIff (assignBinary o .bool (.bool a) (.bool b)) (.bool r) True := by
  rw [assignBinary, h, Option.map_some]
  exact rightIff_bool (iff_true_intro hc)

theorem rightIff_div (hx : x'.toNat = x.toNat) (hy : y'.toNat = y.toNat) :
    RightIff (assignBinary .div (.bv w) (.big l x') (.big l' y')) (.bv w (x.smtSDiv y)) (Bits.DivAgree x y) := by
  by_cases h0 : y = 0#w
  · have hzero : y.toNat = 0 := by rw [h0]; simp
    rw [assignBinary, hx, hy, integer, if_pos hzero]
    exact rightIff_none fun h => h.1 h0
  · have hne : y.toNat ≠ 0 := fun h => h0 (BitVec.eq_of_toNat_eq (by simpa using h))
    refine rightIff_integer hx hy (by rw [integer, if_neg hne]) ?_
    rw [← Bits.udiv_eq_smtSDiv_iff h0, BitVec.ofInt_natCast]
    have hdiv : BitVec.ofNat w (x.toNat / y.toNat) = x.udiv y := by
      rw [← BitVec.toNat_inj, BitVec.toNat_ofNat]
      exact Nat.mod_eq_of_lt (Nat.lt_of_le_of_lt (Nat.div_le_self _ _) x.isLt)
    rw [hdiv]

theorem rightIff_urem (hx : x'.toNat = x.toNat) (hy : y'.toNat = y.toNat) :
    RightIff (assignBinary .urem (.bv w) (.big l x') (.big l' y')) (.bv w (x.umod y)) (y ≠ 0#w) := by
  by_cases h0 : y = 0#w
  · have hzero : y.toNat = 0 := by rw [h0]; simp
    rw [assignBinary, hx, hy, integer, if_pos hzero]
    exact rightIff_none fun h => h h0
  · have hne : y.toNat ≠ 0 := fun h => h0 (BitVec.eq_of_toNat_eq (by simpa using h))
    refine rightIff_integer hx hy (by rw [integer, if_neg hne]) (iff_of_true ?_ h0)
    rw [BitVec.ofInt_natCast, ← BitVec.toNat_inj, BitVec.toNat_ofNat]
    exact Nat.mod_eq_of_lt (Nat.lt_of_le_of_lt (Nat.mod_le _ _) x.isLt)

theorem ofInt_shiftRight : BitVec.ofInt w ((x.toNat >>> y.toNat : Nat) : Int) = x >>> y.toNat := by
  rw [BitVec.ofInt_natCast, ← BitVec.toNat_inj, BitVec.toNat_ofNat, BitVec.toNat_ushiftRight]
  exact Nat.mod_eq_of_lt (Nat.lt_of_le_of_lt (Nat.shiftRight_le _ _) x.isLt)

theorem rightIff_ashr (hx : x'.toNat = x.toNat) (hy : y'.toNat = y.toNat) :
    RightIff (assignBinary .ashr (.bv w) (.big l x') (.big l' y')) (.bv w (x.sshiftRight' y))
      (x.msb = false ∨ y = 0#w) := by
  refine rightIff_integer hx hy rfl ?_
  rw [ofInt_shiftRight, BitVec.sshiftRight', Bits.ushiftRight_eq_sshiftRight_iff, ← BitVec.toNat_inj (x := y)]
  simp

theorem rightIff_compl (hx : x'.toNat = x.toNat) :
    RightIff (assignUnary .compl (.bv w) (.big l x')) (.bv w (~~~x)) (w ≤ l) := by
  refine rightIff_big ?_
  have hlt := x.isLt
  have hlt' := x'.isLt
  rw [BitVec.toNat_setWidth, BitVec.toNat_not, BitVec.toNat_not, hx]
  by_cases hwl : w ≤ l
  · refine iff_of_true ?_ hwl
    obtain ⟨k, hk⟩ : 2 ^ w ∣ 2 ^ l := Nat.pow_dvd_pow 2 hwl
    have hkpos : 0 < k := Nat.pos_of_ne_zero fun h => absurd hk (by rw [h]; simp)
    have hsplit : 2 ^ l - 1 - x.toNat = (2 ^ w - 1 - x.toNat) + 2 ^ w * (k - 1) := by
      have hmul : 2 ^ w * (k - 1) = 2 ^ w * k - 2 ^ w := by rw [Nat.mul_sub, Nat.mul_one]
      have hle : 2 ^ w ≤ 2 ^ w * k := Nat.le_mul_of_pos_right _ hkpos
      omega
    rw [hsplit, Nat.add_mul_mod_self_left, Nat.mod_eq_of_lt (by omega)]
  · refine iff_of_false ?_ hwl
    have hpow : 2 ^ l < 2 ^ w := Nat.pow_lt_pow_right (by decide) (Nat.lt_of_not_le hwl)
    rw [hx] at hlt'
    rw [Nat.mod_eq_of_lt (by omega)]
    omega

theorem rightIff_extract {hi lo : Nat} (hx : x'.toNat = x.toNat) (hle : lo ≤ hi) :
    RightIff (if lo ≤ hi ∧ hi < l then some (.big (hi - lo + 1) (x'.extractLsb hi lo)) else none)
      (.bv (hi - lo + 1) (x.extractLsb hi lo)) (hi < l) := by
  by_cases hl : hi < l
  · rw [if_pos ⟨hle, hl⟩]
    refine rightIff_big (iff_of_true ?_ hl)
    rw [BitVec.extractLsb_toNat, BitVec.extractLsb_toNat, hx]
  · rw [if_neg fun h => hl h.2]
    exact rightIff_none hl

theorem extend_eq {sign : Nat} : (if x'.getLsbD sign then ~~~(~~~x') else x') = x' := by
  rw [BitVec.not_not, ite_self]

theorem rightIff_extend (hpos : 0 < w) {outw : Nat} (hx : x'.toNat = x.toNat) {r : BitVec outw} {P : Prop}
    (hr : x.toNat = r.toNat ↔ P) :
    RightIff (if w - 1 < l then some (.big l (if x'.getLsbD (w - 1) then ~~~(~~~x') else x')) else none)
      (.bv outw r) (w ≤ l ∧ P) := by
  rw [extend_eq]
  by_cases hl : w - 1 < l
  · rw [if_pos hl]
    refine rightIff_big ?_
    rw [hx, hr]
    exact (and_iff_right (by omega)).symm
  · rw [if_neg hl]
    exact rightIff_none fun h => hl (by omega)

end Operands

section Statements

variable {ν : Valuation} {o : ExprOp} {args : List Node} {us : List ScVal} {vs : List Value} {v : Value} {r : Rhs}

theorem forall₂_bin {v₀ v₁ : Value} (h : List.Forall₂ Agrees us [v₀, v₁]) :
    ∃ u₀ u₁, us = [u₀, u₁] ∧ Agrees u₀ v₀ ∧ Agrees u₁ v₁ := by
  cases h with
  | cons h₀ h =>
    cases h with
    | cons h₁ h =>
      cases h
      exact ⟨_, _, rfl, h₀, h₁⟩

theorem forall₂_un {v₀ : Value} (h : List.Forall₂ Agrees us [v₀]) : ∃ u₀, us = [u₀] ∧ Agrees u₀ v₀ := by
  cases h with
  | cons h₀ h =>
    cases h
    exact ⟨_, rfl, h₀⟩

theorem forall₂_ter {v₀ v₁ v₂ : Value} (h : List.Forall₂ Agrees us [v₀, v₁, v₂]) :
    ∃ u₀ u₁ u₂, us = [u₀, u₁, u₂] ∧ Agrees u₀ v₀ ∧ Agrees u₁ v₁ ∧ Agrees u₂ v₂ := by
  cases h with
  | cons h₀ h =>
    obtain ⟨u₁, u₂, rfl, h₁, h₂⟩ := forall₂_bin h
    exact ⟨_, u₁, u₂, rfl, h₀, h₁, h₂⟩

theorem stmt_bvBin {f : (w : Nat) → BitVec w → BitVec w → BitVec w} (hv : Op.bvBin f vs = some v)
    (hus : List.Forall₂ Agrees us vs) {P : Prop}
    (h : ∀ w l l' (x y : BitVec w) (x' : BitVec l) (y' : BitVec l'), vs = [.bv w x, .bv w y] → x'.toNat = x.toNat →
      y'.toNat = y.toNat → RightIff (assignBinary o (.bv w) (.big l x') (.big l' y')) (.bv w (f w x y)) P) :
    RightIff (stmt ν (.regular o v.sort) us) v P := by
  obtain ⟨w, x, y, rfl, rfl⟩ := Op.bvBin_eq_some hv
  obtain ⟨u₀, u₁, rfl, h₀, h₁⟩ := forall₂_bin hus
  obtain ⟨l, x', rfl, hx⟩ := agrees_bv h₀
  obtain ⟨l', y', rfl, hy⟩ := agrees_bv h₁
  exact h w l l' x y x' y' rfl hx hy

theorem stmt_bvCmp {f : (w : Nat) → BitVec w → BitVec w → Bool} (hv : Op.bvCmp f vs = some v)
    (hus : List.Forall₂ Agrees us vs) {P : Prop}
    (h : ∀ w l l' (x y : BitVec w) (x' : BitVec l) (y' : BitVec l'), vs = [.bv w x, .bv w y] → x'.toNat = x.toNat →
      y'.toNat = y.toNat → RightIff (assignBinary o .bool (.big l x') (.big l' y')) (.bool (f w x y)) P) :
    RightIff (stmt ν (.regular o v.sort) us) v P := by
  obtain ⟨w, x, y, rfl, rfl⟩ := Op.bvCmp_eq_some hv
  obtain ⟨u₀, u₁, rfl, h₀, h₁⟩ := forall₂_bin hus
  obtain ⟨l, x', rfl, hx⟩ := agrees_bv h₀
  obtain ⟨l', y', rfl, hy⟩ := agrees_bv h₁
  exact h w l l' x y x' y' rfl hx hy

theorem stmt_logic {p : Prop} [Decidable p] {bo bvo : Op} {f : Bool → Bool → Bool}
    {g : (w : Nat) → BitVec w → BitVec w → BitVec w} (hbo : bo.apply = Op.boolBin f) (hbvo : bvo.apply = Op.bvBin g)
    (hf : ∀ a b, logical o a b = some (f a b))
    (hg : ∀ w (x y : BitVec w), ∃ z, integer o x.toNat y.toNat = some z ∧ BitVec.ofInt w z = g w x y)
    (hv : (if p then bo else bvo).apply vs = some v) (hus : List.Forall₂ Agrees us vs) :
    RightIff (stmt ν (.regular o v.sort) us) v True := by
  split at hv
  · rw [hbo] at hv
    obtain ⟨a, b, rfl, rfl⟩ := Op.boolBin_eq_some hv
    obtain ⟨u₀, u₁, rfl, h₀, h₁⟩ := forall₂_bin hus
    rw [agrees_bool h₀, agrees_bool h₁]
    exact rightIff_logical (hf a b) rfl
  · rw [hbvo] at hv
    refine stmt_bvBin hv hus fun w l l' x y x' y' _ hx hy => ?_
    obtain ⟨z, hz, hgz⟩ := hg w x y
    exact rightIff_integer hx hy hz (iff_true_intro hgz)

/-- Each statement computes its operator where `OpSafe` says so; loads and comparisons of memories apart. -/
theorem stmt_iff_opSafe (hpl : dfsOp o v.sort args = some r) (hv : o.apply vs = some v)
    (hargs : args.map (fun n => n.expr.sort) = vs.map Value.sort) (hpos : ∀ t ∈ vs, t.sort.Pos)
    (hus : List.Forall₂ Agrees us vs) (hload : o ≠ .load) :
    RightIff (stmt ν r us) v (OpSafe o (us.map ScVal.len) vs) := by
  have happly := hv
  obtain ⟨-, hv⟩ := ExprOp.apply_eq_smt hv
  have hmem : ¬v.sort.isMem = true := by
    intro h
    simp [dfsOp, h] at hpl
  have hdfs : ∀ {r'}, (∀ h : v.sort.isMem ≠ true, dfsOp o v.sort args = some r') → r' = r := by
    intro r' h
    exact Option.some.inj ((h hmem).symm.trans hpl)
  cases o with
  | load => exact absurd rfl hload
  | neg =>
    obtain rfl := hdfs fun h => if_neg h
    obtain ⟨w, x, rfl, rfl⟩ := Op.bvUn_eq_some hv
    obtain ⟨u, rfl, hu⟩ := forall₂_un hus
    obtain ⟨l, x', rfl, hx⟩ := agrees_bv hu
    refine rightIff_big (iff_of_true ?_ trivial)
    rw [hx, BitVec.ofInt_neg, BitVec.ofInt_natCast, BitVec.ofNat_toNat, BitVec.setWidth_eq]
  | not =>
    obtain rfl := hdfs fun h => if_neg h
    obtain ⟨a, rfl, rfl⟩ := Op.not_eq_some hv
    obtain ⟨u, rfl, hu⟩ := forall₂_un hus
    rw [agrees_bool hu]
    exact rightIff_bool (iff_of_true rfl trivial)
  | compl =>
    obtain rfl := hdfs fun h => if_neg h
    obtain ⟨w, x, rfl, rfl⟩ := Op.bvUn_eq_some hv
    obtain ⟨u, rfl, hu⟩ := forall₂_un hus
    obtain ⟨l, x', rfl, hx⟩ := agrees_bv hu
    exact rightIff_compl hx
  | and =>
    obtain rfl := hdfs fun h => if_neg h
    refine stmt_logic rfl rfl (fun _ _ => rfl) (fun w x y => ⟨_, rfl, ?_⟩) hv hus
    rw [BitVec.ofInt_natCast, ← BitVec.toNat_inj, BitVec.toNat_ofNat, BitVec.toNat_and]
    exact Nat.mod_eq_of_lt (Nat.and_lt_two_pow _ y.isLt)
  | or =>
    obtain rfl := hdfs fun h => if_neg h
    refine stmt_logic rfl rfl (fun _ _ => rfl) (fun w x y => ⟨_, rfl, ?_⟩) hv hus
    rw [BitVec.ofInt_natCast, ← BitVec.toNat_inj, BitVec.toNat_ofNat, BitVec.toNat_or]
    exact Nat.mod_eq_of_lt (Nat.or_lt_two_pow x.isLt y.isLt)
  | xor =>
    obtain rfl := hdfs fun h => if_neg h
    refine stmt_logic rfl rfl (fun _ _ => rfl) (fun w x y => ⟨_, rfl, ?_⟩) hv hus
    rw [BitVec.ofInt_natCast, ← BitVec.toNat_inj, BitVec.toNat_ofNat, BitVec.toNat_xor]
    exact Nat.mod_eq_of_lt (Nat.xor_lt_two_pow x.isLt y.isLt)
  | shl =>
    obtain rfl := hdfs fun h => if_neg h
    refine stmt_bvBin hv hus fun w l l' x y x' y' _ hx hy => rightIff_integer hx hy rfl (iff_true_intro ?_)
    rw [BitVec.ofInt_natCast, ← BitVec.toNat_inj, BitVec.toNat_ofNat, BitVec.shiftLeft_eq', BitVec.toNat_shiftLeft]
  | lshr =>
    obtain rfl := hdfs fun h => if_neg h
    exact stmt_bvBin hv hus fun w l l' x y x' y' _ hx hy =>
      rightIff_integer hx hy rfl (iff_true_intro ofInt_shiftRight)
  | ashr =>
    obtain rfl := hdfs fun h => if_neg h
    refine stmt_bvBin hv hus fun w l l' x y x' y' hvs hx hy => ?_
    subst hvs
    exact rightIff_ashr hx hy
  | add =>
    obtain rfl := hdfs fun h => if_neg h
    refine stmt_bvBin hv hus fun w l l' x y x' y' _ hx hy => rightIff_integer hx hy rfl (iff_true_intro ?_)
    rw [BitVec.ofInt_add, BitVec.ofInt_natCast, BitVec.ofInt_natCast, BitVec.ofNat_toNat, BitVec.ofNat_toNat, BitVec.setWidth_eq,
      BitVec.setWidth_eq]
  | sub =>
    obtain rfl := hdfs fun h => if_neg h
    refine stmt_bvBin hv hus fun w l l' x y x' y' _ hx hy => rightIff_integer hx hy rfl (iff_true_intro ?_)
    rw [Int.sub_eq_add_neg, BitVec.ofInt_add, BitVec.ofInt_neg, BitVec.ofInt_natCast, BitVec.ofInt_natCast,
      BitVec.ofNat_toNat, BitVec.ofNat_toNat, BitVec.setWidth_eq, BitVec.setWidth_eq]
    exact (BitVec.sub_eq_add_neg x y).symm
  | mul =>
    obtain rfl := hdfs fun h => if_neg h
    refine stmt_bvBin hv hus fun w l l' x y x' y' _ hx hy => rightIff_integer hx hy rfl (iff_true_intro ?_)
    rw [BitVec.ofInt_mul, BitVec.ofInt_natCast, BitVec.ofInt_natCast, BitVec.ofNat_toNat, BitVec.ofNat_toNat, BitVec.setWidth_eq,
      BitVec.setWidth_eq]
  | div =>
    obtain rfl := hdfs fun h => if_neg h
    refine stmt_bvBin hv hus fun w l l' x y x' y' hvs hx hy => ?_
    subst hvs
    rw [OpSafe, BitVec.setWidth_eq]
    exact rightIff_div hx hy
  | urem =>
    obtain rfl := hdfs fun h => if_neg h
    refine stmt_bvBin hv hus fun w l l' x y x' y' hvs hx hy => ?_
    subst hvs
    exact rightIff_urem hx hy
  | eq =>
    obtain rfl := hdfs fun h => if_neg h
    obtain ⟨t, t', rfl, hs, b, rfl, hb⟩ := Op.eq_eq_some hv
    obtain ⟨u₀, u₁, rfl, h₀, h₁⟩ := forall₂_bin hus
    match t, t', hs with
    | .bool a, .bool a', _ =>
      rw [agrees_bool h₀, agrees_bool h₁]
      refine rightIff_logical (o := .eq) rfl (Bool.eq_iff_iff.mpr ?_)
      rw [hb, beq_iff_eq, Value.bool.injEq]
    | .bv w x, .bv w' y, hs =>
      obtain rfl : w = w' := Srt.bv.inj hs
      obtain ⟨l, x', rfl, hx⟩ := agrees_bv h₀
      obtain ⟨l', y', rfl, hy⟩ := agrees_bv h₁
      refine rightIff_compare (o := .eq) hx hy rfl (iff_true_intro (Bool.eq_iff_iff.mpr ?_))
      rw [hb, decide_eq_true_iff, BitVec.toNat_inj]
      simp
    | .mem a d f, _, _ => cases u₀ <;> exact h₀.elim
  | lt =>
    obtain rfl := hdfs fun h => if_neg h
    refine stmt_bvCmp hv hus fun w l l' x y x' y' hvs hx hy => ?_
    subst hvs
    rw [OpSafe, BitVec.setWidth_eq]
    exact rightIff_compare hx hy rfl Bits.ult_eq_slt_iff
  | gt =>
    obtain rfl := hdfs fun h => if_neg h
    refine stmt_bvCmp (f := fun _ x y => y.slt x) hv hus fun w l l' x y x' y' hvs hx hy => ?_
    subst hvs
    rw [OpSafe, BitVec.setWidth_eq, eq_comm]
    exact rightIff_compare hx hy rfl Bits.ult_eq_slt_iff
  | ult =>
    obtain rfl := hdfs fun h => if_neg h
    exact stmt_bvCmp hv hus fun w l l' x y x' y' _ hx hy => rightIff_compare hx hy rfl (iff_true_intro rfl)
  | ugt =>
    obtain rfl := hdfs fun h => if_neg h
    exact stmt_bvCmp (f := fun _ x y => y.ult x) hv hus fun w l l' x y x' y' _ hx hy =>
      rightIff_compare hx hy rfl (iff_true_intro rfl)
  | concat =>
    obtain ⟨w, w', x, y, rfl, rfl⟩ := Op.concat_eq_some hv
    obtain ⟨u₀, u₁, rfl, h₀, h₁⟩ := forall₂_bin hus
    obtain ⟨l, x', rfl, hx⟩ := agrees_bv h₀
    obtain ⟨l', y', rfl, hy⟩ := agrees_bv h₁
    obtain rfl := hdfs fun h => if_neg h
    rw [hargs]
    refine rightIff_big (iff_of_true ?_ trivial)
    have hx' : x'.setWidth w = x := BitVec.eq_of_toNat_eq (by rw [BitVec.toNat_setWidth, hx, Nat.mod_eq_of_lt x.isLt])
    have hy' : y'.setWidth w' = y := BitVec.eq_of_toNat_eq (by rw [BitVec.toNat_setWidth, hy, Nat.mod_eq_of_lt y.isLt])
    change (x'.setWidth w ++ y'.setWidth w').toNat = _
    rw [hx', hy']
  | extract hi lo =>
    obtain rfl := hdfs fun h => if_neg h
    obtain ⟨w, x, rfl, hle, -, rfl⟩ := Op.extract_eq_some hv
    obtain ⟨u, rfl, hu⟩ := forall₂_un hus
    obtain ⟨l, x', rfl, hx⟩ := agrees_bv hu
    exact rightIff_extract hx hle
  | zext outw =>
    obtain ⟨w, x, hle, rfl, rfl⟩ := ExprOp.zext_eq_some happly
    obtain ⟨u, rfl, hu⟩ := forall₂_un hus
    obtain ⟨l, x', rfl, hx⟩ := agrees_bv hu
    obtain rfl := hdfs fun h => if_neg h
    rw [hargs]
    have hr : x.toNat = (x.setWidth outw).toNat ↔ True := by
      rw [BitVec.toNat_setWidth_of_le hle, iff_true]
    have hiff := rightIff_extend (hpos _ List.mem_cons_self) hx hr
    rw [and_true] at hiff
    exact hiff
  | sext outw =>
    obtain ⟨w, x, hle, rfl, rfl⟩ := ExprOp.sext_eq_some happly
    obtain ⟨u, rfl, hu⟩ := forall₂_un hus
    obtain ⟨l, x', rfl, hx⟩ := agrees_bv hu
    obtain rfl := hdfs fun h => if_neg h
    rw [hargs]
    have hr : x.toNat = (x.signExtend outw).toNat ↔ x.msb = false ∨ outw = w := by
      rw [← Bits.setWidth_eq_signExtend_iff hle, ← BitVec.toNat_inj, BitVec.toNat_setWidth_of_le hle]
    exact rightIff_extend (hpos _ List.mem_cons_self) hx hr
  | imply =>
    obtain rfl := hdfs fun h => if_neg h
    obtain ⟨a, b, rfl, rfl⟩ := Op.boolBin_eq_some hv
    obtain ⟨u₀, u₁, rfl, h₀, h₁⟩ := forall₂_bin hus
    rw [agrees_bool h₀, agrees_bool h₁]
    refine rightIff_bool ?_
    cases a <;> cases b <;> simp [OpSafe]
  | ite =>
    obtain rfl := hdfs fun h => if_neg h
    obtain ⟨c, t, e, rfl, -, rfl⟩ := Op.ite_eq_some hv
    obtain ⟨u₀, u₁, u₂, rfl, h₀, h₁, h₂⟩ := forall₂_ter hus
    rw [agrees_bool h₀]
    refine iff_of_true ⟨_, rfl, ?_⟩ trivial
    cases c with
    | true => exact h₁
    | false => exact h₂
  | srem | smod | lRotate _ | rRotate _ | store => simp [dfsOp, hasSymbol] at hpl

end Statements

end Ilator

end Ilang
