import Ilang.Ila.Ast

/-!
# Constructing expressions

The functions of `asthub`, with which all expressions are made. A node records the sort that its constructor computes.
The assertions on the arguments are only there in a debug build; what stops a call otherwise is a check of a constant,
or a recursion that does not end.
-/

namespace Ilang

/-- `BvValType`. -/
abbrev BvValType := Fin (2 ^ 64)

/-- The conversion of an `int`. -/
def BvValType.ofInt (r : Int) : BvValType := ⟨(r % 2 ^ 64).toNat, by omega⟩

/-- `SortPtr`. A width is what it was given, whatever its sign. The structures and vectors are `composite`. -/
inductive AstSort where
  | bool
  | bv (bitWidth : Int)
  | mem (addrWidth dataWidth : Int)
  | composite (id : Nat)
  deriving DecidableEq, Repr

namespace AstSort

/-- `Sort::bit_width`, which is zero for other sorts in a release build, and so on. -/
def bitWidth : AstSort → Int
  | .bv w => w
  | _ => 0

def addrWidth : AstSort → Int
  | .mem a _ => a
  | _ => 0

def dataWidth : AstSort → Int
  | .mem _ d => d
  | _ => 0

end AstSort

/-- `AstUidExprOp`, function application apart. -/
inductive AstOp where
  | neg | not | compl | and | or | xor | shl | ashr | lshr
  | add | sub | div | srem | urem | smod | mul
  | eq | lt | gt | ult | ugt
  | load | store | concat
  | extract (hi lo : Int) | zext (bitWidth : Int) | sext (bitWidth : Int)
  | lRotate (immediate : Int) | rRotate (immediate : Int)
  | imply | ite
  deriving DecidableEq, Repr

/-- `Func`. -/
structure AstFunc where
  name : String
  hostName : String
  hostRoot : String
  out : AstSort
  args : List AstSort
  deriving DecidableEq, Repr

/-- `SortVal`. -/
inductive AstVal where
  | bool (val : Bool)
  | bv (val : BvValType)
  | mem (defVal : BvValType) (valMap : List (BvValType × BvValType))
  deriving DecidableEq, Repr

/-- A node, with its recorded sort. The host of a variable is known by its root name. -/
inductive AstExpr where
  | var (name host : String) (sort : AstSort)
  | const (val : AstVal) (sort : AstSort)
  | op (o : AstOp) (args : List AstExpr) (sort : AstSort)
  | appFunc (f : AstFunc) (args : List AstExpr) (sort : AstSort)

namespace AstExpr

/-- `Expr::sort`. -/
def sort : AstExpr → AstSort
  | .var _ _ s => s
  | .const _ s => s
  | .op _ _ s => s
  | .appFunc _ _ s => s

mutual

/-- An expression and all the expressions below it. -/
def subs : AstExpr → List AstExpr
  | .var n h s => [.var n h s]
  | .const c s => [.const c s]
  | .op o args s => .op o args s :: subsList args
  | .appFunc f args s => .appFunc f args s :: subsList args

def subsList : List AstExpr → List AstExpr
  | [] => []
  | a :: as => subs a ++ subsList as

end

@[elab_as_elim]
theorem ind {P : AstExpr → Prop} (var : ∀ n h s, P (.var n h s)) (const : ∀ c s, P (.const c s))
    (op : ∀ o args s, (∀ a ∈ args, P a) → P (.op o args s))
    (appFunc : ∀ f args s, (∀ a ∈ args, P a) → P (.appFunc f args s)) : ∀ e, P e
  | .var n h s => var n h s
  | .const c s => const c s
  | .op o args s => op o args s fun a _ => ind var const op appFunc a
  | .appFunc f args s => appFunc f args s fun a _ => ind var const op appFunc a

theorem mem_subsList {args : List AstExpr} {m : AstExpr} : m ∈ subsList args ↔ ∃ a ∈ args, m ∈ a.subs := by
  induction args with
  | nil => simp [subsList]
  | cons a as ih => simp [subsList, ih]

end AstExpr

/-- The sort that the constructor of an operation records. -/
def AstOp.sortOf : AstOp → List AstSort → AstSort
  | .eq, _ | .lt, _ | .gt, _ | .ult, _ | .ugt, _ | .imply, _ => .bool
  | .load, s :: _ => .bv s.dataWidth
  | .concat, [s, t] => .bv (s.bitWidth + t.bitWidth)
  | .extract hi lo, _ => .bv (hi - lo + 1)
  | .zext w, _ | .sext w, _ => .bv w
  | .ite, [_, s, _] => s
  | _, s :: _ => s
  | _, [] => .bool

/-! ### The functions of `asthub` -/

namespace AstHub

open AstExpr

/-- The constructors of the operations. -/
def exprOp (o : AstOp) (args : List AstExpr) : AstExpr := .op o args (o.sortOf (args.map sort))

def newBoolVar (name : String) : AstExpr := .var name "" .bool

def newBvVar (name : String) (bitWidth : Int) : AstExpr := .var name "" (.bv bitWidth)

def newMemVar (name : String) (addrWidth dataWidth : Int) : AstExpr := .var name "" (.mem addrWidth dataWidth)

def boolConst (val : Bool) : AstExpr := .const (.bool val) .bool

/-- The checks of `ExprConst`. -/
def bvConst (val : BvValType) (bitWidth : Int) : Option AstExpr :=
  if 0 < bitWidth ∧ (64 ≤ bitWidth ∨ val.val >>> bitWidth.toNat = 0) then some (.const (.bv val) (.bv bitWidth)) else none

def memConst (defVal : BvValType) (valMap : List (BvValType × BvValType)) (addrWidth dataWidth : Int) : AstExpr :=
  .const (.mem defVal valMap) (.mem addrWidth dataWidth)

def negate (a : AstExpr) : AstExpr := exprOp .neg [a]
def not (a : AstExpr) : AstExpr := exprOp .not [a]
def complement (a : AstExpr) : AstExpr := exprOp .compl [a]
def eq (l r : AstExpr) : AstExpr := exprOp .eq [l, r]

/-- The literals of the overloads have the width of the other operand. -/
def literal (l : AstExpr) (r : BvValType) : Option AstExpr := bvConst r l.sort.bitWidth

/-- The literals of `Eq` and `Ne`. -/
def eqLiteral (l : AstExpr) (r : BvValType) : Option AstExpr :=
  if l.sort = .bool then some (boolConst (r == 1)) else literal l r

def eqBv (l : AstExpr) (r : BvValType) : Option AstExpr := (eqLiteral l r).map (eq l)

/-- `And`, `Or` and `Xor`, which take a Boolean and a bit-vector of one bit together, up to a depth of recursion. -/
def logic (o : AstOp) : Nat → AstExpr → AstExpr → Option AstExpr
  | 0, _, _ => none
  | n + 1, l, r =>
    if l.sort = r.sort then some (exprOp o [l, r])
    else if l.sort = .bv 1 ∧ r.sort = .bool then (eqBv l 1).bind fun e => logic o n e r
    else (eqBv r 1).bind fun e => logic o n l e

def and : Nat → AstExpr → AstExpr → Option AstExpr := logic .and
def or : Nat → AstExpr → AstExpr → Option AstExpr := logic .or
def xor : Nat → AstExpr → AstExpr → Option AstExpr := logic .xor
def shl (l r : AstExpr) : AstExpr := exprOp .shl [l, r]
def ashr (l r : AstExpr) : AstExpr := exprOp .ashr [l, r]
def lshr (l r : AstExpr) : AstExpr := exprOp .lshr [l, r]
def add (l r : AstExpr) : AstExpr := exprOp .add [l, r]
def sub (l r : AstExpr) : AstExpr := exprOp .sub [l, r]
def div (l r : AstExpr) : AstExpr := exprOp .div [l, r]
def sRem (l r : AstExpr) : AstExpr := exprOp .srem [l, r]
def uRem (l r : AstExpr) : AstExpr := exprOp .urem [l, r]
def sMod (l r : AstExpr) : AstExpr := exprOp .smod [l, r]
def mul (l r : AstExpr) : AstExpr := exprOp .mul [l, r]
def ne (l r : AstExpr) : AstExpr := exprOp .not [exprOp .eq [l, r]]
def lt (l r : AstExpr) : AstExpr := exprOp .lt [l, r]
def gt (l r : AstExpr) : AstExpr := exprOp .gt [l, r]
def ult (l r : AstExpr) : AstExpr := exprOp .ult [l, r]
def ugt (l r : AstExpr) : AstExpr := exprOp .ugt [l, r]
def le (l r : AstExpr) : AstExpr := exprOp .or [exprOp .eq [l, r], exprOp .lt [l, r]]
def ge (l r : AstExpr) : AstExpr := exprOp .or [exprOp .eq [l, r], exprOp .gt [l, r]]
def ule (l r : AstExpr) : AstExpr := exprOp .or [exprOp .eq [l, r], exprOp .ult [l, r]]
def uge (l r : AstExpr) : AstExpr := exprOp .or [exprOp .eq [l, r], exprOp .ugt [l, r]]
def load (mem addr : AstExpr) : AstExpr := exprOp .load [mem, addr]
def store (mem addr data : AstExpr) : AstExpr := exprOp .store [mem, addr, data]
def extract (bv : AstExpr) (hi lo : Int) : AstExpr := exprOp (.extract hi lo) [bv]
def zExt (bv : AstExpr) (outWidth : Int) : AstExpr := exprOp (.zext outWidth) [bv]
def sExt (bv : AstExpr) (outWidth : Int) : AstExpr := exprOp (.sext outWidth) [bv]
def lRotate (bv : AstExpr) (immediate : Int) : AstExpr := exprOp (.lRotate immediate) [bv]
def rRotate (bv : AstExpr) (immediate : Int) : AstExpr := exprOp (.rRotate immediate) [bv]
def imply (p q : AstExpr) : AstExpr := exprOp .imply [p, q]
def ite (cnd t f : AstExpr) : AstExpr := exprOp .ite [cnd, t, f]
def appFunc (f : AstFunc) (args : List AstExpr) : AstExpr := .appFunc f args f.out

/-- A Boolean operand of a concatenation becomes a bit. -/
def concat (hi lo : AstExpr) : Option AstExpr :=
  (bvConst 0 1).bind fun constZero => (bvConst 1 1).map fun constOne =>
    exprOp .concat [if hi.sort = .bool then ite hi constOne constZero else hi,
      if lo.sort = .bool then ite lo constOne constZero else lo]

/-- The overloads with a literal operand, by the function that takes both operands. -/
inductive WithLiteral : (AstExpr → AstExpr → AstExpr) → Prop
  | shl : WithLiteral shl
  | ashr : WithLiteral ashr
  | lshr : WithLiteral lshr
  | add : WithLiteral add
  | sub : WithLiteral sub
  | mul : WithLiteral mul
  | lt : WithLiteral lt
  | gt : WithLiteral gt
  | le : WithLiteral le
  | ge : WithLiteral ge
  | ult : WithLiteral ult
  | ugt : WithLiteral ugt
  | ule : WithLiteral ule
  | uge : WithLiteral uge

/-- The calls with one expression. -/
inductive Unary : (AstExpr → Option AstExpr) → Prop
  | negate : Unary fun a => some (negate a)
  | not : Unary fun a => some (not a)
  | complement : Unary fun a => some (complement a)
  | extract (hi lo : Int) : Unary fun a => some (extract a hi lo)
  | zExt (w : Int) : Unary fun a => some (zExt a w)
  | sExt (w : Int) : Unary fun a => some (sExt a w)
  | lRotate (n : Int) : Unary fun a => some (lRotate a n)
  | rRotate (n : Int) : Unary fun a => some (rRotate a n)
  | and (n : Nat) (r : Bool) : Unary fun l => and n l (boolConst r)
  | or (n : Nat) (r : Bool) : Unary fun l => or n l (boolConst r)
  | xor (n : Nat) (r : Bool) : Unary fun l => xor n l (boolConst r)
  | literal {f : AstExpr → AstExpr → AstExpr} (h : WithLiteral f) (r : BvValType) :
    Unary fun l => (literal l r).map (f l)
  | eq (r : BvValType) : Unary fun l => eqBv l r
  | ne (r : BvValType) : Unary fun l => (eqLiteral l r).map (ne l)
  | load (addr : BvValType) : Unary fun mem => (bvConst addr mem.sort.addrWidth).map (load mem)
  | store (addr data : BvValType) : Unary fun mem =>
    (bvConst addr mem.sort.addrWidth).bind fun ac => (bvConst data mem.sort.dataWidth).map (store mem ac)

/-- The calls with two expressions. -/
inductive Binary : (AstExpr → AstExpr → Option AstExpr) → Prop
  | and (n : Nat) : Binary (and n)
  | or (n : Nat) : Binary (or n)
  | xor (n : Nat) : Binary (xor n)
  | literal {f : AstExpr → AstExpr → AstExpr} (h : WithLiteral f) : Binary fun l r => some (f l r)
  | div : Binary fun l r => some (div l r)
  | sRem : Binary fun l r => some (sRem l r)
  | uRem : Binary fun l r => some (uRem l r)
  | sMod : Binary fun l r => some (sMod l r)
  | eq : Binary fun l r => some (eq l r)
  | ne : Binary fun l r => some (ne l r)
  | load : Binary fun mem addr => some (load mem addr)
  | concat : Binary concat
  | imply : Binary fun p q => some (imply p q)

/-- The expressions that calls of `asthub` return. A variable can be told its host later. -/
inductive Built : AstExpr → Prop
  | var (name host : String) (s : AstSort) (h : ∀ k, s ≠ .composite k) : Built (.var name host s)
  | boolConst (val : Bool) : Built (boolConst val)
  | bvConst {val : BvValType} {w : Int} {e : AstExpr} (h : bvConst val w = some e) : Built e
  | memConst (defVal : BvValType) (valMap : List (BvValType × BvValType)) (a d : Int) : Built (memConst defVal valMap a d)
  | unary {f : AstExpr → Option AstExpr} {a e : AstExpr} (hf : Unary f) (ha : Built a) (h : f a = some e) : Built e
  | binary {f : AstExpr → AstExpr → Option AstExpr} {a b e : AstExpr} (hf : Binary f) (ha : Built a) (hb : Built b)
    (h : f a b = some e) : Built e
  | store {mem addr data : AstExpr} (hm : Built mem) (ha : Built addr) (hd : Built data) : Built (store mem addr data)
  | ite {cnd t f : AstExpr} (hc : Built cnd) (ht : Built t) (hf : Built f) : Built (ite cnd t f)
  | appFunc {f : AstFunc} {args : List AstExpr} (h : ∀ a ∈ args, Built a) : Built (appFunc f args)

end AstHub

/-! ### What is recorded -/

namespace AstExpr

/-- A constant that passes the checks of its constructor. -/
def ConstOk : AstVal → AstSort → Prop
  | .bool _, s => s = .bool
  | .bv val, s => ∃ w : Int, s = .bv w ∧ 0 < w ∧ val.val < 2 ^ w.toNat
  | .mem _ _, s => ∃ a d, s = .mem a d

/-- Every node has the sort that its constructor records. -/
inductive Recorded : AstExpr → Prop
  | var (name host : String) (s : AstSort) : Recorded (.var name host s)
  | const {c : AstVal} {s : AstSort} (h : ConstOk c s) : Recorded (.const c s)
  | op (o : AstOp) {args : List AstExpr} (h : ∀ a ∈ args, Recorded a) : Recorded (.op o args (o.sortOf (args.map sort)))
  | appFunc (f : AstFunc) {args : List AstExpr} (h : ∀ a ∈ args, Recorded a) : Recorded (.appFunc f args f.out)

end AstExpr

namespace AstHub

open AstExpr

theorem recorded_exprOp {o : AstOp} {args : List AstExpr} (h : ∀ a ∈ args, Recorded a) : Recorded (exprOp o args) := .op o h

theorem recorded_one {o : AstOp} {a : AstExpr} (ha : Recorded a) : Recorded (exprOp o [a]) := by
  refine recorded_exprOp fun x hx => ?_
  rw [List.mem_singleton.mp hx]
  exact ha

theorem recorded_two {o : AstOp} {l r : AstExpr} (hl : Recorded l) (hr : Recorded r) : Recorded (exprOp o [l, r]) := by
  refine recorded_exprOp fun x hx => ?_
  rcases List.mem_cons.mp hx with rfl | hx
  · exact hl
  · rw [List.mem_singleton.mp hx]
    exact hr

theorem recorded_three {o : AstOp} {a b c : AstExpr} (ha : Recorded a) (hb : Recorded b) (hc : Recorded c) :
    Recorded (exprOp o [a, b, c]) := by
  refine recorded_exprOp fun x hx => ?_
  simp only [List.mem_cons, List.not_mem_nil, or_false] at hx
  rcases hx with rfl | rfl | rfl
  · exact ha
  · exact hb
  · exact hc

theorem recorded_bvConst {val : BvValType} {w : Int} {e : AstExpr} (h : bvConst val w = some e) : Recorded e := by
  obtain ⟨⟨hpos, hfit⟩, he⟩ := Option.ite_none_right_eq_some.mp h
  obtain rfl := Option.some.inj he
  refine .const ⟨w, rfl, hpos, ?_⟩
  rcases hfit with hbig | hzero
  · have hle : 2 ^ 64 ≤ 2 ^ w.toNat := Nat.pow_le_pow_right (by decide) (by omega)
    exact Nat.lt_of_lt_of_le val.isLt hle
  · rw [Nat.shiftRight_eq_div_pow] at hzero
    exact (Nat.div_eq_zero_iff_lt (Nat.two_pow_pos _)).mp hzero

theorem recorded_boolConst (b : Bool) : Recorded (boolConst b) := .const rfl

theorem recorded_eqLiteral {l e : AstExpr} {r : BvValType} (h : eqLiteral l r = some e) : Recorded e := by
  unfold eqLiteral at h
  split at h
  · obtain rfl := Option.some.inj h
    exact recorded_boolConst _
  · exact recorded_bvConst h

theorem recorded_eqBv {l e : AstExpr} {r : BvValType} (hl : Recorded l) (h : eqBv l r = some e) : Recorded e := by
  obtain ⟨c, hc, rfl⟩ := Option.map_eq_some_iff.mp h
  exact recorded_two hl (recorded_eqLiteral hc)

theorem recorded_logic {o : AstOp} {n : Nat} {l r e : AstExpr} (hl : Recorded l) (hr : Recorded r)
    (h : logic o n l r = some e) : Recorded e := by
  induction n generalizing l r with
  | zero => cases h
  | succ n ih =>
    rw [logic] at h
    split at h
    · obtain rfl := Option.some.inj h
      exact recorded_two hl hr
    · split at h
      · obtain ⟨c, hc, h⟩ := Option.bind_eq_some_iff.mp h
        exact ih (recorded_eqBv hl hc) hr h
      · obtain ⟨c, hc, h⟩ := Option.bind_eq_some_iff.mp h
        exact ih hl (recorded_eqBv hr hc) h

theorem recorded_withLiteral {f : AstExpr → AstExpr → AstExpr} (hf : WithLiteral f) {l r : AstExpr} (hl : Recorded l)
    (hr : Recorded r) : Recorded (f l r) := by
  cases hf with
  | le | ge | ule | uge => exact recorded_two (recorded_two hl hr) (recorded_two hl hr)
  | _ => exact recorded_two hl hr

theorem recorded_unary {f : AstExpr → Option AstExpr} (hf : Unary f) {a e : AstExpr} (ha : Recorded a)
    (h : f a = some e) : Recorded e := by
  cases hf with
  | negate | not | complement | extract | zExt | sExt | lRotate | rRotate =>
    obtain rfl := Option.some.inj h
    exact recorded_one ha
  | and n r | or n r | xor n r => exact recorded_logic ha (recorded_boolConst r) h
  | literal hf r =>
    obtain ⟨c, hc, rfl⟩ := Option.map_eq_some_iff.mp h
    exact recorded_withLiteral hf ha (recorded_bvConst hc)
  | eq r => exact recorded_eqBv ha h
  | ne r =>
    obtain ⟨c, hc, rfl⟩ := Option.map_eq_some_iff.mp h
    exact recorded_one (recorded_two ha (recorded_eqLiteral hc))
  | load addr =>
    obtain ⟨c, hc, rfl⟩ := Option.map_eq_some_iff.mp h
    exact recorded_two ha (recorded_bvConst hc)
  | store addr data =>
    obtain ⟨c, hc, h⟩ := Option.bind_eq_some_iff.mp h
    obtain ⟨d, hd, rfl⟩ := Option.map_eq_some_iff.mp h
    exact recorded_three ha (recorded_bvConst hc) (recorded_bvConst hd)

theorem recorded_concat {hi lo e : AstExpr} (hh : Recorded hi) (hl : Recorded lo) (h : concat hi lo = some e) :
    Recorded e := by
  obtain ⟨z, hz, h⟩ := Option.bind_eq_some_iff.mp h
  obtain ⟨o, ho, rfl⟩ := Option.map_eq_some_iff.mp h
  have hbit : ∀ {x : AstExpr}, Recorded x → Recorded (if x.sort = .bool then ite x o z else x) := by
    intro x hx
    split
    · exact recorded_three hx (recorded_bvConst ho) (recorded_bvConst hz)
    · exact hx
  exact recorded_two (hbit hh) (hbit hl)

theorem recorded_binary {f : AstExpr → AstExpr → Option AstExpr} (hf : Binary f) {a b e : AstExpr} (ha : Recorded a)
    (hb : Recorded b) (h : f a b = some e) : Recorded e := by
  cases hf with
  | and n | or n | xor n => exact recorded_logic ha hb h
  | literal hf =>
    obtain rfl := Option.some.inj h
    exact recorded_withLiteral hf ha hb
  | ne =>
    obtain rfl := Option.some.inj h
    exact recorded_one (recorded_two ha hb)
  | concat => exact recorded_concat ha hb h
  | _ =>
    obtain rfl := Option.some.inj h
    exact recorded_two ha hb

theorem Built.recorded {e : AstExpr} (h : Built e) : Recorded e := by
  induction h with
  | var name host s => exact .var name host s
  | boolConst val => exact recorded_boolConst val
  | bvConst h => exact recorded_bvConst h
  | memConst defVal valMap a d => exact .const ⟨a, d, rfl⟩
  | unary hf _ h ih => exact recorded_unary hf ih h
  | binary hf _ _ h iha ihb => exact recorded_binary hf iha ihb h
  | store _ _ _ ihm iha ihd => exact recorded_three ihm iha ihd
  | ite _ _ _ ihc iht ihf => exact recorded_three ihc iht ihf
  | appFunc _ ih => exact .appFunc _ ih

end AstHub

end Ilang
