import Ilang.Target.Emit
import Ilang.Util.Bits
import Ilang.Verilog.Expr

/-!
# Expressions in generated Verilog

`VerilogGenerator::ParseNonMemUpdateExpr` turns a Boolean or bit-vector expression into continuous assignments:
one wire for every application, with the text that `translateBoolOp` and `translateBvOp` write for its operator.
Variables and constants are read under their own names. The model keeps the text as a Verilog expression over
the wires of the arguments; names are left out.

A memory is declared with the number of words that `SetEntryNum` asks for, else with one for every address. An
external one is not declared; each load from it goes through a port of the module.

The text of most operators has the value that the solver gives the operator. `OpSafe` says when it does for the
others.
-/

namespace Ilang

open Smt

namespace VerilogGen

/-- The net that holds a value. `WidthToRange` gives no range to a net of one bit. A memory needs a word at
every address; what there is of it in the module is said by `MemDecl.net`. -/
def netOf : Value → Verilog.Net
  | .bool b => .vec false 1 (BitVec.ofBool b)
  | .bv w x => .vec (decide (1 < w)) w x
  | .mem a d f => .mem a d (2 ^ a) f

/-- How the module declares a memory: not at all, as an array of words, or, when `WidthToRange` finds no number of
words above one, as a register of the width of a word. -/
inductive MemDecl where
  | external
  | array (words : Nat)
  | reg
  deriving DecidableEq, Repr

/-- What the generator reads about memories: `extMem` of its configuration, `memory_export_annotation`, and the
`GetMemSize` of a memory, which `SetEntryNum` sets. -/
structure MemConfig where
  extMem : Bool
  memoryExportAnnotation : String → Option Bool
  getMemSize : Var → Int

namespace MemConfig

def external (κ : MemConfig) (v : Var) : Bool := (κ.memoryExportAnnotation v.name).getD κ.extMem

/-- `n_elem` in `DumpToFile`. From 31 address bits on the power of two does not fit an `int`, and the conversion
gives the least one. -/
def nElem (entryNum : Int) (addrWidth : Nat) : Int :=
  let allowed : Int := if addrWidth < 31 then 2 ^ addrWidth else -2 ^ 31
  if entryNum ≠ 0 ∧ entryNum ≤ allowed then entryNum else allowed

/-- The declaration of a memory of the ILA. -/
def decl (κ : MemConfig) (v : Var) : MemDecl :=
  if κ.external v then .external
  else
    match v.sort with
    | .mem a _ => if 1 < nElem (κ.getMemSize v) a then .array (nElem (κ.getMemSize v) a).toNat else .reg
    | _ => .reg

/-- The declaration that a node names. -/
def nodeDecl (κ : MemConfig) : Node → Option MemDecl
  | .leaf _ (.var v) => some (κ.decl v)
  | _ => none

end MemConfig

/-- What a declared memory is in an expression: an array, or a register, which holds the word at address zero. -/
def MemDecl.net {a d : Nat} (f : BitVec a → BitVec d) : MemDecl → Option Verilog.Net
  | .external => none
  | .array n => some (.mem a d n f)
  | .reg => some (netOf (.bv d (f 0)))

/-- The net for a value, of a memory under its declaration. -/
def netAs (decl : Option MemDecl) : Value → Option Verilog.Net
  | .mem _ _ f => decl.bind fun c => c.net f
  | v => some (netOf v)

/-- The value of a given sort on a net. -/
def valueOf : Srt → Verilog.Net → Option Value
  | .bool, .vec _ _ x => some (.bool (x.getLsbD 0))
  | .bv w, .vec _ _ x => some (.bv w (x.setWidth w))
  | _, _ => none

/-- `get_width`. -/
def getWidth : Srt → Nat
  | .bool => 1
  | .bv w => w
  | .mem _ d => d

/-- What is read without a wire of its own. A memory constant has a name that is declared nowhere. -/
inductive Name where
  | var (v : Var)
  | const (c : ConstVal)

/-- The right-hand sides of the wires: the text for an operator, the result of a function module, or the data
input of a read port of an external memory. -/
inductive Rhs where
  | assign (width : Nat) (text : Verilog.Expr)
  | applyFunc (f : Func)
  | readPort (v : Var)

/-- `translateBoolOp`, function application apart. -/
def translateBoolOp : ExprOp → Option Verilog.Expr
  | .not => some (.not (.net 0))
  | .and => some (.bin .and (.net 0) (.net 1))
  | .or => some (.bin .or (.net 0) (.net 1))
  | .xor => some (.bin .xor (.net 0) (.net 1))
  | .eq => some (.cmp .eq (.net 0) (.net 1))
  | .imply => some (.bin .or (.not (.net 0)) (.net 1))
  | .lt => some (.cmp .lt (.signed (.net 0)) (.signed (.net 1)))
  | .gt => some (.cmp .gt (.signed (.net 0)) (.signed (.net 1)))
  | .ult => some (.cmp .lt (.net 0) (.net 1))
  | .ugt => some (.cmp .gt (.net 0) (.net 1))
  | .ite => some (.cond (.net 0) (.net 1) (.net 2))
  | _ => none

/-- `translateBvOp`, function application apart. The text depends on the width of the first argument and on
whether it is a constant; a load must be from a variable. -/
def translateBvOp (o : ExprOp) (arg : Node) : Option Verilog.Expr :=
  let inw := getWidth arg.expr.sort
  match o with
  | .neg => some (.bin .add (.not (.net 0)) (.lit 1 1))
  | .compl => some (.not (.net 0))
  | .extract hi lo => some (.part 0 hi lo)
  | .zext outw => some (if outw = inw then .net 0 else .concat (.lit (outw - inw) 0) (.net 0))
  | .sext outw =>
    some (if outw = inw then .net 0
      else if arg.isConst ∧ inw = 1 then .concat (.repl (outw - inw) (.net 0)) (.net 0)
      else .concat (.repl (outw - inw) (.bit 0 (inw - 1))) (.net 0))
  | .rRotate rotw => some (.concat (.part 0 (rotw - 1) 0) (.part 0 (inw - 1) rotw))
  | .lRotate rotw => some (.concat (.part 0 (inw - 1 - rotw) 0) (.part 0 (inw - 1) (inw - rotw)))
  | .and => some (.bin .and (.net 0) (.net 1))
  | .or => some (.bin .or (.net 0) (.net 1))
  | .xor => some (.bin .xor (.net 0) (.net 1))
  | .shl => some (.shift .shl (.net 0) (.net 1))
  | .ashr => some (.shift .ashr (.signed (.net 0)) (.net 1))
  | .lshr => some (.shift .shr (.net 0) (.net 1))
  | .add => some (.bin .add (.net 0) (.net 1))
  | .sub => some (.bin .sub (.net 0) (.net 1))
  | .mul => some (.bin .mul (.net 0) (.net 1))
  | .div => some (.bin .div (.net 0) (.net 1))
  | .urem => some (.bin .mod (.net 0) (.net 1))
  | .concat => some (.concat (.net 0) (.net 1))
  | .load => if arg.isVar then some (.index 0 1) else none
  | .ite => some (.cond (.net 0) (.net 1) (.net 2))
  | _ => none

/-- `translateApplyFunc`: the arguments are wires, so a memory is refused. -/
def translateApplyFunc (f : Func) (args : List Node) : Option Rhs :=
  if args.all fun a => !a.expr.sort.isMem then some (.applyFunc f) else none

variable (κ : MemConfig)

/-- A load from an external memory puts the address on an output and reads an input. -/
def readPort (o : ExprOp) (arg : Node) : Option Var :=
  match o, arg with
  | .load, .leaf _ (.var v) => if κ.external v then some v else none
  | _, _ => none

/-- What is assigned for a bit-vector operator. -/
def bvRhs (o : ExprOp) (arg : Node) (w : Nat) : Option Rhs :=
  match readPort κ o arg with
  | some v => some (.readPort v)
  | none => (translateBvOp o arg).map fun e => .assign w e

/-- `ParseNonMemUpdateExpr` at a node it has no name for. -/
def plan : Node → Option (Name ⊕ Rhs)
  | .leaf _ (.var v) => some (.inl (.var v))
  | .leaf _ (.const c) => some (.inl (.const c))
  | .app p (.op o) args =>
    match (Node.app p (.op o) args).expr.sort with
    | .bool => (translateBoolOp o).map fun e => .inr (.assign 1 e)
    | .bv w => args.head?.bind fun a => (bvRhs κ o a w).map .inr
    | .mem _ _ => none
  | .app _ (.appFunc f) args => if f.out.isMem then none else (translateApplyFunc f args).map .inr

def gen : Emitter Name Rhs := ⟨plan κ⟩

@[simp] theorem gen_plan (n : Node) : (gen κ).plan n = plan κ n := rfl

/-- The word of a memory at the address on a net. -/
def wordAt : Value → Option Verilog.Net → Option Verilog.Net
  | .mem a d f, some (.vec _ _ x) => some (netOf (.bv d (f (x.setWidth a))))
  | _, _ => none

/-- The nets of a frame. The module of a function is a stub and the result of an external one is an input: what
stands there is assumed to compute the function. So is what answers at the read port of an external memory
assumed to have its words. -/
def meaning (ν : Valuation) : Meaning Name Rhs (Option Verilog.Net) where
  name
    | .var v => netAs (some (κ.decl v)) (ν.atom (.var v))
    | .const c => netAs none c.value
  stmt
    | .assign w e, vs => (vs.mapM id).bind fun ns => (e.assign ns w).map fun x => netOf (.bv w x)
    | .applyFunc f, vs => (vs.mapM id).bind fun ns =>
      (((f.args.zip ns).mapM fun p => valueOf p.1 p.2).bind (ν.app f)).map netOf
    | .readPort v, vs => vs[1]?.bind (wordAt (ν.atom (.var v)))

/-! ### The text of one operator -/

/-- The net that a text gives when the nets of the arguments hold their values. -/
def textNet (w : Nat) (text : Verilog.Expr) (vs : List Value) : Option Verilog.Net :=
  (text.assign (vs.map netOf) w).map fun x => netOf (.bv w x)

/-- Where the word that a declared memory has at an address is read. A register has no words: an index selects a
bit of it. -/
def LoadSafe {a d : Nat} (f : BitVec a → BitVec d) (x : BitVec a) : MemDecl → Prop
  | .external => True
  | .array n => x.toNat < n
  | .reg => 1 < d ∧ x.toNat < d ∧ f x = (BitVec.ofBool ((f 0).getLsbD x.toNat)).setWidth d

/-- Where the text of an operator has the value of the operator. A quotient is unsigned and must have a divisor,
as must a remainder. A select needs a vector, and a rotation must leave both of its parts non-empty. A word must
be among those that are declared. Memories cannot be compared, unless both are registers, which are then compared
at address zero. -/
def OpSafe (o : ExprOp) (args : List Node) (vs : List Value) : Prop :=
  match o, vs with
  | .div, [.bv w x, .bv _ y] => Bits.DivAgree x (y.setWidth w)
  | .urem, [_, .bv w y] => y ≠ 0#w
  | .extract _ _, [.bv w _] => 1 < w
  | .sext outw, [.bv w _] => outw = w ∨ 1 < w ∨ ∃ a ∈ args.head?, a.isConst
  | .lRotate n, [.bv w _] => 0 < n ∧ n < w
  | .rRotate n, [.bv w _] => 0 < n ∧ n < w
  | .load, [.mem a _ f, .bv _ x] => ∃ c ∈ args.head?.bind κ.nodeDecl, LoadSafe f (x.setWidth a) c
  | .eq, [.mem a d f, u] =>
    (∀ m ∈ args, κ.nodeDecl m = some .reg) ∧ ∀ g : BitVec a → BitVec d, u = .mem a d g → f 0 = g 0 → f = g
  | _, _ => True

theorem textNet_eq_some {w : Nat} {text : Verilog.Expr} {vs : List Value} {y : BitVec w} :
    textNet w text vs = some (netOf (.bv w y)) ↔ text.assign (vs.map netOf) w = some y := by
  rw [textNet, Option.map_eq_some_iff]
  constructor
  · rintro ⟨x, hx, heq⟩
    rw [hx]
    simpa [netOf] using heq
  · intro h
    exact ⟨y, h, rfl⟩

theorem netOf_bool (b : Bool) : netOf (.bool b) = netOf (.bv 1 (BitVec.ofBool b)) := rfl

variable {κ} {o : ExprOp} {args : List Node} {vs : List Value} {v : Value} {e : Verilog.Expr}

theorem textNet_logic {p : Prop} [Decidable p] {bo bvo : Op} {f : Bool → Bool → Bool}
    {g : (w : Nat) → BitVec w → BitVec w → BitVec w} (hbo : bo.apply = Op.boolBin f) (hbvo : bvo.apply = Op.bvBin g)
    (t : Verilog.BinOp) (ht : ∀ w (x y : BitVec w), t.apply false x y = some (g w x y))
    (hfg : ∀ a b, g 1 (BitVec.ofBool a) (BitVec.ofBool b) = BitVec.ofBool (f a b))
    (hv : (if p then bo else bvo).apply vs = some v) :
    textNet (getWidth v.sort) (.bin t (.net 0) (.net 1)) vs = some (netOf v) := by
  split at hv
  · rw [hbo] at hv
    obtain ⟨a, b, rfl, rfl⟩ := Op.boolBin_eq_some hv
    rw [netOf_bool]
    refine textNet_eq_some.mpr ?_
    rw [← hfg]
    exact (Verilog.Expr.assign_bin t).trans (ht 1 _ _)
  · rw [hbvo] at hv
    obtain ⟨w, x, y, rfl, rfl⟩ := Op.bvBin_eq_some hv
    exact textNet_eq_some.mpr ((Verilog.Expr.assign_bin t).trans (ht w x y))

theorem assign_ite {w : Nat} (c r t : Bool) (x y : BitVec w) :
    (Verilog.Expr.cond (.net 0) (.net 1) (.net 2)).assign
      [.vec false 1 (BitVec.ofBool c), .vec r w x, .vec t w y] w = some (if c then x else y) := by
  rw [Verilog.Expr.assign_cond]
  cases c <;> rfl

theorem textNet_ite (hv : Op.ite.apply vs = some v) (hmem : v.sort.isMem = false) :
    textNet (getWidth v.sort) (.cond (.net 0) (.net 1) (.net 2)) vs = some (netOf v) := by
  obtain ⟨c, t, u, rfl, hs, rfl⟩ := Op.ite_eq_some hv
  cases t with
  | bool a =>
    obtain ⟨b, rfl⟩ := Value.exists_bool hs.symm
    have hif : (if c then Value.bool a else .bool b) = .bool (if c then a else b) := by cases c <;> rfl
    have hbit : (if c then BitVec.ofBool a else BitVec.ofBool b) = BitVec.ofBool (if c then a else b) := by
      cases c <;> rfl
    rw [hif, netOf_bool]
    refine textNet_eq_some.mpr ?_
    rw [← hbit]
    exact assign_ite c false false _ _
  | bv w x =>
    cases u with
    | bool c => simp [Value.sort] at hs
    | mem a d g => simp [Value.sort] at hs
    | bv w' y =>
      obtain rfl : w = w' := by simpa [Value.sort] using hs
      have hif : (if c then Value.bv w x else .bv w y) = .bv w (if c then x else y) := by cases c <;> rfl
      rw [hif]
      exact textNet_eq_some.mpr (assign_ite c _ _ x y)
  | mem a d f =>
    have hsort : (if c then Value.mem a d f else u).sort = .mem a d := by
      cases c with
      | true => rfl
      | false => exact hs.symm
    rw [hsort] at hmem
    simp [Srt.isMem] at hmem

theorem textNet_cmp {t u : Value} (hs : t.sort = u.sort) (hmem : t.sort.isMem = false) {b : Bool} (hb : b = true ↔ t = u) :
    textNet 1 (.cmp .eq (.net 0) (.net 1)) [t, u] = some (netOf (.bool b)) := by
  have hnets : ∀ {w : Nat} {r : Bool} (x y : BitVec w), (Verilog.Expr.cmp .eq (.net 0) (.net 1)).assign
      [.vec r w x, .vec r w y] 1 = some (BitVec.ofBool (x == y)) := fun x y => Verilog.Expr.assign_cmp .eq
  cases t with
  | bool a =>
    obtain ⟨c, rfl⟩ := Value.exists_bool hs.symm
    have hbc : b = (BitVec.ofBool a == BitVec.ofBool c) := by
      rw [Bool.eq_iff_iff, hb]
      cases a <;> cases c <;> simp
    rw [netOf_bool, textNet_eq_some, hbc]
    exact hnets _ _
  | bv w x =>
    cases u with
    | bool c => simp [Value.sort] at hs
    | mem a d g => simp [Value.sort] at hs
    | bv w' y =>
      obtain rfl : w = w' := by simpa [Value.sort] using hs
      have hbc : b = (x == y) := by
        rw [Bool.eq_iff_iff, hb]
        simp
      rw [netOf_bool, textNet_eq_some, hbc]
      exact hnets _ _
  | mem a d f => simp [Value.sort, Srt.isMem] at hmem

/-- Each text that `translateBoolOp` writes has the value of its operator where `OpSafe` says so. -/
theorem textNet_boolOp (hpl : translateBoolOp o = some e) (hmem : ∀ u ∈ vs, u.sort.isMem = false)
    (hv : o.apply vs = some v) (hsort : v.sort = .bool) : textNet 1 e vs = some (netOf v) ↔ OpSafe κ o args vs := by
  obtain ⟨-, hv⟩ := ExprOp.apply_eq_smt hv
  cases o with
  | not =>
    obtain ⟨a, rfl, rfl⟩ := Op.not_eq_some hv
    obtain rfl := Option.some.inj hpl
    refine iff_of_true ?_ trivial
    rw [netOf_bool, textNet_eq_some]
    refine Verilog.Expr.assign_not.trans ?_
    cases a <;> rfl
  | and =>
    obtain rfl := Option.some.inj hpl
    have hlogic := textNet_logic rfl rfl .and (fun _ _ _ => rfl) (by decide) hv
    rw [hsort] at hlogic
    exact iff_of_true hlogic trivial
  | or =>
    obtain rfl := Option.some.inj hpl
    have hlogic := textNet_logic rfl rfl .or (fun _ _ _ => rfl) (by decide) hv
    rw [hsort] at hlogic
    exact iff_of_true hlogic trivial
  | xor =>
    obtain rfl := Option.some.inj hpl
    have hlogic := textNet_logic rfl rfl .xor (fun _ _ _ => rfl) (by decide) hv
    rw [hsort] at hlogic
    exact iff_of_true hlogic trivial
  | imply =>
    obtain rfl := Option.some.inj hpl
    obtain ⟨a, b, rfl, rfl⟩ := Op.boolBin_eq_some hv
    refine iff_of_true ?_ trivial
    rw [netOf_bool, textNet_eq_some, Verilog.Expr.assign_of_size_le (Nat.le_refl 1)]
    cases a <;> cases b <;> rfl
  | eq =>
    obtain rfl := Option.some.inj hpl
    obtain ⟨t, u, rfl, hs, b, rfl, hb⟩ := Op.eq_eq_some hv
    have ht := hmem t List.mem_cons_self
    refine iff_of_true (textNet_cmp hs ht hb) ?_
    cases t with
    | bool a => trivial
    | bv w x => trivial
    | mem a d f => simp [Value.sort, Srt.isMem] at ht
  | lt =>
    obtain rfl := Option.some.inj hpl
    obtain ⟨w, x, y, rfl, rfl⟩ := Op.bvCmp_eq_some hv
    rw [netOf_bool, textNet_eq_some]
    exact iff_of_true (Verilog.Expr.assign_cmp_signed .lt) trivial
  | gt =>
    obtain rfl := Option.some.inj hpl
    obtain ⟨w, x, y, rfl, rfl⟩ := Op.bvCmp_eq_some (f := fun _ x y => y.slt x) hv
    rw [netOf_bool, textNet_eq_some]
    exact iff_of_true (Verilog.Expr.assign_cmp_signed .gt) trivial
  | ult =>
    obtain rfl := Option.some.inj hpl
    obtain ⟨w, x, y, rfl, rfl⟩ := Op.bvCmp_eq_some hv
    rw [netOf_bool, textNet_eq_some]
    exact iff_of_true (Verilog.Expr.assign_cmp .lt) trivial
  | ugt =>
    obtain rfl := Option.some.inj hpl
    obtain ⟨w, x, y, rfl, rfl⟩ := Op.bvCmp_eq_some (f := fun _ x y => y.ult x) hv
    rw [netOf_bool, textNet_eq_some]
    exact iff_of_true (Verilog.Expr.assign_cmp .gt) trivial
  | ite =>
    obtain rfl := Option.some.inj hpl
    have hite := textNet_ite hv (by rw [hsort]; rfl)
    rw [hsort] at hite
    exact iff_of_true hite trivial
  | _ => simp [translateBoolOp] at hpl

theorem textNet_bin {f : (w : Nat) → BitVec w → BitVec w → BitVec w} (t : Verilog.BinOp)
    (ht : ∀ w (x y : BitVec w), t.apply false x y = some (f w x y)) (hv : Op.bvBin f vs = some v) :
    textNet (getWidth v.sort) (.bin t (.net 0) (.net 1)) vs = some (netOf v) := by
  obtain ⟨w, x, y, rfl, rfl⟩ := Op.bvBin_eq_some hv
  exact textNet_eq_some.mpr ((Verilog.Expr.assign_bin t).trans (ht w x y))

theorem textNet_shift {f : (w : Nat) → BitVec w → BitVec w → BitVec w} (t : Verilog.ShiftOp)
    (ht : ∀ w (x y : BitVec w), t.apply false x y = f w x y) (hv : Op.bvBin f vs = some v) :
    textNet (getWidth v.sort) (.shift t (.net 0) (.net 1)) vs = some (netOf v) := by
  obtain ⟨w, x, y, rfl, rfl⟩ := Op.bvBin_eq_some hv
  exact textNet_eq_some.mpr ((Verilog.Expr.assign_shift t).trans (congrArg some (ht w x y)))

theorem textNet_div (hv : Op.bvsdiv.apply vs = some v) :
    textNet (getWidth v.sort) (.bin .div (.net 0) (.net 1)) vs = some (netOf v) ↔ OpSafe κ .div args vs := by
  obtain ⟨w, x, y, rfl, rfl⟩ := Op.bvBin_eq_some hv
  change textNet w _ _ = some (netOf (.bv w _)) ↔ Bits.DivAgree x (y.setWidth w)
  rw [textNet_eq_some, BitVec.setWidth_eq]
  refine (Eq.congr_left (Verilog.Expr.assign_bin .div)).trans ?_
  by_cases hy : y = 0#w
  · simp [Verilog.BinOp.apply, hy, Bits.DivAgree]
  · rw [← Bits.udiv_eq_smtSDiv_iff hy]
    simp [Verilog.BinOp.apply, hy]

theorem textNet_urem (hv : Op.bvurem.apply vs = some v) :
    textNet (getWidth v.sort) (.bin .mod (.net 0) (.net 1)) vs = some (netOf v) ↔ OpSafe κ .urem args vs := by
  obtain ⟨w, x, y, rfl, rfl⟩ := Op.bvBin_eq_some hv
  change textNet w _ _ = some (netOf (.bv w _)) ↔ y ≠ 0#w
  rw [textNet_eq_some]
  refine (Eq.congr_left (Verilog.Expr.assign_bin .mod)).trans ?_
  by_cases hy : y = 0#w <;> simp [Verilog.BinOp.apply, hy]

theorem textNet_neg (hpos : ∀ u ∈ vs, 0 < getWidth u.sort) (hv : Op.bvneg.apply vs = some v) :
    textNet (getWidth v.sort) (.bin .add (.not (.net 0)) (.lit 1 1)) vs = some (netOf v) := by
  obtain ⟨w, x, rfl, rfl⟩ := Op.bvUn_eq_some hv
  have hw : 1 ≤ w := hpos (.bv w x) List.mem_cons_self
  refine textNet_eq_some.mpr ?_
  have hsize : (Verilog.Expr.bin .add (.not (.net 0)) (.lit 1 1)).size (List.map netOf [.bv w x]) = max w 1 := rfl
  rw [Verilog.Expr.assign_of_size_le (by rw [hsize, Nat.max_eq_left hw]; exact Nat.le_refl w)]
  change some (~~~(Verilog.extend false w x) + Verilog.extend false w (BitVec.ofNat 1 1)) = some (-x)
  rw [Verilog.extend_self, BitVec.neg_eq_not_add]
  have hone : Verilog.extend false w (BitVec.ofNat 1 1) = 1#w := BitVec.eq_of_toNat_eq (by simp [Verilog.extend])
  rw [hone]

theorem textNet_ashr (hv : Op.bvashr.apply vs = some v) :
    textNet (getWidth v.sort) (.shift .ashr (.signed (.net 0)) (.net 1)) vs = some (netOf v) := by
  obtain ⟨w, x, y, rfl, rfl⟩ := Op.bvBin_eq_some hv
  exact textNet_eq_some.mpr (Verilog.Expr.assign_shift_signed .ashr)

theorem textNet_extract {hi lo : Nat} (hv : (Op.extract hi lo).apply vs = some v) :
    textNet (getWidth v.sort) (.part 0 hi lo) vs = some (netOf v) ↔ OpSafe κ (.extract hi lo) args vs := by
  obtain ⟨w, x, rfl, hle, hlt, rfl⟩ := Op.extract_eq_some hv
  change textNet (hi - lo + 1) _ _ = some (netOf (.bv (hi - lo + 1) _)) ↔ 1 < w
  rw [textNet_eq_some]
  refine (Eq.congr_left (Verilog.Expr.assign_part hle hlt)).trans ?_
  by_cases hw : 1 < w <;> simp [hw]

theorem textNet_concat (hv : Op.concat.apply vs = some v) :
    textNet (getWidth v.sort) (.concat (.net 0) (.net 1)) vs = some (netOf v) := by
  obtain ⟨w, w', x, y, rfl, rfl⟩ := Op.concat_eq_some hv
  exact textNet_eq_some.mpr Verilog.Expr.assign_concat

theorem textNet_zext {outw w : Nat} {x : BitVec w} (hle : w ≤ outw) :
    textNet outw (if outw = w then .net 0 else .concat (.lit (outw - w) 0) (.net 0)) [.bv w x] =
      some (netOf (.bv outw (x.setWidth outw))) := by
  rw [textNet_eq_some]
  by_cases heq : outw = w
  · subst heq
    rw [if_pos rfl, BitVec.setWidth_eq]
    exact Verilog.Expr.assign_net
  · rw [if_neg heq]
    have hsize : (Verilog.Expr.concat (.lit (outw - w) 0) (.net 0)).size (List.map netOf [.bv w x]) =
        outw - w + w := rfl
    rw [Verilog.Expr.assign_of_size_le (by omega)]
    change some (Verilog.extend false outw (Verilog.extend false (outw - w) (BitVec.ofNat (outw - w) 0) ++
      Verilog.extend false w x)) = _
    rw [Verilog.extend_self, Verilog.extend_self, Bits.zero_append_eq_setWidth, Verilog.extend,
      if_neg Bool.false_ne_true, Nat.sub_add_cancel hle, BitVec.setWidth_eq]

theorem extend_replicate_msb {outw w : Nat} {x : BitVec w} (hle : w ≤ outw) :
    Verilog.extend false outw ((BitVec.ofBool x.msb).replicate (outw - w) ++ x) = x.signExtend outw := by
  rw [Bits.replicate_msb_append_eq_signExtend, Verilog.extend, if_neg Bool.false_ne_true, Nat.one_mul,
    Nat.sub_add_cancel hle, BitVec.setWidth_eq]

theorem assign_sext_bit {outw w : Nat} {x : BitVec w} (r : Bool) (hpos : 0 < w) (hle : w ≤ outw) :
    (Verilog.Expr.concat (.repl (outw - w) (.bit 0 ((w : Int) - 1))) (.net 0)).assign [.vec r w x] outw =
      if r then some (x.signExtend outw) else none := by
  have hsize : (Verilog.Expr.concat (.repl (outw - w) (.bit 0 ((w : Int) - 1))) (.net 0)).size [.vec r w x] =
      1 * (outw - w) + w := rfl
  rw [Verilog.Expr.assign_of_size_le (by omega)]
  change (((Verilog.Expr.bit 0 ((w : Int) - 1)).evalAt [.vec r w x] 1 false).map fun b =>
    Verilog.extend false (1 * (outw - w)) (b.replicate (outw - w))).bind
      (fun b => some (Verilog.extend false outw (b ++ Verilog.extend false w x))) = _
  rw [Verilog.Expr.evalAt_bit]
  cases r with
  | false => simp
  | true =>
    have hb : (0 : Int) ≤ (w : Int) - 1 ∧ (w : Int) - 1 < w := by omega
    have hlast : ((w : Int) - 1).toNat = w - 1 := by omega
    rw [if_pos ⟨rfl, hb⟩, hlast, ← BitVec.msb_eq_getLsbD_last]
    change some (Verilog.extend false outw (Verilog.extend false (1 * (outw - w))
      ((Verilog.extend false 1 (BitVec.ofBool x.msb)).replicate (outw - w)) ++ Verilog.extend false w x)) = _
    rw [Verilog.extend_self, Verilog.extend_self, Verilog.extend_self, extend_replicate_msb hle]
    rfl

theorem assign_sext_net {outw : Nat} {x : BitVec 1} (r : Bool) (hle : 1 ≤ outw) :
    (Verilog.Expr.concat (.repl (outw - 1) (.net 0)) (.net 0)).assign [.vec r 1 x] outw = some (x.signExtend outw) := by
  have hsize : (Verilog.Expr.concat (.repl (outw - 1) (.net 0)) (.net 0)).size [.vec r 1 x] = 1 * (outw - 1) + 1 := rfl
  rw [Verilog.Expr.assign_of_size_le (by omega)]
  change some (Verilog.extend false outw (Verilog.extend false (1 * (outw - 1))
    ((Verilog.extend false 1 x).replicate (outw - 1)) ++ Verilog.extend false 1 x)) = _
  have hmsb : ∀ y : BitVec 1, y = BitVec.ofBool y.msb := by decide
  rw [Verilog.extend_self, Verilog.extend_self]
  nth_rewrite 1 [hmsb x]
  rw [extend_replicate_msb hle]

theorem textNet_sext {outw w : Nat} {x : BitVec w} {a : Node} {as : List Node} (hpos : 0 < w) (hle : w ≤ outw) :
    textNet outw (if outw = w then .net 0
      else if a.isConst ∧ w = 1 then .concat (.repl (outw - w) (.net 0)) (.net 0)
      else .concat (.repl (outw - w) (.bit 0 ((w : Int) - 1))) (.net 0)) [.bv w x] =
        some (netOf (.bv outw (x.signExtend outw))) ↔ OpSafe κ (.sext outw) (a :: as) [.bv w x] := by
  have hsafe : OpSafe κ (.sext outw) (a :: as) [.bv w x] ↔ outw = w ∨ 1 < w ∨ a.isConst = true := by
    simp [OpSafe]
  rw [textNet_eq_some, hsafe]
  by_cases heq : outw = w
  · subst heq
    rw [if_pos rfl, BitVec.signExtend_eq]
    exact iff_of_true Verilog.Expr.assign_net (.inl rfl)
  · rw [if_neg heq]
    by_cases hconst : a.isConst = true ∧ w = 1
    · obtain ⟨hc, rfl⟩ := hconst
      rw [if_pos ⟨hc, rfl⟩]
      exact iff_of_true (assign_sext_net _ hle) (.inr (.inr hc))
    · rw [if_neg hconst]
      refine (Eq.congr_left (assign_sext_bit _ hpos hle)).trans ?_
      by_cases hw : 1 < w
      · simp [hw]
      · have hw1 : w = 1 := by omega
        have hc : ¬a.isConst = true := fun h => hconst ⟨h, hw1⟩
        simp [hw, heq, hc]

theorem assign_concat_part_eq_none {w : Nat} {r : Bool} {x : BitVec w} {msb lsb msb' lsb' : Int}
    (h : lsb ≤ msb → lsb' ≤ msb' → False) :
    (Verilog.Expr.concat (.part 0 msb lsb) (.part 0 msb' lsb')).assign [.vec r w x] w = none := by
  apply Verilog.Expr.assign_concat_eq_none
  rw [Verilog.Expr.evalAt_part, Verilog.Expr.evalAt_part, ite_eq_right_iff, ite_eq_right_iff]
  by_cases hle : lsb ≤ msb
  · right
    intro hb
    exact absurd hb.2.2.1 (h hle)
  · left
    intro hb
    exact absurd hb.2.2.1 hle

theorem textNet_rRotate {w n : Nat} {x : BitVec w} :
    textNet w (.concat (.part 0 ((n : Int) - 1) 0) (.part 0 ((w : Int) - 1) n)) [.bv w x] =
      some (netOf (.bv w (x.rotateRight n))) ↔ OpSafe κ (.rRotate n) args [.bv w x] := by
  change _ ↔ 0 < n ∧ n < w
  rw [textNet_eq_some]
  change (Verilog.Expr.concat _ _).assign [.vec (decide (1 < w)) w x] w = _ ↔ _
  by_cases hb : 0 < n ∧ n < w
  · refine iff_of_true ?_ hb
    rw [show ((n : Int) - 1) = ((n - 1 : Nat) : Int) by omega, show ((w : Int) - 1) = ((w - 1 : Nat) : Int) by omega,
      decide_eq_true (show 1 < w by omega), ← Bits.append_extractLsb_eq_rotateRight hb.1 hb.2]
    have hlen : n - 1 - 0 + 1 + (w - 1 - n + 1) = w := by omega
    exact Verilog.Expr.assign_concat_part (Nat.zero_le _) (by omega) (by omega) (by omega) hlen
  · refine iff_of_false ?_ hb
    rw [assign_concat_part_eq_none (fun _ _ => by omega)]
    simp

theorem textNet_lRotate {w n : Nat} {x : BitVec w} :
    textNet w (.concat (.part 0 ((w : Int) - 1 - n) 0) (.part 0 ((w : Int) - 1) ((w : Int) - n))) [.bv w x] =
      some (netOf (.bv w (x.rotateLeft n))) ↔ OpSafe κ (.lRotate n) args [.bv w x] := by
  change _ ↔ 0 < n ∧ n < w
  rw [textNet_eq_some]
  change (Verilog.Expr.concat _ _).assign [.vec (decide (1 < w)) w x] w = _ ↔ _
  by_cases hb : 0 < n ∧ n < w
  · refine iff_of_true ?_ hb
    rw [show ((w : Int) - 1 - n) = ((w - 1 - n : Nat) : Int) by omega,
      show ((w : Int) - 1) = ((w - 1 : Nat) : Int) by omega, show ((w : Int) - n) = ((w - n : Nat) : Int) by omega,
      decide_eq_true (show 1 < w by omega), ← Bits.append_extractLsb_eq_rotateLeft hb.1 hb.2]
    have hlen : w - 1 - n - 0 + 1 + (w - 1 - (w - n) + 1) = w := by omega
    exact Verilog.Expr.assign_concat_part (Nat.zero_le _) (by omega) (by omega) (by omega) hlen
  · refine iff_of_false ?_ hb
    rw [assign_concat_part_eq_none (fun _ _ => by omega)]
    simp

theorem textNet_bvOp {a : Node} {as : List Node} {w : Nat} (hpl : translateBvOp o a = some e)
    (hargs : (a :: as).map (fun n => n.expr.sort) = vs.map Value.sort) (hpos : ∀ u ∈ vs, 0 < getWidth u.sort)
    (hmem : ∀ u ∈ vs, u.sort.isMem = false) (hv : o.apply vs = some v) (hsort : v.sort = .bv w) :
    textNet w e vs = some (netOf v) ↔ OpSafe κ o (a :: as) vs := by
  have happly := hv
  obtain ⟨-, hv⟩ := ExprOp.apply_eq_smt hv
  have hw : getWidth v.sort = w := by rw [hsort]; rfl
  rw [← hw]
  cases o with
  | neg =>
    obtain rfl := Option.some.inj hpl
    exact iff_of_true (textNet_neg hpos hv) trivial
  | compl =>
    obtain rfl := Option.some.inj hpl
    obtain ⟨w, x, rfl, rfl⟩ := Op.bvUn_eq_some hv
    exact iff_of_true (textNet_eq_some.mpr Verilog.Expr.assign_not) trivial
  | extract hi lo =>
    obtain rfl := Option.some.inj hpl
    exact textNet_extract hv
  | zext outw =>
    obtain ⟨w, x, hle, rfl, rfl⟩ := ExprOp.zext_eq_some happly
    have ha : a.expr.sort = .bv w := by simpa [Value.sort] using congrArg List.head? hargs
    simp only [translateBvOp, ha, getWidth, Option.some.injEq] at hpl
    subst hpl
    exact iff_of_true (textNet_zext hle) trivial
  | sext outw =>
    obtain ⟨w, x, hle, rfl, rfl⟩ := ExprOp.sext_eq_some happly
    have ha : a.expr.sort = .bv w := by simpa [Value.sort] using congrArg List.head? hargs
    simp only [translateBvOp, ha, getWidth, Option.some.injEq] at hpl
    subst hpl
    exact textNet_sext (hpos (.bv w x) List.mem_cons_self) hle
  | and =>
    obtain rfl := Option.some.inj hpl
    exact iff_of_true (textNet_logic rfl rfl .and (fun _ _ _ => rfl) (by decide) hv) trivial
  | or =>
    obtain rfl := Option.some.inj hpl
    exact iff_of_true (textNet_logic rfl rfl .or (fun _ _ _ => rfl) (by decide) hv) trivial
  | xor =>
    obtain rfl := Option.some.inj hpl
    exact iff_of_true (textNet_logic rfl rfl .xor (fun _ _ _ => rfl) (by decide) hv) trivial
  | add =>
    obtain rfl := Option.some.inj hpl
    exact iff_of_true (textNet_bin .add (fun _ _ _ => rfl) hv) trivial
  | sub =>
    obtain rfl := Option.some.inj hpl
    exact iff_of_true (textNet_bin .sub (fun _ _ _ => rfl) hv) trivial
  | mul =>
    obtain rfl := Option.some.inj hpl
    exact iff_of_true (textNet_bin .mul (fun _ _ _ => rfl) hv) trivial
  | shl =>
    obtain rfl := Option.some.inj hpl
    exact iff_of_true (textNet_shift .shl (fun _ _ _ => rfl) hv) trivial
  | lshr =>
    obtain rfl := Option.some.inj hpl
    exact iff_of_true (textNet_shift .shr (fun _ _ _ => rfl) hv) trivial
  | ashr =>
    obtain rfl := Option.some.inj hpl
    exact iff_of_true (textNet_ashr hv) trivial
  | div =>
    obtain rfl := Option.some.inj hpl
    exact textNet_div hv
  | urem =>
    obtain rfl := Option.some.inj hpl
    exact textNet_urem hv
  | concat =>
    obtain rfl := Option.some.inj hpl
    exact iff_of_true (textNet_concat hv) trivial
  | load =>
    obtain ⟨a, d, f, x, rfl, rfl⟩ := Op.select_eq_some hv
    exact absurd (hmem (.mem a d f) List.mem_cons_self) (by simp [Value.sort, Srt.isMem])
  | ite =>
    obtain rfl := Option.some.inj hpl
    exact iff_of_true (textNet_ite hv (by rw [hsort]; rfl)) trivial
  | rRotate n =>
    obtain ⟨w, x, rfl, rfl⟩ := Op.bvUn_eq_some hv
    have ha : a.expr.sort = .bv w := by simpa [Value.sort] using congrArg List.head? hargs
    simp only [translateBvOp, ha, getWidth, Option.some.injEq] at hpl
    subst hpl
    exact textNet_rRotate
  | lRotate n =>
    obtain ⟨w, x, rfl, rfl⟩ := Op.bvUn_eq_some hv
    have ha : a.expr.sort = .bv w := by simpa [Value.sort] using congrArg List.head? hargs
    simp only [translateBvOp, ha, getWidth, Option.some.injEq] at hpl
    subst hpl
    exact textNet_lRotate
  | _ => simp [translateBvOp] at hpl

end VerilogGen

end Ilang
