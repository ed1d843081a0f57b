import Ilang.Ila.Construct
import Ilang.Smt.Sorting
import Ilang.Target.Z3Adapter

/-!
# The two translations of an expression

`Z3ExprAdapter` and `SmtSwitchItf` translate the expressions of `asthub`. Each looks at the recorded sorts where it chooses
between operators, and each reads the numbers in an expression with the types of its interface. A translation that a library
refuses is `none` here.
-/

namespace Ilang

open Smt

namespace AstSort

/-- The sort of a solver, which has no widths but positive ones and no array for a structure. -/
def srt? : AstSort → Option Srt
  | .bool => some .bool
  | .bv w => if 0 < w then some (.bv w.toNat) else none
  | .mem a d => if 0 < a ∧ 0 < d then some (.mem a.toNat d.toNat) else none
  | .composite _ => none

/-- A sort of a solver as it is recorded. -/
def ofSrt : Srt → AstSort
  | .bool => .bool
  | .bv w => .bv w
  | .mem a d => .mem a d

def isBv : AstSort → Bool
  | .bv _ => true
  | _ => false

theorem srt?_eq_some {s : AstSort} {t : Srt} : s.srt? = some t ↔ s = ofSrt t ∧ t.Pos := by
  cases s with
  | bool => cases t <;> simp [srt?, ofSrt, Srt.Pos]
  | bv w =>
    cases t with
    | bv n =>
      simp only [srt?, ofSrt, Srt.Pos, Option.ite_none_right_eq_some, Option.some.injEq, Srt.bv.injEq, bv.injEq]
      omega
    | bool => simp [srt?, ofSrt]
    | mem a d => simp [srt?, ofSrt]
  | mem a d =>
    cases t with
    | mem n m =>
      simp only [srt?, ofSrt, Srt.Pos, Option.ite_none_right_eq_some, Option.some.injEq, Srt.mem.injEq, mem.injEq]
      omega
    | bool => simp [srt?, ofSrt]
    | bv n => simp [srt?, ofSrt]
  | composite n => cases t <;> simp [srt?, ofSrt]

theorem ofSrt_inj {s t : Srt} (h : ofSrt s = ofSrt t) : s = t := by
  cases s <;> cases t <;> simp_all [ofSrt]

theorem ofSrt_eq_bool {s : Srt} : ofSrt s = .bool ↔ s = .bool := by
  cases s <;> simp [ofSrt]

end AstSort

/-- The conversion of an `int` to `unsigned`. -/
def unsigned (n : Int) : Nat := if 0 ≤ n then n.toNat else (n + 2 ^ 32).toNat

/-- An index of smt-switch. There are no negative ones. -/
def index (n : Int) : Option Nat := if 0 ≤ n then some n.toNat else none

theorem index_eq_some {n : Int} {k : Nat} : index n = some k ↔ n = k := by
  rw [index, Option.ite_none_right_eq_some, Option.some.injEq]
  omega

theorem unsigned_natCast (k : Nat) : unsigned k = k := if_pos (Int.natCast_nonneg k)

/-- The conversion of a `BvValType` to `int64_t`, which the constants of smt-switch are made of. -/
def int64 (x : BvValType) : Int := if x.val < 2 ^ 63 then x.val else x.val - 2 ^ 64

namespace AstOp

/-- The operator that `GetZ3Expr` applies. -/
def z3Op (o : AstOp) (ss : List AstSort) : Op :=
  match o with
  | .neg => .bvneg
  | .not => .not
  | .compl => .bvnot
  | .and => if o.sortOf ss = .bool then .and else .bvand
  | .or => if o.sortOf ss = .bool then .or else .bvor
  | .xor => if (o.sortOf ss).isBv then .bvxor else .xor
  | .shl => .bvshl
  | .ashr => .bvashr
  | .lshr => .bvlshr
  | .add => .bvadd
  | .sub => .bvsub
  | .div => .bvsdiv
  | .srem => .bvsrem
  | .urem => .bvurem
  | .smod => .bvsmod
  | .mul => .bvmul
  | .eq => .eq
  | .lt => .bvslt
  | .gt => .bvsgt
  | .ult => .bvult
  | .ugt => .bvugt
  | .load => .select
  | .store => .store
  | .concat => .concat
  | .extract hi lo => .extract (unsigned hi) (unsigned lo)
  | .zext w => .zeroExtend (unsigned (w - (ss.headD .bool).bitWidth))
  | .sext w => .signExtend (unsigned (w - (ss.headD .bool).bitWidth))
  | .lRotate n => .rotateLeft (unsigned n)
  | .rRotate n => .rotateRight (unsigned n)
  | .imply => .implies
  | .ite => .ite

/-- The operator of `ExprOp2Term`. -/
def smtOp (o : AstOp) (ss : List AstSort) : Option Op :=
  match o with
  | .neg => some .bvneg
  | .not => some .not
  | .compl => some .bvnot
  | .and => some (if o.sortOf ss = .bool then .and else .bvand)
  | .or => some (if o.sortOf ss = .bool then .or else .bvor)
  | .xor => some (if o.sortOf ss = .bool then .xor else .bvxor)
  | .shl => some .bvshl
  | .ashr => some .bvashr
  | .lshr => some .bvlshr
  | .add => some .bvadd
  | .sub => some .bvsub
  | .div => some .bvsdiv
  | .srem => some .bvsrem
  | .urem => some .bvurem
  | .smod => some .bvsmod
  | .mul => some .bvmul
  | .eq => some .eq
  | .lt => some .bvslt
  | .gt => some .bvsgt
  | .ult => some .bvult
  | .ugt => some .bvugt
  | .load => some .select
  | .store => some .store
  | .concat => some .concat
  | .extract hi lo => (index hi).bind fun hi => (index lo).map fun lo => .extract hi lo
  | .zext w => (index (w - (ss.headD .bool).bitWidth)).map .zeroExtend
  | .sext w => (index (w - (ss.headD .bool).bitWidth)).map .signExtend
  | .lRotate n => (index n).map .rotateLeft
  | .rRotate n => (index n).map .rotateRight
  | .imply => some .implies
  | .ite => some .ite

end AstOp

namespace AstVal

/-- A constant, by how the library reads a number. -/
def term (read : BvValType → Int) : AstVal → AstSort → Option Term
  | .bool b, .bool => some (.bool b)
  | .bv x, .bv w => if 0 < w then some (.bv w.toNat (BitVec.ofInt w.toNat (read x))) else none
  | .mem x m, .mem a d =>
    if 0 < a ∧ 0 < d then
      some (m.foldl (fun e p => .op .store [e, .bv a.toNat (BitVec.ofInt a.toNat (read p.1)),
        .bv d.toNat (BitVec.ofInt d.toNat (read p.2))]) (.op (.constArray a.toNat) [.bv d.toNat (BitVec.ofInt d.toNat (read x))]))
    else none
  | _, _ => none

end AstVal

/-- The symbol of a function. -/
def AstFunc.sym (f : AstFunc) (pre suffix : String) : Option FuncSym :=
  (f.args.mapM AstSort.srt?).bind fun ss => f.out.srt?.map fun s => ⟨formatStr f.name pre suffix, ss, s⟩

/-- `Func::GetZ3FuncDecl`. -/
def AstFunc.z3FuncDecl (f : AstFunc) : Option FuncSym := f.sym f.hostName ""

/-- `Func2Term`. A function sort has at least one argument. -/
def AstFunc.func2Term (f : AstFunc) (suffix : String) : Option FuncSym :=
  if f.args = [] then none else f.sym f.hostRoot suffix

namespace AstExpr

mutual

/-- `Z3ExprAdapter::GetExpr`. -/
def z3Term (z3 : Z3) (suffix : String) : AstExpr → Option Term
  | .var n h s => s.srt?.map fun t => z3.simplify (.const ⟨formatStr n h suffix, t⟩)
  | .const c s => (c.term (fun x => x.val) s).map z3.simplify
  | .op o args _ => (z3TermList z3 suffix args).map fun ts => z3.simplify (.op (o.z3Op (args.map sort)) ts)
  | .appFunc f args _ =>
    if args.isEmpty then f.out.srt?.map fun t => z3.simplify (.const ⟨formatStr f.name "" suffix, t⟩)
    else f.z3FuncDecl.bind fun g => (z3TermList z3 suffix args).map fun ts => z3.simplify (.app g ts)

def z3TermList (z3 : Z3) (suffix : String) : List AstExpr → Option (List Term)
  | [] => some []
  | a :: as => (z3Term z3 suffix a).bind fun t => (z3TermList z3 suffix as).map (t :: ·)

end

mutual

/-- `SmtSwitchItf::GetSmtTerm` on a fresh interface. -/
def smtTerm (suffix : String) : AstExpr → Option Term
  | .var n h s => s.srt?.map fun t => .const ⟨formatStr n h suffix, t⟩
  | .const c s => c.term int64 s
  | .op o args _ =>
    (smtTermList suffix args).bind fun us => (o.smtOp (args.map sort)).map fun p => .op p us
  | .appFunc f args _ => (f.func2Term suffix).bind fun g => (smtTermList suffix args).map fun us => .app g us

def smtTermList (suffix : String) : List AstExpr → Option (List Term)
  | [] => some []
  | a :: as => (smtTerm suffix a).bind fun u => (smtTermList suffix as).map (u :: ·)

end

end AstExpr

end Ilang
