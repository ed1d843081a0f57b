import Ilang.Verilog.Expr

/-!
# Synthesized invariants as Verilog

A CHC solver gives an invariant as an SMT-LIB term, and `SmtlibInvariantParser` turns it into a Verilog expression, one
operator at a time, by pasting the texts of the arguments. The texts here are the expressions they are parsed to. An operator
with more than two arguments is the left-associated one, whose text is parsed to the same expression, and a name that is
bound by `let` stands for its term, which is all that the handlers of the operators are given.

A select can only be pasted to a name. Of anything else, a local wire is defined first, and the select is of the wire.

The handlers refer to their arguments in the vector of all terms. A select and a sign extension still use the reference after
they have pushed a term, so they read freed memory if the vector had no room and was moved.
-/

namespace Ilang

open Verilog

/-! ### Terms -/

inductive InvSort where
  | bool
  | bv (width : Nat)
  deriving DecidableEq, Repr

namespace InvSort

abbrev Val : InvSort → Type
  | .bool => Bool
  | .bv w => BitVec w

/-- The width of a wire of the sort. -/
def width : InvSort → Nat
  | .bool => 1
  | .bv w => w

def bits : (τ : InvSort) → τ.Val → BitVec τ.width
  | .bool, b => BitVec.ofBool b
  | .bv _, x => x

def isBv : InvSort → Bool
  | .bool => false
  | .bv _ => true

end InvSort

inductive InvConn where
  | and | or | implies | xor | nand
  deriving DecidableEq, Repr

inductive InvBin where
  | bvand | bvnand | bvor | bvnor | bvxor | bvxnor | bvadd | bvsub | bvmul | bvudiv | bvsdiv | bvsmod | bvurem
  deriving DecidableEq, Repr

inductive InvShift where
  | bvshl | bvlshr | bvashr
  deriving DecidableEq, Repr

/-- The comparisons, unsigned and signed. -/
inductive InvCmp where
  | bvult | bvule | bvugt | bvuge | bvslt | bvsle | bvsgt | bvsge
  deriving DecidableEq, Repr

/-- The terms over the operators that are not rejected as unimplemented. A variable is the net of its position. -/
inductive InvTerm : InvSort → Type where
  | var (τ : InvSort) (i : Nat) : InvTerm τ
  | bool (b : Bool) : InvTerm .bool
  | num (w v : Nat) : InvTerm (.bv w)
  | not (a : InvTerm .bool) : InvTerm .bool
  | conn (o : InvConn) (a b : InvTerm .bool) : InvTerm .bool
  | eq {τ : InvSort} (a b : InvTerm τ) : InvTerm .bool
  | ite {τ : InvSort} (c : InvTerm .bool) (a b : InvTerm τ) : InvTerm τ
  | bvnot {w : Nat} (a : InvTerm (.bv w)) : InvTerm (.bv w)
  | bvneg {w : Nat} (a : InvTerm (.bv w)) : InvTerm (.bv w)
  | bin (o : InvBin) {w : Nat} (a b : InvTerm (.bv w)) : InvTerm (.bv w)
  | shift (o : InvShift) {w n : Nat} (a : InvTerm (.bv w)) (b : InvTerm (.bv n)) : InvTerm (.bv w)
  | cmp (o : InvCmp) {w : Nat} (a b : InvTerm (.bv w)) : InvTerm .bool
  | bvcomp {w : Nat} (a b : InvTerm (.bv w)) : InvTerm (.bv 1)
  | concat {w v : Nat} (a : InvTerm (.bv w)) (b : InvTerm (.bv v)) : InvTerm (.bv (w + v))
  | extract (hi lo : Nat) {w : Nat} (a : InvTerm (.bv w)) : InvTerm (.bv (hi - lo + 1))
  | bit2bool (i : Nat) {w : Nat} (a : InvTerm (.bv w)) : InvTerm .bool
  | rep (n : Nat) {w : Nat} (a : InvTerm (.bv w)) : InvTerm (.bv (w * n))
  | zeroExtend (n : Nat) {w : Nat} (a : InvTerm (.bv w)) : InvTerm (.bv (n + w))
  | signExtend (n : Nat) {w : Nat} (a : InvTerm (.bv w)) : InvTerm (.bv (n + w))

/-! ### SMT-LIB meaning -/

def InvConn.denote (p q : Bool) : InvConn → Bool
  | .and => p && q
  | .or => p || q
  | .implies => !p || q
  | .xor => p ^^ q
  | .nand => !(p && q)

def InvBin.denote {w : Nat} (x y : BitVec w) : InvBin → BitVec w
  | .bvand => x &&& y
  | .bvnand => ~~~(x &&& y)
  | .bvor => x ||| y
  | .bvnor => ~~~(x ||| y)
  | .bvxor => x ^^^ y
  | .bvxnor => ~~~(x ^^^ y)
  | .bvadd => x + y
  | .bvsub => x - y
  | .bvmul => x * y
  | .bvudiv => x.smtUDiv y
  | .bvsdiv => x.smtSDiv y
  | .bvsmod => x.smod y
  | .bvurem => x.umod y

def InvShift.denote {w n : Nat} (x : BitVec w) (y : BitVec n) : InvShift → BitVec w
  | .bvshl => x <<< y
  | .bvlshr => x >>> y
  | .bvashr => x.sshiftRight' y

def InvCmp.denote {w : Nat} (x y : BitVec w) : InvCmp → Bool
  | .bvult => x.ult y
  | .bvule => x.ule y
  | .bvugt => y.ult x
  | .bvuge => y.ule x
  | .bvslt => x.slt y
  | .bvsle => x.sle y
  | .bvsgt => y.slt x
  | .bvsge => y.sle x

/-- The value of a variable, from the net of its position. -/
def InvSort.ofNet (τ : InvSort) : Option Net → τ.Val
  | some (.vec _ _ x) =>
    match τ with
    | .bool => x != 0
    | .bv w => x.setWidth w
  | _ =>
    match τ with
    | .bool => false
    | .bv w => 0#w

namespace InvTerm

variable (ns : List Net)

def denote : {τ : InvSort} → InvTerm τ → τ.Val
  | _, .var τ i => τ.ofNet ns[i]?
  | _, .bool b => b
  | _, .num w v => BitVec.ofNat w v
  | _, .not a => !a.denote
  | _, .conn o a b => o.denote a.denote b.denote
  | _, @InvTerm.eq .bool a b => a.denote == b.denote
  | _, @InvTerm.eq (.bv _) a b => a.denote == b.denote
  | _, .ite c a b => if c.denote then a.denote else b.denote
  | _, .bvnot a => ~~~a.denote
  | _, .bvneg a => -a.denote
  | _, .bin o a b => o.denote a.denote b.denote
  | _, .shift o a b => o.denote a.denote b.denote
  | _, .cmp o a b => o.denote a.denote b.denote
  | _, .bvcomp a b => BitVec.ofBool (a.denote == b.denote)
  | _, .concat a b => a.denote ++ b.denote
  | _, .extract hi lo a => a.denote.extractLsb hi lo
  | _, .bit2bool i a => a.denote.getLsbD i
  | _, .rep n a => a.denote.replicate n
  | _, .zeroExtend n (w := w) a => a.denote.setWidth (n + w)
  | _, .signExtend n (w := w) a => a.denote.signExtend (n + w)

end InvTerm

/-! ### Translation -/

/-- A term of the pool: its translation and its type. -/
structure InvPiece where
  expr : Verilog.Expr
  ty : InvSort

/-- Whether the vector of the terms is moved by a push under an operator that uses a reference to its argument afterwards: the
push of a local wire under a select, that of the wire or of the select of the sign bit under a sign extension. It depends on
the room that is left in the vector at that moment. -/
abbrev PoolMoves := ∀ τ : InvSort, InvTerm τ → Bool

/-- The local wires in the order of their definition, with their widths. -/
abbrev InvLocals := List (Verilog.Expr × Nat)

/-- The operators that take any number of arguments. The widths of these are not compared. -/
def InvBin.multi : InvBin → Bool
  | .bvand | .bvnand | .bvor | .bvnor | .bvadd | .bvmul => true
  | _ => false

namespace InvTerm

/-- The connectives. An implication is `~(a) || (b)`. -/
def mkConn (o : InvConn) (p q : InvPiece) : Option InvPiece :=
  if p.ty = .bool ∧ q.ty = .bool then
    some
      { ty := .bool
        expr :=
          match o with
          | .and => .logic .and p.expr q.expr
          | .or => .logic .or p.expr q.expr
          | .implies => .logic .or (.not p.expr) q.expr
          | .xor => .bin .xor p.expr q.expr
          | .nand => .lnot (.logic .and p.expr q.expr) }
  else none

def mkEq (p q : InvPiece) : Option InvPiece :=
  if p.ty = q.ty then some ⟨.cmp .eq p.expr q.expr, .bool⟩ else none

def mkIte (c p q : InvPiece) : Option InvPiece :=
  if c.ty = .bool ∧ p.ty = q.ty then some ⟨.cond c.expr p.expr q.expr, p.ty⟩ else none

/-- The operators of two vectors. Division and remainder are signed by `$signed`, and `bvsmod` is written as `%`. -/
def mkBin (o : InvBin) (p q : InvPiece) : Option InvPiece :=
  if p.ty.isBv ∧ q.ty.isBv ∧ (o.multi ∨ p.ty = q.ty) then
    some
      { ty := p.ty
        expr :=
          match o with
          | .bvand => .bin .and p.expr q.expr
          | .bvnand => .not (.bin .and p.expr q.expr)
          | .bvor => .bin .or p.expr q.expr
          | .bvnor => .not (.bin .or p.expr q.expr)
          | .bvxor => .bin .xor p.expr q.expr
          | .bvxnor => .not (.bin .xor p.expr q.expr)
          | .bvadd => .bin .add p.expr q.expr
          | .bvsub => .bin .sub p.expr q.expr
          | .bvmul => .bin .mul p.expr q.expr
          | .bvudiv => .bin .div p.expr q.expr
          | .bvsdiv => .bin .div (.signed p.expr) (.signed q.expr)
          | .bvsmod => .bin .mod (.signed p.expr) (.signed q.expr)
          | .bvurem => .bin .mod p.expr q.expr }
  else none

/-- The shifts need not have operands of one width. -/
def mkShift (o : InvShift) (p q : InvPiece) : Option InvPiece :=
  if p.ty.isBv ∧ q.ty.isBv then
    some
      { ty := p.ty
        expr :=
          match o with
          | .bvshl => .shift .shl p.expr q.expr
          | .bvlshr => .shift .shr p.expr q.expr
          | .bvashr => .shift .ashr p.expr q.expr }
  else none

def mkCmp (o : InvCmp) (p q : InvPiece) : Option InvPiece :=
  if p.ty.isBv ∧ q.ty.isBv ∧ p.ty = q.ty then
    some
      { ty := .bool
        expr :=
          match o with
          | .bvult => .cmp .lt p.expr q.expr
          | .bvule => .cmp .le p.expr q.expr
          | .bvugt => .cmp .gt p.expr q.expr
          | .bvuge => .cmp .ge p.expr q.expr
          | .bvslt => .cmp .lt (.signed p.expr) (.signed q.expr)
          | .bvsle => .cmp .le (.signed p.expr) (.signed q.expr)
          | .bvsgt => .cmp .gt (.signed p.expr) (.signed q.expr)
          | .bvsge => .cmp .ge (.signed p.expr) (.signed q.expr) }
  else none

/-- The result of `bvcomp` is of type Bool. -/
def mkBvcomp (p q : InvPiece) : Option InvPiece :=
  if p.ty.isBv ∧ q.ty.isBv ∧ p.ty = q.ty then some ⟨.cmp .eq p.expr q.expr, .bool⟩ else none

def mkConcat (p q : InvPiece) : Option InvPiece :=
  if p.ty.isBv ∧ q.ty.isBv then some ⟨.concat p.expr q.expr, .bv (p.ty.width + q.ty.width)⟩ else none

/-- The local wire of an expression, which is defined if there is none yet. It is found by the text of the expression. -/
def localWire (moved : Bool) (base : Nat) (e : Verilog.Expr) (w : Nat) (ls : InvLocals) : Option (Nat × InvLocals) :=
  match ls.findIdx? (· == (e, w)) with
  | some k => some (base + k, ls)
  | none => if moved then none else some (base + ls.length, ls ++ [(e, w)])

/-- The name that a select is pasted to: that of a net, or of a wire for an expression that is no name. A literal is taken as
it is, and there is no select of it. -/
def selectName (moved : Bool) (base : Nat) (p : InvPiece) (ls : InvLocals) : Option (Nat × InvLocals) :=
  match p.expr with
  | .net i => some (i, ls)
  | .lit _ _ => none
  | e => localWire moved base e p.ty.width ls

def mkSelect (moved : Bool) (base hi lo : Nat) (ty : InvSort) (p : InvPiece) (ls : InvLocals) :
    Option (InvPiece × InvLocals) :=
  if p.ty.isBv ∧ hi < p.ty.width ∧ lo < p.ty.width then
    (selectName moved base p ls).map fun r => (⟨.part r.1 hi lo, ty⟩, r.2)
  else none

def mkRepeat (n : Nat) (p : InvPiece) : Option InvPiece :=
  if p.ty.isBv ∧ 0 < n then some ⟨if n = 1 then p.expr else .repl n p.expr, .bv (p.ty.width * n)⟩ else none

def mkZeroExtend (n : Nat) (p : InvPiece) : Option InvPiece :=
  if p.ty.isBv ∧ 0 < n then some ⟨.concat (.lit n 0) p.expr, .bv (n + p.ty.width)⟩ else none

/-- The sign bit is a select of the argument, which is made before the argument is read. -/
def mkSignExtend (moved : Bool) (base n : Nat) (p : InvPiece) (ls : InvLocals) : Option (InvPiece × InvLocals) :=
  if p.ty.isBv ∧ 0 < n then
    (mkSelect moved base (p.ty.width - 1) (p.ty.width - 1) (.bv 1) p ls).bind fun r =>
      if moved then none else some (⟨.concat (.repl n r.1.expr) p.expr, .bv (n + p.ty.width)⟩, r.2)
  else none

/-- An operator of one argument that defines no wire. -/
def un (f : InvPiece → Option InvPiece) (r : Option (InvPiece × InvLocals)) : Option (InvPiece × InvLocals) :=
  r.bind fun p => (f p.1).map fun q => (q, p.2)

/-- The arguments are translated from left to right. -/
def bi (f : InvPiece → InvPiece → Option InvPiece) (ra rb : InvLocals → Option (InvPiece × InvLocals)) (ls : InvLocals) :
    Option (InvPiece × InvLocals) :=
  (ra ls).bind fun p => (rb p.2).bind fun q => (f p.1 q.1).map fun r => (r, q.2)

/-- The translation, over a number of nets after which the local wires come. The literal in `( ~(a) + 'b1 )` has no width, so
it has 32 bits. -/
def trans (moves : PoolMoves) (base : Nat) : {τ : InvSort} → InvTerm τ → InvLocals → Option (InvPiece × InvLocals)
  | _, .var τ i, ls => some (⟨.net i, τ⟩, ls)
  | _, .bool b, ls => some (⟨.lit 1 b.toNat, .bool⟩, ls)
  | _, .num w v, ls => if 0 < w then some (⟨.lit w v, .bv w⟩, ls) else none
  | _, .not a, ls => un (fun p => if p.ty = .bool then some ⟨.lnot p.expr, .bool⟩ else none) (a.trans moves base ls)
  | _, .conn o a b, ls => bi (mkConn o) (a.trans moves base) (b.trans moves base) ls
  | _, .eq a b, ls => bi mkEq (a.trans moves base) (b.trans moves base) ls
  | _, .ite c a b, ls =>
    (c.trans moves base ls).bind fun r => bi (mkIte r.1) (a.trans moves base) (b.trans moves base) r.2
  | _, .bvnot a, ls => un (fun p => if p.ty.isBv then some ⟨.not p.expr, p.ty⟩ else none) (a.trans moves base ls)
  | _, .bvneg a, ls =>
    un (fun p => if p.ty.isBv then some ⟨.bin .add (.not p.expr) (.lit 32 1), p.ty⟩ else none) (a.trans moves base ls)
  | _, .bin o a b, ls => bi (mkBin o) (a.trans moves base) (b.trans moves base) ls
  | _, .shift o a b, ls => bi (mkShift o) (a.trans moves base) (b.trans moves base) ls
  | _, .cmp o a b, ls => bi (mkCmp o) (a.trans moves base) (b.trans moves base) ls
  | _, .bvcomp a b, ls => bi mkBvcomp (a.trans moves base) (b.trans moves base) ls
  | _, .concat a b, ls => bi mkConcat (a.trans moves base) (b.trans moves base) ls
  | _, .extract hi lo a, ls => (a.trans moves base ls).bind fun r =>
    mkSelect (moves _ (.extract hi lo a)) base hi lo (.bv (hi - lo + 1)) r.1 r.2
  | _, .bit2bool i a, ls => (a.trans moves base ls).bind fun r => mkSelect (moves _ (.bit2bool i a)) base i i .bool r.1 r.2
  | _, .rep n a, ls => un (mkRepeat n) (a.trans moves base ls)
  | _, .zeroExtend n a, ls => un (mkZeroExtend n) (a.trans moves base ls)
  | _, .signExtend n a, ls => (a.trans moves base ls).bind fun r => mkSignExtend (moves _ (.signExtend n a)) base n r.1 r.2

end InvTerm

/-- The nets with the local wires, each assigned its expression. A wire of one bit is declared without a range. -/
def localNets (ns : List Net) : InvLocals → Option (List Net)
  | [] => some ns
  | (e, w) :: ls => (e.assign ns w).bind fun x => localNets (ns ++ [.vec (decide (1 < w)) w x]) ls

/-- The value of the whole translation of an invariant, as it is assigned to a wire of one bit. -/
def InvTerm.verilogValue (moves : PoolMoves) (t : InvTerm .bool) (ns : List Net) : Option (BitVec 1) :=
  (t.trans moves ns.length []).bind fun r => (localNets ns r.2).bind fun env => r.1.expr.assign env 1

end Ilang
