import Mathlib.Tactic

/-!
# Verilog expressions

The expressions of IEEE 1364 over nets, memories and sized literals, with its two rules for operands: an
operand of a context-determined operator is extended to the width of the context before the operator is
applied, by its sign bit only if every operand of the context is signed; an operand of a concatenation, of a
replication, of `$signed`, of a connective, the amount of a shift and the condition of `?:` have their own width.

A value is known or it is not. `none` stands for an expression that the standard does not allow and for a
value with unknown bits: a division by zero, a reversed part-select, a select outside the range.
-/

namespace Verilog

/-- A net or a variable. A vector is declared with a range `[width-1:0]`, a scalar without one; a scalar has
no selects. An array of words is declared with a number of words, the first that are given. -/
inductive Net where
  | vec (ranged : Bool) (width : Nat) (value : BitVec width)
  | mem (addrWidth dataWidth size : Nat) (words : BitVec addrWidth → BitVec dataWidth)

inductive BinOp where
  | and | or | xor | add | sub | mul | div | mod
  deriving DecidableEq, Repr

/-- The shifts `<<`, `>>` and `>>>`. -/
inductive ShiftOp where
  | shl | shr | ashr
  deriving DecidableEq, Repr

inductive CmpOp where
  | eq | lt | gt | le | ge
  deriving DecidableEq, Repr

/-- The connectives `&&` and `||`. -/
inductive LogicOp where
  | and | or
  deriving DecidableEq, Repr

/-- Nets are given by their position in a list of operands. In `index` one net is the index of another: of a
word of an array, or of a bit of a vector. -/
inductive Expr where
  | net (i : Nat)
  | lit (width val : Nat)
  | bit (i : Nat) (k : Int)
  | part (i : Nat) (msb lsb : Int)
  | index (i addr : Nat)
  | not (e : Expr)
  | bin (o : BinOp) (a b : Expr)
  | shift (o : ShiftOp) (a b : Expr)
  | cmp (o : CmpOp) (a b : Expr)
  | lnot (e : Expr)
  | logic (o : LogicOp) (a b : Expr)
  | cond (c a b : Expr)
  | concat (a b : Expr)
  | repl (n : Nat) (e : Expr)
  | signed (e : Expr)
  deriving DecidableEq, Repr

/-- The operands that an expression reads. -/
def Expr.nets : Expr → List Nat
  | .net i | .bit i _ | .part i _ _ => [i]
  | .lit _ _ => []
  | .index m a => [m, a]
  | .not e | .lnot e | .repl _ e | .signed e => e.nets
  | .bin _ a b | .shift _ a b | .cmp _ a b | .logic _ a b | .concat a b => a.nets ++ b.nets
  | .cond c a b => c.nets ++ a.nets ++ b.nets

/-- The operators on operands of the width and the signedness of their context. -/
def BinOp.apply (signed : Bool) {w : Nat} (x y : BitVec w) : BinOp → Option (BitVec w)
  | .and => some (x &&& y)
  | .or => some (x ||| y)
  | .xor => some (x ^^^ y)
  | .add => some (x + y)
  | .sub => some (x - y)
  | .mul => some (x * y)
  | .div => if y = 0 then none else some (if signed then x.sdiv y else x.udiv y)
  | .mod => if y = 0 then none else some (if signed then x.srem y else x.umod y)

/-- The amount of a shift is unsigned; `>>>` copies the sign bit in a signed context only. -/
def ShiftOp.apply (signed : Bool) {w n : Nat} (x : BitVec w) (y : BitVec n) : ShiftOp → BitVec w
  | .shl => x <<< y
  | .shr => x >>> y
  | .ashr => if signed then x.sshiftRight' y else x >>> y

def CmpOp.apply (signed : Bool) {w : Nat} (x y : BitVec w) : CmpOp → Bool
  | .eq => x == y
  | .lt => if signed then x.slt y else x.ult y
  | .gt => if signed then y.slt x else y.ult x
  | .le => if signed then x.sle y else x.ule y
  | .ge => if signed then y.sle x else y.ule x

def LogicOp.apply (p q : Bool) : LogicOp → Bool
  | .and => p && q
  | .or => p || q

/-- An operand in a context of a given width and signedness. -/
def extend (signed : Bool) (W : Nat) {w : Nat} (x : BitVec w) : BitVec W :=
  if signed then x.signExtend W else x.setWidth W

@[simp] theorem extend_self (signed : Bool) {w : Nat} (x : BitVec w) : extend signed w x = x := by
  cases signed with
  | false => exact BitVec.setWidth_eq x
  | true => exact BitVec.signExtend_eq x

namespace Expr

/-- An expression is signed if all the operands that determine its context are. Nets and literals with a base
are not. -/
def isSigned : Expr → Bool
  | .signed _ => true
  | .not e => e.isSigned
  | .bin _ a b => a.isSigned && b.isSigned
  | .shift _ a _ => a.isSigned
  | .cond _ a b => a.isSigned && b.isSigned
  | _ => false

variable (ns : List Net)

/-- The width an expression has by itself. -/
def size : Expr → Nat
  | .net i =>
    match ns[i]? with
    | some (.vec _ w _) => w
    | _ => 0
  | .lit w _ => w
  | .bit _ _ => 1
  | .part _ msb lsb => (msb - lsb + 1).toNat
  | .index m _ =>
    match ns[m]? with
    | some (.mem _ d _ _) => d
    | some (.vec _ _ _) => 1
    | none => 0
  | .not e => e.size
  | .bin _ a b => max a.size b.size
  | .shift _ a _ => a.size
  | .cmp _ _ _ | .lnot _ | .logic _ _ _ => 1
  | .cond _ a b => max a.size b.size
  | .concat a b => a.size + b.size
  | .repl n e => e.size * n
  | .signed e => e.size

/-- The value of an expression in a context of a given width and signedness. -/
def evalAt : Expr → (W : Nat) → Bool → Option (BitVec W)
  | .net i, W, s =>
    match ns[i]? with
    | some (.vec _ _ x) => some (extend s W x)
    | _ => none
  | .lit w v, W, s => some (extend s W (BitVec.ofNat w v))
  | .bit i k, W, s =>
    match ns[i]? with
    | some (.vec true w x) => if 0 ≤ k ∧ k < w then some (extend s W (BitVec.ofBool (x.getLsbD k.toNat))) else none
    | _ => none
  | .part i msb lsb, W, s =>
    match ns[i]? with
    | some (.vec true w x) =>
      if 0 ≤ lsb ∧ lsb ≤ msb ∧ msb < w then some (extend s W (x.extractLsb msb.toNat lsb.toNat)) else none
    | _ => none
  | .index m i, W, s =>
    match ns[m]?, ns[i]? with
    | some (.mem a _ n f), some (.vec _ _ x) => if x.toNat < n then some (extend s W (f (x.setWidth a))) else none
    | some (.vec true w y), some (.vec _ _ x) =>
      if x.toNat < w then some (extend s W (BitVec.ofBool (y.getLsbD x.toNat))) else none
    | _, _ => none
  | .not e, W, s => (e.evalAt W s).map fun x => ~~~x
  | .bin o a b, W, s => (a.evalAt W s).bind fun x => (b.evalAt W s).bind fun y => o.apply s x y
  | .shift o a b, W, s =>
    (a.evalAt W s).bind fun x => (b.evalAt (b.size ns) b.isSigned).map fun y => o.apply s x y
  | .cmp o a b, W, s =>
    let w := max (a.size ns) (b.size ns)
    let t := a.isSigned && b.isSigned
    (a.evalAt w t).bind fun x => (b.evalAt w t).map fun y => extend s W (BitVec.ofBool (o.apply t x y))
  | .lnot e, W, s =>
    (e.evalAt (e.size ns) e.isSigned).map fun x => extend s W (BitVec.ofBool (x == 0))
  | .logic o a b, W, s =>
    (a.evalAt (a.size ns) a.isSigned).bind fun x =>
      (b.evalAt (b.size ns) b.isSigned).map fun y => extend s W (BitVec.ofBool (o.apply (x != 0) (y != 0)))
  | .cond c a b, W, s =>
    (c.evalAt (c.size ns) c.isSigned).bind fun x =>
      (a.evalAt W s).bind fun y => (b.evalAt W s).map fun z => if x = 0 then z else y
  | .concat a b, W, s =>
    (a.evalAt (a.size ns) a.isSigned).bind fun x =>
      (b.evalAt (b.size ns) b.isSigned).map fun y => extend s W (x ++ y)
  | .repl n e, W, s => (e.evalAt (e.size ns) e.isSigned).map fun x => extend s W (x.replicate n)
  | .signed e, W, s => (e.evalAt (e.size ns) e.isSigned).map (extend s W)

/-- The value that `assign` gives a net of a given width: the right-hand side is evaluated in the wider of the
two widths and cut off. -/
def assign (e : Expr) (w : Nat) : Option (BitVec w) :=
  (e.evalAt ns (max w (e.size ns)) e.isSigned).map (BitVec.setWidth w)

variable {ns}

theorem evalAt_append {e : Expr} {W : Nat} {s : Bool} {v : BitVec W} (h : e.evalAt ns W s = some v) (more : List Net) :
    e.size (ns ++ more) = e.size ns ∧ e.evalAt (ns ++ more) W s = some v := by
  have hnet : ∀ {i : Nat} {n : Net}, ns[i]? = some n → (ns ++ more)[i]? = some n := by
    intro i n hi
    rw [List.getElem?_append_left (List.getElem?_eq_some_iff.mp hi).1, hi]
  induction e generalizing W s v with
  | net i =>
    cases hi : ns[i]? with
    | none => simp [evalAt, hi] at h
    | some n => simpa [evalAt, size, hi, hnet hi] using h
  | lit w x => exact ⟨rfl, h⟩
  | bit i k =>
    cases hi : ns[i]? with
    | none => simp [evalAt, hi] at h
    | some n => simpa [evalAt, size, hi, hnet hi] using h
  | part i msb lsb =>
    cases hi : ns[i]? with
    | none => simp [evalAt, hi] at h
    | some n => simpa [evalAt, size, hi, hnet hi] using h
  | index m i =>
    cases hm : ns[m]? with
    | none => simp [evalAt, hm] at h
    | some n =>
      cases hi : ns[i]? with
      | none => simp [evalAt, hm, hi] at h
      | some n' => simpa [evalAt, size, hm, hi, hnet hm, hnet hi] using h
  | not e ih =>
    obtain ⟨x, hx, rfl⟩ := Option.map_eq_some_iff.mp h
    exact ⟨(ih hx).1, Option.map_eq_some_iff.mpr ⟨x, (ih hx).2, rfl⟩⟩
  | bin o a b iha ihb =>
    obtain ⟨x, hx, h⟩ := Option.bind_eq_some_iff.mp h
    obtain ⟨y, hy, h⟩ := Option.bind_eq_some_iff.mp h
    exact ⟨by rw [size, size, (iha hx).1, (ihb hy).1], by rw [evalAt, (iha hx).2, (ihb hy).2]; exact h⟩
  | shift o a b iha ihb =>
    obtain ⟨x, hx, h⟩ := Option.bind_eq_some_iff.mp h
    obtain ⟨y, hy, rfl⟩ := Option.map_eq_some_iff.mp h
    exact ⟨(iha hx).1, by rw [evalAt, (iha hx).2, (ihb hy).1, (ihb hy).2]; rfl⟩
  | cmp o a b iha ihb =>
    obtain ⟨x, hx, h⟩ := Option.bind_eq_some_iff.mp h
    obtain ⟨y, hy, rfl⟩ := Option.map_eq_some_iff.mp h
    refine ⟨rfl, ?_⟩
    simp only [evalAt]
    rw [(iha hx).1, (ihb hy).1, (iha hx).2, (ihb hy).2]
    rfl
  | lnot e ih =>
    obtain ⟨x, hx, rfl⟩ := Option.map_eq_some_iff.mp h
    exact ⟨rfl, by rw [evalAt, (ih hx).1, (ih hx).2]; rfl⟩
  | logic o a b iha ihb =>
    obtain ⟨x, hx, h⟩ := Option.bind_eq_some_iff.mp h
    obtain ⟨y, hy, rfl⟩ := Option.map_eq_some_iff.mp h
    exact ⟨rfl, by rw [evalAt, (iha hx).1, (iha hx).2, (ihb hy).1, (ihb hy).2]; rfl⟩
  | cond c a b ihc iha ihb =>
    obtain ⟨x, hx, h⟩ := Option.bind_eq_some_iff.mp h
    obtain ⟨y, hy, h⟩ := Option.bind_eq_some_iff.mp h
    obtain ⟨z, hz, rfl⟩ := Option.map_eq_some_iff.mp h
    refine ⟨by rw [size, size, (iha hy).1, (ihb hz).1], ?_⟩
    rw [evalAt, (ihc hx).1, (ihc hx).2, (iha hy).2, (ihb hz).2]
    rfl
  | concat a b iha ihb =>
    obtain ⟨x, hx, h⟩ := Option.bind_eq_some_iff.mp h
    obtain ⟨y, hy, rfl⟩ := Option.map_eq_some_iff.mp h
    refine ⟨by rw [size, size, (iha hx).1, (ihb hy).1], ?_⟩
    rw [evalAt, (iha hx).1, (iha hx).2, (ihb hy).1, (ihb hy).2]
    rfl
  | repl n e ih =>
    obtain ⟨x, hx, rfl⟩ := Option.map_eq_some_iff.mp h
    exact ⟨by rw [size, size, (ih hx).1], by rw [evalAt, (ih hx).1, (ih hx).2]; rfl⟩
  | signed e ih =>
    obtain ⟨x, hx, rfl⟩ := Option.map_eq_some_iff.mp h
    exact ⟨by rw [size, size, (ih hx).1], by rw [evalAt, (ih hx).1, (ih hx).2]; rfl⟩

theorem assign_of_size_le {e : Expr} {w : Nat} (h : e.size ns ≤ w) :
    e.assign ns w = e.evalAt ns w e.isSigned := by
  have hmax : max w (e.size ns) = w := Nat.max_eq_left h
  have hgen : ∀ W, W = w → (e.evalAt ns W e.isSigned).map (BitVec.setWidth w) = e.evalAt ns w e.isSigned := by
    intro W hW
    subst hW
    rw [show BitVec.setWidth W = id from funext BitVec.setWidth_eq, Option.map_id, id]
  exact hgen _ hmax

theorem evalAt_cmp {o : CmpOp} {a b : Expr} {w : Nat} (ha : a.size ns = w) (hb : b.size ns = w) (s : Bool) :
    (Expr.cmp o a b).evalAt ns 1 s =
      (a.evalAt ns w (a.isSigned && b.isSigned)).bind fun x =>
        (b.evalAt ns w (a.isSigned && b.isSigned)).map fun y =>
          BitVec.ofBool (o.apply (a.isSigned && b.isSigned) x y) := by
  have hmax : max (a.size ns) (b.size ns) = w := by rw [ha, hb, Nat.max_self]
  have hgen : ∀ W, W = w → ((a.evalAt ns W (a.isSigned && b.isSigned)).bind fun x =>
      (b.evalAt ns W (a.isSigned && b.isSigned)).map fun y =>
        BitVec.ofBool (o.apply (a.isSigned && b.isSigned) x y)) =
      (a.evalAt ns w (a.isSigned && b.isSigned)).bind fun x =>
        (b.evalAt ns w (a.isSigned && b.isSigned)).map fun y =>
          BitVec.ofBool (o.apply (a.isSigned && b.isSigned) x y) := by
    intro W hW
    subst hW
    rfl
  rw [← hgen _ hmax]
  change ((a.evalAt ns (max (a.size ns) (b.size ns)) _).bind fun x =>
    (b.evalAt ns (max (a.size ns) (b.size ns)) _).map fun y => extend s 1 (BitVec.ofBool _)) = _
  simp only [extend_self]

/-! ### Expressions over nets of one width -/

section Nets

variable {w : Nat} {r t : Bool} {x y : BitVec w} {rest : List Net}

theorem assign_net : (Expr.net 0).assign (.vec r w x :: rest) w = some x := by
  rw [assign_of_size_le (show (Expr.net 0).size (.vec r w x :: rest) ≤ w from Nat.le_refl w)]
  exact congrArg some (extend_self false x)

theorem assign_not : (Expr.not (.net 0)).assign (.vec r w x :: rest) w = some (~~~x) := by
  rw [assign_of_size_le (show (Expr.not (.net 0)).size (.vec r w x :: rest) ≤ w from Nat.le_refl w)]
  exact congrArg (fun z => some (~~~z)) (extend_self false x)

theorem assign_bin (o : BinOp) :
    (Expr.bin o (.net 0) (.net 1)).assign (.vec r w x :: .vec t w y :: rest) w = o.apply false x y := by
  have hsize : (Expr.bin o (.net 0) (.net 1)).size (.vec r w x :: .vec t w y :: rest) = max w w := rfl
  rw [assign_of_size_le (by rw [hsize, Nat.max_self])]
  change o.apply false (extend false w x) (extend false w y) = _
  rw [extend_self, extend_self]

theorem assign_shift (o : ShiftOp) :
    (Expr.shift o (.net 0) (.net 1)).assign (.vec r w x :: .vec t w y :: rest) w = some (o.apply false x y) := by
  have hsize : (Expr.shift o (.net 0) (.net 1)).size (.vec r w x :: .vec t w y :: rest) = w := rfl
  rw [assign_of_size_le hsize.le]
  change some (o.apply false (extend false w x) (extend false w y)) = _
  rw [extend_self, extend_self]

theorem assign_shift_signed (o : ShiftOp) :
    (Expr.shift o (.signed (.net 0)) (.net 1)).assign (.vec r w x :: .vec t w y :: rest) w =
      some (o.apply true x y) := by
  have hsize : (Expr.shift o (.signed (.net 0)) (.net 1)).size (.vec r w x :: .vec t w y :: rest) = w := rfl
  rw [assign_of_size_le hsize.le]
  change some (o.apply true (extend true w (extend false w x)) (extend false w y)) = _
  rw [extend_self, extend_self, extend_self]

theorem assign_cmp (o : CmpOp) :
    (Expr.cmp o (.net 0) (.net 1)).assign (.vec r w x :: .vec t w y :: rest) 1 =
      some (BitVec.ofBool (o.apply false x y)) := by
  rw [assign_of_size_le (show (Expr.cmp o (.net 0) (.net 1)).size _ ≤ 1 from Nat.le_refl 1),
    evalAt_cmp (show (Expr.net 0).size (.vec r w x :: .vec t w y :: rest) = w from rfl) rfl]
  change some (BitVec.ofBool (o.apply false (extend false w x) (extend false w y))) = _
  rw [extend_self, extend_self]

theorem assign_cmp_signed (o : CmpOp) :
    (Expr.cmp o (.signed (.net 0)) (.signed (.net 1))).assign (.vec r w x :: .vec t w y :: rest) 1 =
      some (BitVec.ofBool (o.apply true x y)) := by
  rw [assign_of_size_le (show (Expr.cmp o (.signed (.net 0)) (.signed (.net 1))).size _ ≤ 1 from Nat.le_refl 1),
    evalAt_cmp (show (Expr.signed (.net 0)).size (.vec r w x :: .vec t w y :: rest) = w from rfl) rfl]
  change some (BitVec.ofBool (o.apply true (extend true w (extend false w x)) (extend true w (extend false w y)))) = _
  rw [extend_self, extend_self, extend_self, extend_self]

theorem assign_cond {q : Bool} {c : BitVec 1} :
    (Expr.cond (.net 0) (.net 1) (.net 2)).assign (.vec q 1 c :: .vec r w x :: .vec t w y :: rest) w =
      some (if c = 0 then y else x) := by
  have hsize : (Expr.cond (.net 0) (.net 1) (.net 2)).size (.vec q 1 c :: .vec r w x :: .vec t w y :: rest) =
      max w w := rfl
  rw [assign_of_size_le (by rw [hsize, Nat.max_self])]
  change some (if extend false 1 c = 0 then extend false w y else extend false w x) = _
  rw [extend_self, extend_self, extend_self]

theorem assign_concat {v : Nat} {z : BitVec v} :
    (Expr.concat (.net 0) (.net 1)).assign (.vec r w x :: .vec t v z :: rest) (w + v) = some (x ++ z) := by
  have hsize : (Expr.concat (.net 0) (.net 1)).size (.vec r w x :: .vec t v z :: rest) = w + v := rfl
  rw [assign_of_size_le hsize.le]
  change some (extend false (w + v) (extend false w x ++ extend false v z)) = some (x ++ z)
  rw [extend_self, extend_self, extend_self]

end Nets

/-! ### Selects -/

section Selects

variable {w : Nat} {r : Bool} {x : BitVec w} {rest : List Net}

theorem size_part {hi lo : Nat} (h : lo ≤ hi) : (Expr.part 0 hi lo).size ns = hi - lo + 1 := by
  change ((hi : Int) - lo + 1).toNat = hi - lo + 1
  omega

theorem evalAt_part {msb lsb : Int} (W : Nat) (s : Bool) :
    (Expr.part 0 msb lsb).evalAt (.vec r w x :: rest) W s =
      if r = true ∧ 0 ≤ lsb ∧ lsb ≤ msb ∧ msb < w then some (extend s W (x.extractLsb msb.toNat lsb.toNat))
      else none := by
  cases r with
  | true =>
    simp only [true_and]
    rfl
  | false => exact (if_neg fun h => Bool.false_ne_true h.1).symm

theorem evalAt_bit {k : Int} (W : Nat) (s : Bool) :
    (Expr.bit 0 k).evalAt (.vec r w x :: rest) W s =
      if r = true ∧ 0 ≤ k ∧ k < w then some (extend s W (BitVec.ofBool (x.getLsbD k.toNat))) else none := by
  cases r with
  | true =>
    simp only [true_and]
    rfl
  | false => exact (if_neg fun h => Bool.false_ne_true h.1).symm

theorem assign_index_mem {a d n : Nat} {f : BitVec a → BitVec d} {t : Bool} {i : BitVec a} :
    (Expr.index 0 1).assign (.mem a d n f :: .vec t a i :: rest) d = if i.toNat < n then some (f i) else none := by
  have hsize : (Expr.index 0 1).size (.mem a d n f :: .vec t a i :: rest) = d := rfl
  rw [assign_of_size_le hsize.le]
  change (if i.toNat < n then some (extend false d (f (i.setWidth a))) else none) = _
  rw [extend_self, BitVec.setWidth_eq]

theorem assign_index_vec {a : Nat} {t : Bool} {i : BitVec a} (hw : 0 < w) :
    (Expr.index 0 1).assign (.vec r w x :: .vec t a i :: rest) w =
      if r = true ∧ i.toNat < w then some ((BitVec.ofBool (x.getLsbD i.toNat)).setWidth w) else none := by
  have hsize : (Expr.index 0 1).size (.vec r w x :: .vec t a i :: rest) = 1 := rfl
  rw [assign_of_size_le (by rw [hsize]; exact hw)]
  cases r with
  | true =>
    simp only [true_and]
    rfl
  | false => exact (if_neg fun h => Bool.false_ne_true h.1).symm

theorem assign_part {hi lo : Nat} (h : lo ≤ hi) (hw : hi < w) :
    (Expr.part 0 hi lo).assign (.vec r w x :: rest) (hi - lo + 1) =
      if r then some (x.extractLsb hi lo) else none := by
  rw [assign_of_size_le (size_part h).le, evalAt_part]
  have hb : (0 : Int) ≤ lo ∧ (lo : Int) ≤ hi ∧ (hi : Int) < w := by omega
  cases r with
  | true => exact (if_pos ⟨rfl, hb⟩).trans (congrArg some (extend_self _ _))
  | false => simp

theorem assign_concat_part {hi lo hi' lo' v : Nat} (h : lo ≤ hi) (hw : hi < w) (h' : lo' ≤ hi') (hw' : hi' < w)
    (hv : hi - lo + 1 + (hi' - lo' + 1) = v) :
    (Expr.concat (.part 0 hi lo) (.part 0 hi' lo')).assign (.vec true w x :: rest) v =
      some ((x.extractLsb hi lo ++ x.extractLsb hi' lo').setWidth v) := by
  have hsize : (Expr.concat (.part 0 hi lo) (.part 0 hi' lo')).size (.vec true w x :: rest) = v := by
    rw [size, size_part h, size_part h', hv]
  have hb : (0 : Int) ≤ lo ∧ (lo : Int) ≤ hi ∧ (hi : Int) < w := by omega
  have hb' : (0 : Int) ≤ lo' ∧ (lo' : Int) ≤ hi' ∧ (hi' : Int) < w := by omega
  rw [assign_of_size_le hsize.le, evalAt, evalAt_part, evalAt_part, if_pos ⟨rfl, hb⟩, if_pos ⟨rfl, hb'⟩]
  have hgen : ∀ m n, m = hi - lo + 1 → n = hi' - lo' + 1 →
      (extend false m (x.extractLsb hi lo) ++ extend false n (x.extractLsb hi' lo')).setWidth v =
        (x.extractLsb hi lo ++ x.extractLsb hi' lo').setWidth v := by
    intro m n hm hn
    subst hm hn
    rw [extend_self, extend_self]
  exact congrArg some (hgen _ _ (size_part h) (size_part h'))

theorem assign_concat_eq_none {a b : Expr} {v : Nat} (h : a.evalAt ns (a.size ns) a.isSigned = none ∨
    b.evalAt ns (b.size ns) b.isSigned = none) : (Expr.concat a b).assign ns v = none := by
  change (((a.evalAt ns (a.size ns) a.isSigned).bind fun x =>
    (b.evalAt ns (b.size ns) b.isSigned).map fun y => extend _ _ (x ++ y)).map (BitVec.setWidth v)) = none
  cases h with
  | inl h => rw [h]; rfl
  | inr h =>
    rw [h]
    cases a.evalAt ns (a.size ns) a.isSigned <;> rfl

end Selects

end Expr

end Verilog
