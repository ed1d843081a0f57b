import Ilang.Target.IlaSim
import Ilang.Target.IlatorExact

/-!
# The older simulator against the solver

The members that `IlaSim` assigns for an expression, against the values that Z3 gives the expression and its
sub-expressions. They all agree exactly when every application in the expression is one whose text computes its
operator, on the values of its arguments and on which of them are literals. The arithmetic is that of `Ilator`.
-/

namespace Ilang

open Smt

namespace IlaSim

/-- The member that holds a value. -/
def member : Value → ScVal
  | .bool b => .bool b
  | .bv w x => .big w x
  | .mem a d c => .array (.inr 0) a d c

/-- An operand has a value: the member has it, or the literal is the number. -/
def Agrees (u : ScVal) : Value → Prop
  | .bool b => u = .bool b
  | .bv w x => u = .big w x ∨ u = .lit x.toNat
  | .mem _ _ _ => False

/-- Where the text of an operator computes the operator, given which operands are literals. Implication is written as
the negation of the converse, signed comparisons and the arithmetic shift as unsigned ones, and a quotient is unsigned.
A literal has no bits to select, and two literals may have no result. -/
def OpSafe (o : ExprOp) (lits : List Bool) (vs : List Value) : Prop :=
  match o, lits, vs with
  | .imply, _, [.bool a, .bool b] => a ≠ b
  | .lt, _, [.bv w x, .bv _ y] => x.msb = (y.setWidth w).msb
  | .gt, _, [.bv w x, .bv _ y] => x.msb = (y.setWidth w).msb
  | .div, _, [.bv w x, .bv _ y] => Bits.DivAgree x (y.setWidth w)
  | .urem, _, [_, .bv w y] => y ≠ 0#w
  | .ashr, [l, l'], [.bv _ x, .bv w y] => Defined .ashr l l' x.toNat y.toNat ∧ (x.msb = false ∨ y = 0#w)
  | .extract _ _, [l], _ => l = false
  | .sext _, [l], _ => l = false
  | o, [l, l'], [.bv _ x, .bv _ y] => Defined o l l' x.toNat y.toNat
  | _, _, _ => True

section Operands

variable {w w' : Nat} {x : BitVec w} {y : BitVec w'} {u u' : ScVal} {o : ExprOp} {P : Prop}

theorem Agrees.int? (h : Agrees u (.bv w x)) : u.int? = some x.toNat := by
  rcases h with rfl | rfl
  · rfl
  · rfl

theorem Agrees.res (h : Agrees u (.bv w x)) : u.res = some (.int x.toNat) := by
  rcases h with rfl | rfl
  · rfl
  · rfl

theorem assign_toNat : assign (.bv w) (.int x.toNat) = some (.big w x) := by
  rw [assign, BitVec.ofInt_natCast, BitVec.ofNat_toNat, BitVec.setWidth_eq]

theorem assign_bv_iff {n : Nat} {z : BitVec n} {r : Option Int} :
    ((r.map Res.int).bind (assign (.bv n)) = some (.big n z)) ↔ ∃ i, r = some i ∧ BitVec.ofInt n i = z := by
  cases r with
  | none => simp
  | some i => simp [assign]

theorem ilator_bool {r : Option Bool} {b : Bool} (h : Ilator.RightIff (r.map .bool) (.bool b) P) :
    r.map ScVal.bool = some (.bool b) ↔ P := by
  refine Iff.trans ?_ h
  rw [Option.map_eq_some_iff]
  constructor
  · rintro ⟨a, rfl, ha⟩
    exact ⟨_, rfl, ScVal.bool.inj ha⟩
  · rintro ⟨v, hv, hag⟩
    obtain ⟨a, rfl, rfl⟩ := Option.map_eq_some_iff.mp hv
    exact ⟨a, rfl, congrArg ScVal.bool hag⟩

theorem ilator_integer {n : Nat} {z : BitVec n} {r : Option Int}
    (h : Ilator.RightIff (r.map fun i => .big n (BitVec.ofInt n i)) (.bv n z) P) :
    (∃ i, r = some i ∧ BitVec.ofInt n i = z) ↔ P := by
  refine Iff.trans ⟨?_, ?_⟩ h
  · rintro ⟨i, rfl, hi⟩
    exact ⟨_, rfl, congrArg BitVec.toNat hi⟩
  · rintro ⟨v, hv, hag⟩
    obtain ⟨i, rfl, rfl⟩ := Option.map_eq_some_iff.mp hv
    exact ⟨i, rfl, BitVec.eq_of_toNat_eq hag⟩

theorem integer_eq (hu : Agrees u (.bv w x)) (hu' : Agrees u' (.bv w' y)) :
    integer o u u' = if Defined o u.isLit u'.isLit x.toNat y.toNat then Ilator.integer o x.toNat y.toNat else none := by
  rw [integer, hu.int?, hu'.int?]
  rfl

theorem binaryNonMem_eq (hu : Agrees u (.bv w x)) : binaryNonMem o u u' = (integer o u u').map .int := by
  rcases hu with rfl | rfl
  · rfl
  · rfl

theorem binaryBoolOut_eq (hu : Agrees u (.bv w x)) (hu' : Agrees u' (.bv w' y)) :
    binaryBoolOut o u u' = Ilator.compare o x.toNat y.toNat := by
  rcases hu with rfl | rfl
  · rcases hu' with rfl | rfl
    · rfl
    · rfl
  · rcases hu' with rfl | rfl
    · rfl
    · rfl

theorem binaryNonMem_iff {n : Nat} {z : BitVec n} (hu : Agrees u (.bv w x)) (hu' : Agrees u' (.bv w' y))
    (h : Ilator.RightIff (Ilator.assignBinary o (.bv n) (.big w x) (.big w' y)) (.bv n z) P) :
    (binaryNonMem o u u').bind (assign (.bv n)) = some (.big n z) ↔
      Defined o u.isLit u'.isLit x.toNat y.toNat ∧ P := by
  rw [binaryNonMem_eq hu, assign_bv_iff, integer_eq hu hu']
  by_cases hdef : Defined o u.isLit u'.isLit x.toNat y.toNat
  · rw [if_pos hdef, and_iff_right hdef]
    exact ilator_integer h
  · rw [if_neg hdef]
    simp [hdef]

theorem binaryBoolOut_iff {b : Bool} (hu : Agrees u (.bv w x)) (hu' : Agrees u' (.bv w' y))
    (h : Ilator.RightIff (Ilator.assignBinary o .bool (.big w x) (.big w' y)) (.bool b) P) :
    (binaryBoolOut o u u').map ScVal.bool = some (.bool b) ↔ P := by
  rw [binaryBoolOut_eq hu hu']
  exact ilator_bool h

theorem unary_neg (hu : Agrees u (.bv w x)) : (unary .neg u).bind (assign (.bv w)) = some (.big w (-x)) := by
  have hunary : unary .neg u = some (.int (-(x.toNat : Int))) := by
    rcases hu with rfl | rfl
    · rfl
    · rfl
  rw [hunary, Option.bind_some, assign, BitVec.ofInt_neg, BitVec.ofInt_natCast, BitVec.ofNat_toNat, BitVec.setWidth_eq]

theorem unary_compl (hu : Agrees u (.bv w x)) : (unary .compl u).bind (assign (.bv w)) = some (.big w (~~~x)) := by
  rcases hu with rfl | rfl
  · exact assign_toNat
  · rw [unary, Option.bind_some, assign, Int.sub_eq_add_neg, BitVec.ofInt_add, BitVec.ofInt_neg, BitVec.ofInt_natCast,
      BitVec.ofNat_toNat, BitVec.setWidth_eq, BitVec.ofInt_neg, ← BitVec.sub_eq_add_neg, BitVec.not_eq_neg_add]
    rfl

theorem concat_eq (hu : Agrees u (.bv w x)) (hu' : Agrees u' (.bv w' y)) :
    (concat w w' u u').bind (assign (.bv (w + w'))) = some (.big (w + w') (x ++ y)) := by
  rw [concat, hu.int?, hu'.int?, Option.bind_some, Option.map_some, BitVec.ofNat_toNat, BitVec.ofNat_toNat,
    BitVec.setWidth_eq, BitVec.setWidth_eq]
  exact assign_toNat

theorem range_iff {hi lo : Nat} (hu : Agrees u (.bv w x)) (hle : lo ≤ hi) (hlt : hi < w) :
    (range hi lo u).bind (assign (.bv (hi - lo + 1))) = some (.big (hi - lo + 1) (x.extractLsb hi lo)) ↔
      u.isLit = false := by
  rcases hu with rfl | rfl
  · refine iff_of_true ?_ rfl
    rw [range, if_pos ⟨hle, hlt⟩]
    exact assign_toNat
  · exact iff_of_false (by simp [range]) (by simp [ScVal.isLit])

theorem zext_eq {outw : Nat} (hu : Agrees u (.bv w x)) :
    u.res.bind (assign (.bv outw)) = some (.big outw (x.setWidth outw)) := by
  rw [hu.res, Option.bind_some, assign, BitVec.ofInt_natCast, BitVec.ofNat_toNat]

theorem signExtend_iff {outw : Nat} (hu : Agrees u (.bv w x)) (hpos : 0 < w) :
    signExtend (w - 1) (.bv outw) u = some (.big outw (x.signExtend outw)) ↔ u.isLit = false := by
  rcases hu with rfl | rfl
  · refine iff_of_true ?_ rfl
    have hmsb : x.getLsbD (w - 1) = x.msb := (BitVec.msb_eq_getLsbD_last x).symm
    rw [signExtend, if_pos (by omega), hmsb]
    cases hx : x.msb with
    | false =>
      rw [BitVec.signExtend_eq_setWidth_of_msb_false hx]
      simp
    | true =>
      rw [BitVec.signExtend_eq_not_setWidth_not_of_msb_true hx]
      change some (ScVal.big outw (~~~BitVec.ofNat outw (~~~x).toNat)) = _
      rw [BitVec.ofNat_toNat]
  · exact iff_of_false (by simp [signExtend]) (by simp [ScVal.isLit])

end Operands

section Statements

variable {ν : Valuation} {o : ExprOp} {args : List Node} {us : List ScVal} {vs : List Value} {v : Value} {r : Rhs}
variable {P Q : Prop}

/-- The local of `Ilator` that holds a value. -/
def sc : Value → Ilator.ScVal
  | .bool b => .bool b
  | .bv w x => .big w x
  | .mem a d _ => .map (.const 0) a d fun _ => none

theorem forall₂_sc (hmem : ∀ t ∈ vs, t.sort.isMem = false) : List.Forall₂ Ilator.Agrees (vs.map sc) vs := by
  rw [List.forall₂_map_left_iff, List.forall₂_same]
  intro t ht
  cases t with
  | bool b => exact rfl
  | bv w x => exact rfl
  | mem a d c => exact absurd (hmem _ ht) (by simp [Value.sort, Srt.isMem])

theorem forall₂_one {t : Value} (h : List.Forall₂ Agrees us [t]) : ∃ u, us = [u] ∧ Agrees u t := by
  obtain ⟨u, tail, hu, htail, rfl⟩ := List.forall₂_cons_right_iff.mp h
  rw [List.forall₂_nil_right_iff.mp htail]
  exact ⟨u, rfl, hu⟩

theorem forall₂_two {t t' : Value} (h : List.Forall₂ Agrees us [t, t']) :
    ∃ u u', us = [u, u'] ∧ Agrees u t ∧ Agrees u' t' := by
  obtain ⟨u, tail, hu, htail, rfl⟩ := List.forall₂_cons_right_iff.mp h
  obtain ⟨u', rfl, hu'⟩ := forall₂_one htail
  exact ⟨u, u', rfl, hu, hu'⟩

theorem stmt_bvBin {f : (w : Nat) → BitVec w → BitVec w → BitVec w} (hv : Op.bvBin f vs = some v)
    (hus : List.Forall₂ Agrees us vs)
    (hil : Ilator.RightIff (Ilator.stmt ν (.regular o v.sort) (vs.map sc)) v P)
    (h : ∀ w l l' (x y : BitVec w), us.map ScVal.isLit = [l, l'] → vs = [.bv w x, .bv w y] →
      ((Defined o l l' x.toNat y.toNat ∧ P) ↔ Q)) :
    stmt ν (.binaryNonMem o v.sort) us = some (member v) ↔ Q := by
  obtain ⟨w, x, y, rfl, rfl⟩ := Op.bvBin_eq_some hv
  obtain ⟨u, u', rfl, hu, hu'⟩ := forall₂_two hus
  exact (binaryNonMem_iff hu hu' hil).trans (h w u.isLit u'.isLit x y rfl rfl)

theorem stmt_bvCmp {f : (w : Nat) → BitVec w → BitVec w → Bool} (hv : Op.bvCmp f vs = some v)
    (hus : List.Forall₂ Agrees us vs)
    (hil : Ilator.RightIff (Ilator.stmt ν (.regular o v.sort) (vs.map sc)) v P)
    (h : ∀ w l l' (x y : BitVec w), us.map ScVal.isLit = [l, l'] → vs = [.bv w x, .bv w y] → (P ↔ Q)) :
    stmt ν (.binaryBoolOut o) us = some (member v) ↔ Q := by
  obtain ⟨w, x, y, rfl, rfl⟩ := Op.bvCmp_eq_some hv
  obtain ⟨u, u', rfl, hu, hu'⟩ := forall₂_two hus
  exact (binaryBoolOut_iff hu hu' hil).trans (h w u.isLit u'.isLit x y rfl rfl)

theorem bvCmp_bool {f : (w : Nat) → BitVec w → BitVec w → Bool} (hv : Op.bvCmp f vs = some v) : v.sort = .bool := by
  obtain ⟨w, x, y, -, rfl⟩ := Op.bvCmp_eq_some hv
  rfl

theorem stmt_logic {p : Prop} [Decidable p] {bo bvo : Op} {f : Bool → Bool → Bool}
    {g : (w : Nat) → BitVec w → BitVec w → BitVec w} (hbo : bo.apply = Op.boolBin f) (hbvo : bvo.apply = Op.bvBin g)
    (hf : ∀ a b, Ilator.logical o a b = some (f a b)) (hdef : ∀ l l' x y, Defined o l l' x y)
    (hv : (if p then bo else bvo).apply vs = some v) (hus : List.Forall₂ Agrees us vs)
    (hil : Ilator.RightIff (Ilator.stmt ν (.regular o v.sort) (vs.map sc)) v True) :
    stmt ν (.binaryNonMem o v.sort) us = some (member v) := by
  split at hv
  · rw [hbo] at hv
    obtain ⟨a, b, rfl, rfl⟩ := Op.boolBin_eq_some hv
    obtain ⟨u, u', rfl, rfl, rfl⟩ := forall₂_two hus
    rw [stmt, binaryNonMem, hf]
    rfl
  · rw [hbvo] at hv
    refine (stmt_bvBin hv hus hil fun w l l' x y _ _ => ?_).mpr trivial
    exact iff_of_true ⟨hdef _ _ _ _, trivial⟩ trivial

theorem opSafe_logic {lits : List Bool} (ho : o = .and ∨ o = .or ∨ o = .xor) : OpSafe o lits vs := by
  rcases ho with rfl | rfl | rfl
  · unfold OpSafe
    split <;> trivial
  · unfold OpSafe
    split <;> trivial
  · unfold OpSafe
    split <;> trivial

theorem assign_res {u : ScVal} (hu : Agrees u v) : u.res.bind (assign v.sort) = some (member v) := by
  cases v with
  | bool b =>
    obtain rfl := hu
    rfl
  | bv w x =>
    rw [Agrees.res hu]
    exact assign_toNat
  | mem a d c => exact hu.elim

theorem stmt_iff_opSafe (hpl : dfsOp o v.sort (args.map fun n => n.expr.sort) = some (.inr r)) (hv : o.apply vs = some v)
    (hargs : args.map (fun n => n.expr.sort) = vs.map Value.sort) (hpos : ∀ t ∈ vs, t.sort.Pos)
    (hmem : ∀ t ∈ vs, t.sort.isMem = false) (hvmem : v.sort.isMem = false) (hus : List.Forall₂ Agrees us vs) :
    stmt ν r us = some (member v) ↔ OpSafe o (us.map ScVal.isLit) vs := by
  have happly := hv
  obtain ⟨-, hv⟩ := ExprOp.apply_eq_smt hv
  have hil : o ≠ .load → ∀ {q : Ilator.Rhs}, (¬v.sort.isMem = true → Ilator.dfsOp o v.sort args = some q) →
      Ilator.RightIff (Ilator.stmt ν q (vs.map sc)) v (Ilator.OpSafe o ((vs.map sc).map Ilator.ScVal.len) vs) :=
    fun hload _ h => Ilator.stmt_iff_opSafe (h (by simp [hvmem])) happly hargs hpos (forall₂_sc hmem) hload
  cases o with
  | neg =>
    obtain ⟨w, x, rfl, rfl⟩ := Op.bvUn_eq_some hv
    obtain ⟨u, rfl, hu⟩ := forall₂_one hus
    obtain rfl : .unary .neg (.bv w) = r := Sum.inr.inj (Option.some.inj hpl)
    exact iff_of_true (unary_neg hu) trivial
  | compl =>
    obtain ⟨w, x, rfl, rfl⟩ := Op.bvUn_eq_some hv
    obtain ⟨u, rfl, hu⟩ := forall₂_one hus
    obtain rfl : .unary .compl (.bv w) = r := Sum.inr.inj (Option.some.inj hpl)
    exact iff_of_true (unary_compl hu) trivial
  | not =>
    obtain ⟨a, rfl, rfl⟩ := Op.not_eq_some hv
    obtain ⟨u, rfl, rfl⟩ := forall₂_one hus
    obtain rfl : .unary .not .bool = r := Sum.inr.inj (Option.some.inj hpl)
    exact iff_of_true rfl trivial
  | and =>
    obtain rfl : .binaryNonMem .and v.sort = r := by simpa [dfsOp, dfsBinaryOpNonMem, checked, hvmem] using hpl
    exact iff_of_true (stmt_logic rfl rfl (fun _ _ => rfl) (fun _ _ _ _ => trivial) hv hus
      (hil ExprOp.noConfusion fun h => if_neg h)) (opSafe_logic (.inl rfl))
  | or =>
    obtain rfl : .binaryNonMem .or v.sort = r := by simpa [dfsOp, dfsBinaryOpNonMem, checked, hvmem] using hpl
    exact iff_of_true (stmt_logic rfl rfl (fun _ _ => rfl) (fun _ _ _ _ => trivial) hv hus
      (hil ExprOp.noConfusion fun h => if_neg h)) (opSafe_logic (.inr (.inl rfl)))
  | xor =>
    obtain rfl : .binaryNonMem .xor v.sort = r := by simpa [dfsOp, dfsBinaryOpNonMem, checked, hvmem] using hpl
    exact iff_of_true (stmt_logic rfl rfl (fun _ _ => rfl) (fun _ _ _ _ => trivial) hv hus
      (hil ExprOp.noConfusion fun h => if_neg h)) (opSafe_logic (.inr (.inr rfl)))
  | shl =>
    obtain rfl : .binaryNonMem .shl v.sort = r := by simpa [dfsOp, dfsBinaryOpNonMem, checked, hvmem] using hpl
    refine stmt_bvBin hv hus (hil ExprOp.noConfusion fun h => if_neg h) fun w l l' x y hl hvs => ?_
    rw [hl, hvs]
    exact and_iff_left trivial
  | lshr =>
    obtain rfl : .binaryNonMem .lshr v.sort = r := by simpa [dfsOp, dfsBinaryOpNonMem, checked, hvmem] using hpl
    refine stmt_bvBin hv hus (hil ExprOp.noConfusion fun h => if_neg h) fun w l l' x y hl hvs => ?_
    rw [hl, hvs]
    exact and_iff_left trivial
  | add =>
    obtain rfl : .binaryNonMem .add v.sort = r := by simpa [dfsOp, dfsBinaryOpNonMem, checked, hvmem] using hpl
    refine stmt_bvBin hv hus (hil ExprOp.noConfusion fun h => if_neg h) fun w l l' x y hl hvs => ?_
    rw [hl, hvs]
    exact and_iff_left trivial
  | sub =>
    obtain rfl : .binaryNonMem .sub v.sort = r := by simpa [dfsOp, dfsBinaryOpNonMem, checked, hvmem] using hpl
    refine stmt_bvBin hv hus (hil ExprOp.noConfusion fun h => if_neg h) fun w l l' x y hl hvs => ?_
    rw [hl, hvs]
    exact and_iff_left trivial
  | mul =>
    obtain rfl : .binaryNonMem .mul v.sort = r := by simpa [dfsOp, dfsBinaryOpNonMem, checked, hvmem] using hpl
    refine stmt_bvBin hv hus (hil ExprOp.noConfusion fun h => if_neg h) fun w l l' x y hl hvs => ?_
    rw [hl, hvs]
    exact and_iff_left trivial
  | ashr =>
    obtain rfl : .binaryNonMem .ashr v.sort = r := by simpa [dfsOp, dfsBinaryOpNonMem, checked, hvmem] using hpl
    refine stmt_bvBin hv hus (hil ExprOp.noConfusion fun h => if_neg h) fun w l l' x y hl hvs => ?_
    rw [hl, hvs]
    exact Iff.rfl
  | div =>
    obtain rfl : .binaryNonMem .div v.sort = r := by simpa [dfsOp, dfsBinaryOpNonMem, checked, hvmem] using hpl
    refine stmt_bvBin hv hus (hil ExprOp.noConfusion fun h => if_neg h) fun w l l' x y hl hvs => ?_
    rw [hl, hvs]
    exact and_iff_right trivial
  | urem =>
    obtain rfl : .binaryNonMem .urem v.sort = r := by simpa [dfsOp, dfsBinaryOpNonMem, checked, hvmem] using hpl
    refine stmt_bvBin hv hus (hil ExprOp.noConfusion fun h => if_neg h) fun w l l' x y hl hvs => ?_
    rw [hl, hvs]
    exact and_iff_right trivial
  | lt =>
    have hbool : v.sort = .bool := bvCmp_bool hv
    obtain rfl : .binaryBoolOut .lt = r := by simpa [dfsOp, dfsBinaryOpBoolOut, checked, hbool] using hpl
    refine stmt_bvCmp hv hus (hil ExprOp.noConfusion fun h => ?_) fun w l l' x y hl hvs => ?_
    · rw [hbool]
      rfl
    · rw [hl, hvs]
      exact Iff.rfl
  | gt =>
    have hbool : v.sort = .bool := bvCmp_bool (f := fun _ x y => y.slt x) hv
    obtain rfl : .binaryBoolOut .gt = r := by simpa [dfsOp, dfsBinaryOpBoolOut, checked, hbool] using hpl
    refine stmt_bvCmp (f := fun _ x y => y.slt x) hv hus (hil ExprOp.noConfusion fun h => ?_) fun w l l' x y hl hvs => ?_
    · rw [hbool]
      rfl
    · rw [hl, hvs]
      exact Iff.rfl
  | ult =>
    have hbool : v.sort = .bool := bvCmp_bool hv
    obtain rfl : .binaryBoolOut .ult = r := by simpa [dfsOp, dfsBinaryOpBoolOut, checked, hbool] using hpl
    refine stmt_bvCmp hv hus (hil ExprOp.noConfusion fun h => ?_) fun w l l' x y hl hvs => ?_
    · rw [hbool]
      rfl
    · rw [hl, hvs]
      exact Iff.rfl
  | ugt =>
    have hbool : v.sort = .bool := bvCmp_bool (f := fun _ x y => y.ult x) hv
    obtain rfl : .binaryBoolOut .ugt = r := by simpa [dfsOp, dfsBinaryOpBoolOut, checked, hbool] using hpl
    refine stmt_bvCmp (f := fun _ x y => y.ult x) hv hus (hil ExprOp.noConfusion fun h => ?_) fun w l l' x y hl hvs => ?_
    · rw [hbool]
      rfl
    · rw [hl, hvs]
      exact Iff.rfl
  | eq =>
    obtain ⟨t, t', rfl, hs, b, rfl, hb⟩ := Op.eq_eq_some hv
    obtain rfl : .binaryBoolOut .eq = r := Sum.inr.inj (Option.some.inj hpl)
    obtain ⟨u, u', rfl, hu, hu'⟩ := forall₂_two hus
    have hright := hil ExprOp.noConfusion (q := .regular .eq .bool) fun h => if_neg h
    cases t with
    | bool a =>
      obtain ⟨a', rfl⟩ := Value.exists_bool hs.symm
      obtain rfl := hu
      obtain rfl := hu'
      exact iff_of_true ((ilator_bool (r := Ilator.logical .eq a a') hright).mpr trivial) trivial
    | bv w x =>
      obtain ⟨y, rfl⟩ := Value.exists_bv hs.symm
      exact (binaryBoolOut_iff (o := .eq) hu hu' hright).trans (iff_of_true trivial trivial)
    | mem a d c => exact hu.elim
  | imply =>
    obtain ⟨a, b, rfl, rfl⟩ := Op.boolBin_eq_some hv
    obtain ⟨u, u', rfl, rfl, rfl⟩ := forall₂_two hus
    obtain rfl : .binaryBoolOut .imply = r := Sum.inr.inj (Option.some.inj hpl)
    cases a <;> cases b <;> simp [stmt, binaryBoolOut, member, OpSafe]
  | concat =>
    obtain ⟨w, w', x, y, rfl, rfl⟩ := Op.concat_eq_some hv
    obtain ⟨u, u', rfl, hu, hu'⟩ := forall₂_two hus
    rw [hargs] at hpl
    obtain rfl : .concat w w' (.bv (w + w')) = r := Sum.inr.inj (Option.some.inj hpl)
    exact iff_of_true (concat_eq hu hu') trivial
  | extract hi lo =>
    obtain ⟨w, x, rfl, hle, hlt, rfl⟩ := Op.extract_eq_some hv
    obtain ⟨u, rfl, hu⟩ := forall₂_one hus
    obtain rfl : .extract hi lo (.bv (hi - lo + 1)) = r := Sum.inr.inj (Option.some.inj hpl)
    exact range_iff hu hle hlt
  | zext outw =>
    obtain ⟨w, x, hle, rfl, rfl⟩ := ExprOp.zext_eq_some happly
    obtain ⟨u, rfl, hu⟩ := forall₂_one hus
    obtain rfl : .zext (.bv outw) = r := Sum.inr.inj (Option.some.inj hpl)
    exact iff_of_true (zext_eq hu) trivial
  | sext outw =>
    obtain ⟨w, x, hle, rfl, rfl⟩ := ExprOp.sext_eq_some happly
    obtain ⟨u, rfl, hu⟩ := forall₂_one hus
    rw [hargs] at hpl
    obtain rfl : .sext (w - 1) (.bv outw) = r := Sum.inr.inj (Option.some.inj hpl)
    exact signExtend_iff hu (hpos _ List.mem_cons_self)
  | ite =>
    obtain ⟨c, t, e, rfl, hs, rfl⟩ := Op.ite_eq_some hv
    obtain ⟨u₀, tail, rfl, htail, rfl⟩ := List.forall₂_cons_right_iff.mp hus
    obtain ⟨u₁, u₂, rfl, hu₁, hu₂⟩ := forall₂_two htail
    obtain rfl : .ite _ = r := by simpa [dfsOp, dfsIteOp, hvmem] using hpl
    refine iff_of_true ?_ trivial
    cases c with
    | true => exact assign_res hu₁
    | false => exact assign_res hu₂
  | load =>
    obtain ⟨a, d, c, x, rfl, -⟩ := Op.select_eq_some hv
    exact absurd (hmem _ List.mem_cons_self) (by simp [Value.sort, Srt.isMem])
  | store => simp [dfsOp, dfsBinaryOpMem] at hpl
  | srem | smod | lRotate _ | rRotate _ => simp [dfsOp] at hpl

theorem assign_isLit {type : Srt} {res : Res} {u : ScVal} (h : assign type res = some u) : u.isLit = false := by
  unfold assign at h
  split at h
  · rw [← Option.some.inj h]
    rfl
  · rw [← Option.some.inj h]
    rfl
  · cases h

theorem bind_assign_isLit {type : Srt} {r : Option Res} {u : ScVal} (h : r.bind (assign type) = some u) :
    u.isLit = false := by
  obtain ⟨res, -, h⟩ := Option.bind_eq_some_iff.mp h
  exact assign_isLit h

theorem stmt_isLit {u : ScVal} (h : stmt ν r us = some u) : u.isLit = false := by
  unfold stmt at h
  split at h
  · exact bind_assign_isLit h
  · obtain ⟨b, -, rfl⟩ := Option.map_eq_some_iff.mp h
    rfl
  · exact bind_assign_isLit h
  · exact bind_assign_isLit h
  · obtain ⟨x, -, h⟩ := Option.bind_eq_some_iff.mp h
    obtain ⟨z, -, h⟩ := Option.bind_eq_some_iff.mp h
    exact assign_isLit h
  · exact bind_assign_isLit h
  · exact bind_assign_isLit h
  · unfold signExtend at h
    split at h
    · obtain ⟨-, h⟩ := Option.ite_none_right_eq_some.mp h
      rw [← Option.some.inj h]
      rfl
    · cases h
  · exact bind_assign_isLit h
  · obtain ⟨w, -, h⟩ := Option.bind_eq_some_iff.mp h
    exact bind_assign_isLit h
  · cases h

theorem member_of_agrees {u : ScVal} (hag : Agrees u v) (hlit : u.isLit = false) : u = member v := by
  cases v with
  | bool b => exact hag
  | bv w x =>
    rcases hag with rfl | rfl
    · rfl
    · cases hlit
  | mem a d c => exact hag.elim

theorem agrees_member (h : v.sort.isMem = false) : Agrees (member v) v := by
  cases v with
  | bool b => exact rfl
  | bv w x => exact .inl rfl
  | mem a d c => cases h

end Statements

section Nodes

variable {ν : Valuation}

/-- The member of a memory variable, or the array of a memory constant. An update of a memory has no name. -/
def memOf (σ : Ilator.Maps ν) : Node → Option ScVal
  | .leaf _ (.var v) => some (scVar σ v)
  | .leaf p (.const c) => scConst p c
  | .app _ _ _ => none

/-- What is found there after some reads. -/
def found (σ : Ilator.Maps ν) (reads : List Ilator.Read) (n : Node) : Option ScVal := (memOf σ n).map (ScVal.after reads)

/-- A load reads the word of the memory at the index of the address, and a comparison of memories has their equality.
Both can fail: an array lacks the default value of its constant, an address from `2 ^ 31` on is a negative index, arrays are
compared by their addresses, and maps by their entries, of which loads make some. -/
def MemSafe (o : ExprOp) (lits : List Bool) (mems : List (Option ScVal)) (vs : List Value) : Prop :=
  match o, lits, mems, vs with
  | .load, [_, l], [m, _], [.mem a d c, .bv _ x] =>
    (m.bind (readAt · (index l x.toNat))).map (BitVec.ofNat d) = some (c (x.setWidth a))
  | .eq, _, [m, m'], [.mem a d c, t] =>
    ∃ b, (m.bind fun u => m'.bind (binaryBoolOut .eq u)) = some b ∧ (b = true ↔ Value.mem a d c = t)
  | _, _, _, _ => True

/-- The application at a node is one whose text is right on the values of the arguments. A literal is written as far as
there is a type for it, and a function receives no memory. -/
def SafeAt (σ : Ilator.Maps ν) (τ : Nat → List Ilator.Read) : Node → Prop
  | .leaf _ (.const (.bv x _)) => x < 2 ^ 63
  | .leaf _ _ => True
  | .app p (.op o) args => ∀ vs, Expr.evalList ν (Node.exprList args) = some vs →
    OpSafe o (args.map lit) vs ∧ MemSafe o (args.map lit) (args.map (found σ (τ p))) vs
  | .app _ (.appFunc _) args => ∀ a ∈ args, a.expr.sort.isMem = false

/-- Every application in an expression is, apart from the updates of memories. -/
def Safe (σ : Ilator.Maps ν) (τ : Nat → List Ilator.Read) (n : Node) : Prop :=
  ∀ m ∈ n.subs, m.expr.sort.isMem = false → SafeAt σ τ m

/-- What stands for an argument: a member or a literal with its value, or the name of a memory. -/
def Operand (mem : Node → Option ScVal) (a : Node) (res : Option ScVal) (v : Value) : Prop :=
  if v.sort.isMem then res = mem a else ∃ u, res = some u ∧ Agrees u v ∧ u.isLit = lit a

inductive Operands (mem : Node → Option ScVal) : List Node → List (Option ScVal) → List Value → Prop
  | nil : Operands mem [] [] []
  | cons {a : Node} {res : Option ScVal} {v : Value} {as : List Node} {rs : List (Option ScVal)} {vs : List Value} :
    Operand mem a res v → Operands mem as rs vs → Operands mem (a :: as) (res :: rs) (v :: vs)

/-- What stands for a node stands for its value. -/
def Ready (σ : Ilator.Maps ν) (τ : Nat → List Ilator.Read) (a : Node) : Prop :=
  ∃ res v, (meaning σ τ).denote gen a = some res ∧ a.expr.eval ν = some v ∧ Operand (memOf σ) a res v

/-- The member of a node, or its literal, has the value of the node. -/
def Right (σ : Ilator.Maps ν) (τ : Nat → List Ilator.Read) (n : Node) : Prop :=
  ∃ u v, (meaning σ τ).denote gen n = some (some u) ∧ n.expr.eval ν = some v ∧ Agrees u v

variable {σ : Ilator.Maps ν} {τ : Nat → List Ilator.Read} {mem : Node → Option ScVal} {o : ExprOp} {args : List Node}
  {rs : List (Option ScVal)} {us : List ScVal} {vs : List Value} {v : Value}

theorem exists_operands (hargs : ∀ a ∈ args, Ready σ τ a) (hvs : Expr.evalList ν (Node.exprList args) = some vs) :
    ∃ rs, (meaning σ τ).denoteList gen args = some rs ∧ Operands (memOf σ) args rs vs := by
  induction args generalizing vs with
  | nil =>
    obtain rfl : vs = [] := by simpa [Node.exprList, Expr.evalList, eq_comm] using hvs
    exact ⟨[], rfl, .nil⟩
  | cons a as ih =>
    simp only [Node.exprList, Expr.evalList, Option.bind_eq_some_iff, Option.map_eq_some_iff] at hvs
    obtain ⟨v, hv, ts, hts, rfl⟩ := hvs
    obtain ⟨res, v', hres, hv', hop⟩ := hargs a List.mem_cons_self
    rw [hv, Option.some.injEq] at hv'
    subst hv'
    obtain ⟨rs, hrs, hops⟩ := ih (fun b hb => hargs b (List.mem_cons_of_mem a hb)) hts
    refine ⟨res :: rs, ?_, .cons hop hops⟩
    rw [Meaning.denoteList, hres, hrs]
    rfl

theorem Agrees.after {u : ScVal} (h : Agrees u v) (reads : List Ilator.Read) : u.after reads = u := by
  cases u with
  | bool b => rfl
  | lit z => rfl
  | big w x => rfl
  | array id a d ws => rfl
  | map x a d f =>
    cases v with
    | bool b => cases h
    | bv w y => rcases h with h | h <;> cases h
    | mem a d c => exact h.elim

theorem Operands.after (h : Operands (memOf σ) args rs vs) (reads : List Ilator.Read) :
    Operands (found σ reads) args (rs.map (Option.map (ScVal.after reads))) vs := by
  induction h with
  | nil => exact .nil
  | @cons a res v as rs vs hop _ ih =>
    refine .cons ?_ ih
    rw [Operand] at hop ⊢
    split_ifs at hop ⊢ with hmem
    · rw [hop, found]
    · obtain ⟨u, rfl, hag, hlit⟩ := hop
      exact ⟨u, congrArg some (hag.after reads), hag, hlit⟩

theorem mapM_after (reads : List Ilator.Read) (f : List ScVal → Option ScVal) :
    ((rs.mapM id).bind fun us => f (us.map (ScVal.after reads))) = ((rs.map (Option.map (ScVal.after reads))).mapM id).bind f := by
  have hmap : (rs.map (Option.map (ScVal.after reads))).mapM id = (rs.mapM id).map (List.map (ScVal.after reads)) := by
    induction rs with
    | nil => rfl
    | cons r rs ih =>
      rw [List.map_cons, List.mapM_cons, List.mapM_cons, ih]
      cases r with
      | none => rfl
      | some u => cases rs.mapM id <;> rfl
  rw [hmap]
  cases rs.mapM id <;> rfl

theorem Operand.agrees {a : Node} {res : Option ScVal} (h : Operand mem a res v) (hmem : v.sort.isMem = false) :
    ∃ u, res = some u ∧ Agrees u v ∧ u.isLit = lit a := by
  rw [Operand, hmem] at h
  exact h

theorem Operand.memory {a : Node} {res : Option ScVal} (h : Operand mem a res v) (hmem : v.sort.isMem = true) : res = mem a := by
  rw [Operand, hmem] at h
  exact h

theorem Operands.agrees (h : Operands mem args rs vs) (hmem : ∀ t ∈ vs, t.sort.isMem = false) :
    ∃ us, rs = us.map some ∧ List.Forall₂ Agrees us vs ∧ us.map ScVal.isLit = args.map lit := by
  induction h with
  | nil => exact ⟨[], rfl, .nil, rfl⟩
  | cons hop _ ih =>
    obtain ⟨us, rfl, hall, hlits⟩ := ih fun t ht => hmem t (List.mem_cons_of_mem _ ht)
    obtain ⟨u, rfl, hag, hlit⟩ := hop.agrees (hmem _ List.mem_cons_self)
    refine ⟨u :: us, rfl, .cons hag hall, ?_⟩
    rw [List.map_cons, List.map_cons, hlit, hlits]

theorem Operands.two {t t' : Value} (h : Operands mem args rs [t, t']) :
    ∃ a a' res res', args = [a, a'] ∧ rs = [res, res'] ∧ Operand mem a res t ∧ Operand mem a' res' t' := by
  cases h with
  | cons h₀ h =>
    cases h with
    | cons h₁ h =>
      cases h
      exact ⟨_, _, _, _, rfl, rfl, h₀, h₁⟩

theorem memSafe_of_not_mem (h : ∀ t ∈ vs, t.sort.isMem = false) (lits : List Bool) (mems : List (Option ScVal)) :
    MemSafe o lits mems vs := by
  unfold MemSafe
  split
  · exact absurd (h _ List.mem_cons_self) (by simp [Value.sort, Srt.isMem])
  · exact absurd (h _ List.mem_cons_self) (by simp [Value.sort, Srt.isMem])
  · trivial

theorem load_iff {a d : Nat} {c : BitVec a → BitVec d} {x : BitVec a}
    (hops : Operands mem args rs [.mem a d c, .bv a x]) :
    (rs.mapM id).bind (stmt ν (.load (.bv d))) = some (.big d (c x)) ↔
      MemSafe .load (args.map lit) (args.map mem) [.mem a d c, .bv a x] := by
  obtain ⟨m, n, res, res', rfl, rfl, hm, hn⟩ := hops.two
  obtain rfl := hm.memory rfl
  obtain ⟨u', rfl, hag, hlit⟩ := hn.agrees rfl
  simp only [MemSafe, List.map_cons, List.map_nil, BitVec.setWidth_eq]
  cases mem m with
  | none => exact iff_of_false (by simp [List.mapM_cons]) (by simp)
  | some u =>
    have hstmt : ([some u, some u'].mapM id).bind (stmt ν (.load (.bv d))) =
        (readAt u (index (lit n) x.toNat)).bind fun z => assign (.bv d) (.int z) := by
      rw [← hlit]
      change (u'.int?.bind fun x => (readAt u (index u'.isLit x)).bind fun z => assign (.bv d) (.int z)) = _
      rw [hag.int?, Option.bind_some]
    rw [hstmt, Option.bind_some]
    cases readAt u (index (lit n) x.toNat) with
    | none => simp
    | some z => simp [assign]

theorem memEq_iff {a d : Nat} {c c' : BitVec a → BitVec d} {b : Bool} (hb : b = true ↔ Value.mem a d c = .mem a d c')
    (hops : Operands mem args rs [.mem a d c, .mem a d c']) :
    (rs.mapM id).bind (stmt ν (.binaryBoolOut .eq)) = some (.bool b) ↔
      MemSafe .eq (args.map lit) (args.map mem) [.mem a d c, .mem a d c'] := by
  obtain ⟨m, n, res, res', rfl, rfl, hm, hn⟩ := hops.two
  obtain rfl := hm.memory rfl
  obtain rfl := hn.memory rfl
  simp only [MemSafe, List.map_cons, List.map_nil]
  cases mem m with
  | none => exact iff_of_false (by simp [List.mapM_cons]) (by simp)
  | some u =>
    cases mem n with
    | none => exact iff_of_false (by simp [List.mapM_cons]) (by simp)
    | some u' =>
      change (binaryBoolOut .eq u u').map ScVal.bool = some (.bool b) ↔ ∃ b', binaryBoolOut .eq u u' = some b' ∧ _
      rw [Option.map_eq_some_iff, ← hb]
      constructor
      · rintro ⟨b', hb', heq⟩
        exact ⟨b', hb', by rw [ScVal.bool.inj heq]⟩
      · rintro ⟨b', hb', heq⟩
        exact ⟨b', hb', congrArg ScVal.bool (Bool.eq_iff_iff.mpr heq)⟩

theorem stmt_iff_safe {r : Rhs} (hpl : dfsOp o v.sort (args.map fun n => n.expr.sort) = some (.inr r))
    (hv : o.apply vs = some v) (hargs : args.map (fun n => n.expr.sort) = vs.map Value.sort)
    (hpos : ∀ t ∈ vs, t.sort.Pos) (hmem : v.sort.isMem = false) (hops : Operands mem args rs vs) :
    (rs.mapM id).bind (stmt ν r) = some (member v) ↔
      OpSafe o (args.map lit) vs ∧ MemSafe o (args.map lit) (args.map mem) vs := by
  by_cases hnot : ∀ t ∈ vs, t.sort.isMem = false
  · obtain ⟨us, rfl, hall, hlits⟩ := hops.agrees hnot
    rw [and_iff_left (memSafe_of_not_mem hnot _ _), MapM.id_map_some_self, ← hlits]
    exact stmt_iff_opSafe hpl hv hargs hpos hnot hmem hall
  · by_cases hload : o = .load
    · subst hload
      obtain ⟨a, d, c, x, rfl, rfl⟩ := Op.select_eq_some (ExprOp.apply_eq_smt hv).2
      obtain rfl : Rhs.load (.bv d) = r := Sum.inr.inj (Option.some.inj hpl)
      rw [and_iff_right]
      · exact load_iff hops
      · obtain ⟨m, n, res, res', rfl, -⟩ := hops.two
        trivial
    · by_cases heq : o = .eq
      · subst heq
        obtain ⟨t, t', rfl, hs, b, rfl, hb⟩ := Op.eq_eq_some (ExprOp.apply_eq_smt hv).2
        obtain rfl : Rhs.binaryBoolOut .eq = r := Sum.inr.inj (Option.some.inj hpl)
        have htmem : t.sort.isMem = true := by
          by_contra hcon
          refine hnot fun u hu => ?_
          rw [Bool.not_eq_true] at hcon
          rcases List.mem_cons.mp hu with rfl | hu
          · exact hcon
          · rw [List.mem_singleton.mp hu, ← hs]
            exact hcon
        cases t with
        | bool b => cases htmem
        | bv w x => cases htmem
        | mem a d c =>
          obtain ⟨c', rfl⟩ := Value.exists_mem hs.symm
          rw [and_iff_right]
          · exact memEq_iff hb hops
          · obtain ⟨m, n, res, res', rfl, -⟩ := hops.two
            trivial
      · exact absurd (fun t ht => Ilator.not_mem_of_apply hv hmem hload heq ht) hnot

theorem valueOf_of_agrees {u : ScVal} (h : Agrees u v) : valueOf v.sort u = some v := by
  cases v with
  | bool b =>
    obtain rfl := h
    rfl
  | bv w x =>
    change (u.int?.map fun z => Value.bv w (BitVec.ofNat w z)) = _
    rw [Agrees.int? h, Option.map_some, BitVec.ofNat_toNat, BitVec.setWidth_eq]
  | mem a d c => exact h.elim

theorem mapM_valueOf (h : List.Forall₂ Agrees us vs) :
    ((vs.map Value.sort).zip us).mapM (fun p => valueOf p.1 p.2) = some vs := by
  rw [MapM.eq_some_iff]
  induction h with
  | nil => exact .nil
  | cons hag _ ih => exact .cons (valueOf_of_agrees hag) ih

theorem Operands.not_mem_of_valueOf (hops : Operands mem args rs vs) {ws : List Value} (hus : rs.mapM id = some us)
    (hws : ((vs.map Value.sort).zip us).mapM (fun p => valueOf p.1 p.2) = some ws) : ∀ t ∈ vs, t.sort.isMem = false := by
  rw [MapM.eq_some_iff] at hus hws
  induction hops generalizing us ws with
  | nil => simp
  | @cons a res v as rs vs _ _ ih =>
    cases hus with
    | cons _ hus =>
      cases hws with
      | @cons _ w _ ws hw hws =>
        intro t ht
        rcases List.mem_cons.mp ht with rfl | ht
        · cases t with
          | bool b => rfl
          | bv w x => rfl
          | mem a d c => cases hw
        · exact ih hus hws t ht

theorem func_iff {f : Func} (hout : f.out.isMem = false) (hv : ν.app f vs = some v) (hops : Operands mem args rs vs)
    (hargs : args.map (fun n => n.expr.sort) = vs.map Value.sort) :
    (rs.mapM id).bind (stmt ν (.func f)) = some (member v) ↔ ∀ a ∈ args, a.expr.sort.isMem = false := by
  have hdom : vs.map Value.sort = f.args := (Option.ite_none_right_eq_some.mp hv).1
  have hsort : v.sort = f.out := by
    have happ := ν.app_sort f vs
    rw [hv, if_pos hdom] at happ
    exact Option.some.inj happ
  have hforall : (∀ a ∈ args, a.expr.sort.isMem = false) ↔ ∀ t ∈ vs, t.sort.isMem = false := by
    rw [← List.forall_mem_map (f := fun n : Node => n.expr.sort) (P := fun s => s.isMem = false), hargs, List.forall_mem_map]
  rw [hforall]
  constructor
  · intro h
    obtain ⟨us, hus, hstmt⟩ := Option.bind_eq_some_iff.mp h
    obtain ⟨w, happ, -⟩ := Option.bind_eq_some_iff.mp hstmt
    obtain ⟨ws, hws, -⟩ := Option.bind_eq_some_iff.mp happ
    rw [← hdom] at hws
    exact hops.not_mem_of_valueOf hus hws
  · intro hmem
    obtain ⟨us, rfl, hall, -⟩ := hops.agrees hmem
    rw [MapM.id_map_some_self, Option.bind_some, stmt, ← hdom, mapM_valueOf hall, Option.bind_some, hv, Option.bind_some]
    rw [← hsort] at hout ⊢
    cases v with
    | bool b => rfl
    | bv w x => exact assign_toNat
    | mem a d c => cases hout

theorem dfsOp_mem {ss : List Srt} (hv : o.apply vs = some v) (hmem : v.sort.isMem = true)
    (hplan : (dfsOp o v.sort ss).isSome) : dfsOp o v.sort ss = some (.inl .undeclared) := by
  have hbool : v.sort ≠ .bool := fun h => by simp [h, Srt.isMem] at hmem
  cases o with
  | store => rfl
  | ite => rw [dfsOp, dfsIteOp, if_pos hmem]
  | load =>
    obtain ⟨a, d, c, x, -, rfl⟩ := Op.select_eq_some (ExprOp.apply_eq_smt hv).2
    cases hmem
  | extract hi lo =>
    obtain ⟨w, x, -, -, -, rfl⟩ := Op.extract_eq_some (ExprOp.apply_eq_smt hv).2
    cases hmem
  | zext outw =>
    obtain ⟨w, x, -, -, rfl⟩ := ExprOp.zext_eq_some hv
    cases hmem
  | sext outw =>
    obtain ⟨w, x, -, -, rfl⟩ := ExprOp.sext_eq_some hv
    cases hmem
  | neg | not | compl => simp [dfsOp, dfsUnaryOp, checked, hmem] at hplan
  | eq | lt | gt | ult | ugt | imply => simp [dfsOp, dfsBinaryOpBoolOut, checked, hbool] at hplan
  | sub | and | or | xor | shl | ashr | lshr | add | mul | div | concat | urem =>
    simp [dfsOp, dfsBinaryOpNonMem, checked, hmem] at hplan
  | srem | smod | lRotate n | rRotate n => simp [dfsOp] at hplan

theorem dfsOp_not_mem {ss : List Srt} (hv : o.apply vs = some v) (hmem : v.sort.isMem = false)
    (hplan : (dfsOp o v.sort ss).isSome) : ∃ r, dfsOp o v.sort ss = some (.inr r) := by
  have hchecked : ∀ {ok : Bool} {r : Rhs}, (checked ok r).isSome → ∃ r', checked ok r = some (.inr r') := by
    intro ok r h
    rw [checked] at h ⊢
    split
    · exact ⟨r, rfl⟩
    · simp_all
  cases o with
  | store =>
    obtain ⟨a, d, f, x, y, -, rfl⟩ := Op.store_eq_some (ExprOp.apply_eq_smt hv).2
    cases hmem
  | ite => exact ⟨_, by rw [dfsOp, dfsIteOp, if_neg (by simp [hmem])]⟩
  | load | extract hi lo | zext w | sext w => exact ⟨_, rfl⟩
  | neg | not | compl | eq | lt | gt | ult | ugt | imply => exact hchecked hplan
  | sub | and | or | xor | shl | ashr | lshr | add | mul | div | concat | urem => exact hchecked hplan
  | srem | smod | lRotate n | rRotate n => simp [dfsOp] at hplan

theorem exists_statement {p : Nat} {hd : Head} {args : List Node} {t : Srt} (hcheck : (Node.app p hd args).expr.check = some t)
    (hmem : (Node.app p hd args).expr.sort.isMem = false) (hplan : (dfsKernel (.app p hd args)).isSome) :
    ∃ r, dfsKernel (.app p hd args) = some (.inr r) := by
  cases hd with
  | op o =>
    obtain ⟨v, hv, hvsort⟩ := Expr.eval_of_check hcheck default
    have hsort : (Node.app p (.op o) args).expr.sort = v.sort := by rw [Expr.sort_of_check hcheck, hvsort]
    rw [Node.expr, Expr.eval, Option.bind_eq_some_iff] at hv
    obtain ⟨vs, -, hv⟩ := hv
    rw [dfsKernel, hsort] at hplan ⊢
    rw [hsort] at hmem
    exact dfsOp_not_mem hv hmem hplan
  | appFunc f =>
    have hout : f.out.isMem = false := hmem
    exact ⟨_, by rw [dfsKernel, dfsFuncOp, hout]; rfl⟩

/-- The check in the constructor of bit-vector constants: the value is one of the width. -/
def ConstsFit (n : Node) : Prop := ∀ m ∈ n.subs, ∀ p x w, m = .leaf p (.const (.bv x w)) → x < 2 ^ w

theorem ConstsFit.sub {n m : Node} (h : ConstsFit n) (hm : m ∈ n.subs) : ConstsFit m :=
  fun k hk => h k (Node.subs_trans hm hk)

theorem scVar_agrees {x : Var} (hmem : (ν.atom (.var x)).sort.isMem = false) :
    Agrees (scVar σ x) (ν.atom (.var x)) ∧ (scVar σ x).isLit = false := by
  rw [scVar]
  cases hval : ν.atom (.var x) with
  | bool b => exact ⟨rfl, rfl⟩
  | bv w y => exact ⟨.inl rfl, rfl⟩
  | mem a d c => simp [hval, Value.sort, Srt.isMem] at hmem

theorem right_leaf {p : Nat} {l : Leaf} (hfit : ConstsFit (.leaf p l)) (hmem : (Node.leaf p l).expr.sort.isMem = false) :
    (Right σ τ (.leaf p l) ↔ SafeAt σ τ (.leaf p l)) ∧ (Right σ τ (.leaf p l) → Ready σ τ (.leaf p l)) := by
  cases l with
  | var x =>
    have hsort : (ν.atom (.var x)).sort.isMem = false := by
      rw [ν.atom_sort]
      exact hmem
    obtain ⟨hag, hlit⟩ := scVar_agrees (σ := σ) hsort
    refine ⟨iff_of_true ⟨scVar σ x, _, rfl, rfl, hag⟩ trivial, fun _ => ⟨some (scVar σ x), _, rfl, rfl, ?_⟩⟩
    rw [Operand, hsort]
    exact ⟨_, rfl, hag, hlit⟩
  | const c =>
    cases c with
    | bool b =>
      refine ⟨iff_of_true ⟨.bool b, _, rfl, rfl, rfl⟩ trivial, fun _ => ⟨some (.bool b), _, rfl, rfl, ?_⟩⟩
      exact ⟨_, rfl, rfl, rfl⟩
    | bv x w =>
      have hlt : x < 2 ^ w := hfit _ (Node.mem_subs_self _) p x w rfl
      have hdenote : (meaning σ τ).denote gen (.leaf p (.const (.bv x w))) =
          some (if x < 2 ^ 63 then some (.lit x) else none) := rfl
      have hx : x = (BitVec.ofNat w x).toNat := (Nat.mod_eq_of_lt hlt).symm
      have hag : Agrees (.lit x) (.bv w (BitVec.ofNat w x)) := .inr (congrArg ScVal.lit hx)
      by_cases h63 : x < 2 ^ 63
      · rw [if_pos h63] at hdenote
        exact ⟨iff_of_true ⟨_, _, hdenote, rfl, hag⟩ h63, fun _ => ⟨_, _, hdenote, rfl, _, rfl, hag, rfl⟩⟩
      · rw [if_neg h63] at hdenote
        have hnot : ¬Right σ τ (.leaf p (.const (.bv x w))) := by
          rintro ⟨u, v, hu, -⟩
          rw [hdenote] at hu
          cases Option.some.inj hu
        exact ⟨iff_of_false hnot h63, fun h => absurd h hnot⟩
    | mem x m a d => cases hmem

theorem ready_mem {n : Node} {s : Srt} (hcheck : n.expr.check = some s) (hmem : s.isMem = true)
    (hplan : (dfsKernel n).isSome) (hargs : ∀ a ∈ n.args, Ready σ τ a) : Ready σ τ n := by
  obtain ⟨v, hv, hvsort⟩ := Expr.eval_of_check hcheck ν
  have hvmem : v.sort.isMem = true := by rw [hvsort, hmem]
  have hop : ∀ {res}, res = memOf σ n → Operand (memOf σ) n res v := by
    intro res h
    rw [Operand, if_pos hvmem]
    exact h
  cases n with
  | leaf p l =>
    cases l with
    | var x => exact ⟨_, v, rfl, hv, hop rfl⟩
    | const c => exact ⟨_, v, rfl, hv, hop rfl⟩
  | app p hd args =>
    cases hd with
    | op o =>
      have hev := hv
      rw [Node.expr, Expr.eval, Option.bind_eq_some_iff] at hv
      obtain ⟨vs, hvs, hv⟩ := hv
      obtain ⟨rs, hrs, -⟩ := exists_operands (show ∀ a ∈ args, Ready σ τ a from hargs) hvs
      have hsort : (Node.app p (.op o) args).expr.sort = v.sort := by rw [Expr.sort_of_check hcheck, hvsort]
      have hundecl : dfsKernel (.app p (.op o) args) = some (.inl .undeclared) := by
        rw [dfsKernel, hsort] at hplan ⊢
        exact dfsOp_mem hv hvmem hplan
      refine ⟨none, v, ?_, hev, hop rfl⟩
      rw [Meaning.denote, hrs, Option.bind_some, plan_eq_inl hundecl]
      rfl
    | appFunc f =>
      have hout : f.out.isMem = true := by
        rw [← hmem, ← Expr.sort_of_check hcheck]
        rfl
      simp [dfsKernel, dfsFuncOp, checked, hout] at hplan

theorem denote_app {p : Nat} {h : Head} {r : Rhs} (hplan : dfsKernel (.app p h args) = some (.inr r))
    (hrs : (meaning σ τ).denoteList gen args = some rs) : (meaning σ τ).denote gen (.app p h args) =
      some (((rs.map (Option.map (ScVal.after (τ p)))).mapM id).bind (stmt ν r)) := by
  rw [Meaning.denote, hrs, Option.bind_some, plan_eq_inr hplan, ← mapM_after]
  rfl

theorem right_of_denote {p : Nat} {hd : Head} {r : Rhs} {P : Prop}
    (hdenote : (meaning σ τ).denote gen (.app p hd args) = some ((rs.mapM id).bind (stmt ν r)))
    (hv : (Node.app p hd args).expr.eval ν = some v) (hmem : v.sort.isMem = false)
    (hiff : (rs.mapM id).bind (stmt ν r) = some (member v) ↔ P) :
    (Right σ τ (.app p hd args) ↔ P) ∧ (Right σ τ (.app p hd args) → Ready σ τ (.app p hd args)) := by
  have hmember : Right σ τ (.app p hd args) → (rs.mapM id).bind (stmt ν r) = some (member v) := by
    rintro ⟨u, v', hu, hv', hag⟩
    rw [hv, Option.some.injEq] at hv'
    subst hv'
    rw [hdenote, Option.some.injEq] at hu
    obtain ⟨us, -, hstmt⟩ := Option.bind_eq_some_iff.mp hu
    rw [hu, member_of_agrees hag (stmt_isLit hstmt)]
  have hag := agrees_member hmem
  have hlit : (member v).isLit = false := by
    cases v <;> rfl
  refine ⟨Iff.trans ⟨hmember, fun h => ⟨member v, v, by rw [hdenote, h], hv, hag⟩⟩ hiff, fun h => ?_⟩
  refine ⟨some (member v), v, by rw [hdenote, hmember h], hv, ?_⟩
  rw [Operand, hmem]
  exact ⟨_, rfl, hag, hlit⟩

/-- At a node whose arguments are ready, the member is right exactly when the application is safe; then the node is
ready too. -/
theorem right_iff_safeAt {n : Node} {s : Srt} (hcheck : n.expr.check = some s) (hpos : n.Positive) (hfit : ConstsFit n)
    (hplan : (dfsKernel n).isSome) (hargs : ∀ a ∈ n.args, Ready σ τ a) (hmem : s.isMem = false) :
    (Right σ τ n ↔ SafeAt σ τ n) ∧ (Right σ τ n → Ready σ τ n) := by
  obtain ⟨v, hv, hvsort⟩ := Expr.eval_of_check hcheck ν
  have hsort := Expr.sort_of_check hcheck
  cases n with
  | leaf p l => exact right_leaf hfit (by rw [hsort]; exact hmem)
  | app p hd args =>
    rw [← hvsort] at hmem hsort
    obtain ⟨ss, hss⟩ := Node.check_app hcheck
    cases hd with
    | op o =>
      have hev := hv
      rw [Node.expr, Expr.eval, Option.bind_eq_some_iff] at hv
      obtain ⟨vs, hvs, hv⟩ := hv
      obtain ⟨rs, hrs, hops⟩ := exists_operands (show ∀ a ∈ args, Ready σ τ a from hargs) hvs
      have hsorts := Node.map_sort_eq hss hvs
      rw [dfsKernel, hsort] at hplan
      obtain ⟨r, hr⟩ := dfsOp_not_mem hv hmem hplan
      have hdenote := denote_app (σ := σ) (τ := τ) (p := p) (h := .op o) (by rw [dfsKernel, hsort]; exact hr) hrs
      have hposv : ∀ t ∈ vs, t.sort.Pos := by
        intro t ht
        have hts : t.sort ∈ args.map fun a => a.expr.sort := by
          rw [hsorts]
          exact List.mem_map_of_mem ht
        obtain ⟨a, ha, heq⟩ := List.mem_map.mp hts
        rw [← heq]
        exact hpos a (Node.arg_mem_subs ha)
      refine right_of_denote hdenote hev hmem ((stmt_iff_safe hr hv hsorts hposv hmem (hops.after (τ p))).trans ?_)
      simp only [SafeAt, hvs, Option.some.injEq, forall_eq']
    | appFunc f =>
      have hev := hv
      rw [Node.expr, Expr.eval, Option.bind_eq_some_iff] at hv
      obtain ⟨vs, hvs, hv⟩ := hv
      obtain ⟨rs, hrs, hops⟩ := exists_operands (show ∀ a ∈ args, Ready σ τ a from hargs) hvs
      have hout : f.out.isMem = false := by
        rw [← hmem, ← hsort]
        rfl
      have hfunc : dfsKernel (.app p (.appFunc f) args) = some (.inr (.func f)) := by
        rw [dfsKernel, dfsFuncOp, hout]
        rfl
      exact right_of_denote (denote_app hfunc hrs) hev hmem (func_iff hout hv (hops.after (τ p)) (Node.map_sort_eq hss hvs))

theorem ready_subs {n : Node} {s : Srt} (hcheck : n.expr.check = some s) (hpos : n.Positive) (hfit : ConstsFit n)
    (hplan : ∀ m ∈ n.subs, (dfsKernel m).isSome)
    (h : ∀ m ∈ n.subs, m.expr.sort.isMem = false → Right σ τ m ∨ SafeAt σ τ m) : ∀ m ∈ n.subs, Ready σ τ m := by
  intro m hm
  induction m using Node.ind with
  | leaf p l =>
    obtain ⟨t, ht⟩ := Node.check_sub hcheck hm
    have hsort := Expr.sort_of_check ht
    cases hmem : t.isMem with
    | true => exact ready_mem ht hmem (hplan _ hm) (by simp [Node.args])
    | false =>
      obtain ⟨hiff, hready⟩ :=
        right_iff_safeAt (σ := σ) (τ := τ) ht (hpos.sub hm) (hfit.sub hm) (hplan _ hm) (by simp [Node.args]) hmem
      rcases h _ hm (by rw [hsort, hmem]) with hright | hsafe
      · exact hready hright
      · exact hready (hiff.mpr hsafe)
  | app p hd args ih =>
    have hargs : ∀ a ∈ args, Ready σ τ a := fun a ha =>
      ih a ha (Node.subs_trans hm (Node.arg_mem_subs ha))
    obtain ⟨t, ht⟩ := Node.check_sub hcheck hm
    have hsort := Expr.sort_of_check ht
    cases hmem : t.isMem with
    | true => exact ready_mem ht hmem (hplan _ hm) hargs
    | false =>
      obtain ⟨hiff, hready⟩ := right_iff_safeAt ht (hpos.sub hm) (hfit.sub hm) (hplan _ hm) hargs hmem
      rcases h _ hm (by rw [hsort, hmem]) with hright | hsafe
      · exact hready hright
      · exact hready (hiff.mpr hsafe)

theorem ready_of_safe {n : Node} {s : Srt} (hcheck : n.expr.check = some s) (hpos : n.Positive) (hfit : ConstsFit n)
    (hplan : ∀ m ∈ n.subs, (dfsKernel m).isSome) (h : Safe σ τ n) : ∀ m ∈ n.subs, Ready σ τ m :=
  ready_subs hcheck hpos hfit hplan fun m hm hmem => .inr (h m hm hmem)

theorem right_subs_iff_safe {n : Node} {s : Srt} (hcheck : n.expr.check = some s) (hpos : n.Positive)
    (hfit : ConstsFit n) (hplan : ∀ m ∈ n.subs, (dfsKernel m).isSome) :
    (∀ m ∈ n.subs, m.expr.sort.isMem = false → Right σ τ m) ↔ Safe σ τ n := by
  have hnode : (∀ m ∈ n.subs, Ready σ τ m) → ∀ m ∈ n.subs, m.expr.sort.isMem = false → (Right σ τ m ↔ SafeAt σ τ m) := by
    intro hready m hm hmem
    obtain ⟨t, ht⟩ := Node.check_sub hcheck hm
    rw [Expr.sort_of_check ht] at hmem
    refine (right_iff_safeAt ht (hpos.sub hm) (hfit.sub hm) (hplan m hm) (fun a ha => hready a ?_) hmem).1
    exact Node.subs_trans hm (Node.mem_subs_iff.mpr (.inr ⟨a, ha, a.mem_subs_self⟩))
  constructor
  · intro h m hm hmem
    have hready := ready_subs hcheck hpos hfit hplan fun k hk hkmem => .inl (h k hk hkmem)
    exact (hnode hready m hm hmem).mp (h m hm hmem)
  · intro h m hm hmem
    have hready := ready_subs hcheck hpos hfit hplan fun k hk hkmem => .inr (h k hk hkmem)
    exact (hnode hready m hm hmem).mpr (h m hm hmem)

end Nodes

end IlaSim

end Ilang
