import Ilang.Target.ItsyNode
import Ilang.Util.Bits

/-!
# Operators of the synthesis engine

The expression for an operator has its value on operands that have theirs, apart from some operators: `Not` is for Boolean
expressions only, `Div` is signed, and the loop of a block that is written runs as many times as a word has bits.
-/

namespace Ilang

open Smt WordBlock

namespace Itsy

/-! ### Expressions for values -/

/-- An expression has the sort of a value, and the value itself in a model of the solver. -/
structure Den (z3 : Z3) (suffix : String) (M : Model) (e : AstExpr) (v : Value) : Prop where
  sort : e.sort = .ofSrt v.sort
  pos : v.sort.Pos
  term : ∃ t, e.z3Term z3 suffix = some t ∧ t.eval M = some v

section Den

variable {z3 : Z3} {suffix : String} {M : Model}

theorem Den.unique {e : AstExpr} {u v : Value} (hu : Den z3 suffix M e u) (hv : Den z3 suffix M e v) : u = v := by
  obtain ⟨t, ht, htu⟩ := hu.term
  obtain ⟨t', ht', htv⟩ := hv.term
  obtain rfl := Option.some.inj (ht.symm.trans ht')
  exact Option.some.inj (htu.symm.trans htv)

theorem den_args {es : List AstExpr} {vs : List Value} (h : List.Forall₂ (Den z3 suffix M) es vs) :
    (∃ ts, AstExpr.z3TermList z3 suffix es = some ts ∧ Term.evalList M ts = some vs) ∧
      es.map AstExpr.sort = (vs.map Value.sort).map .ofSrt ∧ ∀ s ∈ vs.map Value.sort, s.Pos := by
  induction h with
  | nil => exact ⟨⟨[], rfl, rfl⟩, rfl, fun s hs => nomatch hs⟩
  | @cons e v es vs hv _ ih =>
    obtain ⟨⟨ts, hts, hvs⟩, hsorts, hpos⟩ := ih
    obtain ⟨t, ht, htv⟩ := hv.term
    refine ⟨⟨t :: ts, ?_, ?_⟩, ?_, List.forall_mem_cons.mpr ⟨hv.pos, hpos⟩⟩
    · rw [AstExpr.z3TermList, ht, hts]
      rfl
    · rw [Term.evalList, htv, hvs]
      rfl
    · rw [List.map_cons, List.map_cons, List.map_cons, hv.sort, hsorts]

theorem term_exprOp {o : AstOp} {es : List AstExpr} {vs : List Value} (h : List.Forall₂ (Den z3 suffix M) es vs) :
    ∃ t, (AstHub.exprOp o es).z3Term z3 suffix = some t ∧
      t.eval M = (o.z3Op ((vs.map Value.sort).map .ofSrt)).apply vs := by
  obtain ⟨⟨ts, hts, hvs⟩, hsorts, -⟩ := den_args h
  refine ⟨_, by rw [AstHub.exprOp, AstExpr.z3Term, hts, Option.map_some], ?_⟩
  rw [z3.eval_simplify, Term.eval, hvs, Option.bind_some, hsorts]

theorem den_exprOp {o : AstOp} {es : List AstExpr} {vs : List Value} {v : Value} (h : List.Forall₂ (Den z3 suffix M) es vs)
    (hacc : o.Accepts (vs.map Value.sort)) (happly : (o.z3Op ((vs.map Value.sort).map .ofSrt)).apply vs = some v) :
    Den z3 suffix M (AstHub.exprOp o es) v := by
  obtain ⟨-, hsorts, hpos⟩ := den_args h
  obtain ⟨t, ht, hv⟩ := @term_exprOp z3 suffix M o es vs h
  obtain ⟨p, s, hp, -, hs, hcheck⟩ := AstOp.exists_fits hacc hpos
  have hsort : v.sort = s := by
    have happlySort := Op.apply_sort p vs
    rw [← hp, happly, hp, hcheck, Option.map_some] at happlySort
    exact Option.some.inj happlySort
  obtain ⟨hsrt, hspos⟩ := AstSort.srt?_eq_some.mp hs
  refine ⟨?_, hsort ▸ hspos, t, ht, hv.trans happly⟩
  show o.sortOf (es.map AstExpr.sort) = _
  rw [hsorts, hsrt, hsort]

theorem not_den_exprOp {o : AstOp} {es : List AstExpr} {vs : List Value} {v : Value} (h : List.Forall₂ (Den z3 suffix M) es vs)
    (happly : (o.z3Op ((vs.map Value.sort).map .ofSrt)).apply vs ≠ some v) : ¬Den z3 suffix M (AstHub.exprOp o es) v := by
  intro hden
  obtain ⟨t, ht, htv⟩ := hden.term
  obtain ⟨t', ht', heval⟩ := @term_exprOp z3 suffix M o es vs h
  obtain rfl := Option.some.inj (ht.symm.trans ht')
  exact happly (heval.symm.trans htv)

/-! ### Operands -/

theorem args_one {es : List AstExpr} {v : Value} (h : List.Forall₂ (Den z3 suffix M) es [v]) :
    ∃ a, es = [a] ∧ Den z3 suffix M a v := by
  obtain ⟨a, as, ha, hnil, rfl⟩ := List.forall₂_cons_right_iff.mp h
  obtain rfl := List.forall₂_nil_right_iff.mp hnil
  exact ⟨a, rfl, ha⟩

theorem args_two {es : List AstExpr} {u v : Value} (h : List.Forall₂ (Den z3 suffix M) es [u, v]) :
    ∃ a b, es = [a, b] ∧ Den z3 suffix M a u ∧ Den z3 suffix M b v := by
  obtain ⟨a, as, ha, hrest, rfl⟩ := List.forall₂_cons_right_iff.mp h
  obtain ⟨b, rfl, hb⟩ := args_one hrest
  exact ⟨a, b, rfl, ha, hb⟩

theorem args_three {es : List AstExpr} {u v w : Value} (h : List.Forall₂ (Den z3 suffix M) es [u, v, w]) :
    ∃ a b c, es = [a, b, c] ∧ Den z3 suffix M a u ∧ Den z3 suffix M b v ∧ Den z3 suffix M c w := by
  obtain ⟨a, as, ha, hrest, rfl⟩ := List.forall₂_cons_right_iff.mp h
  obtain ⟨b, c, rfl, hb, hc⟩ := args_two hrest
  exact ⟨a, b, c, rfl, ha, hb, hc⟩

theorem logic_same {o : AstOp} {l r : AstExpr} (h : l.sort = r.sort) (n : Nat) :
    AstHub.logic o (n + 1) l r = some (AstHub.exprOp o [l, r]) := by
  rw [AstHub.logic, if_pos h]

theorem bvBin_pair (f : (w : Nat) → BitVec w → BitVec w → BitVec w) {w : Nat} (x y : BitVec w) :
    Op.bvBin f [.bv w x, .bv w y] = some (.bv w (f w x y)) := dif_pos rfl

theorem bvCmp_pair (f : (w : Nat) → BitVec w → BitVec w → Bool) {w : Nat} (x y : BitVec w) :
    Op.bvCmp f [.bv w x, .bv w y] = some (.bool (f w x y)) := dif_pos rfl

theorem eq?_bv {w : Nat} (x y : BitVec w) : (Value.bv w x).eq? (.bv w y) = some (decide (x = y)) := by
  obtain ⟨b, hb, hiff⟩ := @Value.eq?_of_sort_eq (.bv w x) (.bv w y) rfl
  rw [hb, Option.some.injEq, Bool.eq_iff_iff, hiff, decide_eq_true_eq, Value.bv.injEq, heq_eq_eq, and_iff_right rfl]

section Pair

variable {l r : AstExpr}

theorem den_not {a : AstExpr} {x : Bool} (h : Den z3 suffix M a (.bool x)) : Den z3 suffix M (AstHub.not a) (.bool !x) :=
  den_exprOp (.cons h .nil) .not rfl

theorem den_boolBin {o : AstOp} (f : Bool → Bool → Bool) {x y : Bool} (hl : Den z3 suffix M l (.bool x))
    (hr : Den z3 suffix M r (.bool y)) (ho : o = .and ∨ o = .or ∨ o = .xor ∨ o = .imply)
    (happly : (o.z3Op [.bool, .bool]).apply [.bool x, .bool y] = some (.bool (f x y))) :
    Den z3 suffix M (AstHub.exprOp o [l, r]) (.bool (f x y)) :=
  den_exprOp (.cons hl (.cons hr .nil)) (.boolBin ho) happly

theorem den_bvBin {o : AstOp} {w : Nat} {x y : BitVec w} {v : Value} (hl : Den z3 suffix M l (.bv w x))
    (hr : Den z3 suffix M r (.bv w y)) (ho : o.isBvBin = true)
    (happly : (o.z3Op [.bv w, .bv w]).apply [.bv w x, .bv w y] = some v) : Den z3 suffix M (AstHub.exprOp o [l, r]) v :=
  den_exprOp (.cons hl (.cons hr .nil)) (.bvBin w ho) happly

theorem den_eq {u v : Value} {b : Bool} (hl : Den z3 suffix M l u) (hr : Den z3 suffix M r v) (h : u.eq? v = some b) :
    Den z3 suffix M (AstHub.eq l r) (.bool b) := by
  have hsort : u.sort = v.sort := by
    by_contra hne
    rw [Value.eq?_of_sort_ne hne] at h
    cases h
  refine den_exprOp (.cons hl (.cons hr .nil)) ?_ ?_
  · rw [List.map_cons, List.map_singleton, hsort]
    exact .eq _
  · show (u.eq? v).map Value.bool = some (.bool b)
    rw [h, Option.map_some]

theorem den_ite {c : AstExpr} {b : Bool} {u v : Value} (hc : Den z3 suffix M c (.bool b)) (hl : Den z3 suffix M l u)
    (hr : Den z3 suffix M r v) (h : u.sort = v.sort) : Den z3 suffix M (AstHub.ite c l r) (if b then u else v) := by
  refine den_exprOp (.cons hc (.cons hl (.cons hr .nil))) ?_ (if_pos h)
  rw [List.map_cons, List.map_cons, List.map_singleton, h]
  exact .ite _

end Pair

/-! ### Boolean operators -/

theorem chosen_eq_some {vs : List Value} {v : Value} (h : chosen vs = some v) :
    ∃ c t f, vs = [.bool c, t, f] ∧ t.sort = f.sort ∧ v = if c then t else f := by
  match vs, h with
  | [.bool c, t, f], h =>
    obtain ⟨hsort, hv⟩ := Option.ite_none_right_eq_some.mp h
    exact ⟨c, t, f, rfl, hsort, (Option.some.inj hv).symm⟩

theorem compared_eq_some {f : Bool → Bool} {vs : List Value} {v : Value} (h : compared f vs = some v) :
    ∃ u w b, vs = [u, w] ∧ u.eq? w = some b ∧ v = .bool (f b) := by
  match vs, h with
  | [u, w], h =>
    obtain ⟨b, hb, hv⟩ := Option.map_eq_some_iff.mp h
    exact ⟨u, w, b, rfl, hb, hv.symm⟩

theorem den_chosen {es : List AstExpr} {vs : List Value} {v : Value} {e : AstExpr} (h : List.Forall₂ (Den z3 suffix M) es vs)
    (hv : chosen vs = some v) (he : arg3 (fun a b c => some (AstHub.ite a b c)) es = some e) : Den z3 suffix M e v := by
  obtain ⟨c, t, f, rfl, hsort, rfl⟩ := chosen_eq_some hv
  obtain ⟨a, b, d, rfl, ha, hb, hd⟩ := args_three h
  obtain rfl := Option.some.inj he
  exact den_ite ha hb hd hsort

theorem sle_eq_or {w : Nat} (x y : BitVec w) : x.sle y = (decide (x = y) || x.slt y) := by
  rw [BitVec.sle_eq_slt_or_eq, Bool.or_comm, beq_eq_decide]

theorem ule_eq_or {w : Nat} (x y : BitVec w) : x.ule y = (decide (x = y) || x.ult y) := by
  rw [BitVec.ule_eq_decide, BitVec.ult_eq_decide, Bool.eq_iff_iff, Bool.or_eq_true, decide_eq_true_eq, decide_eq_true_eq,
    decide_eq_true_eq, ← BitVec.toNat_inj]
  omega

theorem decide_eq_comm {w : Nat} (x y : BitVec w) : decide (x = y) = decide (y = x) := decide_eq_decide.mpr eq_comm

theorem cnvtBoolOp_den {o : BoolOp} {es : List AstExpr} {vs : List Value} {v : Value} {e : AstExpr}
    (h : List.Forall₂ (Den z3 suffix M) es vs) (hv : o.apply vs = some v) (he : cnvtBoolOp o es = some e) :
    Den z3 suffix M e v := by
  have hbool : ∀ {f : Bool → Bool → Bool}, Op.boolBin f vs = some v → ∃ x y l r, es = [l, r] ∧ v = .bool (f x y) ∧
      Den z3 suffix M l (.bool x) ∧ Den z3 suffix M r (.bool y) ∧ l.sort = r.sort := by
    intro f hf
    obtain ⟨x, y, rfl, rfl⟩ := Op.boolBin_eq_some hf
    obtain ⟨l, r, rfl, hl, hr⟩ := args_two h
    exact ⟨x, y, l, r, rfl, rfl, hl, hr, hl.sort.trans hr.sort.symm⟩
  have hcmp : ∀ {f : (w : Nat) → BitVec w → BitVec w → Bool}, Op.bvCmp f vs = some v → ∃ w x y l r, es = [l, r] ∧
      v = .bool (f w x y) ∧ Den z3 suffix M l (.bv w x) ∧ Den z3 suffix M r (.bv w y) := by
    intro f hf
    obtain ⟨w, x, y, rfl, rfl⟩ := Op.bvCmp_eq_some hf
    obtain ⟨l, r, rfl, hl, hr⟩ := args_two h
    exact ⟨w, x, y, l, r, rfl, rfl, hl, hr⟩
  -- an operand is compared for equality as well
  have hweak : ∀ {o : AstOp} {w : Nat} {x y : BitVec w} {l r : AstExpr} {b : Bool}, Den z3 suffix M l (.bv w x) →
      Den z3 suffix M r (.bv w y) → Den z3 suffix M (AstHub.exprOp o [l, r]) (.bool b) →
      Den z3 suffix M (AstHub.exprOp .or [AstHub.exprOp .eq [l, r], AstHub.exprOp o [l, r]]) (.bool (decide (x = y) || b)) := by
    intro o w x y l r b hl hr hb
    exact den_boolBin (fun a b => a || b) (den_eq hl hr (eq?_bv x y)) hb (.inr (.inl rfl)) rfl
  cases o with
  | not =>
    match vs, hv with
    | [.bool x], hv =>
      obtain rfl := Option.some.inj hv
      obtain ⟨a, rfl, ha⟩ := args_one h
      obtain rfl := Option.some.inj he
      exact den_not ha
  | and =>
    obtain ⟨x, y, l, r, rfl, rfl, hl, hr, hsort⟩ := hbool hv
    obtain rfl := Option.some.inj ((logic_same hsort 1).symm.trans he)
    exact den_boolBin _ hl hr (.inl rfl) rfl
  | or =>
    obtain ⟨x, y, l, r, rfl, rfl, hl, hr, hsort⟩ := hbool hv
    obtain rfl := Option.some.inj ((logic_same hsort 1).symm.trans he)
    exact den_boolBin _ hl hr (.inr (.inl rfl)) rfl
  | xor =>
    obtain ⟨x, y, l, r, rfl, rfl, hl, hr, hsort⟩ := hbool hv
    obtain rfl := Option.some.inj ((logic_same hsort 1).symm.trans he)
    exact den_boolBin _ hl hr (.inr (.inr (.inl rfl))) rfl
  | xnor =>
    obtain ⟨x, y, l, r, rfl, rfl, hl, hr, hsort⟩ := hbool hv
    obtain ⟨t, ht, rfl⟩ := Option.map_eq_some_iff.mp he
    obtain rfl := Option.some.inj ((logic_same hsort 1).symm.trans ht)
    exact den_not (den_boolBin (fun a b => a ^^ b) hl hr (.inr (.inr (.inl rfl))) rfl)
  | nand =>
    obtain ⟨x, y, l, r, rfl, rfl, hl, hr, hsort⟩ := hbool hv
    obtain ⟨t, ht, rfl⟩ := Option.map_eq_some_iff.mp he
    obtain rfl := Option.some.inj ((logic_same hsort 1).symm.trans ht)
    exact den_not (den_boolBin (fun a b => a && b) hl hr (.inl rfl) rfl)
  | nor =>
    obtain ⟨x, y, l, r, rfl, rfl, hl, hr, hsort⟩ := hbool hv
    obtain ⟨t, ht, rfl⟩ := Option.map_eq_some_iff.mp he
    obtain rfl := Option.some.inj ((logic_same hsort 1).symm.trans ht)
    exact den_not (den_boolBin (fun a b => a || b) hl hr (.inr (.inl rfl)) rfl)
  | imply =>
    obtain ⟨x, y, l, r, rfl, rfl, hl, hr, -⟩ := hbool hv
    obtain rfl := Option.some.inj he
    exact den_boolBin (fun a b => !a || b) hl hr (.inr (.inr (.inr rfl))) rfl
  | slt =>
    obtain ⟨w, x, y, l, r, rfl, rfl, hl, hr⟩ := @hcmp (fun _ x y => x.slt y) hv
    obtain rfl := Option.some.inj he
    exact den_bvBin hl hr rfl (bvCmp_pair _ x y)
  | sgt =>
    obtain ⟨w, x, y, l, r, rfl, rfl, hl, hr⟩ := @hcmp (fun _ x y => y.slt x) hv
    obtain rfl := Option.some.inj he
    exact den_bvBin hl hr rfl (bvCmp_pair (fun _ x y => y.slt x) x y)
  | ult =>
    obtain ⟨w, x, y, l, r, rfl, rfl, hl, hr⟩ := @hcmp (fun _ x y => x.ult y) hv
    obtain rfl := Option.some.inj he
    exact den_bvBin hl hr rfl (bvCmp_pair _ x y)
  | ugt =>
    obtain ⟨w, x, y, l, r, rfl, rfl, hl, hr⟩ := @hcmp (fun _ x y => y.ult x) hv
    obtain rfl := Option.some.inj he
    exact den_bvBin hl hr rfl (bvCmp_pair (fun _ x y => y.ult x) x y)
  | sle =>
    obtain ⟨w, x, y, l, r, rfl, rfl, hl, hr⟩ := @hcmp (fun _ x y => x.sle y) hv
    obtain rfl := Option.some.inj he
    rw [sle_eq_or]
    exact hweak hl hr (den_bvBin hl hr rfl (bvCmp_pair _ x y))
  | sge =>
    obtain ⟨w, x, y, l, r, rfl, rfl, hl, hr⟩ := @hcmp (fun _ x y => y.sle x) hv
    obtain rfl := Option.some.inj he
    rw [sle_eq_or, decide_eq_comm]
    exact hweak hl hr (den_bvBin hl hr rfl (bvCmp_pair (fun _ x y => y.slt x) x y))
  | ule =>
    obtain ⟨w, x, y, l, r, rfl, rfl, hl, hr⟩ := @hcmp (fun _ x y => x.ule y) hv
    obtain rfl := Option.some.inj he
    rw [ule_eq_or]
    exact hweak hl hr (den_bvBin hl hr rfl (bvCmp_pair _ x y))
  | uge =>
    obtain ⟨w, x, y, l, r, rfl, rfl, hl, hr⟩ := @hcmp (fun _ x y => y.ule x) hv
    obtain rfl := Option.some.inj he
    rw [ule_eq_or, decide_eq_comm]
    exact hweak hl hr (den_bvBin hl hr rfl (bvCmp_pair (fun _ x y => y.ult x) x y))
  | equal =>
    obtain ⟨u, w, b, rfl, hb, rfl⟩ := compared_eq_some hv
    obtain ⟨l, r, rfl, hl, hr⟩ := args_two h
    obtain rfl := Option.some.inj he
    exact den_eq hl hr hb
  | distinct =>
    obtain ⟨u, w, b, rfl, hb, rfl⟩ := compared_eq_some hv
    obtain ⟨l, r, rfl, hl, hr⟩ := args_two h
    obtain rfl := Option.some.inj he
    exact den_not (den_eq hl hr hb)
  | ite => exact den_chosen h hv he

/-! ### Blocks -/

theorem bv_ext {w w' : Nat} {x : BitVec w} {y : BitVec w'} (hw : w = w') (h : x.toNat = y.toNat) : Value.bv w x = .bv w' y := by
  subst hw
  rw [BitVec.eq_of_toNat_eq h]

theorem den_const {c : AstVal} {s : Srt} {v : Value} (hc : AstExpr.ConstOk c (.ofSrt s)) (hs : s.Pos)
    (hv : c.value (fun x => x.val) s = some v) : Den z3 suffix M (.const c (.ofSrt s)) v := by
  obtain ⟨t, u, ht, hu, hsort, heval⟩ := AstVal.exists_term (fun x => x.val) hc hs
  obtain rfl := Option.some.inj (hv.symm.trans hu)
  refine ⟨by rw [hsort]; rfl, hsort ▸ hs, _, by rw [AstExpr.z3Term, ht, Option.map_some], ?_⟩
  rw [z3.eval_simplify, heval]

theorem den_bvConst {r : BvValType} {w : Nat} {e : AstExpr} (he : AstHub.bvConst r w = some e) :
    Den z3 suffix M e (.bv w (BitVec.ofNat w r.val)) := by
  have hrec := AstHub.recorded_bvConst he
  obtain ⟨⟨hpos, -⟩, heq⟩ := Option.ite_none_right_eq_some.mp he
  obtain rfl := Option.some.inj heq
  cases hrec with
  | const hok =>
    refine den_const (s := .bv w) hok (Int.natCast_pos.mp hpos) ?_
    show some (Value.bv w (BitVec.ofInt w (r.val : Int))) = _
    rw [BitVec.ofInt_natCast]

theorem den_literal {l e : AstExpr} {w i : Nat} {x : BitVec w} (hl : Den z3 suffix M l (.bv w x)) (hi : i < 2 ^ 64)
    (he : AstHub.literal l (.ofInt i) = some e) : Den z3 suffix M e (.bv w (BitVec.ofNat w i)) := by
  have hval : (BvValType.ofInt i).val = i := by
    show ((i : Int) % 2 ^ 64).toNat = i
    omega
  unfold AstHub.literal at he
  rw [hl.sort] at he
  have hden := @den_bvConst z3 suffix M _ w e he
  rwa [hval] at hden

theorem den_addrAt {l e : AstExpr} {w i : Nat} {x : BitVec w} (hl : Den z3 suffix M l (.bv w x)) (hi : i < 2 ^ 64)
    (he : addrAt l i = some e) : Den z3 suffix M e (.bv w (addr x i)) := by
  obtain ⟨c, hc, rfl⟩ := Option.map_eq_some_iff.mp he
  exact den_bvBin hl (den_literal hl hi hc) rfl (bvBin_pair (fun _ x y => x + y) x _)

theorem den_load {m l : AstExpr} {a d : Nat} {f : BitVec a → BitVec d} {x : BitVec a} (hm : Den z3 suffix M m (.mem a d f))
    (hl : Den z3 suffix M l (.bv a x)) : Den z3 suffix M (AstHub.load m l) (.bv d (f x)) :=
  den_exprOp (.cons hm (.cons hl .nil)) (.load a d) (dif_pos rfl)

theorem den_store {m l r : AstExpr} {a d : Nat} {f : BitVec a → BitVec d} {x : BitVec a} {y : BitVec d}
    (hm : Den z3 suffix M m (.mem a d f)) (hl : Den z3 suffix M l (.bv a x)) (hr : Den z3 suffix M r (.bv d y)) :
    Den z3 suffix M (AstHub.store m l r) (.mem a d (Function.update f x y)) := by
  refine den_exprOp (.cons hm (.cons hl (.cons hr .nil))) (.store a d) ?_
  show Op.apply .store [.mem a d f, .bv a x, .bv d y] = some (.mem a d (Function.update f x y))
  rw [Op.apply_store]
  exact congrArg some (congrArg (Value.mem a d) (funext fun i => (Function.update_apply f x y i).symm))

theorem den_concat {l r : AstExpr} {w w' : Nat} {x : BitVec w} {y : BitVec w'} (hl : Den z3 suffix M l (.bv w x))
    (hr : Den z3 suffix M r (.bv w' y)) : ∃ e, AstHub.concat l r = some e ∧ Den z3 suffix M e (.bv (w + w') (x ++ y)) := by
  refine ⟨AstHub.exprOp .concat [l, r], ?_, den_exprOp (.cons hl (.cons hr .nil)) (.concat w w') rfl⟩
  have hsort : ∀ {e : AstExpr} {n : Nat} {u : BitVec n}, Den z3 suffix M e (.bv n u) → ¬e.sort = .bool := by
    intro e n u he hbool
    exact nomatch (he.sort.symm.trans hbool)
  unfold AstHub.concat
  rw [show AstHub.bvConst 0 1 = some (.const (.bv 0) (.bv 1)) from rfl, show AstHub.bvConst 1 1 = some (.const (.bv 1) (.bv 1)) from rfl,
    Option.bind_some, Option.map_some, if_neg (hsort hl), if_neg (hsort hr)]

theorem toNat_append {w w' : Nat} (x : BitVec w) (y : BitVec w') : (x ++ y).toNat = x.toNat * 2 ^ w' + y.toNat := by
  rw [BitVec.toNat_append, ← Nat.shiftLeft_add_eq_or_of_lt y.isLt, Nat.shiftLeft_eq]

section Read

variable {endian : Endian} {mem l : AstExpr} {a d : Nat} {f : BitVec a → BitVec d} {x : BitVec a}

theorem den_chunk {e t : AstExpr} {i : Nat} (he : Den z3 suffix M e (.bv d (f (addr x i))))
    (ht : Den z3 suffix M t (.bv (i * d) (read f x endian i))) :
    ∃ u, (if endian = Endian.little then AstHub.concat e t else AstHub.concat t e) = some u ∧
      Den z3 suffix M u (.bv ((i + 1) * d) (read f x endian (i + 1))) := by
  cases endian with
  | little =>
    obtain ⟨u, hu, hden⟩ := den_concat he ht
    refine ⟨u, hu, ?_⟩
    rwa [bv_ext (y := read f x .little (i + 1)) (by ring) (by rw [toNat_append, toNat_read_little])] at hden
  | big =>
    obtain ⟨u, hu, hden⟩ := den_concat ht he
    refine ⟨u, hu, ?_⟩
    rwa [bv_ext (y := read f x .big (i + 1)) (by ring) (by rw [toNat_append, toNat_read_big])] at hden

theorem readChunks_den (hm : Den z3 suffix M mem (.mem a d f)) (hl : Den z3 suffix M l (.bv a x)) {e : AstExpr} (k : Nat) :
    ∀ {i : Nat} {expr : Option AstExpr},
      (i = 0 ∧ expr = none) ∨ (0 < i ∧ ∃ t, expr = some t ∧ Den z3 suffix M t (.bv (i * d) (read f x endian i))) →
      i + k < 2 ^ 64 → 0 < i + k → readChunks endian mem l k i expr = some e →
      Den z3 suffix M e (.bv ((i + k) * d) (read f x endian (i + k))) := by
  induction k with
  | zero =>
    intro i expr hexpr _ hpos he
    obtain ⟨rfl, -⟩ | ⟨-, t, rfl, ht⟩ := hexpr
    · exact absurd hpos (Nat.lt_irrefl 0)
    · obtain rfl := Option.some.inj he
      exact ht
  | succ k ih =>
    intro i expr hexpr hlt _ he
    obtain ⟨li, hli, he⟩ := Option.bind_eq_some_iff.mp he
    obtain ⟨t, hchunk, he⟩ := Option.bind_eq_some_iff.mp he
    have hdata := den_load hm (den_addrAt hl (by omega : i < 2 ^ 64) hli)
    have hden : Den z3 suffix M t (.bv ((i + 1) * d) (read f x endian (i + 1))) := by
      obtain ⟨rfl, rfl⟩ | ⟨-, u, rfl, hu⟩ := hexpr
      · obtain rfl := Option.some.inj hchunk
        rwa [bv_ext (y := read f x endian (0 + 1)) (by ring) (by rw [toNat_read_one])] at hdata
      · obtain ⟨t', ht', hden⟩ := den_chunk hdata hu
        obtain rfl := Option.some.inj (ht'.symm.trans hchunk)
        exact hden
    have hrest := @ih (i + 1) _ (.inr ⟨Nat.succ_pos i, t, rfl, hden⟩) (by omega) (by omega) he
    rwa [Nat.add_right_comm] at hrest

end Read

/-- An expression without a value in a model. -/
def NoValue (z3 : Z3) (suffix : String) (M : Model) (e : AstExpr) : Prop :=
  ∀ t, e.z3Term z3 suffix = some t → t.eval M = none

theorem NoValue.not_den {e : AstExpr} {v : Value} (h : NoValue z3 suffix M e) : ¬Den z3 suffix M e v := by
  intro hden
  obtain ⟨t, ht, hv⟩ := hden.term
  rw [h t ht] at hv
  cases hv

theorem noValue_of_mem {o : AstOp} {es : List AstExpr} (h : ∃ a ∈ es, NoValue z3 suffix M a) :
    NoValue z3 suffix M (AstHub.exprOp o es) := by
  have hargs : ∀ {es : List AstExpr}, (∃ a ∈ es, NoValue z3 suffix M a) → ∀ ts, AstExpr.z3TermList z3 suffix es = some ts →
      Term.evalList M ts = none := by
    intro es
    induction es with
    | nil => exact fun h => nomatch h.choose_spec.1
    | cons b es ih =>
      intro h ts hts
      obtain ⟨t, ht, hts⟩ := Option.bind_eq_some_iff.mp hts
      obtain ⟨us, hus, rfl⟩ := Option.map_eq_some_iff.mp hts
      obtain ⟨a, ha, hnone⟩ := h
      rw [Term.evalList]
      cases List.mem_cons.mp ha with
      | inl heq => rw [hnone t (heq ▸ ht), Option.bind_none]
      | inr ha =>
        rw [ih ⟨a, ha, hnone⟩ us hus]
        cases Term.eval M t <;> rfl
  intro t ht
  obtain ⟨ts, hts, rfl⟩ := Option.map_eq_some_iff.mp ht
  rw [z3.eval_simplify, Term.eval, hargs h ts hts, Option.bind_none]

section Write

variable {endian : Endian} {l data : AstExpr} {a d w n : Nat} {f : BitVec a → BitVec d} {x : BitVec a} {y : BitVec w}
  {z : BitVec (n * d)}

/-- The lowest bit of a chunk. -/
def bitAt (endian : Endian) (w d i : Nat) : Int := if endian = Endian.little then (i * d : Nat) else w - d - (i * d : Nat)

theorem bitAt_succ (endian : Endian) (w d i : Nat) :
    bitAt endian w d i + (if endian = Endian.little then (d : Int) else -d) = bitAt endian w d (i + 1) := by
  unfold bitAt
  split_ifs
  · push_cast
    ring
  · push_cast
    ring

theorem bitAt_of_lt {i : Nat} (h : i < n) : bitAt endian (n * d) d i = (endian.pos n i * d : Nat) := by
  obtain ⟨k, rfl⟩ : ∃ k, n = i + 1 + k := ⟨n - i - 1, by omega⟩
  cases endian with
  | little => rfl
  | big =>
    have hpos : i + 1 + k - 1 - i = k := by omega
    show (((i + 1 + k) * d : Nat) : Int) - d - (i * d : Nat) = ((i + 1 + k - 1 - i) * d : Nat)
    rw [hpos]
    push_cast
    ring

theorem den_extract {k : Nat} (hdata : Den z3 suffix M data (.bv w y)) (hd : 0 < d) (hfit : k * d + d ≤ w) :
    Den z3 suffix M (AstHub.extract data ((k * d : Nat) + (d : Int) - 1) (k * d : Nat)) (.bv d (wordAt d y k)) := by
  have hhi : ((k * d : Nat) : Int) + (d : Int) - 1 = ((k * d + d - 1 : Nat) : Int) := by omega
  rw [hhi]
  refine den_exprOp (.cons hdata .nil) (.extract w (by omega) (by omega) (by omega)) ?_
  show (Op.extract (unsigned (k * d + d - 1 : Nat)) (unsigned (k * d : Nat))).apply [.bv w y] = _
  rw [unsigned_natCast, unsigned_natCast]
  show (if k * d ≤ k * d + d - 1 ∧ k * d + d - 1 < w then _ else none) = _
  rw [if_pos ⟨by omega, by omega⟩]
  refine congrArg some (bv_ext (by omega) ?_)
  have hwidth : k * d + d - 1 - k * d + 1 = d := by omega
  unfold wordAt
  rw [BitVec.extractLsb_toNat, BitVec.extractLsb'_toNat, hwidth]

theorem noValue_extract (hdata : Den z3 suffix M data (.bv (n * d) z)) (hd : 0 < d) (hw : n * d < 2 ^ 31) :
    NoValue z3 suffix M (AstHub.extract data (bitAt endian (n * d) d n + (d : Int) - 1) (bitAt endian (n * d) d n)) := by
  intro t ht
  obtain ⟨t', ht', heval⟩ := @term_exprOp z3 suffix M
    (.extract (bitAt endian (n * d) d n + (d : Int) - 1) (bitAt endian (n * d) d n)) _ _ (.cons hdata .nil)
  obtain rfl := Option.some.inj (ht.symm.trans ht')
  rw [heval]
  refine if_neg fun hbounds => ?_
  have hhi : ¬unsigned (bitAt endian (n * d) d n + (d : Int) - 1) < n * d := by
    unfold unsigned
    cases endian with
    | little =>
      have hend : bitAt .little (n * d) d n = (n * d : Nat) := rfl
      rw [hend, if_pos (by omega)]
      omega
    | big =>
      have hend : bitAt .big (n * d) d n = -(d : Int) := by
        show ((n * d : Nat) : Int) - d - (n * d : Nat) = -(d : Int)
        ring
      rw [hend, if_neg (by omega)]
      omega
  exact hhi hbounds.2

theorem storeChunks_den (hl : Den z3 suffix M l (.bv a x)) (hdata : Den z3 suffix M data (.bv (n * d) z)) (hd : 0 < d)
    (hw : n * d < 2 ^ 31) {e : AstExpr} (k : Nat) :
    ∀ {i : Nat} {expr : AstExpr}, i + k ≤ n → Den z3 suffix M expr (.mem a d (write f x z endian n i)) →
      storeChunks d (if endian = Endian.little then (d : Int) else -d) l data k i (bitAt endian (n * d) d i) expr = some e →
      Den z3 suffix M e (.mem a d (write f x z endian n (i + k))) := by
  have hn : n ≤ n * d := Nat.le_mul_of_pos_right n hd
  induction k with
  | zero =>
    intro i expr _ hexpr he
    obtain rfl := Option.some.inj he
    exact hexpr
  | succ k ih =>
    intro i expr hik hexpr he
    obtain ⟨li, hli, he⟩ := Option.bind_eq_some_iff.mp he
    rw [bitAt_succ] at he
    have hpos : endian.pos n i + 1 ≤ n := by
      cases endian with
      | little => exact Nat.lt_of_lt_of_le (Nat.lt_add_of_pos_right (Nat.succ_pos k)) hik
      | big =>
        show n - 1 - i + 1 ≤ n
        omega
    have hfit : endian.pos n i * d + d ≤ n * d := by
      rw [← Nat.succ_mul]
      exact Nat.mul_le_mul_right d hpos
    have hchunk := den_extract hdata hd hfit
    rw [← bitAt_of_lt (by omega : i < n)] at hchunk
    have hstore := den_store hexpr (den_addrAt hl (by omega : i < 2 ^ 64) hli) hchunk
    rw [← write_succ] at hstore
    have hrest := @ih (i + 1) _ (by omega) hstore he
    rwa [Nat.add_right_comm] at hrest

theorem storeChunks_noValue {chunkSize bitInc : Int} {e : AstExpr} (k : Nat) : ∀ {i : Nat} {bitIdx : Int} {expr : AstExpr},
    NoValue z3 suffix M expr → storeChunks chunkSize bitInc l data k i bitIdx expr = some e → NoValue z3 suffix M e := by
  induction k with
  | zero =>
    intro i bitIdx expr hexpr he
    obtain rfl := Option.some.inj he
    exact hexpr
  | succ k ih =>
    intro i bitIdx expr hexpr he
    obtain ⟨li, -, he⟩ := Option.bind_eq_some_iff.mp he
    exact ih (noValue_of_mem ⟨expr, List.mem_cons_self, hexpr⟩) he

theorem storeChunks_beyond (hdata : Den z3 suffix M data (.bv (n * d) z)) (hd : 0 < d) (hw : n * d < 2 ^ 31) {e : AstExpr}
    (k : Nat) : ∀ {i : Nat} {expr : AstExpr}, i ≤ n → n < i + k →
      storeChunks d (if endian = Endian.little then (d : Int) else -d) l data k i (bitAt endian (n * d) d i) expr = some e →
      NoValue z3 suffix M e := by
  induction k with
  | zero => exact fun hi hlt _ => absurd hlt (Nat.not_lt.mpr hi)
  | succ k ih =>
    intro i expr hi hlt he
    obtain ⟨li, -, he⟩ := Option.bind_eq_some_iff.mp he
    rw [bitAt_succ] at he
    by_cases heq : i = n
    · subst heq
      have hchunk := @noValue_extract z3 suffix M endian data d i z hdata hd hw
      refine storeChunks_noValue k (noValue_of_mem ⟨_, ?_, hchunk⟩) he
      simp only [List.mem_cons, true_or, or_true]
    · exact @ih (i + 1) _ (by omega) (by omega) he

end Write

/-! ### Where the operators differ -/

/-- When an operator gives its node's value on some operands: never for a negated bitwise operator, on those of which the signed
quotient is the unsigned one, and if the words beyond as many as a word has bits are in the memory already. -/
def OpAgrees : NodeOp → List Value → Prop
  | .bv .xnor, _ | .bv .nand, _ | .bv .nor, _ => False
  | .bv .udiv, vs => ∀ w (x y : BitVec w), vs = [.bv w x, .bv w y] → Bits.SmtDivAgree x y
  | .mem (.storeBlock endian), vs => ∀ a d (f : BitVec a → BitVec d) x w (y : BitVec w), vs = [.mem a d f, .bv a x, .bv w y] →
      d ≤ w / d ∧ write f x y endian (w / d) d = write f x y endian (w / d) (w / d)
  | _, _ => True

theorem bvTo_eq_some {f : (w : Nat) → BitVec w → Option Value} {vs : List Value} {v : Value} (h : bvTo f vs = some v) :
    ∃ w x, vs = [.bv w x] ∧ f w x = some v := by
  match vs, h with
  | [.bv w x], h => exact ⟨w, x, rfl, h⟩

theorem atAddr_eq_some {f : (a d : Nat) → (BitVec a → BitVec d) → BitVec a → Option Value} {vs : List Value} {v : Value}
    (h : atAddr f vs = some v) : ∃ a d m x, vs = [.mem a d m, .bv a x] ∧ f a d m x = some v := by
  match vs, h with
  | [.mem a d m, .bv w x], h =>
    change (if h : w = a then f a d m (x.cast h) else none) = some v at h
    by_cases hw : w = a
    · subst hw
      rw [dif_pos rfl] at h
      exact ⟨_, d, m, x, rfl, h⟩
    · rw [dif_neg hw] at h
      cases h

theorem dataAt_eq_some {f : (a d : Nat) → (BitVec a → BitVec d) → BitVec a → (w : Nat) → BitVec w → Option Value}
    {vs : List Value} {v : Value} (h : dataAt f vs = some v) :
    ∃ a d m x w y, vs = [.mem a d m, .bv a x, .bv w y] ∧ f a d m x w y = some v := by
  match vs, h with
  | [.mem a d m, .bv w x, .bv w' y], h =>
    change (if h : w = a then f a d m (x.cast h) w' y else none) = some v at h
    by_cases hw : w = a
    · subst hw
      rw [dif_pos rfl] at h
      exact ⟨_, d, m, x, w', y, rfl, h⟩
    · rw [dif_neg hw] at h
      cases h

theorem not_den_not {a : AstExpr} {w : Nat} {x : BitVec w} {v : Value} (h : Den z3 suffix M a (.bv w x)) :
    ¬Den z3 suffix M (AstHub.not a) v :=
  not_den_exprOp (.cons h .nil) fun happly => nomatch (show (none : Option Value) = some v from happly)

section Plain

variable {p : AstOp} {f : (w : Nat) → BitVec w → BitVec w → BitVec w} {es : List AstExpr} {vs : List Value} {v : Value} {e : AstExpr}

theorem den_plain (h : List.Forall₂ (Den z3 suffix M) es vs) (hp : p.isBvBin = true)
    (hz : ∀ w : Nat, (p.z3Op [.bv w, .bv w]).apply = Op.bvBin f) (hv : Op.bvBin f vs = some v)
    (he : arg2 (fun a b => some (AstHub.exprOp p [a, b])) es = some e) : Den z3 suffix M e v := by
  obtain ⟨w, x, y, rfl, rfl⟩ := Op.bvBin_eq_some hv
  obtain ⟨l, r, rfl, hl, hr⟩ := args_two h
  obtain rfl := Option.some.inj he
  exact den_bvBin hl hr hp ((congrFun (hz w) _).trans hv)

theorem arg2_logic (h : List.Forall₂ (Den z3 suffix M) es vs) (hv : Op.bvBin f vs = some v) :
    arg2 (AstHub.logic p 2) es = arg2 (fun a b => some (AstHub.exprOp p [a, b])) es := by
  obtain ⟨w, x, y, rfl, rfl⟩ := Op.bvBin_eq_some hv
  obtain ⟨l, r, rfl, hl, hr⟩ := args_two h
  exact logic_same (hl.sort.trans hr.sort.symm) 1

theorem not_den_negated (h : List.Forall₂ (Den z3 suffix M) es vs) (hp : p.isBvBin = true)
    (hz : ∀ w : Nat, (p.z3Op [.bv w, .bv w]).apply = Op.bvBin f) {g : (w : Nat) → BitVec w → BitVec w → BitVec w}
    (hv : Op.bvBin g vs = some v) (he : arg2 (fun a b => (AstHub.logic p 2 a b).map AstHub.not) es = some e) :
    ¬Den z3 suffix M e v := by
  obtain ⟨w, x, y, rfl, rfl⟩ := Op.bvBin_eq_some hv
  obtain ⟨l, r, rfl, hl, hr⟩ := args_two h
  obtain ⟨t, ht, rfl⟩ := Option.map_eq_some_iff.mp he
  obtain rfl := Option.some.inj ((logic_same (hl.sort.trans hr.sort.symm) 1).symm.trans ht)
  exact not_den_not (den_bvBin hl hr hp ((congrFun (hz w) _).trans (bvBin_pair f x y)))

theorem den_extended {w width : Nat} {a : AstExpr} {x : BitVec w} (ha : Den z3 suffix M a (.bv w x)) (hw : w ≤ width) :
    Den z3 suffix M (AstHub.zExt a width) (.bv width (x.setWidth width)) ∧
      Den z3 suffix M (AstHub.sExt a width) (.bv width (x.signExtend width)) := by
  obtain ⟨k, rfl⟩ := Nat.exists_eq_add_of_le hw
  have hk : unsigned (((w + k : Nat) : Int) - w) = k := by
    have hsub : ((w + k : Nat) : Int) - w = (k : Nat) := by omega
    rw [hsub, unsigned_natCast]
  constructor
  · refine den_exprOp (.cons ha .nil) (.zext w (Int.ofNat_le.mpr hw)) ?_
    show (Op.zeroExtend (unsigned (((w + k : Nat) : Int) - w))).apply [.bv w x] = _
    rw [hk]
    rfl
  · refine den_exprOp (.cons ha .nil) (.sext w (Int.ofNat_le.mpr hw)) ?_
    show (Op.signExtend (unsigned (((w + k : Nat) : Int) - w))).apply [.bv w x] = _
    rw [hk]
    rfl

theorem den_extract_of_lt {w hi lo : Nat} {a : AstExpr} {x : BitVec w} (ha : Den z3 suffix M a (.bv w x)) (hle : lo ≤ hi)
    (hlt : hi < w) : Den z3 suffix M (AstHub.extract a hi lo) (.bv (hi - lo + 1) (x.extractLsb hi lo)) := by
  refine den_exprOp (.cons ha .nil) (.extract w (Int.natCast_nonneg lo) (Int.ofNat_le.mpr hle) (Int.ofNat_lt.mpr hlt)) ?_
  show (Op.extract (unsigned hi) (unsigned lo)).apply [.bv w x] = _
  rw [unsigned_natCast, unsigned_natCast]
  exact if_pos ⟨hle, hlt⟩

end Plain

theorem cnvtBvOp_iff {o : BitvectorOp} {es : List AstExpr} {vs : List Value} {v : Value} {e : AstExpr}
    (h : List.Forall₂ (Den z3 suffix M) es vs) (hv : o.apply vs = some v) (he : cnvtBvOp o es = some e) :
    Den z3 suffix M e v ↔ OpAgrees (.bv o) vs := by
  cases o with
  | negate =>
    obtain ⟨w, x, rfl, rfl⟩ := Op.bvUn_eq_some hv
    obtain ⟨a, rfl, ha⟩ := args_one h
    obtain rfl := Option.some.inj he
    exact iff_of_true (den_exprOp (.cons ha .nil) (.bvUn w (.inl rfl)) rfl) trivial
  | complement =>
    obtain ⟨w, x, rfl, rfl⟩ := Op.bvUn_eq_some hv
    obtain ⟨a, rfl, ha⟩ := args_one h
    obtain rfl := Option.some.inj he
    exact iff_of_true (den_exprOp (.cons ha .nil) (.bvUn w (.inr rfl)) rfl) trivial
  | lRotate n =>
    obtain ⟨w, x, rfl, rfl⟩ := Op.bvUn_eq_some hv
    obtain ⟨a, rfl, ha⟩ := args_one h
    obtain rfl := Option.some.inj he
    refine iff_of_true (den_exprOp (.cons ha .nil) (.lRotate w (Int.natCast_nonneg n)) ?_) trivial
    show (Op.rotateLeft (unsigned n)).apply [.bv w x] = _
    rw [unsigned_natCast]
    rfl
  | rRotate n =>
    obtain ⟨w, x, rfl, rfl⟩ := Op.bvUn_eq_some hv
    obtain ⟨a, rfl, ha⟩ := args_one h
    obtain rfl := Option.some.inj he
    refine iff_of_true (den_exprOp (.cons ha .nil) (.rRotate w (Int.natCast_nonneg n)) ?_) trivial
    show (Op.rotateRight (unsigned n)).apply [.bv w x] = _
    rw [unsigned_natCast]
    rfl
  | zExt width =>
    obtain ⟨w, x, rfl, hx⟩ := bvTo_eq_some hv
    obtain ⟨a, rfl, ha⟩ := args_one h
    obtain rfl := Option.some.inj he
    obtain ⟨hw, hx⟩ := Option.ite_none_right_eq_some.mp hx
    obtain rfl := Option.some.inj hx
    exact iff_of_true (den_extended ha hw).1 trivial
  | sExt width =>
    obtain ⟨w, x, rfl, hx⟩ := bvTo_eq_some hv
    obtain ⟨a, rfl, ha⟩ := args_one h
    obtain rfl := Option.some.inj he
    obtain ⟨hw, hx⟩ := Option.ite_none_right_eq_some.mp hx
    obtain rfl := Option.some.inj hx
    exact iff_of_true (den_extended ha hw).2 trivial
  | extract hi lo =>
    obtain ⟨w, x, rfl, hx⟩ := bvTo_eq_some hv
    obtain ⟨a, rfl, ha⟩ := args_one h
    obtain rfl := Option.some.inj he
    obtain ⟨hbounds, hx⟩ := Option.ite_none_right_eq_some.mp hx
    obtain rfl := Option.some.inj hx
    exact iff_of_true (den_extract_of_lt ha hbounds.1 hbounds.2) trivial
  | getBit i =>
    obtain ⟨w, x, rfl, hx⟩ := bvTo_eq_some hv
    obtain ⟨a, rfl, ha⟩ := args_one h
    obtain rfl := Option.some.inj he
    obtain ⟨hlt, hx⟩ := Option.ite_none_right_eq_some.mp hx
    obtain rfl := Option.some.inj hx
    have hden := den_extract_of_lt ha (Nat.le_refl i) hlt
    rw [bv_ext (y := BitVec.ofBool (x.getLsbD i)) (by omega) (by
      rw [BitVec.extractLsb_toNat, Nat.sub_self, Nat.zero_add, pow_one, BitVec.toNat_ofBool, BitVec.getLsbD, Nat.toNat_testBit,
        Nat.shiftRight_eq_div_pow])] at hden
    exact iff_of_true hden trivial
  | add | sub | mul | srem | urem | smod | shl | lshr | ashr =>
    exact iff_of_true (den_plain h rfl (fun _ => rfl) hv he) trivial
  | and | or | xor => exact iff_of_true (den_plain h rfl (fun _ => rfl) hv ((arg2_logic h hv).symm.trans he)) trivial
  | xnor =>
    have hnot := @not_den_negated z3 suffix M .xor (fun _ x y => x ^^^ y) es vs v e h rfl (fun _ => rfl)
      (fun _ x y => ~~~(x ^^^ y)) hv he
    exact iff_of_false hnot id
  | nand =>
    have hnot := @not_den_negated z3 suffix M .and (fun _ x y => x &&& y) es vs v e h rfl (fun _ => rfl)
      (fun _ x y => ~~~(x &&& y)) hv he
    exact iff_of_false hnot id
  | nor =>
    have hnot := @not_den_negated z3 suffix M .or (fun _ x y => x ||| y) es vs v e h rfl (fun _ => rfl)
      (fun _ x y => ~~~(x ||| y)) hv he
    exact iff_of_false hnot id
  | sdiv => cases he
  | udiv =>
    obtain ⟨w, x, y, rfl, rfl⟩ := Op.bvBin_eq_some hv
    have hden := den_plain (p := .div) h rfl (fun _ => rfl) (bvBin_pair (fun _ x y => x.smtSDiv y) x y) he
    constructor
    · intro h' w' x' y' heq
      simp only [List.cons.injEq, Value.bv.injEq, and_true] at heq
      obtain ⟨⟨rfl, hx⟩, -, hy⟩ := heq
      obtain rfl := eq_of_heq hx
      obtain rfl := eq_of_heq hy
      have hsame := hden.unique h'
      simp only [Value.bv.injEq, heq_eq_eq, true_and] at hsame
      exact Bits.smtSDiv_eq_smtUDiv_iff.mp hsame
    · intro hagree
      rw [← Bits.smtSDiv_eq_smtUDiv_iff.mpr (hagree w x y rfl)]
      exact hden
  | concat =>
    match vs, hv with
    | [.bv w x, .bv w' y], hv =>
      obtain rfl := Option.some.inj hv
      obtain ⟨l, r, rfl, hl, hr⟩ := args_two h
      obtain ⟨t, ht, hden⟩ := den_concat hl hr
      obtain rfl := Option.some.inj (ht.symm.trans he)
      exact iff_of_true hden trivial
  | readMem =>
    obtain ⟨a, d, f, x, rfl, hx⟩ := atAddr_eq_some (f := fun _ d f x => some (.bv d (f x))) hv
    obtain rfl := Option.some.inj hx
    obtain ⟨m, l, rfl, hm, hl⟩ := args_two h
    obtain rfl := Option.some.inj he
    exact iff_of_true (den_load hm hl) trivial
  | readMemBlock chunks endian =>
    obtain ⟨a, d, f, x, rfl, hx⟩ := atAddr_eq_some (f := fun _ d f x =>
      if 0 < chunks ∧ chunks * d < 2 ^ 31 then some (.bv (chunks * d) (read f x endian chunks)) else none) hv
    obtain ⟨⟨hpos, hlt⟩, hx⟩ := Option.ite_none_right_eq_some.mp hx
    obtain rfl := Option.some.inj hx
    obtain ⟨m, l, rfl, hm, hl⟩ := args_two h
    have hle : chunks ≤ chunks * d := Nat.le_mul_of_pos_right _ hm.pos.2
    have hden := readChunks_den hm hl chunks (.inl ⟨rfl, rfl⟩) (by omega) (by omega) he
    rw [Nat.zero_add] at hden
    exact iff_of_true hden trivial
  | ite => exact iff_of_true (den_chosen h hv he) trivial

theorem bitAt_zero (endian : Endian) (w d : Nat) :
    bitAt endian w d 0 = if endian = Endian.little then 0 else (w : Int) - d := by
  unfold bitAt
  rw [Nat.zero_mul, Nat.cast_zero, sub_zero]

theorem cnvtMemOp_iff {o : MemOp} {ts : List Srt} {es : List AstExpr} {vs : List Value} {v : Value} {e : AstExpr}
    (h : List.Forall₂ (Den z3 suffix M) es vs) (hts : ts = vs.map Value.sort) (hv : o.apply vs = some v)
    (he : cnvtMemOp ts o es = some e) : Den z3 suffix M e v ↔ OpAgrees (.mem o) vs := by
  cases o with
  | store =>
    obtain ⟨a, d, f, x, w, y, rfl, hx⟩ := dataAt_eq_some (f := fun a d f x w y =>
      if h : w = d then some (.mem a d (Function.update f x (y.cast h))) else none) hv
    obtain ⟨m, l, r, rfl, hm, hl, hr⟩ := args_three h
    obtain rfl := Option.some.inj he
    by_cases hw : w = d
    · subst hw
      rw [dif_pos rfl] at hx
      obtain rfl := Option.some.inj hx
      exact iff_of_true (den_store hm hl hr) trivial
    · rw [dif_neg hw] at hx
      cases hx
  | storeBlock endian =>
    obtain ⟨a, d, f, x, w, y, rfl, hx⟩ := dataAt_eq_some (f := fun a d f x w y =>
      if 0 < d ∧ d ∣ w ∧ w < 2 ^ 31 then some (.mem a d (write f x y endian (w / d) (w / d))) else none) hv
    obtain ⟨⟨hd, ⟨n, hn⟩, hw⟩, hx⟩ := Option.ite_none_right_eq_some.mp hx
    obtain rfl : w = n * d := hn.trans (Nat.mul_comm d n)
    obtain rfl := Option.some.inj hx
    obtain ⟨m, l, r, rfl, hm, hl, hr⟩ := args_three h
    subst hts
    have hwords : n * d / d = n := Nat.mul_div_cancel n hd
    have hagrees : OpAgrees (.mem (.storeBlock endian)) [.mem a d f, .bv a x, .bv (n * d) y] ↔
        d ≤ n ∧ write f x y endian n d = write f x y endian n n := by
      constructor
      · intro h'
        have hsame := h' a d f x (n * d) y rfl
        rwa [hwords] at hsame
      · intro h' a' d' f' x' w' y' heq
        simp only [List.cons.injEq, Value.mem.injEq, Value.bv.injEq, and_true] at heq
        obtain ⟨⟨rfl, rfl, hf⟩, ⟨-, hx⟩, rfl, hy⟩ := heq
        obtain rfl := eq_of_heq hf
        obtain rfl := eq_of_heq hx
        obtain rfl := eq_of_heq hy
        rwa [hwords]
    have hloop : storeChunks d (if endian = Endian.little then (d : Int) else -d) l r d 0 (bitAt endian (n * d) d 0) m = some e := by
      rw [bitAt_zero]
      exact he
    rw [hagrees, hwords]
    by_cases hle : d ≤ n
    · have hden := storeChunks_den hl hr hd hw d (by omega : 0 + d ≤ n) hm hloop
      rw [Nat.zero_add] at hden
      constructor
      · intro h'
        have hsame := hden.unique h'
        simp only [Value.mem.injEq, heq_eq_eq, true_and] at hsame
        exact ⟨hle, hsame⟩
      · intro h'
        rwa [h'.2] at hden
    · have hnone := storeChunks_beyond hr hd hw d (Nat.zero_le n) (by omega : n < 0 + d) hloop
      exact iff_of_false hnone.not_den fun h' => hle h'.1
  | ite => exact iff_of_true (den_chosen h hv he) trivial

theorem cnvtOp_iff {o : NodeOp} {ts : List Srt} {es : List AstExpr} {vs : List Value} {v : Value} {e : AstExpr}
    (h : List.Forall₂ (Den z3 suffix M) es vs) (hts : ts = vs.map Value.sort) (hv : o.apply vs = some v)
    (he : cnvtOp ts o es = some e) : Den z3 suffix M e v ↔ OpAgrees o vs := by
  cases o with
  | bool o => exact iff_of_true (cnvtBoolOp_den h hv he) trivial
  | bv o => exact cnvtBvOp_iff h hv he
  | mem o => exact cnvtMemOp_iff h hts hv he

end Den

end Itsy

end Ilang
