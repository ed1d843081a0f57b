import Ilang.Target.ItsyOps

/-!
# Which nodes are converted to their meaning

A node is made from its operands, so what the operators and the conversion of a number to `int` get wrong can only be told for a node
together with all nodes below it: they are converted to their meaning exactly where no operator and no constant makes a difference.
-/

namespace Ilang

open Smt WordBlock

namespace Itsy

namespace Node

section Nodes

variable (z3 : Z3) (suffix : String) (toInt : Nat → Int)

/-- An expression is made for a node, with its type and in every model with its value. -/
def Faithful (n : Node) : Prop :=
  ∃ e, n.convert toInt = some e ∧ e.sort = .ofSrt n.type ∧
    ∀ M : Model, ∃ t, e.z3Term z3 suffix = some t ∧ t.eval M = n.eval M suffix

/-- A constant is the same after it was an `int`, and an operator agrees on all values that the operands have. -/
def Agrees : Node → Prop
  | .bvConst x _ => toInt x % 2 ^ 64 = x
  | .memConst x m a d =>
    AstVal.contents (fun x => x.val) a d (.ofInt (toInt x)) (memVal toInt m).entries = ConstVal.contents a d x m
  | .op o args _ => ∀ (M : Model) vs, evalList M suffix args = some vs → OpAgrees o vs
  | _ => True

end Nodes

section Lists

variable {suffix : String} {toInt : Nat → Int} {M : Model}

theorem convertList_eq_some {args : List Node} {es : List AstExpr} :
    convertList toInt args = some es ↔ List.Forall₂ (fun a e => a.convert toInt = some e) args es := by
  induction args generalizing es with
  | nil => simp only [convertList, Option.some.injEq, List.forall₂_nil_left_iff, eq_comm]
  | cons a as ih =>
    rw [convertList, Option.bind_eq_some_iff, List.forall₂_cons_left_iff]
    constructor
    · intro h
      obtain ⟨e, he, h⟩ := h
      obtain ⟨es', hes, rfl⟩ := Option.map_eq_some_iff.mp h
      exact ⟨e, es', he, ih.mp hes, rfl⟩
    · intro h
      obtain ⟨e, es', he, hes, rfl⟩ := h
      exact ⟨e, he, by rw [ih.mpr hes, Option.map_some]⟩

theorem evalList_eq_some {args : List Node} {vs : List Value} :
    evalList M suffix args = some vs ↔ List.Forall₂ (fun a v => a.eval M suffix = some v) args vs := by
  induction args generalizing vs with
  | nil => simp only [evalList, Option.some.injEq, List.forall₂_nil_left_iff, eq_comm]
  | cons a as ih =>
    rw [evalList, Option.bind_eq_some_iff, List.forall₂_cons_left_iff]
    constructor
    · intro h
      obtain ⟨v, hv, h⟩ := h
      obtain ⟨vs', hvs, rfl⟩ := Option.map_eq_some_iff.mp h
      exact ⟨v, vs', hv, ih.mp hvs, rfl⟩
    · intro h
      obtain ⟨v, vs', hv, hvs, rfl⟩ := h
      exact ⟨v, hv, by rw [ih.mpr hvs, Option.map_some]⟩

theorem WellTyped.sort_eq {n : Node} (h : n.WellTyped suffix) {v : Value} (hv : n.eval M suffix = some v) : v.sort = n.type := by
  obtain ⟨u, hu, hsort⟩ := h.2 M
  obtain rfl := Option.some.inj (hv.symm.trans hu)
  exact hsort

theorem exists_evalList {args : List Node} (hargs : ∀ a ∈ args, a.WellTyped suffix) : ∃ vs, evalList M suffix args = some vs := by
  induction args with
  | nil => exact ⟨[], rfl⟩
  | cons a as ih =>
    obtain ⟨ha, has⟩ := List.forall_mem_cons.mp hargs
    obtain ⟨v, hv, -⟩ := ha.2 M
    obtain ⟨vs, hvs⟩ := ih has
    exact ⟨v :: vs, by rw [evalList, hv, hvs, Option.bind_some, Option.map_some]⟩

theorem sorts_eq {args : List Node} (hargs : ∀ a ∈ args, a.WellTyped suffix) {vs : List Value}
    (h : List.Forall₂ (fun a v => a.eval M suffix = some v) args vs) : args.map type = vs.map Value.sort := by
  induction h with
  | nil => rfl
  | cons hv _ ih =>
    obtain ⟨ha, has⟩ := List.forall_mem_cons.mp hargs
    rw [List.map_cons, List.map_cons, ih has, ha.sort_eq hv]

end Lists

section Exact

variable {z3 : Z3} {suffix : String} {toInt : Nat → Int}

theorem faithful_iff {n : Node} {e : AstExpr} (hn : n.WellTyped suffix) (he : n.convert toInt = some e) :
    n.Faithful z3 suffix toInt ↔ ∀ (M : Model) v, n.eval M suffix = some v → Den z3 suffix M e v := by
  constructor
  · intro h M v hv
    obtain ⟨e', he', hsort, hterm⟩ := h
    obtain rfl := Option.some.inj (he.symm.trans he')
    have htype := hn.sort_eq hv
    refine ⟨hsort.trans (by rw [htype]), htype ▸ hn.1, ?_⟩
    obtain ⟨t, ht, heval⟩ := hterm M
    exact ⟨t, ht, heval.trans hv⟩
  · intro h
    refine ⟨e, he, ?_, fun M => ?_⟩
    · obtain ⟨v, hv, htype⟩ := hn.2 default
      rw [(h default v hv).sort, htype]
    · obtain ⟨v, hv, -⟩ := hn.2 M
      rw [hv]
      exact (h M v hv).term

theorem den_operands {M : Model} {args : List Node} {es : List AstExpr} {vs : List Value}
    (hargs : ∀ a ∈ args, a.WellTyped suffix ∧ a.Faithful z3 suffix toInt)
    (hes : List.Forall₂ (fun a e => a.convert toInt = some e) args es)
    (hvs : List.Forall₂ (fun a v => a.eval M suffix = some v) args vs) : List.Forall₂ (Den z3 suffix M) es vs := by
  induction hes generalizing vs with
  | nil =>
    obtain rfl := List.forall₂_nil_left_iff.mp hvs
    exact .nil
  | cons he _ ih =>
    obtain ⟨v, us, hv, hus, rfl⟩ := List.forall₂_cons_left_iff.mp hvs
    obtain ⟨⟨hn, ha⟩, has⟩ := List.forall_mem_cons.mp hargs
    exact .cons ((faithful_iff hn he).mp ha M v hv) (ih has hus)

theorem bvConst_faithful_iff {x w : Nat} (hn : (bvConst x w).WellTyped suffix) {e : AstExpr}
    (he : (bvConst x w).convert toInt = some e) :
    (bvConst x w).Faithful z3 suffix toInt ↔ (bvConst x w).Agrees suffix toInt := by
  obtain ⟨v, hv, -⟩ := hn.2 default
  obtain ⟨⟨hw, hx⟩, -⟩ := Option.ite_none_right_eq_some.mp hv
  have heval : ∀ M : Model, (bvConst x w).eval M suffix = some (.bv w (BitVec.ofNat w x)) := fun M => if_pos ⟨hw, hx⟩
  have hden : ∀ M, Den z3 suffix M e (.bv w (BitVec.ofNat w (BvValType.ofInt (toInt x)).val)) := fun M => den_bvConst he
  have hfit : (BvValType.ofInt (toInt x)).val < 2 ^ w := by
    have hrec := AstHub.recorded_bvConst he
    obtain ⟨-, heq⟩ := Option.ite_none_right_eq_some.mp he
    obtain rfl := Option.some.inj heq
    cases hrec with
    | const hok =>
      obtain ⟨w', hw', -, hlt⟩ := hok
      obtain rfl := AstSort.bv.inj hw'
      rwa [Int.toNat_natCast] at hlt
  have hval : ((BvValType.ofInt (toInt x)).val : Int) = toInt x % 2 ^ 64 := by
    show (((toInt x % 2 ^ 64).toNat : Nat) : Int) = _
    omega
  rw [faithful_iff hn he]
  show _ ↔ toInt x % 2 ^ 64 = x
  rw [← hval, Int.ofNat_inj]
  constructor
  · intro h
    have hsame := (hden default).unique (h default _ (heval default))
    simp only [Value.bv.injEq, heq_eq_eq, true_and] at hsame
    have hnat := congrArg BitVec.toNat hsame
    rwa [BitVec.toNat_ofNat, BitVec.toNat_ofNat, Nat.mod_eq_of_lt hfit, Nat.mod_eq_of_lt hx] at hnat
  · intro h M u hu
    obtain rfl := Option.some.inj ((heval M).symm.trans hu)
    rw [← h]
    exact hden M

theorem memConst_faithful_iff {x a d : Nat} {m : List (Nat × Nat)} (hn : (memConst x m a d).WellTyped suffix) {e : AstExpr}
    (he : (memConst x m a d).convert toInt = some e) :
    (memConst x m a d).Faithful z3 suffix toInt ↔ (memConst x m a d).Agrees suffix toInt := by
  obtain ⟨v, hv, -⟩ := hn.2 default
  obtain ⟨hpos, -⟩ := Option.ite_none_right_eq_some.mp hv
  have heval : ∀ M : Model, (memConst x m a d).eval M suffix = some (.mem a d (ConstVal.contents a d x m)) := fun M => if_pos hpos
  obtain rfl := Option.some.inj he
  have hden : ∀ M, Den z3 suffix M (AstHub.memConst (.ofInt (toInt x)) (memVal toInt m).entries a d)
      (.mem a d (AstVal.contents (fun x => x.val) a d (.ofInt (toInt x)) (memVal toInt m).entries)) :=
    fun M => den_const (s := .mem a d) ⟨a, d, rfl⟩ hpos rfl
  rw [faithful_iff hn rfl]
  constructor
  · intro h
    have hsame := (hden default).unique (h default _ (heval default))
    simp only [Value.mem.injEq, heq_eq_eq, true_and] at hsame
    exact hsame
  · intro h M u hu
    obtain rfl := Option.some.inj ((heval M).symm.trans hu)
    rw [← show _ = _ from h]
    exact hden M

theorem exists_convert {args : List Node} {es : List AstExpr} (h : List.Forall₂ (fun a e => a.convert toInt = some e) args es) :
    ∀ a ∈ args, ∃ e, a.convert toInt = some e := by
  induction h with
  | nil => exact fun a ha => nomatch ha
  | cons he _ ih => exact List.forall_mem_cons.mpr ⟨⟨_, he⟩, ih⟩

theorem den_appFunc {M : Model} {f : AstFunc} {args : List Node} {t : Srt} {es : List AstExpr} {vs : List Value} {v : Value}
    (h : List.Forall₂ (Den z3 suffix M) es vs) (hes : List.Forall₂ (fun a e => a.convert toInt = some e) args es)
    (hvs : evalList M suffix args = some vs) (hv : (applyFunc f args t).eval M suffix = some v) :
    Den z3 suffix M (AstHub.appFunc f es) v := by
  have hempty : es.isEmpty = args.isEmpty := by cases hes <;> rfl
  have hout : ∀ {s : Srt}, f.out.srt? = some s → v.sort = s → f.out = .ofSrt v.sort ∧ v.sort.Pos := by
    intro s hs hsort
    rw [hsort]
    exact AstSort.srt?_eq_some.mp hs
  unfold eval at hv
  by_cases hnil : args.isEmpty = true
  · rw [if_pos hnil] at hv
    obtain ⟨s, hs, rfl⟩ := Option.map_eq_some_iff.mp hv
    obtain ⟨hsort, hpos⟩ := hout hs (M.const_sort _)
    refine ⟨hsort, hpos, z3.simplify (.const ⟨formatStr f.name "" suffix, s⟩), ?_, ?_⟩
    · rw [AstHub.appFunc, AstExpr.z3Term, if_pos (hempty.trans hnil), hs, Option.map_some]
    · rw [z3.eval_simplify, Term.eval]
  · rw [if_neg hnil] at hv
    obtain ⟨g, hg, hv⟩ := Option.bind_eq_some_iff.mp hv
    rw [hvs, Option.bind_some] at hv
    obtain ⟨⟨ts, hts, heval⟩, -, -⟩ := den_args h
    have hgout : f.out.srt? = some g.out := by
      obtain ⟨ss, -, hg⟩ := Option.bind_eq_some_iff.mp hg
      obtain ⟨s, hs, rfl⟩ := Option.map_eq_some_iff.mp hg
      exact hs
    have hvsort : v.sort = g.out := by
      obtain ⟨-, hval⟩ := Option.ite_none_right_eq_some.mp hv
      rw [← Option.some.inj hval, M.func_sort]
    obtain ⟨hsort, hpos⟩ := hout hgout hvsort
    refine ⟨hsort, hpos, z3.simplify (.app g ts), ?_, ?_⟩
    · rw [AstHub.appFunc, AstExpr.z3Term, hempty, if_neg hnil, hg, Option.bind_some, hts, Option.map_some]
    · rw [z3.eval_simplify, Term.eval, heval, Option.bind_some, hv]

/-- A node is converted to its meaning together with all nodes below it exactly where it and they agree. -/
theorem forall_faithful_iff (n : Node) : (∀ m ∈ n.subs, m.WellTyped suffix) → ∀ e, n.convert toInt = some e →
    ((∀ m ∈ n.subs, m.Faithful z3 suffix toInt) ↔ ∀ m ∈ n.subs, m.Agrees suffix toInt) := by
  induction n using Node.ind with
  | var x h t =>
    intro hn e he
    simp only [subs, List.forall_mem_singleton] at hn ⊢
    refine iff_of_true ((faithful_iff hn he).mpr fun M v hv => ?_) trivial
    obtain ⟨t', ht', rfl⟩ := Option.map_eq_some_iff.mp hv
    obtain ⟨hsort, hpos⟩ := AstSort.srt?_eq_some.mp ht'
    obtain rfl := AstSort.ofSrt_inj hsort
    obtain rfl := Option.some.inj he
    have hs := M.const_sort ⟨formatStr x h suffix, t⟩
    refine ⟨by rw [hs]; rfl, hs ▸ hpos, _, by rw [AstExpr.z3Term, ht', Option.map_some], ?_⟩
    rw [z3.eval_simplify, Term.eval]
  | boolConst b =>
    intro hn e he
    simp only [subs, List.forall_mem_singleton] at hn ⊢
    refine iff_of_true ((faithful_iff hn he).mpr fun M v hv => ?_) trivial
    obtain rfl := Option.some.inj hv
    obtain rfl := Option.some.inj he
    exact den_const (s := .bool) rfl trivial rfl
  | bvConst x w =>
    intro hn e he
    simp only [subs, List.forall_mem_singleton] at hn ⊢
    exact bvConst_faithful_iff hn he
  | memConst x m a d =>
    intro hn e he
    simp only [subs, List.forall_mem_singleton] at hn ⊢
    exact memConst_faithful_iff hn he
  | op o args t ih =>
    intro hn e he
    rw [forall_mem_op] at hn
    obtain ⟨hself, hn⟩ := hn
    obtain ⟨es, hes, hop⟩ := Option.bind_eq_some_iff.mp he
    have hes := convertList_eq_some.mp hes
    have hbelow := forall₂_congr fun a ha => ih a ha (hn a ha) _ (exists_convert hes a ha).choose_spec
    rw [forall_mem_op, forall_mem_op, ← hbelow]
    refine and_congr_left fun hsub => ?_
    have hwell : ∀ a ∈ args, a.WellTyped suffix := fun a ha => hn a ha a (self_mem_subs a)
    have hden : ∀ {M : Model} {vs : List Value}, evalList M suffix args = some vs → List.Forall₂ (Den z3 suffix M) es vs ∧
        args.map type = vs.map Value.sort := by
      intro M vs hvs
      have hvs := evalList_eq_some.mp hvs
      exact ⟨den_operands (fun a ha => ⟨hwell a ha, hsub a ha a (self_mem_subs a)⟩) hes hvs, sorts_eq hwell hvs⟩
    rw [faithful_iff hself he]
    constructor
    · intro h M vs hvs
      obtain ⟨v, hv, -⟩ := hself.2 M
      obtain ⟨us, hus, hval⟩ := Option.bind_eq_some_iff.mp hv
      obtain rfl := Option.some.inj (hvs.symm.trans hus)
      exact (cnvtOp_iff (hden hvs).1 (hden hvs).2 hval hop).mp (h M v hv)
    · intro h M v hv
      obtain ⟨vs, hvs, hval⟩ := Option.bind_eq_some_iff.mp hv
      exact (cnvtOp_iff (hden hvs).1 (hden hvs).2 hval hop).mpr (h M vs hvs)
  | applyFunc f args t ih =>
    intro hn e he
    rw [forall_mem_applyFunc] at hn
    obtain ⟨hself, hn⟩ := hn
    obtain ⟨es, hes, rfl⟩ := Option.map_eq_some_iff.mp he
    have hes := convertList_eq_some.mp hes
    have hbelow := forall₂_congr fun a ha => ih a ha (hn a ha) _ (exists_convert hes a ha).choose_spec
    rw [forall_mem_applyFunc, forall_mem_applyFunc, ← hbelow]
    refine and_congr_left fun hsub => iff_of_true ((faithful_iff hself he).mpr fun M v hv => ?_) trivial
    have hwell : ∀ a ∈ args, a.WellTyped suffix := fun a ha => hn a ha a (self_mem_subs a)
    obtain ⟨vs, hvs⟩ := exists_evalList (M := M) hwell
    have hden := den_operands (fun a ha => ⟨hwell a ha, hsub a ha a (self_mem_subs a)⟩) hes (evalList_eq_some.mp hvs)
    exact den_appFunc hden hes hvs hv

end Exact

end Node

/-! ### The conversion -/

/-- Every node that is converted has its type and its value if and only if each constant below is the same after it was an `int`, no
bitwise operator is negated, the operands of each division are among those that `Bits.SmtDivAgree` describes, and each block that is
written is as many words as `OpAgrees` asks for. -/
theorem convert_faithful_iff (z3 : Z3) (suffix : String) (toInt : Nat → Int) {n : Node} {e : AstExpr}
    (hn : ∀ m ∈ n.subs, m.WellTyped suffix) (he : n.convert toInt = some e) :
    (∀ m ∈ n.subs, m.Faithful z3 suffix toInt) ↔ ∀ m ∈ n.subs, m.Agrees suffix toInt :=
  Node.forall_faithful_iff n hn e he

theorem wellTyped_bvConst {x w : Nat} (hw : 0 < w) (hx : x < 2 ^ w) (suffix : String) : (Node.bvConst x w).WellTyped suffix :=
  ⟨hw, fun _ => ⟨_, if_pos ⟨hw, hx⟩, rfl⟩⟩

def blockOfTwo : Node := .op (.bv (.readMemBlock 2 .little)) [.var "m" "h" (.mem 8 8), .var "a" "h" (.bv 8)] (.bv 16)

/-- A block of two words of a memory, at an address that is a variable too, is divided by one. -/
def blockByOne : Node := .op (.bv .udiv) [blockOfTwo, .bvConst 1 16] (.bv 16)

theorem evalList_block (M : Model) : ∃ f x, Node.evalList M "" [.var "m" "h" (.mem 8 8), .var "a" "h" (.bv 8)] = some [.mem 8 8 f, .bv 8 x] := by
  obtain ⟨f, hf⟩ := Value.exists_mem (M.const_sort ⟨formatStr "m" "h" "", .mem 8 8⟩)
  obtain ⟨x, hx⟩ := Value.exists_bv (M.const_sort ⟨formatStr "a" "h" "", .bv 8⟩)
  refine ⟨f, x, ?_⟩
  rw [← hf, ← hx]
  rfl

theorem eval_blockOfTwo (M : Model) : ∃ z, blockOfTwo.eval M "" = some (.bv 16 z) := by
  obtain ⟨f, x, hargs⟩ := evalList_block M
  refine ⟨read f x .little 2, ?_⟩
  rw [blockOfTwo, Node.eval, hargs]
  rfl

theorem blockByOne_faithful : blockByOne.Faithful default "" Int.ofNat ∧ blockOfTwo.Faithful default "" Int.ofNat := by
  have hargs : ∀ M : Model, ∃ z, Node.evalList M "" [blockOfTwo, .bvConst 1 16] = some [.bv 16 z, .bv 16 1] := by
    intro M
    obtain ⟨z, hz⟩ := eval_blockOfTwo M
    exact ⟨z, by rw [Node.evalList, hz]; rfl⟩
  have hvar : ∀ (n : String) (t : Srt), t.Pos → (AstSort.ofSrt t).srt? = some t → (Node.var n "h" t).WellTyped "" := by
    intro n t hpos ht
    exact ⟨hpos, fun M => ⟨M.const ⟨formatStr n "h" "", t⟩, by rw [Node.eval, ht]; rfl, M.const_sort _⟩⟩
  have hwell : ∀ m ∈ blockByOne.subs, m.WellTyped "" := by
    refine Node.forall_mem_op.mpr ⟨⟨show 0 < 16 by decide, fun M => ?_⟩, ?_⟩
    · obtain ⟨z, hz⟩ := hargs M
      refine ⟨.bv 16 (z.smtUDiv 1), ?_, rfl⟩
      rw [Node.eval, hz, Option.bind_some]
      exact bvBin_pair (fun _ x y => x.smtUDiv y) z 1
    · simp only [List.forall_mem_cons, List.not_mem_nil, false_imp_iff, implies_true, and_true]
      refine ⟨Node.forall_mem_op.mpr ⟨⟨show 0 < 16 by decide, fun M => ?_⟩, ?_⟩, ?_⟩
      · obtain ⟨z, hz⟩ := eval_blockOfTwo M
        exact ⟨_, hz, rfl⟩
      · simp only [List.forall_mem_cons, Node.subs, List.not_mem_nil, false_imp_iff, implies_true, and_true]
        exact ⟨hvar "m" _ ⟨by decide, by decide⟩ rfl, hvar "a" _ (show 0 < 8 by decide) rfl⟩
      · simp only [List.forall_mem_cons, Node.subs, List.not_mem_nil, false_imp_iff, implies_true, and_true]
        exact wellTyped_bvConst (by decide) (by decide) ""
  have hagree : ∀ m ∈ blockByOne.subs, m.Agrees "" Int.ofNat := by
    refine Node.forall_mem_op.mpr ⟨fun M vs hvs w x y heq => ?_, ?_⟩
    · obtain ⟨z, hz⟩ := hargs M
      obtain rfl := Option.some.inj (hz.symm.trans hvs)
      simp only [List.cons.injEq, Value.bv.injEq, and_true] at heq
      obtain ⟨⟨rfl, hx⟩, -, hy⟩ := heq
      obtain rfl := eq_of_heq hy
      exact .inr ⟨by decide, .inl rfl⟩
    · simp only [List.forall_mem_cons, List.not_mem_nil, false_imp_iff, implies_true, and_true]
      refine ⟨Node.forall_mem_op.mpr ⟨fun M vs hvs => trivial, ?_⟩, ?_⟩
      · simp only [List.forall_mem_cons, Node.subs, List.not_mem_nil, false_imp_iff, implies_true, and_true]
        exact ⟨trivial, trivial⟩
      · simp only [List.forall_mem_cons, Node.subs, List.not_mem_nil, false_imp_iff, implies_true, and_true]
        rfl
  have hall := (convert_faithful_iff default "" Int.ofNat hwell rfl).mpr hagree
  obtain ⟨hself, hbelow⟩ := Node.forall_mem_op.mp hall
  exact ⟨hself, hbelow blockOfTwo List.mem_cons_self blockOfTwo (Node.self_mem_subs _)⟩

/-- Two words of 8 bits and a place for them. -/
def twoWords : Node := .op (.mem (.storeBlock .little)) [.memConst 0 [] 8 8, .bvConst 16 8, .bvConst 258 16] (.mem 8 8)

/-- The loop goes on behind the second word. -/
theorem twoWords_not_faithful : ¬∀ (z3 : Z3) (suffix : String) (toInt : Nat → Int) (n : Node) (e : AstExpr),
    (∀ m ∈ n.subs, m.WellTyped suffix) → n.convert toInt = some e → ∀ m ∈ n.subs, m.Faithful z3 suffix toInt := by
  intro h
  have hargs : ∀ M : Model, Node.evalList M "" [.memConst 0 [] 8 8, .bvConst 16 8, .bvConst 258 16] =
      some [.mem 8 8 fun _ => 0, .bv 8 16, .bv 16 258] := fun M => rfl
  have hwell : ∀ m ∈ twoWords.subs, m.WellTyped "" := by
    refine Node.forall_mem_op.mpr ⟨⟨⟨by decide, by decide⟩, fun M => ⟨.mem 8 8 (write (fun _ => 0) 16 (258 : BitVec 16) .little 2 2),
      ?_, rfl⟩⟩, ?_⟩
    · rw [Node.eval, hargs, Option.bind_some]
      rfl
    · simp only [List.forall_mem_cons, Node.subs, List.not_mem_nil, false_imp_iff, implies_true, and_true]
      exact ⟨⟨⟨by decide, by decide⟩, fun M => ⟨.mem 8 8 fun _ => 0, rfl, rfl⟩⟩, wellTyped_bvConst (by decide) (by decide) "",
        wellTyped_bvConst (by decide) (by decide) ""⟩
  obtain ⟨e, he⟩ : ∃ e, twoWords.convert Int.ofNat = some e := ⟨_, rfl⟩
  have hfaithful := (Node.forall_faithful_iff twoWords hwell e he).mp (h default "" Int.ofNat twoWords e hwell he)
  have hstore : OpAgrees (.mem (.storeBlock .little)) [.mem 8 8 fun _ => 0, .bv 8 16, .bv 16 258] :=
    hfaithful twoWords (Node.self_mem_subs twoWords) default _ (hargs default)
  have hle : 8 ≤ 16 / 8 := (hstore 8 8 (fun _ => 0) 16 16 258 rfl).1
  exact absurd hle (by decide)

end Itsy

end Ilang
