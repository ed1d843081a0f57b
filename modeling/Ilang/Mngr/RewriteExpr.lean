import Ilang.Ila.AstHub
import Ilang.Util.Container

/-!
# Rewriting expressions

`FuncObjRewrExpr` replaces variables by expressions and rebuilds every other node with the functions of
`asthub`. On a well-sorted expression this is substitution, except that the signed remainder and the
signed modulus have no case: such a node is rewritten to a null pointer, and a node above it does not
survive the attempt to build it.
-/

namespace Ilang

open Smt

/-! ### Substitution -/

namespace Expr

mutual

def subst (σ : Var → Option Expr) : Expr → Expr
  | .var v => (σ v).getD (.var v)
  | .const c => .const c
  | .op o args => .op o (substList σ args)
  | .appFunc f args => .appFunc f (substList σ args)

def substList (σ : Var → Option Expr) : List Expr → List Expr
  | [] => []
  | a :: as => subst σ a :: substList σ as

end

theorem substList_eq_iff_of_mem {σ τ : Var → Option Expr} {args : List Expr}
    (ih : ∀ a ∈ args, a.subst σ = a.subst τ ↔ ∀ v, .var v ∈ a.atoms → (σ v).getD (.var v) = (τ v).getD (.var v)) :
    substList σ args = substList τ args ↔
      ∀ v, .var v ∈ atomsList args → (σ v).getD (.var v) = (τ v).getD (.var v) := by
  induction args with
  | nil => simp [substList, atomsList]
  | cons a as iha =>
    rw [substList, substList, List.cons.injEq, ih a List.mem_cons_self, iha fun b hb => ih b (List.mem_cons_of_mem a hb)]
    simp only [atomsList, List.mem_append, or_imp, forall_and]

theorem subst_eq_iff {σ τ : Var → Option Expr} {e : Expr} :
    e.subst σ = e.subst τ ↔ ∀ v, .var v ∈ e.atoms → (σ v).getD (.var v) = (τ v).getD (.var v) := by
  induction e using ind with
  | var v => simp [subst, atoms]
  | const c => simp [subst, atoms]
  | op o args ih => rw [subst, subst, atoms, ← substList_eq_iff_of_mem ih, Expr.op.injEq, eq_self, true_and]
  | appFunc f args ih =>
    rw [subst, subst, Expr.appFunc.injEq, eq_self, true_and, substList_eq_iff_of_mem ih, atoms]
    cases args with
    | nil => simp [atomsList]
    | cons a as => rfl

end Expr

/-- A map from variables to expressions of their sort. -/
structure VarMap where
  image : Var → Option Expr
  image_check : ∀ v e, image v = some e → e.check = some v.sort

namespace Expr

theorem check_subst_var (σ : VarMap) (v : Var) : (subst σ.image (.var v)).check = some v.sort := by
  rw [subst]
  cases h : σ.image v with
  | none => rfl
  | some e => exact σ.image_check v e h

theorem checkList_subst_of_mem {σ : VarMap} {args : List Expr}
    (ih : ∀ a ∈ args, (subst σ.image a).check = a.check) : checkList (substList σ.image args) = checkList args := by
  induction args with
  | nil => rfl
  | cons a as iha =>
    rw [substList, checkList, checkList, ih a List.mem_cons_self, iha fun b hb => ih b (List.mem_cons_of_mem a hb)]

theorem check_subst (σ : VarMap) (e : Expr) : (subst σ.image e).check = e.check := by
  induction e using ind with
  | var v => exact check_subst_var σ v
  | const c => rw [subst]
  | op o args ih => rw [subst, check, check, checkList_subst_of_mem ih]
  | appFunc f args ih => rw [subst, check, check, checkList_subst_of_mem ih]

end Expr

/-- The valuation in which every mapped variable has the value of its image. -/
def Valuation.subst (ν : Valuation) (σ : VarMap) : Valuation where
  atom
    | .var v => ((Expr.subst σ.image (.var v)).eval ν).getD v.sort.default
    | .nondet f => ν.atom (.nondet f)
  atom_sort
    | .var v => by
      obtain ⟨w, hw, hsort⟩ := Expr.eval_of_check (Expr.check_subst_var σ v) ν
      change (((Expr.subst σ.image (.var v)).eval ν).getD v.sort.default).sort = v.sort
      rw [hw]
      exact hsort
    | .nondet f => ν.atom_sort (.nondet f)
  func := ν.func
  func_sort := ν.func_sort

namespace Expr

theorem evalList_subst_of_mem {ν : Valuation} {σ : VarMap} {args : List Expr}
    (ih : ∀ a ∈ args, (subst σ.image a).eval ν = a.eval (ν.subst σ)) :
    evalList ν (substList σ.image args) = evalList (ν.subst σ) args := by
  induction args with
  | nil => rfl
  | cons a as iha =>
    rw [substList, evalList, evalList, ih a List.mem_cons_self, iha fun b hb => ih b (List.mem_cons_of_mem a hb)]

theorem eval_subst (ν : Valuation) (σ : VarMap) (e : Expr) : (subst σ.image e).eval ν = e.eval (ν.subst σ) := by
  induction e using ind with
  | var v =>
    obtain ⟨w, hw, -⟩ := eval_of_check (check_subst_var σ v) ν
    have hval : (ν.subst σ).atom (.var v) = w := by
      change ((subst σ.image (.var v)).eval ν).getD v.sort.default = w
      rw [hw, Option.getD_some]
    rw [hw, eval, hval]
  | const c => rw [subst, eval, eval]
  | op o args ih => rw [subst, eval, eval, evalList_subst_of_mem ih]
  | appFunc f args ih =>
    rw [subst, eval, eval, evalList_subst_of_mem ih]
    rfl

end Expr

/-! ### The constructors that look at sorts -/

/-- `asthub::Eq` with the constant one. The width of a constant is checked to be positive. -/
def eqOne (e : Expr) : Option Expr :=
  match e.sort with
  | .bool => some (e.eq (.const (.bool true)))
  | .bv w => if 0 < w then some (e.eq (.const (.bv 1 w))) else none
  | .mem _ _ => none

/-- `asthub::And`, `Or` and `Xor`, which mend a bit-vector of width one beside a Boolean. The calls do
not come to an end for a left argument that is neither. -/
def mixed (o : ExprOp) (l r : Expr) : Option Expr :=
  if l.sort = r.sort then some (.op o [l, r])
  else if l.sort = .bv 1 ∧ r.sort = .bool then (eqOne l).map fun l' => .op o [l', r]
  else (eqOne r).bind fun r' =>
    if l.sort = .bool then some (.op o [l, r'])
    else if l.sort = .bv 1 then (eqOne l).map fun l' => .op o [l', r']
    else none

/-- A Boolean operand of `asthub::Concat` becomes a bit. -/
def toBit (e : Expr) : Expr :=
  if e.sort = .bool then .op .ite [e, .const (.bv 1 1), .const (.bv 0 1)] else e

/-- The `asthub` function that `RewriteOp` calls for an operation. -/
def build : ExprOp → List Expr → Option Expr
  | .and, [l, r] => mixed .and l r
  | .or, [l, r] => mixed .or l r
  | .xor, [l, r] => mixed .xor l r
  | .concat, [hi, lo] => some (.op .concat [toBit hi, toBit lo])
  | o, args => some (.op o args)

/-! ### The rewriter -/

/-- `FuncObjRewrExpr::RewriteOp` on the rewritten arguments. Building a node on a null argument
dereferences it. The outer `none` is a crash, the inner one a null pointer. -/
def rewriteOp (o : ExprOp) (args : List (Option Expr)) : Option (Option Expr) :=
  match o with
  | .srem | .smod => some none
  | o => ((args.mapM id).bind (build o)).map some

mutual

/-- `absknob::Rewrite`. The map of the rewriter also keeps the nodes that are done, so a shared node is
rewritten once. -/
def rewrite (σ : Var → Option Expr) : Expr → Option (Option Expr)
  | .var v => some (some ((σ v).getD (.var v)))
  | .const c => some (some (.const c))
  | .op o args => (rewriteList σ args).bind (rewriteOp o)
  | .appFunc f args => (rewriteList σ args).bind fun as => (as.mapM id).map fun as => some (.appFunc f as)

def rewriteList (σ : Var → Option Expr) : List Expr → Option (List (Option Expr))
  | [] => some []
  | a :: as => (rewrite σ a).bind fun a' => (rewriteList σ as).map (a' :: ·)

end

mutual

/-- The expression has no signed remainder and no signed modulus. -/
def Expr.noSignedRem : Expr → Bool
  | .var _ => true
  | .const _ => true
  | .op o args => o != .srem && o != .smod && Expr.noSignedRemList args
  | .appFunc _ args => Expr.noSignedRemList args

def Expr.noSignedRemList : List Expr → Bool
  | [] => true
  | a :: as => Expr.noSignedRem a && Expr.noSignedRemList as

end

/-! ### Rewriting is substitution where it succeeds -/

theorem sort_eq_of_check {o : ExprOp} (ho : o = .and ∨ o = .or ∨ o = .xor) {l r : Expr} {s : Srt}
    (h : (Expr.op o [l, r]).check = some s) : l.sort = r.sort := by
  simp only [Expr.check, Expr.checkList_pair, Option.bind_eq_some_iff, Option.map_eq_some_iff] at h
  obtain ⟨ss, ⟨a, ha, b, hb, rfl⟩, hcheck⟩ := h
  have hab : a = b := by
    rw [ExprOp.check, Option.ite_none_right_eq_some] at hcheck
    have hsame : ∀ {p q : Op}, p.check = Op.boolBinSort → q.check = Op.bvBinSort →
        (if ExprOp.argSort [a, b] 0 = .bool then p else q).check [a, b] = some s → a = b := by
      intro p q hp hq hpq
      split at hpq
      · rw [hp] at hpq
        cases a <;> cases b <;> simp_all [Op.boolBinSort]
      · rw [hq] at hpq
        cases a <;> cases b <;> simp_all [Op.bvBinSort]
    rcases ho with rfl | rfl | rfl
    · exact hsame rfl rfl hcheck.2
    · exact hsame rfl rfl hcheck.2
    · exact hsame rfl rfl hcheck.2
  rw [Expr.sort_of_check ha, Expr.sort_of_check hb, hab]

theorem mixed_of_check {o : ExprOp} (ho : o = .and ∨ o = .or ∨ o = .xor) {l r : Expr} {s : Srt}
    (h : (Expr.op o [l, r]).check = some s) : mixed o l r = some (.op o [l, r]) := by
  rw [mixed, if_pos (sort_eq_of_check ho h)]

theorem bv_of_check_concat {hi lo : Expr} {s : Srt} (h : (Expr.op .concat [hi, lo]).check = some s) :
    hi.sort ≠ .bool ∧ lo.sort ≠ .bool := by
  simp only [Expr.check, Expr.checkList_pair, Option.bind_eq_some_iff, Option.map_eq_some_iff] at h
  obtain ⟨ss, ⟨a, ha, b, hb, rfl⟩, hcheck⟩ := h
  rw [ExprOp.check, Option.ite_none_right_eq_some] at hcheck
  rw [Expr.sort_of_check ha, Expr.sort_of_check hb]
  constructor
  · rintro rfl
    cases hcheck.2
  · rintro rfl
    cases a <;> cases hcheck.2

theorem toBit_of_bv {e : Expr} (h : e.sort ≠ .bool) : toBit e = e := by
  rw [toBit, if_neg h]

theorem build_of_check {o : ExprOp} {args : List Expr} {s : Srt} (h : (Expr.op o args).check = some s) :
    build o args = some (.op o args) := by
  unfold build
  split
  · exact mixed_of_check (.inl rfl) h
  · exact mixed_of_check (.inr (.inl rfl)) h
  · exact mixed_of_check (.inr (.inr rfl)) h
  · rw [toBit_of_bv (bv_of_check_concat h).1, toBit_of_bv (bv_of_check_concat h).2]
  · rfl

theorem rewriteOp_of_check {o : ExprOp} (hrem : o ≠ .srem) (hmod : o ≠ .smod) {args : List Expr} {s : Srt}
    (h : (Expr.op o args).check = some s) : rewriteOp o (args.map some) = some (some (.op o args)) := by
  unfold rewriteOp
  split
  · exact absurd rfl hrem
  · exact absurd rfl hmod
  · rw [MapM.id_map_some_self, Option.bind_some, build_of_check h, Option.map_some]

theorem noSignedRemList_iff {args : List Expr} :
    Expr.noSignedRemList args = true ↔ ∀ a ∈ args, a.noSignedRem = true := by
  induction args with
  | nil => simp [Expr.noSignedRemList]
  | cons a as ih => simp [Expr.noSignedRemList, ih]

theorem checkList_mem {args : List Expr} {ss : List Srt} (h : Expr.checkList args = some ss) :
    ∀ a ∈ args, ∃ s, a.check = some s := by
  induction args generalizing ss with
  | nil => simp
  | cons a as ih =>
    simp only [Expr.checkList, Option.bind_eq_some_iff, Option.map_eq_some_iff] at h
    obtain ⟨s, hs, us, hus, -⟩ := h
    exact List.forall_mem_cons.mpr ⟨⟨s, hs⟩, ih hus⟩

theorem rewriteList_of_mem {σ : VarMap} {args : List Expr}
    (ih : ∀ a ∈ args, rewrite σ.image a = some (some (a.subst σ.image))) :
    rewriteList σ.image args = some ((Expr.substList σ.image args).map some) := by
  induction args with
  | nil => rfl
  | cons a as iha =>
    rw [rewriteList, ih a List.mem_cons_self, iha fun b hb => ih b (List.mem_cons_of_mem a hb)]
    rfl

theorem rewrite_eq_subst (σ : VarMap) {e : Expr} {s : Srt} (h : e.check = some s) (hrem : e.noSignedRem = true) :
    rewrite σ.image e = some (some (e.subst σ.image)) := by
  induction e using Expr.ind generalizing s with
  | var v => rw [rewrite, Expr.subst]
  | const c => rw [rewrite, Expr.subst]
  | op o args ih =>
    simp only [Expr.noSignedRem, Bool.and_eq_true, bne_iff_ne, noSignedRemList_iff] at hrem
    have hcheck := h
    rw [Expr.check, Option.bind_eq_some_iff] at h
    obtain ⟨ss, hss, -⟩ := h
    have hargs : rewriteList σ.image args = some ((Expr.substList σ.image args).map some) :=
      rewriteList_of_mem fun a ha => by
        obtain ⟨t, ht⟩ := checkList_mem hss a ha
        exact ih a ha ht (hrem.2 a ha)
    rw [rewrite, hargs, Option.bind_some, Expr.subst]
    refine rewriteOp_of_check hrem.1.1 hrem.1.2 (s := s) ?_
    rw [← hcheck, ← Expr.check_subst σ (.op o args), Expr.subst]
  | appFunc f args ih =>
    simp only [Expr.noSignedRem, noSignedRemList_iff] at hrem
    rw [Expr.check, Option.bind_eq_some_iff] at h
    obtain ⟨ss, hss, -⟩ := h
    have hargs : rewriteList σ.image args = some ((Expr.substList σ.image args).map some) :=
      rewriteList_of_mem fun a ha => by
        obtain ⟨t, ht⟩ := checkList_mem hss a ha
        exact ih a ha ht (hrem a ha)
    rw [rewrite, hargs, Option.bind_some, MapM.id_map_some_self, Option.map_some, Expr.subst]

theorem noSignedRem_of_rewriteList {σ : Var → Option Expr} {args : List Expr}
    (ih : ∀ a ∈ args, ∀ e, rewrite σ a = some (some e) → a.noSignedRem = true)
    {as : List (Option Expr)} (has : rewriteList σ args = some as) {es : List Expr} (hes : as.mapM id = some es) :
    Expr.noSignedRemList args = true := by
  induction args generalizing as es with
  | nil => rfl
  | cons a args iha =>
    simp only [rewriteList, Option.bind_eq_some_iff, Option.map_eq_some_iff] at has
    obtain ⟨a', ha', as', has', rfl⟩ := has
    simp only [List.mapM_cons, id, bind, Option.bind_eq_some_iff, pure, Option.some.injEq] at hes
    obtain ⟨e, rfl, es', hes', -⟩ := hes
    have htail := iha (fun b hb => ih b (List.mem_cons_of_mem a hb)) has' hes'
    rw [Expr.noSignedRemList, ih a List.mem_cons_self e ha', htail]
    rfl

theorem noSignedRem_of_rewrite {σ : Var → Option Expr} {e e' : Expr} (h : rewrite σ e = some (some e')) :
    e.noSignedRem = true := by
  induction e using Expr.ind generalizing e' with
  | var v => rfl
  | const c => rfl
  | op o args ih =>
    rw [rewrite, Option.bind_eq_some_iff] at h
    obtain ⟨as, has, ho⟩ := h
    unfold rewriteOp at ho
    split at ho
    · simp at ho
    · simp at ho
    · rename_i hrem hmod
      simp only [Option.map_eq_some_iff, Option.some.injEq, Option.bind_eq_some_iff] at ho
      obtain ⟨_, ⟨es, hes, -⟩, -⟩ := ho
      have hargs := noSignedRem_of_rewriteList (fun a ha e he => ih a ha he) has hes
      simp only [Expr.noSignedRem, hargs, Bool.and_true, Bool.and_eq_true, bne_iff_ne]
      exact ⟨hrem, hmod⟩
  | appFunc f args ih =>
    rw [rewrite, Option.bind_eq_some_iff] at h
    obtain ⟨as, has, hf⟩ := h
    rw [Option.map_eq_some_iff] at hf
    obtain ⟨es, hes, -⟩ := hf
    exact noSignedRem_of_rewriteList (fun a ha e he => ih a ha he) has hes

/-- For a well-sorted expression, the rewriter returns a well-sorted expression with the value of the
original under the valuation that reads the images, exactly when the expression has no signed remainder
and no signed modulus. -/
theorem rewrite_correct_iff (σ : VarMap) (e : Expr) (s : Srt) (h : e.check = some s) :
    (∃ e', rewrite σ.image e = some (some e') ∧ e'.check = some s ∧ ∀ ν : Valuation, e'.eval ν = e.eval (ν.subst σ)) ↔
      e.noSignedRem = true := by
  constructor
  · rintro ⟨e', he', -, -⟩
    exact noSignedRem_of_rewrite he'
  · intro hrem
    exact ⟨e.subst σ.image, rewrite_eq_subst σ h hrem, by rw [Expr.check_subst, h], fun ν => Expr.eval_subst ν σ e⟩

/-- Two bit-vector variables and the map that swaps them. -/
def swap : VarMap where
  image v :=
    if v = ⟨0, "x", none, .bv 8⟩ then some (.var ⟨1, "y", none, .bv 8⟩)
    else if v = ⟨1, "y", none, .bv 8⟩ then some (.var ⟨0, "x", none, .bv 8⟩)
    else none
  image_check v e h := by
    split at h
    · rename_i hv
      rw [← Option.some.inj h, hv]
      rfl
    · split at h
      · rename_i hv
        rw [← Option.some.inj h, hv]
        rfl
      · simp at h

theorem rewrite_correct_swap :
    ∃ e', rewrite swap.image (.op .sub [.var ⟨0, "x", none, .bv 8⟩, .var ⟨1, "y", none, .bv 8⟩]) = some (some e') ∧
      e'.check = some (.bv 8) ∧ ∀ ν : Valuation, e'.eval ν =
        (Expr.op .sub [.var ⟨0, "x", none, .bv 8⟩, .var ⟨1, "y", none, .bv 8⟩]).eval (ν.subst swap) :=
  (rewrite_correct_iff swap _ _ (by decide)).mpr (by decide)

/-- The signed remainder of two variables is rewritten to a null pointer, and its negation is not
rewritten at all. -/
theorem rewrite_signedRem_fails :
    rewrite swap.image (.op .srem [.var ⟨0, "x", none, .bv 8⟩, .var ⟨1, "y", none, .bv 8⟩]) = some none ∧
    rewrite swap.image (.op .neg [.op .srem [.var ⟨0, "x", none, .bv 8⟩, .var ⟨1, "y", none, .bv 8⟩]]) = none ∧
    ¬∃ e', rewrite swap.image (.op .smod [.var ⟨0, "x", none, .bv 8⟩, .var ⟨1, "y", none, .bv 8⟩]) = some (some e') := by
  refine ⟨rfl, rfl, ?_⟩
  rintro ⟨e', he'⟩
  simp [rewrite, rewriteList, rewriteOp] at he'

end Ilang
