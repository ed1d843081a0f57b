import Ilang.Target.Z3Adapter

/-!
# Building formulas

The constructors of `asthub` for Boolean expressions, with the meaning of the formulas they make. A
conjunction says what it should in any case. The other connectives do so on Boolean expressions; their
sort rules are given beside them.
-/

namespace Ilang

open Smt

namespace Expr

def boolConst (b : Bool) : Expr := .const (.bool b)

def not (a : Expr) : Expr := .op .not [a]

def and (l r : Expr) : Expr := .op .and [l, r]

def or (l r : Expr) : Expr := .op .or [l, r]

def imply (p q : Expr) : Expr := .op .imply [p, q]

def eq (l r : Expr) : Expr := .op .eq [l, r]

variable {a b : Expr}

theorem checkList_pair (a b : Expr) :
    checkList [a, b] = a.check.bind fun s => b.check.map fun t => [s, t] := by
  simp only [checkList]
  cases a.check <;> cases b.check <;> rfl

theorem evalList_pair (ν : Valuation) (a b : Expr) :
    evalList ν [a, b] = (a.eval ν).bind fun u => (b.eval ν).map fun v => [u, v] := by
  simp only [evalList]
  cases a.eval ν <;> cases b.eval ν <;> rfl

theorem mem_atoms_pair {o : ExprOp} {x : Atom} : x ∈ (op o [a, b]).atoms ↔ x ∈ a.atoms ∨ x ∈ b.atoms := by
  simp [atoms, atomsList]

theorem mem_funcs_pair {o : ExprOp} {f : Func} : f ∈ (op o [a, b]).funcs ↔ f ∈ a.funcs ∨ f ∈ b.funcs := by
  simp [funcs, funcsList]

/-! ### Sort rules -/

theorem none_ne_bool : (none : Option Srt) ≠ some .bool := by simp

theorem check_not : (not a).check = some .bool ↔ a.check = some .bool := by
  simp only [not, check, checkList]
  cases a.check with
  | none => simp
  | some s =>
    cases s with
    | bool => exact iff_of_true rfl rfl
    | bv w => exact iff_of_false none_ne_bool (by simp)
    | mem m d => exact iff_of_false none_ne_bool (by simp)

theorem check_connective {o : ExprOp} (hbool : ∀ t, o.check [.bool, t] = Op.boolBinSort [.bool, t])
    (hother : ∀ s t, s ≠ .bool → o.check [s, t] ≠ some .bool) :
    (Expr.op o [a, b]).check = some .bool ↔ a.check = some .bool ∧ b.check = some .bool := by
  simp only [check, checkList_pair]
  cases a.check with
  | none => simp
  | some s =>
    cases b.check with
    | none => simp
    | some t =>
      change o.check [s, t] = some .bool ↔ _
      by_cases hs : s = .bool
      · subst hs
        rw [hbool]
        cases t with
        | bool => exact iff_of_true rfl ⟨rfl, rfl⟩
        | bv w => exact iff_of_false none_ne_bool (by simp)
        | mem m d => exact iff_of_false none_ne_bool (by simp)
      · exact iff_of_false (hother s t hs) fun h => hs (Option.some.inj h.1)

theorem bvBinSort_ne_bool (ss : List Srt) : Op.bvBinSort ss ≠ some .bool := by
  unfold Op.bvBinSort
  split
  · split <;> simp
  · simp

theorem check_and : (and a b).check = some .bool ↔ a.check = some .bool ∧ b.check = some .bool := by
  refine check_connective (fun t => rfl) fun s t hs => ?_
  cases s with
  | bool => exact absurd rfl hs
  | bv w => exact bvBinSort_ne_bool [.bv w, t]
  | mem m d => exact bvBinSort_ne_bool [.mem m d, t]

theorem check_or : (or a b).check = some .bool ↔ a.check = some .bool ∧ b.check = some .bool := by
  refine check_connective (fun t => rfl) fun s t hs => ?_
  cases s with
  | bool => exact absurd rfl hs
  | bv w => exact bvBinSort_ne_bool [.bv w, t]
  | mem m d => exact bvBinSort_ne_bool [.mem m d, t]

theorem check_imply : (imply a b).check = some .bool ↔ a.check = some .bool ∧ b.check = some .bool := by
  refine check_connective (fun t => rfl) fun s t hs => ?_
  cases s with
  | bool => exact absurd rfl hs
  | bv w => exact none_ne_bool
  | mem m d => exact none_ne_bool

theorem check_eq : (eq a b).check = some .bool ↔ ∃ s, a.check = some s ∧ b.check = some s := by
  simp only [eq, check, checkList_pair]
  cases a.check with
  | none => simp
  | some s =>
    cases b.check with
    | none => simp
    | some t =>
      change (if s = t then some Srt.bool else none) = some Srt.bool ↔ _
      by_cases hst : s = t
      · simp [hst]
      · have hts : t ≠ s := fun h => hst h.symm
        simp [hst, hts]

/-! ### Meaning -/

variable {ν : Valuation}

theorem holds_boolConst_true : ν.Holds (boolConst true) := rfl

theorem check_of_holds (h : ν.Holds a) : a.check = some .bool := by
  rw [← eval_sort ν a, h]
  rfl

theorem eval_bool (ν : Valuation) (h : a.check = some .bool) : ∃ x, a.eval ν = some (.bool x) := by
  obtain ⟨v, hv, hsort⟩ := eval_of_check h ν
  cases v with
  | bool x => exact ⟨x, hv⟩
  | bv w x => simp [Value.sort] at hsort
  | mem m d f => simp [Value.sort] at hsort

theorem eval_not {x : Bool} (ha : a.eval ν = some (.bool x)) : (not a).eval ν = some (.bool !x) := by
  simp only [not, eval, evalList, ha]
  rfl

section Binary

variable {x y : Bool} (ha : a.eval ν = some (.bool x)) (hb : b.eval ν = some (.bool y))
include ha hb

theorem eval_and : (and a b).eval ν = some (.bool (x && y)) := by
  simp only [and, eval, evalList_pair, ha, hb]
  rfl

theorem eval_or : (or a b).eval ν = some (.bool (x || y)) := by
  simp only [or, eval, evalList_pair, ha, hb]
  rfl

theorem eval_imply : (imply a b).eval ν = some (.bool (!x || y)) := by
  simp only [imply, eval, evalList_pair, ha, hb]
  rfl

end Binary

theorem holds_and : ν.Holds (and a b) ↔ ν.Holds a ∧ ν.Holds b := by
  constructor
  · intro h
    obtain ⟨ha, hb⟩ := check_and.mp (check_of_holds h)
    obtain ⟨x, hx⟩ := eval_bool ν ha
    obtain ⟨y, hy⟩ := eval_bool ν hb
    rw [Valuation.Holds, eval_and hx hy] at h
    simp only [Option.some.injEq, Value.bool.injEq, Bool.and_eq_true] at h
    exact ⟨by rw [Valuation.Holds, hx, h.1], by rw [Valuation.Holds, hy, h.2]⟩
  · rintro ⟨ha, hb⟩
    exact eval_and ha hb

theorem holds_not (h : a.check = some .bool) : ν.Holds (not a) ↔ ¬ν.Holds a := by
  obtain ⟨x, hx⟩ := eval_bool ν h
  rw [Valuation.Holds, eval_not hx, Valuation.Holds, hx]
  cases x <;> simp

theorem holds_or (ha : a.check = some .bool) (hb : b.check = some .bool) :
    ν.Holds (or a b) ↔ ν.Holds a ∨ ν.Holds b := by
  obtain ⟨x, hx⟩ := eval_bool ν ha
  obtain ⟨y, hy⟩ := eval_bool ν hb
  rw [Valuation.Holds, eval_or hx hy, Valuation.Holds, Valuation.Holds, hx, hy]
  cases x <;> cases y <;> simp

theorem holds_imply (ha : a.check = some .bool) (hb : b.check = some .bool) :
    ν.Holds (imply a b) ↔ (ν.Holds a → ν.Holds b) := by
  obtain ⟨x, hx⟩ := eval_bool ν ha
  obtain ⟨y, hy⟩ := eval_bool ν hb
  rw [Valuation.Holds, eval_imply hx hy, Valuation.Holds, Valuation.Holds, hx, hy]
  cases x <;> cases y <;> simp

theorem holds_eq : ν.Holds (eq a b) ↔ ∃ v, a.eval ν = some v ∧ b.eval ν = some v := by
  simp only [Valuation.Holds, eq, eval, evalList_pair]
  cases a.eval ν with
  | none => simp
  | some u =>
    cases b.eval ν with
    | none => simp
    | some v =>
      change (u.eq? v).map Value.bool = some (.bool true) ↔ _
      simp only [Option.map_eq_some_iff, Value.bool.injEq, exists_eq_right, Value.eq?_eq_true, Option.some.injEq,
        exists_eq_left']
      exact eq_comm

/-! ### Conjunctions built in a loop -/

theorem check_foldl_and {l : List Expr} {acc : Expr} :
    (l.foldl and acc).check = some .bool ↔
      acc.check = some .bool ∧ ∀ e ∈ l, e.check = some .bool := by
  induction l generalizing acc with
  | nil => simp
  | cons e l ih => rw [List.foldl_cons, ih, check_and, List.forall_mem_cons, and_assoc]

theorem holds_foldl_and {l : List Expr} {acc : Expr} :
    ν.Holds (l.foldl and acc) ↔ ν.Holds acc ∧ ∀ e ∈ l, ν.Holds e := by
  induction l generalizing acc with
  | nil => simp
  | cons e l ih => rw [List.foldl_cons, ih, holds_and, List.forall_mem_cons, and_assoc]

theorem holds_foldl_or {l : List Expr} {acc : Expr} (hacc : acc.check = some .bool)
    (hl : ∀ e ∈ l, e.check = some .bool) :
    ν.Holds (l.foldl or acc) ↔ ν.Holds acc ∨ ∃ e ∈ l, ν.Holds e := by
  induction l generalizing acc with
  | nil => simp
  | cons e l ih =>
    rw [List.forall_mem_cons] at hl
    rw [List.foldl_cons, ih (check_or.mpr ⟨hacc, hl.1⟩) hl.2, holds_or hacc hl.1, List.exists_mem_cons_iff,
      or_assoc]

end Expr

end Ilang
