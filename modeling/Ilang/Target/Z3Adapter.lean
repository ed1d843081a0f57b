import Ilang.Ila.Ast

/-!
# Translation to solver terms

`Z3ExprAdapter::GetExpr` walks an expression bottom up and simplifies every node it builds. The suffix
given to it goes into the name of every variable and of every function without arguments, so a solver
model holds one valuation for each suffix (`Model.frame`), and the translation of an expression for a
suffix has the value of the expression in that frame (`getExpr_eval`).
-/

namespace Ilang

open Smt

/-- What is used of Z3's simplifier: it keeps the value, and it leaves constants alone. -/
structure Z3 where
  simplify : Term → Term
  eval_simplify : ∀ (t : Term) (M : Model), (simplify t).eval M = t.eval M
  simplify_const : ∀ c : Sym, simplify (.const c) = .const c

/-- A simplifier that does nothing. -/
instance : Inhabited Z3 := ⟨⟨id, fun _ _ => rfl, fun _ => rfl⟩⟩

theorem func_decl_sort (M : Model) : ∀ (f : Func) (vs : List Value), (M.func f.z3FuncDecl vs).sort = f.out :=
  fun f => M.func_sort f.z3FuncDecl

/-- The frame of a solver model that a suffix selects. -/
def frame (M : Model) (suffix : String) : Valuation where
  atom a := M.const (a.sym suffix)
  atom_sort a := by rw [M.const_sort, Atom.sort_sym]
  func f := M.func f.z3FuncDecl
  func_sort := func_decl_sort M

instance : Inhabited Valuation := ⟨frame default ""⟩

@[simp] theorem frame_atom (M : Model) (suffix : String) (a : Atom) :
    (frame M suffix).atom a = M.const (a.sym suffix) := rfl

@[simp] theorem frame_func (M : Model) (suffix : String) (f : Func) :
    (frame M suffix).func f = M.func f.z3FuncDecl := rfl

theorem frame_congr {M N : Model} {suffix : String} (hfunc : N.func = M.func)
    (hconst : ∀ a : Atom, N.const (a.sym suffix) = M.const (a.sym suffix)) :
    frame N suffix = frame M suffix := by
  simp only [frame, hfunc, hconst]

/-- `ExprConst::GetZ3Expr`. -/
def ConstVal.term : ConstVal → Term
  | .bool b => .bool b
  | .bv x w => .bv w (BitVec.ofNat w x)
  | .mem x m a d =>
    m.foldl (fun e p => .op .store [e, .bv a (BitVec.ofNat a p.1), .bv d (BitVec.ofNat d p.2)])
      (.op (.constArray a) [.bv d (BitVec.ofNat d x)])

mutual

/-- `Z3ExprAdapter::GetExpr`. The map of the adapter is cleared at every call, so it only avoids
translating a shared node twice. -/
def getExpr (z3 : Z3) (suffix : String) : Expr → Term
  | .var v => z3.simplify (.const (v.sym suffix))
  | .const c => z3.simplify c.term
  | .op o args => z3.simplify (.op (o.smt (Expr.sortList args)) (getExprList z3 suffix args))
  | .appFunc f args =>
    z3.simplify
      (if args.isEmpty then .const (f.sym suffix) else .app f.z3FuncDecl (getExprList z3 suffix args))

def getExprList (z3 : Z3) (suffix : String) : List Expr → List Term
  | [] => []
  | a :: as => getExpr z3 suffix a :: getExprList z3 suffix as

end

theorem store_eval {M : Model} {e : Term} {a d : Nat} {f : BitVec a → BitVec d} (x : BitVec a) (y : BitVec d)
    (h : e.eval M = some (.mem a d f)) :
    (Term.op .store [e, .bv a x, .bv d y]).eval M =
      some (.mem a d fun i => if i = x then y else f i) := by
  simp [Term.eval, Term.evalList, h]

theorem foldl_store_eval {M : Model} {a d : Nat} (m : List (Nat × Nat)) {e : Term}
    {f : BitVec a → BitVec d} (h : e.eval M = some (.mem a d f)) :
    (m.foldl (fun e p => Term.op .store [e, .bv a (BitVec.ofNat a p.1), .bv d (BitVec.ofNat d p.2)]) e).eval M
      = some (.mem a d
          (m.foldl (fun f p i => if i = BitVec.ofNat a p.1 then BitVec.ofNat d p.2 else f i) f)) := by
  induction m generalizing e f with
  | nil => exact h
  | cons p m ih => exact ih (store_eval _ _ h)

theorem term_eval (M : Model) (c : ConstVal) : c.term.eval M = some c.value := by
  cases c with
  | bool b => rfl
  | bv x w => rfl
  | mem x m a d =>
    have hdef : (Term.op (.constArray a) [.bv d (BitVec.ofNat d x)]).eval M =
        some (.mem a d fun _ => BitVec.ofNat d x) := by
      simp [Term.eval, Term.evalList]
    exact foldl_store_eval m hdef

theorem getExprList_eval_of_mem (z3 : Z3) (M : Model) (suffix : String) {args : List Expr} {ss : List Srt}
    (hcheck : Expr.checkList args = some ss)
    (ih : ∀ a ∈ args, ∀ s, a.check = some s →
      (getExpr z3 suffix a).eval M = a.eval (frame M suffix)) :
    Term.evalList M (getExprList z3 suffix args) = Expr.evalList (frame M suffix) args := by
  induction args generalizing ss with
  | nil => rfl
  | cons a as iha =>
    simp only [Expr.checkList, Option.bind_eq_some_iff, Option.map_eq_some_iff] at hcheck
    obtain ⟨s, hs, us, hus, -⟩ := hcheck
    rw [getExprList, Term.evalList, Expr.evalList, ih a List.mem_cons_self s hs,
      iha hus fun b hb => ih b (List.mem_cons_of_mem a hb)]

/-- The translation of a well-sorted expression has, in every model, the value of the expression in the
frame that the suffix selects. -/
theorem getExpr_eval (z3 : Z3) (M : Model) (suffix : String) {e : Expr} {s : Srt} (h : e.check = some s) :
    (getExpr z3 suffix e).eval M = e.eval (frame M suffix) := by
  induction e using Expr.ind generalizing s with
  | var v => rw [getExpr, z3.eval_simplify]; rfl
  | const c => rw [getExpr, z3.eval_simplify, term_eval, Expr.eval]
  | op o args ih =>
    rw [Expr.check, Option.bind_eq_some_iff] at h
    obtain ⟨ss, hss, ho⟩ := h
    have hargs := getExprList_eval_of_mem z3 M suffix hss fun a ha s hs => ih a ha hs
    rw [getExpr, z3.eval_simplify, Term.eval, hargs, Expr.eval, Expr.sortList_of_checkList hss]
    cases hvs : Expr.evalList (frame M suffix) args with
    | none => rfl
    | some vs =>
      have hsorts := Expr.evalList_sort (frame M suffix) args
      rw [hvs, hss, Option.map_some, Option.some.injEq] at hsorts
      rw [ExprOp.check, Option.ite_none_right_eq_some] at ho
      rw [Option.bind_some, Option.bind_some, ExprOp.apply, hsorts, if_pos ho.1]
  | appFunc f args ih =>
    rw [Expr.check, Option.bind_eq_some_iff] at h
    obtain ⟨ss, hss, hf⟩ := h
    rw [Option.ite_none_right_eq_some] at hf
    have hargs := getExprList_eval_of_mem z3 M suffix hss fun a ha s hs => ih a ha hs
    rw [getExpr, z3.eval_simplify, Expr.eval]
    cases args with
    | nil =>
      have hf0 : f.args = [] := by rw [← hf.1]; exact (Option.some.inj hss).symm
      simp [Expr.evalList, Valuation.app, hf0, Term.eval, Atom.sym]
    | cons a as =>
      rw [List.isEmpty_cons, if_neg Bool.false_ne_true, Term.eval, hargs]
      cases hvs : Expr.evalList (frame M suffix) (a :: as) with
      | none => rfl
      | some vs =>
        have hne : vs.isEmpty = false := Expr.evalList_isEmpty hvs
        rw [Option.bind_some, Option.bind_some, Model.apply, Valuation.app, hne, if_neg Bool.false_ne_true]
        rfl

theorem getExpr_var (z3 : Z3) (suffix : String) (v : Var) :
    getExpr z3 suffix (.var v) = .const (v.sym suffix) := by
  rw [getExpr, z3.simplify_const]

/-- A formula of the model holds in a frame. -/
def Valuation.Holds (ν : Valuation) (e : Expr) : Prop := e.eval ν = some (.bool true)

theorem sat_getExpr {z3 : Z3} {M : Model} {suffix : String} {e : Expr} (h : e.check = some .bool) :
    M.Sat (getExpr z3 suffix e) ↔ (frame M suffix).Holds e := by
  rw [Model.Sat, getExpr_eval z3 M suffix h, Valuation.Holds]

theorem isBool_getExpr {z3 : Z3} {e : Expr} (h : e.check = some .bool) (s : String) : (getExpr z3 s e).IsBool := by
  intro M
  obtain ⟨v, hv, hsort⟩ := Expr.eval_of_check h (frame M s)
  obtain ⟨b, rfl⟩ := Value.exists_bool hsort
  exact ⟨b, by rw [getExpr_eval z3 M s h, hv]⟩

end Ilang
