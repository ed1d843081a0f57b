import Ilang.Ila.Ast

/-!
# Expression nodes

Expressions are shared graphs, and a translation that remembers its results does so by node, not by
structure. A `Node` is an expression in which every node carries the pointer it is stored at. A heap
maps pointers to nodes, and a node is in a heap when each of its sub-nodes is what the heap has at its
pointer.
-/

namespace Ilang

open Smt

inductive Leaf where
  | var (v : Var)
  | const (c : ConstVal)

inductive Head where
  | op (o : ExprOp)
  | appFunc (f : Func)

inductive Node where
  | leaf (ptr : Nat) (l : Leaf)
  | app (ptr : Nat) (head : Head) (args : List Node)

namespace Node

def ptr : Node → Nat
  | .leaf p _ => p
  | .app p _ _ => p

@[elab_as_elim]
theorem ind {P : Node → Prop} (leaf : ∀ p l, P (.leaf p l))
    (app : ∀ p h args, (∀ a ∈ args, P a) → P (.app p h args)) : ∀ n, P n
  | .leaf p l => leaf p l
  | .app p h args => app p h args fun a _ => ind leaf app a

mutual

/-- The expression without its pointers. -/
def expr : Node → Expr
  | .leaf _ (.var v) => .var v
  | .leaf _ (.const c) => .const c
  | .app _ (.op o) args => .op o (exprList args)
  | .app _ (.appFunc f) args => .appFunc f (exprList args)

def exprList : List Node → List Expr
  | [] => []
  | a :: as => expr a :: exprList as

end

mutual

/-- The node and all the nodes below it. -/
def subs : Node → List Node
  | .leaf p l => [.leaf p l]
  | .app p h args => .app p h args :: subsList args

def subsList : List Node → List Node
  | [] => []
  | a :: as => subs a ++ subsList as

end

def ptrs (n : Node) : List Nat := n.subs.map ptr

def func? : Node → Option Func
  | .app _ (.appFunc f) _ => some f
  | _ => none

def isVar : Node → Bool
  | .leaf _ (.var _) => true
  | _ => false

def isConst : Node → Bool
  | .leaf _ (.const _) => true
  | _ => false

/-- The pointers of the variables in a node. -/
def varPtrs (n : Node) : List Nat := (n.subs.filter isVar).map ptr

def funcs (n : Node) : List Func := n.subs.filterMap func?

theorem mem_subsList {args : List Node} {m : Node} : m ∈ subsList args ↔ ∃ a ∈ args, m ∈ a.subs := by
  induction args with
  | nil => simp [subsList]
  | cons a as ih => simp [subsList, ih]

theorem mem_subs_self (n : Node) : n ∈ n.subs := by
  cases n <;> simp [subs]

theorem mem_subs_leaf {p : Nat} {l : Leaf} {m : Node} : m ∈ (Node.leaf p l).subs ↔ m = .leaf p l := by
  rw [subs, List.mem_singleton]

theorem mem_subs_app {p : Nat} {h : Head} {args : List Node} {m : Node} :
    m ∈ (Node.app p h args).subs ↔ m = .app p h args ∨ ∃ a ∈ args, m ∈ a.subs := by
  rw [subs, List.mem_cons, mem_subsList]

theorem mem_subs_of_arg {p : Nat} {h : Head} {args : List Node} {a m : Node} (ha : a ∈ args) (hm : m ∈ a.subs) :
    m ∈ (Node.app p h args).subs := mem_subs_app.mpr (.inr ⟨a, ha, hm⟩)

theorem arg_mem_subs {p : Nat} {h : Head} {args : List Node} {a : Node} (ha : a ∈ args) : a ∈ (Node.app p h args).subs :=
  mem_subs_of_arg ha a.mem_subs_self

theorem subs_trans {n m k : Node} (hm : m ∈ n.subs) (hk : k ∈ m.subs) : k ∈ n.subs := by
  induction n using ind with
  | leaf p l =>
    rw [mem_subs_leaf.mp hm] at hk
    exact hk
  | app p h args ih =>
    rcases mem_subs_app.mp hm with rfl | ⟨a, ha, hma⟩
    · exact hk
    · exact mem_subs_of_arg ha (ih a ha hma)

theorem exprList_eq_map (args : List Node) : exprList args = args.map expr := by
  induction args with
  | nil => rfl
  | cons a as ih => rw [exprList, ih, List.map_cons]

theorem length_subs_lt {p : Nat} {h : Head} {args : List Node} {a : Node} (ha : a ∈ args) :
    a.subs.length < (Node.app p h args).subs.length := by
  have hle : a.subs.length ≤ (subsList args).length := by
    clear p h
    induction args with
    | nil => cases ha
    | cons b args ih =>
      rw [subsList, List.length_append]
      rcases List.mem_cons.mp ha with rfl | ha
      · omega
      · have := ih ha
        omega
  rw [subs, List.length_cons]
  omega

theorem length_subs_le {n m : Node} (hm : m ∈ n.subs) : m.subs.length ≤ n.subs.length := by
  induction n using Node.ind with
  | leaf p l => rw [mem_subs_leaf.mp hm]
  | app p h args ih =>
    rcases mem_subs_app.mp hm with rfl | ⟨a, ha, hm⟩
    · exact le_rfl
    · have hlt : a.subs.length < (Node.app p h args).subs.length := length_subs_lt ha
      have hle := ih a ha hm
      omega

theorem ptr_mem_ptrs (n : Node) : n.ptr ∈ n.ptrs := List.mem_map_of_mem n.mem_subs_self

theorem mem_funcs {n : Node} {f : Func} : f ∈ n.funcs ↔ ∃ m ∈ n.subs, m.func? = some f := List.mem_filterMap

theorem mem_varPtrs {n : Node} {q : Nat} : q ∈ n.varPtrs ↔ ∃ m ∈ n.subs, m.isVar = true ∧ m.ptr = q := by
  simp only [varPtrs, List.mem_map, List.mem_filter, and_assoc]

theorem mem_ptrs {n : Node} {q : Nat} : q ∈ n.ptrs ↔ ∃ m ∈ n.subs, m.ptr = q := List.mem_map

theorem varPtrs_subset_ptrs {n : Node} {q : Nat} (h : q ∈ n.varPtrs) : q ∈ n.ptrs := by
  obtain ⟨m, hm, -, hq⟩ := mem_varPtrs.mp h
  exact mem_ptrs.mpr ⟨m, hm, hq⟩

section App

variable {p : Nat} {h : Head} {args : List Node}

theorem mem_ptrs_app {q : Nat} : q ∈ (Node.app p h args).ptrs ↔ q = p ∨ ∃ a ∈ args, q ∈ a.ptrs := by
  simp only [mem_ptrs, mem_subs_app, or_and_right, exists_or, exists_eq_left, ptr, eq_comm (a := p)]
  refine or_congr_right ⟨?_, ?_⟩
  · rintro ⟨m, ⟨a, ha, hm⟩, hq⟩
    exact ⟨a, ha, m, hm, hq⟩
  · rintro ⟨a, ha, m, hm, hq⟩
    exact ⟨m, ⟨a, ha, hm⟩, hq⟩

theorem mem_varPtrs_app {q : Nat} : q ∈ (Node.app p h args).varPtrs ↔ ∃ a ∈ args, q ∈ a.varPtrs := by
  simp only [mem_varPtrs, mem_subs_app]
  constructor
  · rintro ⟨m, rfl | ⟨a, ha, hm⟩, hvar, hq⟩
    · simp [isVar] at hvar
    · exact ⟨a, ha, m, hm, hvar, hq⟩
  · rintro ⟨a, ha, m, hm, hvar, hq⟩
    exact ⟨m, .inr ⟨a, ha, hm⟩, hvar, hq⟩

theorem mem_funcs_app {f : Func} :
    f ∈ (Node.app p h args).funcs ↔ h = .appFunc f ∨ ∃ a ∈ args, f ∈ a.funcs := by
  simp only [mem_funcs, mem_subs_app]
  constructor
  · rintro ⟨m, rfl | ⟨a, ha, hm⟩, hf⟩
    · left
      cases h <;> simp_all [func?]
    · exact .inr ⟨a, ha, m, hm, hf⟩
  · rintro (rfl | ⟨a, ha, m, hm, hf⟩)
    · exact ⟨_, .inl rfl, rfl⟩
    · exact ⟨m, .inr ⟨a, ha, hm⟩, hf⟩

end App

theorem funcs_leaf (p : Nat) (l : Leaf) : (Node.leaf p l).funcs = [] := rfl

theorem mem_varPtrs_var {p q : Nat} {v : Var} : q ∈ (Node.leaf p (.var v)).varPtrs ↔ q = p := List.mem_singleton

/-- Every node of the graph is what the heap has at its pointer. -/
def InHeap (heap : Nat → Node) (n : Node) : Prop := ∀ m ∈ n.subs, heap m.ptr = m

theorem InHeap.sub {heap : Nat → Node} {n m : Node} (h : n.InHeap heap) (hm : m ∈ n.subs) : m.InHeap heap :=
  fun k hk => h k (subs_trans hm hk)

theorem InHeap.arg {heap : Nat → Node} {p : Nat} {h : Head} {args : List Node}
    (hn : (Node.app p h args).InHeap heap) {a : Node} (ha : a ∈ args) : a.InHeap heap :=
  hn.sub (arg_mem_subs ha)

/-! ### Well-sorted nodes -/

theorem checkList_of_mem {args : List Node} {ss : List Srt} (h : Expr.checkList (exprList args) = some ss) {a : Node}
    (ha : a ∈ args) : ∃ s, a.expr.check = some s := by
  induction args generalizing ss with
  | nil => simp at ha
  | cons b bs ih =>
    simp only [exprList, Expr.checkList, Option.bind_eq_some_iff, Option.map_eq_some_iff] at h
    obtain ⟨s, hs, us, hus, -⟩ := h
    rcases List.mem_cons.mp ha with rfl | ha
    · exact ⟨s, hs⟩
    · exact ih hus ha

theorem check_app {p : Nat} {hd : Head} {args : List Node} {s : Srt} (h : (Node.app p hd args).expr.check = some s) :
    ∃ ss, Expr.checkList (exprList args) = some ss := by
  cases hd with
  | op o =>
    rw [expr, Expr.check, Option.bind_eq_some_iff] at h
    obtain ⟨ss, hss, -⟩ := h
    exact ⟨ss, hss⟩
  | appFunc f =>
    rw [expr, Expr.check, Option.bind_eq_some_iff] at h
    obtain ⟨ss, hss, -⟩ := h
    exact ⟨ss, hss⟩

theorem check_sub {n m : Node} {s : Srt} (h : n.expr.check = some s) (hm : m ∈ n.subs) :
    ∃ t, m.expr.check = some t := by
  induction n using ind generalizing s with
  | leaf p l =>
    rw [mem_subs_leaf.mp hm]
    exact ⟨s, h⟩
  | app p hd args ih =>
    rcases mem_subs_app.mp hm with rfl | ⟨a, ha, hma⟩
    · exact ⟨s, h⟩
    · obtain ⟨ss, hss⟩ := check_app h
      obtain ⟨t, ht⟩ := checkList_of_mem hss ha
      exact ih a ha ht hma

theorem map_sort_eq {ν : Valuation} {args : List Node} {ss : List Srt} {vs : List Value} (hss : Expr.checkList (exprList args) = some ss)
    (hvs : Expr.evalList ν (exprList args) = some vs) :
    args.map (fun a => a.expr.sort) = vs.map Value.sort := by
  have hsorts := Expr.evalList_sort ν (exprList args)
  rw [hvs, hss, Option.map_some, Option.some.injEq] at hsorts
  have hlist := Expr.sortList_of_checkList hss
  rw [Expr.sortList_eq_map, exprList_eq_map, List.map_map] at hlist
  rw [hsorts, ← hlist]
  rfl

/-- All widths are positive. -/
def Positive (n : Node) : Prop := ∀ m ∈ n.subs, m.expr.sort.Pos

theorem Positive.sub {n m : Node} (h : n.Positive) (hm : m ∈ n.subs) : m.Positive :=
  fun k hk => h k (subs_trans hm hk)

end Node

end Ilang
