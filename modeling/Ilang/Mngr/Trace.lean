import Ilang.Mngr.Unroller
import Ilang.Smt.Solver

/-!
# Traces

A trace gives values to the atoms frame by frame, with functions that do not change. A solver model
realises a trace when it has these values under the numbered names. Every trace is realised by some
model as soon as the names keep the atoms in question apart (`Separate`), so formulas over numbered
constants and properties of traces can be exchanged. Several traces are realised at once under different
tags (`exists_recorded`).
-/

namespace Ilang

open Smt

structure Trace where
  atom : Nat → Atom → Value
  atom_sort : ∀ i a, (atom i a).sort = a.sort
  func : Func → List Value → Value
  func_sort : ∀ f vs, (func f vs).sort = f.out

namespace Trace

/-- The valuation of one frame. -/
def frame (τ : Trace) (i : Nat) : Valuation := ⟨τ.atom i, τ.atom_sort i, τ.func, τ.func_sort⟩

@[simp] theorem frame_atom (τ : Trace) (i : Nat) (a : Atom) : (τ.frame i).atom a = τ.atom i a := rfl

end Trace

/-- Different atoms, and different functions, have different names in the solver. -/
structure Separate (as : List Atom) (fs : List Func) : Prop where
  atom : ∀ a ∈ as, ∀ b ∈ as, a.sym "" = b.sym "" → a = b
  func : ∀ f ∈ fs, ∀ g ∈ fs, f.z3FuncDecl = g.z3FuncDecl → f = g

/-- The model has the values of the trace, from a position on. -/
structure Realises (u : Unroller) (pos : Int) (as : List Atom) (fs : List Func) (M : Model) (τ : Trace) :
    Prop where
  atom : ∀ i : Nat, ∀ a ∈ as, M.const (a.sym (u.suffCurr (pos + i))) = τ.atom i a
  func : ∀ f ∈ fs, M.func f.z3FuncDecl = τ.func f

theorem func_default_sort : ∀ (f : Func) (_ : List Value), f.out.default.sort = f.out := fun f _ => f.out.sort_default

/-- The trace that a model gives from frame 0 on. -/
def traceOf (u : Unroller) (M : Model) : Trace where
  atom i a := M.const (a.sym (u.suffCurr i))
  atom_sort i a := by rw [M.const_sort, Atom.sort_sym]
  func f := M.func f.z3FuncDecl
  func_sort := func_decl_sort M

theorem realises_traceOf (u : Unroller) (as : List Atom) (fs : List Func) (M : Model) :
    Realises u 0 as fs M (traceOf u M) :=
  ⟨fun i a _ => by rw [Int.zero_add]; rfl, fun _ _ => rfl⟩

variable {u : Unroller} {pos : Int} {as : List Atom} {fs : List Func}

theorem exists_realises (u : Unroller) (pos : Int) (hsep : Separate as fs) (τ : Trace) : ∃ M, Realises u pos as fs M τ := by
  obtain ⟨N, -, hN⟩ := (default : Model).exists_funcs (fun f : { f // f ∈ fs } => f.1.z3FuncDecl)
    (fun f => τ.func f.1) (fun f vs => τ.func_sort f.1 vs)
    (fun f g hfg => by rw [hsep.func f.1 f.2 g.1 g.2 hfg])
  obtain ⟨M, hfunc, hM, -⟩ := N.exists_assign
    (fun p : Nat × { a // a ∈ as } => p.2.1.sym (u.suffCurr (pos + p.1))) (fun p => τ.atom p.1 p.2.1)
    (fun p => by rw [τ.atom_sort, Atom.sort_sym])
    (by
      rintro ⟨i, a⟩ ⟨j, b⟩ hab
      obtain ⟨hij, hsym⟩ := Unroller.sym_suffCurr_inj.mp hab
      obtain rfl : i = j := by omega
      rw [hsep.atom a.1 a.2 b.1 b.2 hsym])
  refine ⟨M, fun i a ha => hM (i, ⟨a, ha⟩), fun f hf => ?_⟩
  rw [hfunc]
  exact hN ⟨f, hf⟩

theorem Realises.eval_eq {M : Model} {τ : Trace} (h : Realises u pos as fs M τ) {e : Expr} (i : Nat)
    (hatoms : ∀ a ∈ e.atoms, a ∈ as) (hfuncs : ∀ f ∈ e.funcs, f ∈ fs) :
    e.eval (frame M (u.suffCurr (pos + i))) = e.eval (τ.frame i) :=
  Expr.eval_congr (fun f hf => h.func f (hfuncs f hf)) fun a ha => h.atom i a (hatoms a ha)

theorem Realises.holds_iff {M : Model} {τ : Trace} (h : Realises u pos as fs M τ) {e : Expr} (i : Nat)
    (hatoms : ∀ a ∈ e.atoms, a ∈ as) (hfuncs : ∀ f ∈ e.funcs, f ∈ fs) :
    (frame M (u.suffCurr (pos + i))).Holds e ↔ (τ.frame i).Holds e := by
  rw [Valuation.Holds, h.eval_eq i hatoms hfuncs, Valuation.Holds]

theorem Separate.exists_frame (hsep : Separate as fs) (ν : Valuation) : ∃ M : Model, ∀ e : Expr,
    (∀ a ∈ e.atoms, a ∈ as) → (∀ f ∈ e.funcs, f ∈ fs) → e.eval (frame M "") = e.eval ν := by
  obtain ⟨N, -, hN⟩ := (default : Model).exists_funcs (fun f : { f // f ∈ fs } => f.1.z3FuncDecl)
    (fun f => ν.func f.1) (fun f vs => ν.func_sort f.1 vs) (fun f g hfg => by rw [hsep.func f.1 f.2 g.1 g.2 hfg])
  obtain ⟨M, hfunc, hM, -⟩ := N.exists_assign (fun a : { a // a ∈ as } => a.1.sym "") (fun a => ν.atom a.1)
    (fun a => by rw [ν.atom_sort, Atom.sort_sym]) (fun a b hab => by rw [hsep.atom a.1 a.2 b.1 b.2 hab])
  refine ⟨M, fun e hatoms hfuncs => Expr.eval_congr (fun f hf => ?_) fun a ha => hM ⟨a, hatoms a ha⟩⟩
  change M.func f.z3FuncDecl = ν.func f
  rw [hfunc]
  exact hN ⟨f, hfuncs f hf⟩

theorem Separate.sat_iff (hsep : Separate as fs) (z3 : Z3) (o : Oracle) {es : List Expr}
    (hbool : ∀ e ∈ es, e.check = some .bool) (hatoms : ∀ e ∈ es, ∀ a ∈ e.atoms, a ∈ as)
    (hfuncs : ∀ e ∈ es, ∀ f ∈ e.funcs, f ∈ fs) :
    o.sat (es.map (getExpr z3 "")) = true ↔ ∃ ν : Valuation, ∀ e ∈ es, ν.Holds e := by
  rw [o.sat_iff]
  simp only [List.forall_mem_map]
  constructor
  · rintro ⟨M, hM⟩
    exact ⟨frame M "", fun e he => (sat_getExpr (hbool e he)).mp (hM e he)⟩
  · rintro ⟨ν, hν⟩
    obtain ⟨M, hM⟩ := hsep.exists_frame ν
    refine ⟨M, fun e he => (sat_getExpr (hbool e he)).mpr ?_⟩
    rw [Valuation.Holds, hM e (hatoms e he) (hfuncs e he)]
    exact hν e he

/-- Under different tags every frame can be given values of its own, and so can the constants without a
number. -/
theorem exists_recorded {κ : Type} {tag : κ → String} (hinj : Function.Injective tag)
    (htag : ∀ k, '_' ∉ (tag k).toList ∧ tag k ≠ "") {as rs : List Atom} {fs : List Func}
    (has : (as.map fun a => a.sym "").Nodup) (hsep : Separate rs fs) (vals : κ → Nat → List (Atom × Value))
    (hkeys : ∀ k i, (vals k i).map Prod.fst = as) (hsort : ∀ k i, ∀ p ∈ vals k i, p.2.sort = p.1.sort)
    (rep : κ → Valuation) (ν : Valuation) :
    ∃ M : Model, (∀ k i, ∀ p ∈ vals k i, M.const (p.1.sym ((Unroller.new (tag k)).suffCurr (i : Nat))) = p.2) ∧
      (∀ k, ∀ a ∈ rs, M.const (a.sym (tag k)) = (rep k).atom a) ∧ ∀ f ∈ fs, M.func f.z3FuncDecl = ν.func f := by
  obtain ⟨N, -, hN⟩ := (default : Model).exists_funcs (fun f : { f // f ∈ fs } => f.1.z3FuncDecl)
    (fun f => ν.func f.1) (fun f vs => ν.func_sort f.1 vs) (fun f g hfg => by rw [hsep.func f.1 f.2 g.1 g.2 hfg])
  let ι := (Σ x : κ × Nat, { p // p ∈ vals x.1 x.2 }) ⊕ κ × { a // a ∈ rs }
  let sym : ι → Sym
    | .inl ⟨x, p⟩ => p.1.1.sym ((Unroller.new (tag x.1)).suffCurr (x.2 : Nat))
    | .inr x => x.2.1.sym (tag x.1)
  let val : ι → Value
    | .inl ⟨_, p⟩ => p.1.2
    | .inr x => (rep x.1).atom x.2.1
  have hval : ∀ i, (val i).sort = (sym i).sort := by
    rintro (⟨x, p⟩ | x)
    · rw [Atom.sort_sym]
      exact hsort x.1 x.2 p.1 p.2
    · rw [Atom.sort_sym]
      exact (rep x.1).atom_sort x.2.1
  have hmem : ∀ {k i} {p : Atom × Value}, p ∈ vals k i → p.1 ∈ as := fun {k i p} hp => by
    rw [← hkeys k i]
    exact List.mem_map_of_mem hp
  have hne : ∀ (x : κ × { a // a ∈ rs }) (y : Σ x : κ × Nat, { p // p ∈ vals x.1 x.2 }), sym (.inr x) ≠ sym (.inl y) :=
    fun x y => Unroller.sym_tag_ne_suffCurr (Unroller.new (tag x.1)) (Unroller.new (tag y.1.1))
      (htag x.1).1 (htag y.1.1).1 (htag x.1).2
  obtain ⟨M, hfunc, hM, -⟩ := N.exists_assign sym val hval (by
    rintro (⟨⟨k, i⟩, p⟩ | ⟨k, a⟩) (⟨⟨l, j⟩, q⟩ | ⟨l, b⟩) heq
    · obtain ⟨hkl, hij, hab⟩ := Unroller.sym_suffCurr_tag_inj (Unroller.new (tag k)) (Unroller.new (tag l))
        (htag k).1 (htag l).1 heq
      obtain rfl := hinj hkl
      obtain rfl : i = j := by omega
      have hatom := List.inj_on_of_nodup_map has (hmem p.2) (hmem q.2) hab
      have hnodup : ((vals k i).map Prod.fst).Nodup := by
        rw [hkeys]
        exact has.of_map
      rw [show val (.inl ⟨(k, i), p⟩) = p.1.2 from rfl, List.inj_on_of_nodup_map hnodup p.2 q.2 hatom]
    · exact absurd heq.symm (hne (l, b) ⟨(k, i), p⟩)
    · exact absurd heq (hne (k, a) ⟨(l, j), q⟩)
    · obtain ⟨hkl, hab⟩ := Unroller.sym_tag_inj (Unroller.new (tag k)) (Unroller.new (tag l))
        (htag k).1 (htag l).1 (htag k).2 (htag l).2 heq
      obtain rfl := hinj hkl
      have hatom : a = b := Subtype.ext (hsep.atom a.1 a.2 b.1 b.2 hab)
      rw [hatom])
  refine ⟨M, fun k i p hp => hM (.inl ⟨(k, i), ⟨p, hp⟩⟩), fun k a ha => hM (.inr (k, ⟨a, ha⟩)), fun f hf => ?_⟩
  rw [hfunc]
  exact hN ⟨f, hf⟩

end Ilang
