import Ilang.Mngr.MonoUnroll
import Ilang.Mngr.Trace

/-!
# Refinement maps and their paths

A refinement map says how an ILA is flushed, when an instruction is applied to it and when it has
completed. The equivalence checks compare the states of two ILAs at completion points of flushing paths.
Here are these paths, as traces, and what a solver model that records some of them looks like.
-/

namespace Ilang

open Smt

/-- `RefinementMap`. The setters take Boolean expressions only. -/
structure RefinementMap where
  coi : Ila
  appl : Expr
  flush : Expr
  cmpl : Expr
  stepAppl : Int
  stepOrig : Int
  invs : List Expr
  sorted : ∀ e ∈ [appl, flush, cmpl] ++ invs, e.check = some .bool

/-- `CompRefRel`, with the accumulated expression of its relation map. -/
structure CompRefRel where
  refineA : RefinementMap
  refineB : RefinementMap
  relation : Expr
  relation_check : relation.check = some .bool

namespace RefinementMap

variable (r : RefinementMap)

theorem appl_check : r.appl.check = some .bool := r.sorted _ (by simp)

theorem flush_check : r.flush.check = some .bool := r.sorted _ (by simp)

theorem cmpl_check : r.cmpl.check = some .bool := r.sorted _ (by simp)

theorem invs_check : ∀ e ∈ r.invs, e.check = some .bool := fun e he => r.sorted e (by simp [he])

/-! ### Paths -/

/-- The trace takes steps of the ILA, and the flush condition holds from a frame on. -/
def Flushes (τ : Trace) (start length : Nat) : Prop :=
  (∀ i < length, r.coi.Step (τ.frame i) (τ.frame (i + 1))) ∧
    ∀ i, start ≤ i → i ≤ length → (τ.frame i).Holds r.flush

/-- The invariants hold along the trace. -/
def Keeps (τ : Trace) (length : Nat) : Prop := ∀ i ≤ length, ∀ e ∈ r.invs, (τ.frame i).Holds e

def Completes (τ : Trace) (i : Nat) : Prop := (τ.frame i).Holds r.cmpl

/-- Two frames have the same values of some states. -/
def SameOn (vars : List Var) (ν ν' : Valuation) : Prop := ∀ v ∈ vars, ν.atom (.var v) = ν'.atom (.var v)

/-! ### What a side reads -/

/-- The expressions of the ILA and of its refinement map. -/
def exprs : List Expr := MonoUnroll.exprs r.coi ++ ([r.appl, r.flush, r.cmpl] ++ r.invs)

def atoms : List Atom := (r.exprs.flatMap Expr.atoms).dedup

def funcs : List Func := r.exprs.flatMap Expr.funcs

/-- The atoms, and the free variables of the unrolling. -/
def sideAtoms (fresh : Nat) : List Atom :=
  r.atoms ++ ((MonoUnroll.selected fresh r.coi).map (fun p => .var p.2) ++ [.var (MonoUnroll.dummy fresh r.coi)]
    ++ r.coi.getSttTree.map fun v => .var (MonoUnroll.nextOf fresh r.coi v))

/-- The values of one frame of a trace, with one bit set and the next values of the next frame. -/
def sideValue (fresh : Nat) (τ : Trace) (x : Var) (i : Nat) : List (Atom × Value) :=
  r.atoms.map (fun a => (a, τ.atom i a))
    ++ ((MonoUnroll.selected fresh r.coi).map (fun p => (.var p.2, .bool (p.2 = x)))
      ++ [(.var (MonoUnroll.dummy fresh r.coi), .bool (MonoUnroll.dummy fresh r.coi = x))]
      ++ r.coi.getSttTree.map fun v => (.var (MonoUnroll.nextOf fresh r.coi v), τ.atom (i + 1) (.var v)))

variable {r} {fresh : Nat} {τ : Trace} {x : Var} {i : Nat} {M : Model}

theorem sideValue_fst : (r.sideValue fresh τ x i).map Prod.fst = r.sideAtoms fresh := by
  simp [sideValue, sideAtoms, Function.comp_def]

theorem sideValue_sort : ∀ p ∈ r.sideValue fresh τ x i, p.2.sort = p.1.sort := by
  intro p hp
  simp only [sideValue, List.mem_append, List.mem_map, List.mem_singleton] at hp
  rcases hp with ⟨a, -, rfl⟩ | (⟨q, hq, rfl⟩ | rfl) | ⟨v, -, rfl⟩
  · exact τ.atom_sort i a
  · exact (Option.some.inj (MonoUnroll.selected_check hq)).symm
  · rfl
  · exact τ.atom_sort (i + 1) (.var v)

theorem mem_exprs_coi {e : Expr} (he : e ∈ MonoUnroll.exprs r.coi) : e ∈ r.exprs := List.mem_append_left _ he

theorem mem_exprs_state {v : Var} (hv : v ∈ r.coi.getSttTree) : Expr.var v ∈ r.exprs :=
  mem_exprs_coi (MonoUnroll.mem_exprs_state hv)

theorem var_mem_atoms {v : Var} (hv : v ∈ r.coi.getSttTree) : Atom.var v ∈ r.atoms :=
  List.mem_dedup.mpr (List.mem_flatMap.mpr ⟨_, mem_exprs_state hv, by simp [Expr.atoms]⟩)

/-- A solver model has the values of a frame under its name. -/
structure Records (r : RefinementMap) (fresh : Nat) (tag : String) (M : Model) (τ : Trace) (x : Var) (i : Nat) : Prop where
  eval : ∀ e ∈ r.exprs, e.eval (frame M ((Unroller.new tag).suffCurr i)) = e.eval (τ.frame i)
  spans : MonoUnroll.Spans fresh r.coi (frame M ((Unroller.new tag).suffCurr i)) (τ.frame i) (τ.frame (i + 1))
  only : MonoUnroll.OnlyBit fresh r.coi x (frame M ((Unroller.new tag).suffCurr i))

theorem Records.holds_iff {tag : String} (h : r.Records fresh tag M τ x i) {e : Expr} (he : e ∈ r.exprs) :
    (frame M ((Unroller.new tag).suffCurr i)).Holds e ↔ (τ.frame i).Holds e := by
  rw [Valuation.Holds, h.eval e he, Valuation.Holds]

theorem Records.const_eq {tag : String} (h : r.Records fresh tag M τ x i) {v : Var} (hv : v ∈ r.coi.getSttTree) :
    M.const (v.sym ((Unroller.new tag).suffCurr i)) = τ.atom i (.var v) := by
  have heval := h.eval _ (mem_exprs_state hv)
  rw [Expr.eval, Expr.eval, Option.some.injEq] at heval
  exact heval

theorem records_of_values {tag : String}
    (hval : ∀ p ∈ r.sideValue fresh τ x i, M.const (p.1.sym ((Unroller.new tag).suffCurr i)) = p.2)
    (hfunc : ∀ f ∈ r.funcs, M.func f.z3FuncDecl = τ.func f) : r.Records fresh tag M τ x i := by
  simp only [sideValue, List.forall_mem_append, List.forall_mem_map, List.forall_mem_singleton] at hval
  obtain ⟨hatoms, ⟨hsel, hdum⟩, hnext⟩ := hval
  have heval : ∀ e ∈ r.exprs, e.eval (frame M ((Unroller.new tag).suffCurr i)) = e.eval (τ.frame i) := by
    intro e he
    refine Expr.eval_congr (fun f hf => hfunc f (List.mem_flatMap.mpr ⟨e, he, hf⟩)) fun a ha => ?_
    exact hatoms a (List.mem_dedup.mpr (List.mem_flatMap.mpr ⟨e, he, ha⟩))
  refine ⟨heval, ⟨fun a ha => ?_, fun f hf => ?_, hnext⟩, fun p hp => ?_, ?_⟩
  · obtain ⟨e, he, hae⟩ := List.mem_flatMap.mp (List.mem_dedup.mp ha)
    exact hatoms a (List.mem_dedup.mpr (List.mem_flatMap.mpr ⟨e, mem_exprs_coi he, hae⟩))
  · obtain ⟨e, he, hfe⟩ := List.mem_flatMap.mp hf
    exact hfunc f (List.mem_flatMap.mpr ⟨e, mem_exprs_coi he, hfe⟩)
  · rw [Valuation.Holds, Expr.eval, frame_atom, hsel p hp]
    simp
  · rw [Valuation.Holds, Expr.eval, frame_atom, hdum]
    simp

theorem bitsApart_of_nodup (h : ((r.sideAtoms fresh).map fun a => a.sym "").Nodup) :
    MonoUnroll.BitsApart fresh r.coi := by
  rw [sideAtoms, List.map_append] at h
  have hhidden := List.Nodup.of_append_right h
  rw [List.map_append] at hhidden
  have hbits := List.Nodup.of_append_left hhidden
  rw [List.map_append, List.nodup_append, List.map_map, List.Nodup, List.pairwise_map] at hbits
  refine ⟨hbits.1.imp fun hne heq => hne (by simp only [Function.comp, heq]), fun p hp heq => ?_⟩
  refine hbits.2.2 _ (List.mem_map_of_mem hp) _ (List.mem_map_of_mem List.mem_cons_self) ?_
  simp only [Function.comp, heq]

/-- The solver has names of its own for what one side reads. -/
structure DistinctNames (r : RefinementMap) (fresh : Nat) : Prop where
  side : ((r.sideAtoms fresh).map fun a => a.sym "").Nodup
  func : Separate [] r.funcs

theorem exists_records {κ : Type} {tag : κ → String} (hinj : Function.Injective tag)
    (htag : ∀ k, '_' ∉ (tag k).toList ∧ tag k ≠ "") (hnames : r.DistinctNames fresh) (α : κ → Trace)
    (x : κ → Nat → Var) (ν : Valuation) (hα : ∀ k, (α k).func = ν.func) :
    ∃ M : Model, ∀ k i, r.Records fresh (tag k) M (α k) (x k i) i := by
  obtain ⟨M, hval, -, hfunc⟩ := exists_recorded hinj htag hnames.side hnames.func
    (fun k i => r.sideValue fresh (α k) (x k i) i) (fun k i => sideValue_fst) (fun k i => sideValue_sort) (fun _ => ν) ν
  refine ⟨M, fun k i => records_of_values (hval k i) fun f hf => ?_⟩
  rw [hα, hfunc f hf]

/-- The bits that select the steps of a trace. -/
def Picks (r : RefinementMap) (fresh : Nat) (τ : Trace) (length : Nat) (x : Nat → Var) : Prop :=
  ∀ i < length, ∀ μ, MonoUnroll.Spans fresh r.coi μ (τ.frame i) (τ.frame (i + 1)) →
    MonoUnroll.OnlyBit fresh r.coi (x i) μ → MonoUnroll.Selects fresh r.coi μ

theorem exists_picks {length : Nat} (hacc : 0 < length → MonoUnroll.Accepted fresh r.coi)
    (hbits : MonoUnroll.BitsApart fresh r.coi) (hstep : ∀ i < length, r.coi.Step (τ.frame i) (τ.frame (i + 1))) :
    ∃ x, r.Picks fresh τ length x := by
  have hex : ∀ i, ∃ x, i < length → ∀ μ, MonoUnroll.Spans fresh r.coi μ (τ.frame i) (τ.frame (i + 1)) →
      MonoUnroll.OnlyBit fresh r.coi x μ → MonoUnroll.Selects fresh r.coi μ := by
    intro i
    by_cases hi : i < length
    · obtain ⟨x, hx⟩ := MonoUnroll.exists_bit (hacc (Nat.zero_lt_of_lt hi)) hbits (hstep i hi)
      exact ⟨x, fun _ => hx⟩
    · exact ⟨MonoUnroll.dummy fresh r.coi, fun h => absurd h hi⟩
  choose x hx using hex
  exact ⟨x, hx⟩

end RefinementMap

namespace CompRefRel

variable (crr : CompRefRel)

/-- What the constants without a number are used for. -/
def repAtoms : List Atom :=
  crr.relation.atoms ++ (crr.refineA.coi.getSttTree ++ crr.refineB.coi.getSttTree).map Atom.var

def funcs : List Func := crr.refineA.funcs ++ crr.refineB.funcs ++ crr.relation.funcs

/-- The solver has names of its own for what the two sides and the relation read. -/
structure DistinctNames (fresh : Nat) : Prop where
  sides : ((crr.refineA.sideAtoms fresh ++ crr.refineB.sideAtoms fresh).map fun a => a.sym "").Nodup
  rep : Separate crr.repAtoms crr.funcs

theorem DistinctNames.refineA {crr : CompRefRel} {fresh : Nat} (h : crr.DistinctNames fresh) :
    crr.refineA.DistinctNames fresh := by
  have hsides := h.sides
  rw [List.map_append] at hsides
  refine ⟨hsides.of_append_left, by simp, fun f hf g hg => h.rep.func f ?_ g ?_⟩
  · exact List.mem_append_left _ (List.mem_append_left _ hf)
  · exact List.mem_append_left _ (List.mem_append_left _ hg)

theorem DistinctNames.refineB {crr : CompRefRel} {fresh : Nat} (h : crr.DistinctNames fresh) :
    crr.refineB.DistinctNames fresh := by
  have hsides := h.sides
  rw [List.map_append] at hsides
  refine ⟨hsides.of_append_right, by simp, fun f hf g hg => h.rep.func f ?_ g ?_⟩
  · exact List.mem_append_left _ (List.mem_append_right _ hf)
  · exact List.mem_append_left _ (List.mem_append_right _ hg)

/-- The states of the first ILA in one valuation, and everything else in another. -/
def join (ν μ : Valuation) : Valuation where
  atom a := if a ∈ crr.refineA.coi.getSttTree.map Atom.var then ν.atom a else μ.atom a
  atom_sort a := by
    split
    · exact ν.atom_sort a
    · exact μ.atom_sort a
  func := ν.func
  func_sort := ν.func_sort

variable {crr} {fresh : Nat}

theorem join_a (ν μ : Valuation) {v : Var} (hv : v ∈ crr.refineA.coi.getSttTree) :
    (crr.join ν μ).atom (.var v) = ν.atom (.var v) := if_pos (List.mem_map_of_mem hv)

theorem join_b (hnames : crr.DistinctNames fresh) (ν μ : Valuation) {v : Var} (hv : v ∈ crr.refineB.coi.getSttTree) :
    (crr.join ν μ).atom (.var v) = μ.atom (.var v) := by
  refine if_neg fun hmem => ?_
  obtain ⟨w, hw, hwv⟩ := List.mem_map.mp hmem
  have hsides := hnames.sides
  rw [List.map_append, List.nodup_append] at hsides
  refine hsides.2.2 _ (List.mem_map_of_mem (List.mem_append_left _ (RefinementMap.var_mem_atoms hw))) _
    (List.mem_map_of_mem (List.mem_append_left _ (RefinementMap.var_mem_atoms hv))) ?_
  rw [hwv]

theorem exists_records {κ : Type} {tag : κ → String} (hinj : Function.Injective tag)
    (htag : ∀ k, '_' ∉ (tag k).toList ∧ tag k ≠ "") (hnames : crr.DistinctNames fresh) (α β : κ → Trace)
    (x y : κ → Nat → Var) (rep : κ → Valuation) (ν : Valuation) (hα : ∀ k, (α k).func = ν.func)
    (hβ : ∀ k, (β k).func = ν.func) :
    ∃ M : Model, (∀ k i, crr.refineA.Records fresh (tag k) M (α k) (x k i) i) ∧
      (∀ k i, crr.refineB.Records fresh (tag k) M (β k) (y k i) i) ∧
      (∀ k, ∀ a ∈ crr.repAtoms, M.const (a.sym (tag k)) = (rep k).atom a) ∧
      ∀ f ∈ crr.funcs, M.func f.z3FuncDecl = ν.func f := by
  obtain ⟨M, hval, hrep, hfunc⟩ := exists_recorded hinj htag hnames.sides hnames.rep
    (fun k i => crr.refineA.sideValue fresh (α k) (x k i) i ++ crr.refineB.sideValue fresh (β k) (y k i) i)
    (fun k i => by rw [List.map_append, RefinementMap.sideValue_fst, RefinementMap.sideValue_fst])
    (fun k i => List.forall_mem_append.mpr ⟨RefinementMap.sideValue_sort, RefinementMap.sideValue_sort⟩) rep ν
  refine ⟨M, fun k i => ?_, fun k i => ?_, hrep, hfunc⟩
  · refine RefinementMap.records_of_values (fun p hp => hval k i p (List.mem_append_left _ hp)) fun f hf => ?_
    rw [hα, hfunc f (List.mem_append_left _ (List.mem_append_left _ hf))]
  · refine RefinementMap.records_of_values (fun p hp => hval k i p (List.mem_append_right _ hp)) fun f hf => ?_
    rw [hβ, hfunc f (List.mem_append_left _ (List.mem_append_right _ hf))]

theorem holds_relation {M : Model} {tag : String} {ν : Valuation}
    (hrep : ∀ a ∈ crr.repAtoms, M.const (a.sym tag) = ν.atom a)
    (hfunc : ∀ f ∈ crr.funcs, M.func f.z3FuncDecl = ν.func f) :
    (frame M tag).Holds crr.relation ↔ ν.Holds crr.relation := by
  rw [Valuation.Holds, Valuation.Holds]
  rw [Expr.eval_congr (fun f hf => hfunc f (List.mem_append_right _ hf)) fun a ha => hrep a (List.mem_append_left _ ha)]

end CompRefRel

end Ilang
