import Ilang.Mngr.PathUnroll
import Ilang.Mngr.UnrollerSmt

/-!
# Unrolling from a later position

The formula unrolled from a position should be the one unrolled from 0 with every frame moved by that
many steps. A model is moved by reading each frame of it that much later (`Shifted`), so the formulas are
compared in a model and in the moved model. All steps move along. The end state does not: it is taken in
the frame of the length, without the position.
-/

namespace Ilang

open Smt

namespace Unroller

/-! ### Moving a model -/

/-- The second model is the first one, read `p` frames later. -/
structure Shifted (u : Unroller) (p : Int) (M N : Model) : Prop where
  curr : ∀ (a : Atom) (t : Int), N.const (a.sym (u.suffCurr t)) = M.const (a.sym (u.suffCurr (p + t)))
  next : ∀ (a : Atom) (t : Int), N.const (a.sym (u.suffNext t)) = M.const (a.sym (u.suffNext (p + t)))
  func : N.func = M.func

variable {u : Unroller}

theorem suffNext_eq (u : Unroller) (t : Int) :
    u.suffNext t = suffCurr { u with extraSuff := u.extraSuff ++ ".nxt" } t := by
  simp only [suffNext, suffCurr, String.append_assoc]

theorem sym_suffNext_inj {a b : Atom} {s t : Int} :
    a.sym (u.suffNext s) = b.sym (u.suffNext t) ↔ s = t ∧ a.sym "" = b.sym "" := by
  rw [suffNext_eq, suffNext_eq]
  exact sym_suffCurr_inj

theorem sym_suffCurr_ne_suffNext {a b : Atom} {s t : Int} : a.sym (u.suffCurr s) ≠ b.sym (u.suffNext t) := by
  intro h
  have hname := congrArg Sym.name h
  rw [suffNext_eq, name_suffCurr, name_suffCurr] at hname
  obtain ⟨pre, d, hsuff, hd⟩ := Name.exists_cut (c := '_') (l := ("_" ++ u.extraSuff).toList) (by simp)
  have hl := congrArg String.toList hname
  simp only [String.toList_append] at hl hsuff
  have hnxt : "_".toList ++ (u.extraSuff.toList ++ ".nxt".toList) = pre ++ '_' :: (d ++ ".nxt".toList) := by
    rw [← List.append_assoc, hsuff]
    simp
  rw [hsuff, hnxt] at hl
  simp only [← List.append_assoc] at hl
  have hcut := (Name.cut_unique hl hd (by simp [hd])).2
  exact absurd (congrArg List.length hcut) (by simp)

theorem exists_shifted (u : Unroller) (p : Int) (M : Model) : ∃ N, Shifted u p M N := by
  let suffix : Bool → Int → String := fun nxt t => if nxt then u.suffNext t else u.suffCurr t
  obtain ⟨N, hfunc, hN, -⟩ := M.exists_assign (fun x : Atom × Bool × Int => x.1.sym (suffix x.2.1 x.2.2))
    (fun x => M.const (x.1.sym (suffix x.2.1 (p + x.2.2)))) (fun x => by rw [M.const_sort, Atom.sort_sym, Atom.sort_sym])
    (by
      rintro ⟨a, nxt, s⟩ ⟨b, nxt', t⟩ hsym
      cases nxt with
      | false =>
        cases nxt' with
        | false =>
          obtain ⟨rfl, hab⟩ := sym_suffCurr_inj.mp hsym
          exact congrArg M.const (sym_suffCurr_inj.mpr ⟨rfl, hab⟩)
        | true => exact absurd hsym sym_suffCurr_ne_suffNext
      | true =>
        cases nxt' with
        | false => exact absurd hsym.symm sym_suffCurr_ne_suffNext
        | true =>
          obtain ⟨rfl, hab⟩ := sym_suffNext_inj.mp hsym
          exact congrArg M.const (sym_suffNext_inj.mpr ⟨rfl, hab⟩))
  exact ⟨N, fun a t => hN (a, false, t), fun a t => hN (a, true, t), hfunc⟩

variable {z3 : Z3} {tr : Trans} {p : Int} {M N : Model}

theorem Shifted.frame_eq (h : Shifted u p M N) (t : Int) : frame N (u.suffCurr t) = frame M (u.suffCurr (p + t)) := by
  simp only [frame, h.func, h.curr]

theorem Shifted.endHolds (h : Shifted u p M N) {len : Nat} (hend : p = 0 ∨ u.endPred len = []) :
    u.EndHolds len (frame M (u.suffCurr len)) ↔ u.EndHolds len (frame N (u.suffCurr len)) := by
  rcases hend with rfl | hnil
  · rw [h.frame_eq, Int.zero_add]
  · simp [EndHolds, hnil]

theorem Shifted.sat_unrollAssn (h : Shifted u p M N) {len : Nat} (hend : p = 0 ∨ u.endPred len = []) {φ ψ : Term}
    (hφ : unrollAssn z3 u tr len p = some φ) (hψ : unrollAssn z3 u tr len 0 = some ψ) : M.Sat φ ↔ N.Sat ψ := by
  rw [Unroller.sat_unrollAssn hφ, Unroller.sat_unrollAssn hψ, h.endHolds hend]
  refine and_congr_left fun _ => forall₂_congr fun i _ => ?_
  have hnext : ∀ v : Var, N.const (v.sym (u.suffCurr (i + 1))) = M.const (v.sym (u.suffCurr (p + i + 1))) := by
    intro v
    rw [Int.add_assoc]
    exact h.curr (.var v) (i + 1)
  rw [Int.zero_add, h.frame_eq]
  simp only [StepHolds, hnext]

theorem Shifted.sat_unrollNone (h : Shifted u p M N) {len : Nat} {φ ψ : Term}
    (hφ : unrollNone z3 u tr len p = some φ) (hψ : unrollNone z3 u tr len 0 = some ψ) : M.Sat φ ↔ N.Sat ψ := by
  rw [Unroller.sat_unrollNone hφ, Unroller.sat_unrollNone hψ]
  refine forall₂_congr fun i _ => ?_
  have hnext : ∀ v : Var, N.const (v.sym (u.suffNext i)) = M.const (v.sym (u.suffNext (p + i))) :=
    fun v => h.next (.var v) i
  rw [Int.zero_add, h.frame_eq]
  simp only [StepHolds, hnext]

theorem Shifted.frame_subsModel (h : Shifted u p M N) {len : Nat} {ends : List Expr} (hsorted : u.Sorted tr len ends)
    {i : Nat} (hi : i ≤ len)
    (heval : ∀ v ∈ tr.vars, ((subsLoop z3 u tr p i).1 v).eval M = ((subsLoop z3 u tr 0 i).1 v).eval N) :
    frame (subsModel z3 u tr p M i) (u.suffCurr (p + i)) = frame (subsModel z3 u tr 0 N i) (u.suffCurr (0 + i)) := by
  have hfind : ∀ (a : Atom) (q : Int), tr.vars.reverse.find? (fun v => decide (v.sym (u.suffCurr (q + i)) = a.sym (u.suffCurr (q + i))))
      = tr.vars.reverse.find? fun v => decide (v.sym "" = a.sym "") := by
    intro a q
    congr 1
    funext v
    exact decide_eq_decide.mpr ((sym_suffCurr_inj (a := .var v)).trans (by simp))
  have hatom : ∀ a : Atom, (subsModel z3 u tr p M i).const (a.sym (u.suffCurr (p + i))) =
      (subsModel z3 u tr 0 N i).const (a.sym (u.suffCurr (0 + i))) := by
    intro a
    cases hv : tr.vars.reverse.find? fun v => decide (v.sym "" = a.sym "") with
    | none =>
      rw [subsModel, subsModel, Term.substModel_none (by rw [substOf, hfind, hv]; rfl),
        Term.substModel_none (by rw [substOf, hfind, hv]; rfl), Int.zero_add, h.curr]
    | some v =>
      have hmem : v ∈ tr.vars := List.mem_reverse.mp (List.mem_of_find?_eq_some hv)
      have hσ : ∀ q : Int, substOf tr.vars (u.suffCurr (q + i)) (subsLoop z3 u tr q i).1 (a.sym (u.suffCurr (q + i)))
          = some ((subsLoop z3 u tr q i).1 v) := by
        intro q
        rw [substOf, hfind, hv]
        rfl
      obtain ⟨w, hw, hsort⟩ := substOf_subsLoop_sorted z3 M p hsorted hi _ _ (hσ p)
      rw [subsModel, subsModel, Term.substModel_some (hσ p) hw hsort,
        Term.substModel_some (hσ 0) ((heval v hmem).symm.trans hw) (by rw [hsort, Atom.sort_sym, Atom.sort_sym])]
  simp only [frame, hatom, subsModel_func, h.func]

theorem Shifted.subsLoop_eval (h : Shifted u p M N) {len : Nat} {ends : List Expr} (hsorted : u.Sorted tr len ends)
    {i : Nat} (hi : i ≤ len) :
    ∀ v ∈ tr.vars, ((subsLoop z3 u tr p i).1 v).eval M = ((subsLoop z3 u tr 0 i).1 v).eval N := by
  induction i with
  | zero =>
    intro v _
    rw [subsLoop_zero_eval, subsLoop_zero_eval]
    have hzero := h.curr (.var v) 0
    rw [Int.add_zero] at hzero
    exact congrArg some hzero.symm
  | succ i ih =>
    intro v hv
    rw [subsLoop_succ_eval hsorted hi hv, subsLoop_succ_eval hsorted hi hv,
      h.frame_subsModel hsorted (Nat.le_of_lt hi) (ih (Nat.le_of_lt hi))]

theorem Shifted.sat_unrollSubs (h : Shifted u p M N) {len : Nat}
    (hend : p = 0 ∨ (u.endPred len = [] ∧ tr.vars = [])) {φ ψ : Term}
    (hφ : unrollSubs z3 u tr len p = some φ) (hψ : unrollSubs z3 u tr len 0 = some ψ) : M.Sat φ ↔ N.Sat ψ := by
  have hsorted : u.Sorted tr len (u.endPred len) := by
    rw [unrollSubs, Option.ite_none_right_eq_some] at hφ
    exact hφ.1
  have hlast : (∀ v ∈ tr.vars, ((subsLoop z3 u tr p len).1 v).eval M = some (M.const (v.sym (u.suffCurr len)))) ↔
      ∀ v ∈ tr.vars, ((subsLoop z3 u tr 0 len).1 v).eval N = some (N.const (v.sym (u.suffCurr len))) := by
    refine forall₂_congr fun v hv => ?_
    rcases hend with rfl | ⟨-, hnil⟩
    · have hcurr := h.curr (.var v) len
      rw [Int.zero_add] at hcurr
      rw [h.subsLoop_eval hsorted le_rfl v hv]
      exact iff_of_eq (congrArg _ (congrArg some hcurr.symm))
    · simp [hnil] at hv
  rw [Unroller.sat_unrollSubs hφ, Unroller.sat_unrollSubs hψ, hlast, h.endHolds (hend.imp_right And.left)]
  refine and_congr_left fun _ => forall₂_congr fun i hi => ?_
  rw [h.frame_subsModel hsorted (Nat.le_of_lt hi) (h.subsLoop_eval hsorted (Nat.le_of_lt hi))]

end Unroller

namespace UnrollerSmt

/-- The second model is the first one, read `p` frames later. The functions of smt-switch carry the frame
as well. -/
structure Shifted (u : UnrollerSmt) (p : Nat) (M N : Model) : Prop where
  const : ∀ (v : Var) t, N.const (v.sym (u.suffixCurrent t)) = M.const (v.sym (u.suffixCurrent (p + t)))
  func : ∀ (f : Func) t, N.func (f.smtSym (u.suffixCurrent t)) = M.func (f.smtSym (u.suffixCurrent (p + t)))

variable {u : UnrollerSmt} {p : Nat}

theorem suffixCurrent_eq (u : UnrollerSmt) (t : Nat) :
    u.suffixCurrent t = (Unroller.new u.unrollerSuffix).suffCurr (t : Int) := rfl

theorem sym_suffixCurrent_inj {v w : Var} {s t : Nat} :
    v.sym (u.suffixCurrent s) = w.sym (u.suffixCurrent t) ↔ s = t ∧ v.sym "" = w.sym "" := by
  rw [suffixCurrent_eq, suffixCurrent_eq, Unroller.sym_var_inj, Int.ofNat_inj]

theorem smtSym_suffixCurrent_inj {f g : Func} {s t : Nat} :
    f.smtSym (u.suffixCurrent s) = g.smtSym (u.suffixCurrent t) ↔ s = t ∧ f.smtSym "" = g.smtSym "" := by
  simp only [Func.smtSym, FuncSym.mk.injEq, suffixCurrent_eq, Unroller.formatStr_suffCurr]
  constructor
  · rintro ⟨hname, hargs, hout⟩
    obtain ⟨hbase, ht⟩ := Name.numbered_inj hname
    exact ⟨Int.ofNat_inj.mp ht, hbase, hargs, hout⟩
  · rintro ⟨rfl, hbase, hargs, hout⟩
    exact ⟨by rw [hbase], hargs, hout⟩

theorem exists_shifted (u : UnrollerSmt) (p : Nat) (M : Model) : ∃ N, Shifted u p M N := by
  obtain ⟨K, hconst, hK⟩ := M.exists_funcs (fun x : Func × Nat => x.1.smtSym (u.suffixCurrent x.2))
    (fun x => M.func (x.1.smtSym (u.suffixCurrent (p + x.2)))) (fun x => M.func_sort _)
    (by
      rintro ⟨f, s⟩ ⟨g, t⟩ hsym
      obtain ⟨rfl, hfg⟩ := smtSym_suffixCurrent_inj.mp hsym
      exact congrArg M.func (smtSym_suffixCurrent_inj.mpr ⟨rfl, hfg⟩))
  obtain ⟨N, hfunc, hN, -⟩ := K.exists_assign (fun x : Var × Nat => x.1.sym (u.suffixCurrent x.2))
    (fun x => K.const (x.1.sym (u.suffixCurrent (p + x.2)))) (fun x => K.const_sort _)
    (by
      rintro ⟨v, s⟩ ⟨w, t⟩ hsym
      obtain ⟨rfl, hvw⟩ := sym_suffixCurrent_inj.mp hsym
      exact congrArg K.const (sym_suffixCurrent_inj.mpr ⟨rfl, hvw⟩))
  refine ⟨N, fun v t => ?_, fun f t => ?_⟩
  · rw [← hconst]
    exact hN (v, t)
  · rw [hfunc]
    exact hK (f, t)

/-- The suffixes of one frame, with and without the position. -/
def Later (u : UnrollerSmt) (p : Nat) (left right : String) : Prop :=
  ∃ t, left = u.suffixCurrent (p + t) ∧ right = u.suffixCurrent t

/-- Two interfaces were asked for the same nodes, each time in one frame. -/
def Aligned (heap : Nat → Node) (u : UnrollerSmt) (p : Nat) (qs : List Request) (st st' : SmtSwitchItf) : Prop :=
  (∃ seen seen', SmtSwitchItf.Holds heap seen st ∧ SmtSwitchItf.Holds heap seen' st' ∧
    List.Forall₂ (fun c c' => c.1 = c'.1 ∧ Later u p c.2 c'.2) seen seen') ∧
  ∀ q ∈ qs, q.node.InHeap heap ∧ q.node.Applied ∧ Later u p q.left q.right

theorem firstSuffix_related {S : String → String → Prop} {seen seen' : List (Node × String)} {P : Node → Bool}
    (h : List.Forall₂ (fun c c' => c.1 = c'.1 ∧ S c.2 c'.2) seen seen') (hex : ∃ c ∈ seen, P c.1 = true) :
    S ((SmtSwitchItf.firstSuffix seen P).getD "") ((SmtSwitchItf.firstSuffix seen' P).getD "") := by
  induction h with
  | nil => simp at hex
  | @cons c c' seen seen' hhead htail ih =>
    obtain ⟨hnode, hsuffix⟩ := hhead
    rw [SmtSwitchItf.firstSuffix, SmtSwitchItf.firstSuffix, List.find?_cons, List.find?_cons, ← hnode]
    cases hp : P c.1 with
    | true => exact hsuffix
    | false =>
      refine ih ?_
      obtain ⟨d, hd, hpd⟩ := hex
      rcases List.mem_cons.mp hd with rfl | hd
      · rw [hp] at hpd
        exact absurd hpd Bool.false_ne_true
      · exact ⟨d, hd, hpd⟩

theorem simulates_shifted (heap : Nat → Node) {M N : Model} (h : Shifted u p M N) :
    Simulates smtSwitchGenerator smtSwitchGenerator M N (Aligned heap u p) := by
  refine ⟨fun q qs st st' hR => ?_, fun q qs st st' hR => ?_, rfl⟩
  · obtain ⟨⟨seen, seen', hl, hr, hseen⟩, hqs⟩ := hR
    obtain ⟨hheap, happ, hlater⟩ := hqs q List.mem_cons_self
    obtain ⟨_, hans, -⟩ := hl.getSmtTerm_eq hheap happ q.left
    obtain ⟨_, hans', -⟩ := hr.getSmtTerm_eq hheap happ q.right
    have hall := List.rel_append hseen (List.Forall₂.cons (R := fun c c' => c.1 = c'.1 ∧ Later u p c.2 c'.2)
      (a := (q.node, q.left)) (b := (q.node, q.right)) ⟨rfl, hlater⟩ .nil)
    simp only [smtSwitchGenerator, hans, hans', Option.getD_some]
    refine transBy_eval_congr (fun r v hv => ?_) fun f hf => ?_
    · have hmem : r ∈ q.node.ptrs := Node.mem_ptrs.mpr ⟨_, hv, rfl⟩
      obtain ⟨t, hπ, hρ⟩ := firstSuffix_related (P := fun n => decide (r ∈ n.ptrs)) hall
        ⟨(q.node, q.left), by simp, decide_eq_true hmem⟩
      simp only [SmtSwitchItf.firstSuffixes, hπ, hρ, h.const]
    · obtain ⟨t, hπ, hρ⟩ := firstSuffix_related (P := fun n => decide (f ∈ n.funcs)) hall
        ⟨(q.node, q.left), by simp, decide_eq_true hf⟩
      simp only [SmtSwitchItf.firstSuffixes, hπ, hρ, h.func]
  · obtain ⟨⟨seen, seen', hl, hr, hseen⟩, hqs⟩ := hR
    obtain ⟨hheap, happ, hlater⟩ := hqs q List.mem_cons_self
    obtain ⟨_, hans, hholds⟩ := hl.getSmtTerm_eq hheap happ q.left
    obtain ⟨_, hans', hholds'⟩ := hr.getSmtTerm_eq hheap happ q.right
    simp only [smtSwitchGenerator, hans, hans', Option.getD_some]
    refine ⟨⟨_, _, hholds, hholds', List.rel_append hseen ?_⟩, fun r hr => hqs r (List.mem_cons_of_mem q hr)⟩
    exact .cons ⟨rfl, hlater⟩ .nil

theorem Shifted.sat_unroll {tr : SmtTrans} {len : Nat} {M N : Model} (h : Shifted u p M N) {heap : Nat → Node}
    (hheap : ∀ n ∈ u.nodes tr len, n.InHeap heap) (hend : p = 0 ∨ u.endPreds len = []) {φ ψ : Term}
    (hφ : unroll smtSwitchGenerator u tr len p SmtSwitchItf.reset = some φ)
    (hψ : unroll smtSwitchGenerator u tr len 0 SmtSwitchItf.reset = some ψ) : M.Sat φ ↔ N.Sat ψ := by
  simp only [unroll, Option.ite_none_right_eq_some] at hφ hψ
  obtain rfl := Option.some.inj hφ.2
  obtain rfl := Option.some.inj hψ.2
  refine sat_unrollAt_iff (simulates_shifted heap h) ⟨⟨[], [], SmtSwitchItf.holds_reset heap,
    SmtSwitchItf.holds_reset heap, .nil⟩, fun q hq => ?_⟩
  obtain ⟨hnode, hframe⟩ := mem_requests hq
  refine ⟨hheap q.node hnode, of_decide_eq_true (hφ.1.2 q.node hnode), ?_⟩
  rcases hframe with ⟨i, hl, hr⟩ | ⟨hl, hr, hmem⟩
  · exact ⟨i, hl, by rw [hr, Nat.zero_add]⟩
  · rcases hend with rfl | hnil
    · exact ⟨len, by rw [hl, Nat.zero_add], hr⟩
    · simp [hnil] at hmem

end UnrollerSmt

/-! ### All the unrollings -/

/-- The input of an unrolling with Z3. -/
structure Z3Input where
  z3 : Z3
  u : Unroller
  tr : Trans
  len : Nat
  pos : Int

/-- The input of an unrolling with smt-switch, on an interface that was reset. -/
structure SmtInput where
  u : UnrollerSmt
  tr : SmtTrans
  len : Nat
  begin : Nat
  heap : Nat → Node
  inHeap : ∀ n ∈ u.nodes tr len, n.InHeap heap

inductive Unrolling where
  | subs (x : Z3Input)
  | assn (x : Z3Input)
  | none (x : Z3Input)
  | smt (x : SmtInput)

namespace Unrolling

/-- The formula from the position of the input. -/
def formula : Unrolling → Option Term
  | .subs x => Unroller.unrollSubs x.z3 x.u x.tr x.len x.pos
  | .assn x => Unroller.unrollAssn x.z3 x.u x.tr x.len x.pos
  | .none x => Unroller.unrollNone x.z3 x.u x.tr x.len x.pos
  | .smt x => UnrollerSmt.unroll smtSwitchGenerator x.u x.tr x.len x.begin SmtSwitchItf.reset

/-- The formula from position 0. -/
def formulaAtZero : Unrolling → Option Term
  | .subs x => Unroller.unrollSubs x.z3 x.u x.tr x.len 0
  | .assn x => Unroller.unrollAssn x.z3 x.u x.tr x.len 0
  | .none x => Unroller.unrollNone x.z3 x.u x.tr x.len 0
  | .smt x => UnrollerSmt.unroll smtSwitchGenerator x.u x.tr x.len 0 SmtSwitchItf.reset

def pos : Unrolling → Int
  | .subs x | .assn x | .none x => x.pos
  | .smt x => x.begin

/-- The second model is the first one, read from the position on. -/
def Shifted : Unrolling → Model → Model → Prop
  | .subs x | .assn x | .none x => x.u.Shifted x.pos
  | .smt x => x.u.Shifted x.begin

/-- The formula from the position is the formula from 0 with its frames moved. -/
def ShiftInvariant (x : Unrolling) : Prop :=
  x.formula.isSome = x.formulaAtZero.isSome ∧
  ∀ φ ψ, x.formula = some φ → x.formulaAtZero = some ψ → ∀ M N, x.Shifted M N → (M.Sat φ ↔ N.Sat ψ)

/-- Nothing is said about the end state. -/
def EndFree : Unrolling → Prop
  | .subs x => x.u.endPred x.len = [] ∧ x.tr.vars = []
  | .assn x => x.u.endPred x.len = []
  | .none _ => True
  | .smt x => x.u.endPreds x.len = []

theorem exists_shifted (x : Unrolling) (M : Model) : ∃ N, x.Shifted M N := by
  cases x with
  | subs x | assn x | none x => exact Unroller.exists_shifted x.u x.pos M
  | smt x => exact UnrollerSmt.exists_shifted x.u x.begin M

theorem shiftInvariant_of_endFree (x : Unrolling) (h : x.pos = 0 ∨ x.EndFree) : x.ShiftInvariant := by
  cases x with
  | subs x =>
    refine ⟨?_, fun φ ψ hφ hψ M N hMN => Unroller.Shifted.sat_unrollSubs hMN h hφ hψ⟩
    simp only [formula, formulaAtZero, Unroller.unrollSubs, apply_ite Option.isSome, Option.isSome_some]
  | assn x =>
    refine ⟨?_, fun φ ψ hφ hψ M N hMN => Unroller.Shifted.sat_unrollAssn hMN h hφ hψ⟩
    simp only [formula, formulaAtZero, Unroller.unrollAssn, apply_ite Option.isSome, Option.isSome_some]
  | none x =>
    refine ⟨?_, fun φ ψ hφ hψ M N hMN => Unroller.Shifted.sat_unrollNone hMN hφ hψ⟩
    simp only [formula, formulaAtZero, Unroller.unrollNone, apply_ite Option.isSome, Option.isSome_some]
  | smt x =>
    refine ⟨?_, fun φ ψ hφ hψ M N hMN => UnrollerSmt.Shifted.sat_unroll hMN x.inHeap (h.imp_left ?_) hφ hψ⟩
    · simp only [formula, formulaAtZero, UnrollerSmt.unroll, apply_ite Option.isSome, Option.isSome_some]
    · exact Int.ofNat_eq_zero.mp

/-! ### A predicate of the end state -/

def flag : Var := ⟨0, "x", some "m", .bool⟩

/-- No steps, and the predicate `x` everywhere. -/
def flagZ3 (z3 : Z3) (p : Nat) : Z3Input := ⟨z3, (Unroller.new "").addGlobPred (.var flag), ⟨[], fun _ v => .var v, fun _ => []⟩, 0, p⟩

def flagSmt (p : Nat) : SmtInput where
  u := ⟨"", [.leaf 0 (.var flag)], [], fun _ => []⟩
  tr := ⟨[], fun _ v => v.node, fun _ => []⟩
  len := 0
  begin := p
  heap := fun q => .leaf q (.var flag)
  inHeap n hn := by
    obtain rfl : n = .leaf 0 (.var flag) := by simpa [UnrollerSmt.nodes, UnrollerSmt.endPreds] using hn
    exact UnrollerSmt.leaf_inHeap rfl

theorem exists_flag_model (u : Unroller) {p : Nat} (hp : p ≠ 0) : ∃ M : Model,
    M.const (flag.sym (u.suffCurr 0)) = .bool true ∧ M.const (flag.sym (u.suffCurr p)) = .bool false := by
  obtain ⟨M, -, hM, -⟩ := (default : Model).exists_assign (fun t : Nat => flag.sym (u.suffCurr t))
    (fun t => .bool (t = 0)) (fun _ => rfl) (by
      intro s t h
      obtain rfl : s = t := Int.ofNat_inj.mp (Unroller.sym_var_inj.mp h).1
      rfl)
  exact ⟨M, hM 0, (hM p).trans (by rw [decide_eq_false hp])⟩

/-- The formula is the predicate `x` in frame 0. -/
def SaysFlag (φ : Option Term) : Prop :=
  ∃ ψ, φ = some ψ ∧ ∀ M : Model, M.Sat ψ ↔ M.const (flag.sym ((Unroller.new "").suffCurr 0)) = .bool true

theorem flag_not_invariant {x : Unrolling} {p : Nat} (hp : p ≠ 0) (hleft : SaysFlag x.formula)
    (hright : SaysFlag x.formulaAtZero)
    (hmove : ∀ M N : Model, x.Shifted M N →
      N.const (flag.sym ((Unroller.new "").suffCurr 0)) = M.const (flag.sym ((Unroller.new "").suffCurr p))) :
    ¬x.ShiftInvariant := by
  intro hinv
  obtain ⟨φ, hφ, hleft⟩ := hleft
  obtain ⟨ψ, hψ, hright⟩ := hright
  obtain ⟨M, hzero, hpos⟩ := exists_flag_model (Unroller.new "") hp
  obtain ⟨N, hN⟩ := x.exists_shifted M
  have hsat := (hinv.2 φ ψ hφ hψ M N hN).mp ((hleft M).mpr hzero)
  rw [hright, hmove M N hN, hpos] at hsat
  simp at hsat

theorem flagZ3_sorted (z3 : Z3) (p : Nat) :
    (flagZ3 z3 p).u.Sorted (flagZ3 z3 p).tr 0 ((flagZ3 z3 p).u.endPred 0) := by
  refine ⟨fun i hi => absurd hi (Nat.not_lt_zero i), fun e he => ?_⟩
  obtain rfl := List.mem_singleton.mp he
  rfl

theorem flagZ3_endHolds (z3 : Z3) (p : Nat) (M : Model) :
    (flagZ3 z3 p).u.EndHolds 0 (frame M ((flagZ3 z3 p).u.suffCurr 0)) ↔
      M.const (flag.sym ((Unroller.new "").suffCurr 0)) = .bool true := by
  simp only [flagZ3, Unroller.EndHolds, Unroller.endPred, Unroller.addGlobPred, Unroller.new, List.nil_append,
    List.append_nil, List.forall_mem_singleton, Valuation.Holds, Expr.eval, Option.some.injEq]
  rfl

theorem saysFlag_subs (z3 : Z3) (p : Nat) (pos : Int) :
    SaysFlag (Unroller.unrollSubs z3 (flagZ3 z3 p).u (flagZ3 z3 p).tr 0 pos) := by
  refine ⟨_, if_pos (flagZ3_sorted z3 p), fun M => ?_⟩
  rw [Unroller.sat_unrollSubs (if_pos (flagZ3_sorted z3 p)), ← flagZ3_endHolds z3 p M]
  simp [flagZ3]

theorem saysFlag_assn (z3 : Z3) (p : Nat) (pos : Int) :
    SaysFlag (Unroller.unrollAssn z3 (flagZ3 z3 p).u (flagZ3 z3 p).tr 0 pos) := by
  refine ⟨_, if_pos (flagZ3_sorted z3 p), fun M => ?_⟩
  rw [Unroller.sat_unrollAssn (if_pos (flagZ3_sorted z3 p)), ← flagZ3_endHolds z3 p M]
  simp

theorem saysFlag_smt (p pos : Nat) :
    SaysFlag (UnrollerSmt.unroll smtSwitchGenerator (flagSmt p).u (flagSmt p).tr 0 pos SmtSwitchItf.reset) := by
  have hsorted : (flagSmt p).u.Sorted (flagSmt p).tr 0 := by
    refine ⟨fun i hi => absurd hi (Nat.not_lt_zero i), fun e he => ?_⟩
    obtain rfl := List.mem_singleton.mp he
    rfl
  have haccepts : ∀ n ∈ (flagSmt p).u.nodes (flagSmt p).tr 0, smtSwitchGenerator.accepts n = true := by
    intro n hn
    obtain rfl := List.mem_singleton.mp hn
    rfl
  refine ⟨(Term.bool true).conj (.const (flag.sym ((Unroller.new "").suffCurr 0))), if_pos ⟨hsorted, haccepts⟩,
    fun M => ?_⟩
  rw [Term.sat_conj, and_iff_right (Term.sat_bool_true M), Model.Sat, Term.eval, Option.some.injEq]

/-- The formula from a position is the formula from 0 with its frames moved when the position is 0 or
nothing is said about the end state: no predicate of the end state, and for `UnrollSubs` no state either. At
every other position each of the three unrollings with an end state has inputs for which it is not. -/
theorem shiftInvariant_of_endFree_tight (x : Unrolling) :
    (x.pos = 0 ∨ x.EndFree → x.ShiftInvariant) ∧ (∀ M, ∃ N, x.Shifted M N) ∧
    ∀ (z3 : Z3) (p : Nat), p ≠ 0 → ¬(subs (flagZ3 z3 p)).ShiftInvariant ∧ ¬(assn (flagZ3 z3 p)).ShiftInvariant ∧
      ¬(smt (flagSmt p)).ShiftInvariant := by
  refine ⟨shiftInvariant_of_endFree x, exists_shifted x, fun z3 p hp => ⟨?_, ?_, ?_⟩⟩
  · refine flag_not_invariant hp (saysFlag_subs z3 p p) (saysFlag_subs z3 p 0) fun M N h => ?_
    exact (h.curr (.var flag) 0).trans (by rw [Int.add_zero]; rfl)
  · refine flag_not_invariant hp (saysFlag_assn z3 p p) (saysFlag_assn z3 p 0) fun M N h => ?_
    exact (h.curr (.var flag) 0).trans (by rw [Int.add_zero]; rfl)
  · exact flag_not_invariant hp (saysFlag_smt p p) (saysFlag_smt p 0) fun M N h => h.const flag 0

/-- One instruction that keeps the state `x`. -/
def keepSeq : List HostedInstr :=
  [⟨{ IlaData.new 0 "m" with states := [flag] }, ⟨1, "keep", some (.const (.bool true)), [], Option.none⟩⟩]

/-- From position 2 on, `x` is asserted for the end of the path. The formula has it in frame 1, before the
path begins, and not in frame 3. -/
theorem pathAssn_end_not_shifted : ∃ φ ψ M N,
    PathUnroll.pathAssn default ((Unroller.new "").addStepPred (.var flag) 1) keepSeq 2 = some φ ∧
    PathUnroll.pathAssn default ((Unroller.new "").addStepPred (.var flag) 1) keepSeq 0 = some ψ ∧
    ((Unroller.new "").addStepPred (.var flag) 1).Shifted 2 M N ∧ M.Sat φ ∧ ¬N.Sat ψ := by
  generalize (default : Z3) = z3
  let u : Unroller := (Unroller.new "").addStepPred (.var flag) 1
  have hdef : ∀ pos, ∃ φ, Unroller.unrollAssn z3 u (PathUnroll.transition keepSeq) 1 pos = some φ :=
    fun pos => ⟨_, if_pos (by decide)⟩
  obtain ⟨φ, hφ⟩ := hdef 2
  obtain ⟨ψ, hψ⟩ := hdef 0
  obtain ⟨M, -, hM, -⟩ := (default : Model).exists_assign (fun t : Int => flag.sym (u.suffCurr t))
    (fun t => .bool (t = 1)) (fun _ => rfl) (by
      intro s t h
      obtain rfl : s = t := (Unroller.sym_var_inj.mp h).1
      rfl)
  obtain ⟨N, hN⟩ := Unroller.exists_shifted u 2 M
  refine ⟨φ, ψ, M, N, hφ, hψ, hN, (Unroller.sat_unrollAssn hφ).mpr ⟨fun i hi => ⟨fun e he => ?_, fun v hv => ?_⟩,
    fun e he => ?_⟩, fun hsat => ?_⟩
  · obtain rfl : i = 0 := Nat.lt_one_iff.mp hi
    obtain rfl := List.mem_singleton.mp he
    rfl
  · obtain rfl : i = 0 := Nat.lt_one_iff.mp hi
    obtain rfl := List.mem_singleton.mp hv
    exact congrArg some ((hM 2).trans (hM 3).symm)
  · obtain rfl := List.mem_singleton.mp he
    exact congrArg some (hM 1)
  · obtain ⟨-, hend⟩ := (Unroller.sat_unrollAssn hψ).mp hsat
    have hflag : some (N.const (flag.sym (u.suffCurr 1))) = some (.bool true) := hend (.var flag) List.mem_cons_self
    rw [show N.const (flag.sym (u.suffCurr 1)) = M.const (flag.sym (u.suffCurr 3)) from hN.curr (.var flag) 1,
      show M.const (flag.sym (u.suffCurr 3)) = .bool false from hM 3] at hflag
    simp at hflag

/-- A path from position 2 on without predicates. -/
theorem shiftInvariant_keep :
    (assn ⟨default, Unroller.new "", PathUnroll.transition keepSeq, 1, 2⟩).ShiftInvariant :=
  (shiftInvariant_of_endFree_tight _).1 (.inr rfl)

end Unrolling

end Ilang
