import Ilang.Ila.Abs
import Ilang.Ila.AstHub
import Ilang.Mngr.Unroller

/-!
# Unrolling a whole hierarchy

`MonoUnroll` unrolls an ILA with all its children as one transition system. The choice of the
instruction is encoded by fresh selection bits, one for each instruction and one for the stutter step
taken when no instruction decodes, and each state gets a fresh variable for its next value.
-/

namespace Ilang

open Smt

/-- The steps of a hierarchy: some instruction that decodes fires, and every state takes its update or
keeps its value; or no instruction decodes and every state keeps its value. -/
def Ila.Step (top : Ila) (ν ν' : Valuation) : Prop :=
  (∃ h ∈ top.getInstrTree, ν.Holds (decodeCmpl h.instr) ∧
    ∀ v ∈ top.getSttTree, (stateUpdCmpl h.instr v).eval ν = some (ν'.atom (.var v))) ∨
  ((∀ h ∈ top.getInstrTree, ¬ν.Holds (decodeCmpl h.instr)) ∧
    ∀ v ∈ top.getSttTree, ν'.atom (.var v) = ν.atom (.var v))

namespace MonoUnroll

/-- The selection bit of an instruction, a free variable of its host. -/
def sel (id : Nat) (h : HostedInstr) : Var := ⟨id, h.instr.name ++ ".sel", some h.host.rootName, .bool⟩

/-- The selection bit of the stutter step. -/
def selDum (id : Nat) (top : Ila) : Var := ⟨id, "dead.sel", some top.data.rootName, .bool⟩

/-- `NewFreeVar` for the next value of a state. -/
def varNext (id : Nat) (v : Var) : Var := ⟨id, v.name ++ ".vnxt", v.host, v.sort⟩

section Transition

variable (fresh : Nat) (top : Ila)

/-- The instructions with their selection bits. The identities are taken from the counter. -/
def selected : List (HostedInstr × Var) := top.getInstrTree.zipIdx.map fun p => (p.1, sel (fresh + p.2) p.1)

def dummy : Var := selDum (fresh + top.getInstrTree.length) top

def nextOf (v : Var) : Var := varNext (fresh + top.getInstrTree.length + 1 + top.getSttTree.idxOf v) v

/-- The selected instruction decodes; the stutter step is selected only if no instruction decodes. -/
def accDec : Expr :=
  let acc := ((selected fresh top).map fun p => (Expr.var p.2).imply (decodeCmpl p.1.instr)).foldl Expr.and
    (.boolConst true)
  let notDec := ((selected fresh top).map fun p => (decodeCmpl p.1.instr).not).foldl Expr.and (.boolConst true)
  acc.and ((Expr.var (dummy fresh top)).imply notDec)

/-- The selected instruction determines the next value of a state. -/
def accUpd (v : Var) : Expr :=
  let acc := ((selected fresh top).map fun p =>
    (Expr.var p.2).imply ((Expr.var (nextOf fresh top v)).eq (stateUpdCmpl p.1.instr v))).foldl Expr.and
      (.boolConst true)
  acc.and ((Expr.var (dummy fresh top)).imply ((Expr.var (nextOf fresh top v)).eq (.var v)))

def atLeastOne : Expr := ((selected fresh top).map fun p => Expr.var p.2).foldl Expr.or (.var (dummy fresh top))

/-- The pairs of a list, an earlier element with a later one. -/
def pairs {α : Type} : List α → List (α × α)
  | [] => []
  | a :: l => l.map (fun b => (a, b)) ++ pairs l

/-- No two instructions are selected. The stutter step is not part of this. -/
def atMostOne : Expr :=
  ((pairs ((selected fresh top).map fun p => Expr.var p.2)).map fun p => p.1.not.or p.2.not).foldl Expr.and
    (.boolConst true)

/-- `MonoUnroll::DefineDepVar` and `MonoUnroll::Transition`. The table is made once for all steps. -/
def transition : Trans where
  vars := top.getSttTree
  next _ v := .var (nextOf fresh top v)
  pred _ := (top.getSttTree.flatMap fun v => [accDec fresh top, accUpd fresh top v])
    ++ [atLeastOne fresh top, atMostOne fresh top]

/-- A state without a host stops the program in `NewFreeVar`. -/
def trans : Option Trans :=
  if top.getSttTree.all fun v => v.host.isSome then some (transition fresh top) else none

variable (z3 : Z3) (u : Unroller)

def monoAssn (length : Nat) (pos : Int) : Option Term := (trans fresh top).bind fun tr => u.unrollAssn z3 tr length pos

def monoNone (length : Nat) (pos : Int) : Option Term := (trans fresh top).bind fun tr => u.unrollNone z3 tr length pos

end Transition

theorem isSome_monoAssn (fresh : Nat) (top : Ila) (z3 : Z3) (u : Unroller) (length : Nat) (pos : Int) :
    (monoAssn fresh top z3 u length pos).isSome ↔ (∀ v ∈ top.getSttTree, v.host.isSome) ∧
      u.Sorted (transition fresh top) length (u.endPred length) := by
  rw [monoAssn, trans]
  split
  · rename_i hhost
    simp only [List.all_eq_true] at hhost
    simp only [Option.bind_some, Unroller.unrollAssn, Option.isSome_ite, and_iff_right hhost]
  · rename_i hhost
    simp only [List.all_eq_true] at hhost
    simp only [Option.bind_none, Option.isSome_none, Bool.false_eq_true, false_iff, not_and]
    exact fun h => absurd h hhost

/-! ### What the predicates of a step say -/

variable {fresh : Nat} {top : Ila} {ν : Valuation}

theorem forall_mem_pairs {α : Type} {l : List α} {P : α → α → Prop} :
    (∀ p ∈ pairs l, P p.1 p.2) ↔ l.Pairwise P := by
  induction l with
  | nil => simp [pairs]
  | cons a l ih => rw [pairs, List.forall_mem_append, List.forall_mem_map, ih, List.pairwise_cons]

theorem selected_map_fst (fresh : Nat) (top : Ila) : (selected fresh top).map Prod.fst = top.getInstrTree := by
  rw [selected, List.map_map]
  exact List.zipIdx_map_fst 0 _

theorem selected_instr {p : HostedInstr × Var} (hp : p ∈ selected fresh top) : p.1 ∈ top.getInstrTree := by
  rw [← selected_map_fst fresh top]
  exact List.mem_map_of_mem hp

theorem exists_selected (fresh : Nat) {h : HostedInstr} (hh : h ∈ top.getInstrTree) :
    ∃ p ∈ selected fresh top, p.1 = h := by
  rw [← selected_map_fst fresh top] at hh
  exact List.mem_map.mp hh

theorem selected_check {p : HostedInstr × Var} (hp : p ∈ selected fresh top) :
    (Expr.var p.2).check = some .bool := by
  obtain ⟨q, -, rfl⟩ := List.mem_map.mp hp
  rfl

theorem holds_imply_of_check {a b : Expr} (h : (a.imply b).check = some .bool) :
    ν.Holds (a.imply b) ↔ (ν.Holds a → ν.Holds b) :=
  Expr.holds_imply (Expr.check_imply.mp h).1 (Expr.check_imply.mp h).2

theorem holds_var_eq {v : Var} {e : Expr} : ν.Holds ((Expr.var v).eq e) ↔ e.eval ν = some (ν.atom (.var v)) := by
  rw [Expr.holds_eq, Expr.eval]
  constructor
  · rintro ⟨w, hv, he⟩
    rw [he, hv]
  · exact fun he => ⟨_, rfl, he⟩

theorem holds_accDec (h : (accDec fresh top).check = some .bool) :
    ν.Holds (accDec fresh top) ↔
      (∀ p ∈ selected fresh top, ν.Holds (.var p.2) → ν.Holds (decodeCmpl p.1.instr)) ∧
      (ν.Holds (.var (dummy fresh top)) → ∀ p ∈ selected fresh top, ¬ν.Holds (decodeCmpl p.1.instr)) := by
  simp only [accDec] at h ⊢
  obtain ⟨hacc, hdum⟩ := Expr.check_and.mp h
  have hsel := List.forall_mem_map.mp (Expr.check_foldl_and.mp hacc).2
  have hnot := List.forall_mem_map.mp (Expr.check_foldl_and.mp (Expr.check_imply.mp hdum).2).2
  rw [Expr.holds_and, Expr.holds_foldl_and, List.forall_mem_map, holds_imply_of_check hdum,
    Expr.holds_foldl_and, List.forall_mem_map, and_iff_right Expr.holds_boolConst_true,
    and_iff_right Expr.holds_boolConst_true]
  refine and_congr (forall₂_congr fun p hp => holds_imply_of_check (hsel p hp))
    (imp_congr_right fun _ => forall₂_congr fun p hp => ?_)
  exact Expr.holds_not (Expr.check_not.mp (hnot p hp))

theorem holds_accUpd {v : Var} (h : (accUpd fresh top v).check = some .bool) :
    ν.Holds (accUpd fresh top v) ↔
      (∀ p ∈ selected fresh top, ν.Holds (.var p.2) →
        (stateUpdCmpl p.1.instr v).eval ν = some (ν.atom (.var (nextOf fresh top v)))) ∧
      (ν.Holds (.var (dummy fresh top)) → ν.atom (.var v) = ν.atom (.var (nextOf fresh top v))) := by
  simp only [accUpd] at h ⊢
  obtain ⟨hacc, hdum⟩ := Expr.check_and.mp h
  have hsel := List.forall_mem_map.mp (Expr.check_foldl_and.mp hacc).2
  rw [Expr.holds_and, Expr.holds_foldl_and, List.forall_mem_map, holds_imply_of_check hdum, holds_var_eq,
    Expr.eval, Option.some.injEq, and_iff_right Expr.holds_boolConst_true]
  refine and_congr_left fun _ => forall₂_congr fun p hp => ?_
  rw [holds_imply_of_check (hsel p hp), holds_var_eq]

theorem holds_atLeastOne : ν.Holds (atLeastOne fresh top) ↔
    ν.Holds (.var (dummy fresh top)) ∨ ∃ p ∈ selected fresh top, ν.Holds (.var p.2) := by
  rw [atLeastOne, Expr.holds_foldl_or rfl (List.forall_mem_map.mpr fun p hp => selected_check hp)]
  simp only [List.mem_map, exists_exists_and_eq_and]

theorem holds_atMostOne : ν.Holds (atMostOne fresh top) ↔
    (selected fresh top).Pairwise fun p q => ¬ν.Holds (.var p.2) ∨ ¬ν.Holds (.var q.2) := by
  rw [atMostOne, Expr.holds_foldl_and, List.forall_mem_map, and_iff_right Expr.holds_boolConst_true]
  rw [forall_mem_pairs (P := fun a b : Expr => ν.Holds (a.not.or b.not)), List.pairwise_map]
  refine List.Pairwise.iff_of_mem fun {p q} hp hq => ?_
  rw [Expr.holds_or (Expr.check_not.mpr (selected_check hp)) (Expr.check_not.mpr (selected_check hq)),
    Expr.holds_not (selected_check hp), Expr.holds_not (selected_check hq)]

/-! ### One step -/

/-- What the decodes and updates of the hierarchy read, and its states. -/
def exprs (top : Ila) : List Expr :=
  (top.getInstrTree.flatMap fun h =>
      decodeCmpl h.instr :: top.getSttTree.map fun v => stateUpdCmpl h.instr v)
    ++ top.getSttTree.map .var

def atoms (top : Ila) : List Atom := ((exprs top).flatMap Expr.atoms).dedup

def funcs (top : Ila) : List Func := (exprs top).flatMap Expr.funcs

/-- Everything that a step reads: the atoms of the hierarchy, the selection bits and the next values. -/
def stepAtoms (fresh : Nat) (top : Ila) : List Atom :=
  atoms top ++ (selected fresh top).map (fun p => .var p.2) ++ [.var (dummy fresh top)]
    ++ top.getSttTree.map fun v => .var (nextOf fresh top v)

/-- The solver has a name of its own for everything that a step reads, and for every function. -/
structure DistinctNames (fresh : Nat) (top : Ila) : Prop where
  atom : ((stepAtoms fresh top).map fun a => a.sym "").Nodup
  func : ∀ f ∈ funcs top, ∀ g ∈ funcs top, f.z3FuncDecl = g.z3FuncDecl → f = g

/-- A model has the values of two valuations in two neighbouring frames. -/
structure Between (u : Unroller) (pos : Int) (top : Ila) (M : Model) (ν ν' : Valuation) : Prop where
  atom : ∀ a ∈ atoms top, M.const (a.sym (u.suffCurr pos)) = ν.atom a
  func : ∀ f ∈ funcs top, M.func f.z3FuncDecl = ν.func f
  next : ∀ v ∈ top.getSttTree, M.const (v.sym (u.suffCurr (pos + 1))) = ν'.atom (.var v)

variable {u : Unroller} {pos : Int} {M : Model} {ν' : Valuation}

theorem mem_exprs_decode {h : HostedInstr} (hh : h ∈ top.getInstrTree) : decodeCmpl h.instr ∈ exprs top :=
  List.mem_append_left _ (List.mem_flatMap.mpr ⟨h, hh, List.mem_cons_self⟩)

theorem mem_exprs_update {h : HostedInstr} (hh : h ∈ top.getInstrTree) {v : Var} (hv : v ∈ top.getSttTree) :
    stateUpdCmpl h.instr v ∈ exprs top :=
  List.mem_append_left _ (List.mem_flatMap.mpr
    ⟨h, hh, List.mem_cons_of_mem _ (List.mem_map_of_mem (f := fun v => stateUpdCmpl h.instr v) hv)⟩)

theorem mem_exprs_state {v : Var} (hv : v ∈ top.getSttTree) : Expr.var v ∈ exprs top :=
  List.mem_append_right _ (List.mem_map_of_mem hv)

theorem mem_atoms {e : Expr} (he : e ∈ exprs top) {a : Atom} (ha : a ∈ e.atoms) : a ∈ atoms top :=
  List.mem_dedup.mpr (List.mem_flatMap.mpr ⟨e, he, ha⟩)

theorem var_mem_atoms {v : Var} (hv : v ∈ top.getSttTree) : Atom.var v ∈ atoms top :=
  mem_atoms (mem_exprs_state hv) (by simp [Expr.atoms])

/-- The predicates with which a step is selected. -/
def Selects (fresh : Nat) (top : Ila) (ν : Valuation) : Prop := ∀ e ∈ (transition fresh top).pred 0, ν.Holds e

/-- The predicates of a step are Boolean. -/
def Accepted (fresh : Nat) (top : Ila) : Prop := ∀ e ∈ (transition fresh top).pred 0, e.check = some .bool

theorem selects_iff : Selects fresh top ν ↔
    (∀ v ∈ top.getSttTree, ν.Holds (accDec fresh top) ∧ ν.Holds (accUpd fresh top v)) ∧
      ν.Holds (atLeastOne fresh top) ∧ ν.Holds (atMostOne fresh top) := by
  simp only [Selects, transition, List.forall_mem_append, List.forall_mem_flatMap, List.forall_mem_cons,
    List.not_mem_nil, false_implies, implies_true, and_true]

theorem Accepted.check (h : Accepted fresh top) {v : Var} (hv : v ∈ top.getSttTree) :
    (accDec fresh top).check = some .bool ∧ (accUpd fresh top v).check = some .bool := by
  rw [Accepted, transition, List.forall_mem_append, List.forall_mem_flatMap] at h
  exact ⟨h.1 v hv _ (by simp), h.1 v hv _ (by simp)⟩

/-- A valuation that has the values of one valuation, and those of another one as next values. -/
structure Spans (fresh : Nat) (top : Ila) (μ ν ν' : Valuation) : Prop where
  atom : ∀ a ∈ atoms top, μ.atom a = ν.atom a
  func : ∀ f ∈ funcs top, μ.func f = ν.func f
  next : ∀ v ∈ top.getSttTree, μ.atom (.var (nextOf fresh top v)) = ν'.atom (.var v)

theorem Spans.eval_eq {μ : Valuation} (h : Spans fresh top μ ν ν') {e : Expr} (he : e ∈ exprs top) :
    e.eval μ = e.eval ν :=
  Expr.eval_congr (fun f hf => h.func f (List.mem_flatMap.mpr ⟨e, he, hf⟩)) fun a ha => h.atom a (mem_atoms he ha)

theorem Spans.holds_iff {μ : Valuation} (h : Spans fresh top μ ν ν') {e : Expr} (he : e ∈ exprs top) :
    μ.Holds e ↔ ν.Holds e := by
  rw [Valuation.Holds, h.eval_eq he, Valuation.Holds]

theorem Spans.step {μ : Valuation} (h : Spans fresh top μ ν ν') (hacc : Accepted fresh top)
    (hsel : Selects fresh top μ) : top.Step ν ν' := by
  obtain ⟨hstt, hone, -⟩ := selects_iff.mp hsel
  -- without a state nothing is asserted of the selection, but then any choice is a step
  by_cases hempty : top.getSttTree = []
  · by_cases hany : ∃ h ∈ top.getInstrTree, ν.Holds (decodeCmpl h.instr)
    · obtain ⟨h, hh, hd⟩ := hany
      exact .inl ⟨h, hh, hd, by simp [hempty]⟩
    · exact .inr ⟨fun h hh hd => hany ⟨h, hh, hd⟩, by simp [hempty]⟩
  obtain ⟨v₀, hv₀⟩ := List.exists_mem_of_ne_nil _ hempty
  have hdecs := (holds_accDec (hacc.check hv₀).1).mp (hstt v₀ hv₀).1
  have hupds := fun v hv => (holds_accUpd (hacc.check hv).2).mp (hstt v hv).2
  rcases holds_atLeastOne.mp hone with hdum | ⟨p, hp, hbit⟩
  · right
    constructor
    · intro i hi hd
      obtain ⟨p, hp, rfl⟩ := exists_selected fresh hi
      exact hdecs.2 hdum p hp ((h.holds_iff (mem_exprs_decode hi)).mpr hd)
    · intro v hv
      have hkeep := (hupds v hv).2 hdum
      rw [h.atom _ (var_mem_atoms hv), h.next v hv] at hkeep
      exact hkeep.symm
  · left
    have hp' := selected_instr hp
    refine ⟨p.1, hp', (h.holds_iff (mem_exprs_decode hp')).mp (hdecs.1 p hp hbit), fun v hv => ?_⟩
    have hval := (hupds v hv).1 p hp hbit
    rwa [h.eval_eq (mem_exprs_update hp' hv), h.next v hv] at hval

/-- Exactly one bit is set. -/
def OnlyBit (fresh : Nat) (top : Ila) (x : Var) (μ : Valuation) : Prop :=
  (∀ p ∈ selected fresh top, μ.Holds (.var p.2) ↔ p.2 = x) ∧
    (μ.Holds (.var (dummy fresh top)) ↔ dummy fresh top = x)

/-- The bits of the instructions and of the stutter step are different variables. -/
def BitsApart (fresh : Nat) (top : Ila) : Prop :=
  (selected fresh top).Pairwise (fun p q => p.2 ≠ q.2) ∧ ∀ p ∈ selected fresh top, p.2 ≠ dummy fresh top

theorem exists_bit (hacc : Accepted fresh top) (hbits : BitsApart fresh top) (hstep : top.Step ν ν') :
    ∃ x, ∀ μ, Spans fresh top μ ν ν' → OnlyBit fresh top x μ → Selects fresh top μ := by
  obtain ⟨hsel, hdum⟩ := hbits
  rcases hstep with ⟨i, hi, hd, hupd⟩ | ⟨hnone, hkeep⟩
  · obtain ⟨p, hp, rfl⟩ := exists_selected fresh hi
    have honly : ∀ q ∈ selected fresh top, q.2 = p.2 → q = p := by
      intro q hq hqp
      exact List.inj_on_of_nodup_map (List.pairwise_map.mpr hsel) hq hp hqp
    have hdump : dummy fresh top ≠ p.2 := fun heq => hdum p hp heq.symm
    refine ⟨p.2, fun μ hμ ⟨hon, hoff⟩ => selects_iff.mpr ⟨fun v hv => ⟨?_, ?_⟩, ?_, ?_⟩⟩
    · rw [holds_accDec (hacc.check hv).1]
      refine ⟨fun q hq hqb => ?_, fun hb => absurd (hoff.mp hb) hdump⟩
      rw [honly q hq ((hon q hq).mp hqb)]
      exact (hμ.holds_iff (mem_exprs_decode hi)).mpr hd
    · rw [holds_accUpd (hacc.check hv).2]
      refine ⟨fun q hq hqb => ?_, fun hb => absurd (hoff.mp hb) hdump⟩
      rw [honly q hq ((hon q hq).mp hqb), hμ.eval_eq (mem_exprs_update hi hv), hupd v hv, hμ.next v hv]
    · exact holds_atLeastOne.mpr (.inr ⟨p, hp, (hon p hp).mpr rfl⟩)
    · refine holds_atMostOne.mpr (hsel.imp_of_mem fun {q r} hq hr hne => ?_)
      by_contra hboth
      rw [not_or, not_not, not_not] at hboth
      exact hne (((hon q hq).mp hboth.1).trans ((hon r hr).mp hboth.2).symm)
  · refine ⟨dummy fresh top, fun μ hμ ⟨hon, hoff⟩ => selects_iff.mpr ?_⟩
    have hnot : ∀ q ∈ selected fresh top, ¬μ.Holds (.var q.2) := fun q hq hb => hdum q hq ((hon q hq).mp hb)
    refine ⟨fun v hv => ⟨?_, ?_⟩, ?_, ?_⟩
    · rw [holds_accDec (hacc.check hv).1]
      refine ⟨fun q hq hb => absurd hb (hnot q hq), fun _ q hq hd => ?_⟩
      exact hnone q.1 (selected_instr hq) ((hμ.holds_iff (mem_exprs_decode (selected_instr hq))).mp hd)
    · rw [holds_accUpd (hacc.check hv).2]
      refine ⟨fun q hq hb => absurd hb (hnot q hq), fun _ => ?_⟩
      rw [hμ.atom _ (var_mem_atoms hv), hμ.next v hv, hkeep v hv]
    · exact holds_atLeastOne.mpr (.inl (hoff.mpr rfl))
    · exact holds_atMostOne.mpr (hsel.imp_of_mem fun {q r} hq _ _ => .inl (hnot q hq))

/-! ### The models of an unrolling -/

section Unrolling

variable {z3 : Z3} {length : Nat} {φ : Term} (hφ : monoAssn fresh top z3 u length pos = some φ)
include hφ

theorem unrollAssn_of_monoAssn : u.unrollAssn z3 (transition fresh top) length pos = some φ := by
  rw [monoAssn, Option.bind_eq_some_iff] at hφ
  obtain ⟨tr, htr, hφ⟩ := hφ
  rw [trans, Option.ite_none_right_eq_some] at htr
  rwa [← Option.some.inj htr.2] at hφ

theorem accepted_of_monoAssn (hpos : 0 < length) : Accepted fresh top := by
  have h := unrollAssn_of_monoAssn hφ
  rw [Unroller.unrollAssn, Option.ite_none_right_eq_some] at h
  exact (Unroller.forall_mem_stepPred.mp (h.1.step hpos)).2.2.1

theorem sat_monoAssn : M.Sat φ ↔
    (∀ i < length, (∀ e ∈ u.initPred i ++ u.gPred ++ u.sPred i, (frame M (u.suffCurr (pos + i))).Holds e) ∧
      Selects fresh top (frame M (u.suffCurr (pos + i))) ∧
      ∀ v ∈ top.getSttTree, M.const ((nextOf fresh top v).sym (u.suffCurr (pos + i))) =
        M.const (v.sym (u.suffCurr (pos + i + 1)))) ∧
    u.EndHolds length (frame M (u.suffCurr length)) := by
  rw [Unroller.sat_unrollAssn (unrollAssn_of_monoAssn hφ)]
  refine and_congr_left fun _ => forall₂_congr fun i _ => ?_
  simp only [Unroller.StepHolds, Unroller.forall_mem_stepPred, List.forall_mem_append, Selects, transition, Expr.eval,
    frame_atom, Atom.sym_var, Option.some.injEq]
  tauto

end Unrolling

/-- A hierarchy that can be unrolled. -/
def Unrollable (fresh : Nat) (top : Ila) : Prop := (∀ v ∈ top.getSttTree, v.host.isSome) ∧ Accepted fresh top

theorem Unrollable.isSome (h : Unrollable fresh top) (z3 : Z3) {length : Nat} (hinit : ∀ e ∈ u.iPred, e.check = some .bool)
    (hpred : ∀ i ≤ length, ∀ e ∈ u.gPred ++ u.sPred i, e.check = some .bool) :
    (monoAssn fresh top z3 u length pos).isSome := by
  refine (isSome_monoAssn _ _ _ _ _ _).mpr ⟨h.1, fun i hi => ⟨Unroller.forall_mem_stepPred.mpr ?_, fun v _ => rfl⟩,
    hpred length (Nat.le_refl _)⟩
  obtain ⟨hglob, hstep⟩ := List.forall_mem_append.mp (hpred i (Nat.le_of_lt hi))
  refine ⟨fun e he => ?_, hglob, h.2, hstep⟩
  rw [Unroller.initPred] at he
  split at he
  · exact hinit e he
  · cases he

/-! With distinct names the selection bits and the next values can be chosen freely. -/

theorem nodup_sym_suffCurr {l : List Atom} (h : (l.map fun a => a.sym "").Nodup) (u : Unroller) (t : Int) :
    (l.map fun a => a.sym (u.suffCurr t)).Nodup := by
  rw [List.Nodup, List.pairwise_map] at h ⊢
  exact h.imp fun hne heq => hne (Unroller.sym_suffCurr_inj.mp heq).2

theorem DistinctNames.states (h : DistinctNames fresh top) :
    ((top.getSttTree.map Atom.var).map fun a => a.sym "").Nodup := by
  have hatoms : ((atoms top).map fun a => a.sym "").Nodup := by
    have hnodup := h.atom
    simp only [stepAtoms, List.append_assoc, List.map_append] at hnodup
    exact List.Nodup.of_append_left hnodup
  have hstates : (top.getSttTree.map Atom.var).Nodup := by
    refine List.Nodup.map (fun v w hvw => by injection hvw) ?_
    exact List.nodup_dedup _
  refine List.Nodup.map_on (fun a ha b hb hab => ?_) hstates
  obtain ⟨v, hv, rfl⟩ := List.mem_map.mp ha
  obtain ⟨w, hw, rfl⟩ := List.mem_map.mp hb
  exact List.inj_on_of_nodup_map hatoms (var_mem_atoms hv) (var_mem_atoms hw) hab

theorem DistinctNames.bitsApart (h : DistinctNames fresh top) : BitsApart fresh top := by
  have hnodup := h.atom
  rw [stepAtoms, List.map_append] at hnodup
  have hleft := List.Nodup.of_append_left hnodup
  rw [List.append_assoc, List.map_append] at hleft
  have hsel := List.Nodup.of_append_right hleft
  rw [List.map_append, List.nodup_append, List.map_map, List.Nodup, List.pairwise_map] at hsel
  refine ⟨hsel.1.imp fun hne heq => hne (by simp only [Function.comp, heq]), fun p hp heq => ?_⟩
  refine hsel.2.2 _ (List.mem_map_of_mem hp) _ (List.mem_map_of_mem List.mem_cons_self) ?_
  simp only [Function.comp, heq]

/-- The value that a choice of bits gives to everything a step reads. -/
def stepValue (fresh : Nat) (top : Ila) (ν ν' : Valuation) (bit : Var → Bool) : List (Atom × Value) :=
  (atoms top).map (fun a => (a, ν.atom a))
    ++ (selected fresh top).map (fun p => (.var p.2, .bool (bit p.2)))
    ++ [(.var (dummy fresh top), .bool (bit (dummy fresh top)))]
    ++ top.getSttTree.map fun v => (.var (nextOf fresh top v), ν'.atom (.var v))

theorem stepValue_fst (ν ν' : Valuation) (bit : Var → Bool) :
    (stepValue fresh top ν ν' bit).map Prod.fst = stepAtoms fresh top := by
  simp [stepValue, stepAtoms, Function.comp_def]

theorem stepValue_sort (bit : Var → Bool) : ∀ p ∈ stepValue fresh top ν ν' bit, p.2.sort = p.1.sort := by
  intro p hp
  simp only [stepValue, List.mem_append, List.mem_map, List.mem_singleton] at hp
  rcases hp with ((⟨a, -, rfl⟩ | ⟨q, hq, rfl⟩) | rfl) | ⟨v, -, rfl⟩
  · exact ν.atom_sort a
  · exact (Option.some.inj (selected_check hq)).symm
  · rfl
  · exact ν'.atom_sort (.var v)

theorem exists_between (hnames : DistinctNames fresh top) (u : Unroller) (pos : Int) (ν ν' : Valuation)
    (bit : Var → Bool) :
    ∃ M, Between u pos top M ν ν' ∧
      (∀ p ∈ selected fresh top, M.const (p.2.sym (u.suffCurr pos)) = .bool (bit p.2)) ∧
      M.const ((dummy fresh top).sym (u.suffCurr pos)) = .bool (bit (dummy fresh top)) ∧
      ∀ v ∈ top.getSttTree, M.const ((nextOf fresh top v).sym (u.suffCurr pos)) = ν'.atom (.var v) := by
  obtain ⟨N, -, hN⟩ := (default : Model).exists_funcs (fun f : { f // f ∈ funcs top } => f.1.z3FuncDecl)
    (fun f => ν.func f.1) (fun f vs => ν.func_sort f.1 vs)
    (fun f g hfg => by rw [hnames.func f.1 f.2 g.1 g.2 hfg])
  let now := (stepValue fresh top ν ν' bit).map fun p => (p.1.sym (u.suffCurr pos), p.2)
  let nxt := top.getSttTree.map fun v => (v.sym (u.suffCurr (pos + 1)), ν'.atom (.var v))
  have hkeys : ((now ++ nxt).map Prod.fst).Nodup := by
    have hnow : now.map Prod.fst = (stepAtoms fresh top).map fun a => a.sym (u.suffCurr pos) := by
      simp only [now, ← stepValue_fst ν ν' bit, List.map_map, Function.comp_def]
    have hnxt : nxt.map Prod.fst = (top.getSttTree.map Atom.var).map fun a => a.sym (u.suffCurr (pos + 1)) := by
      simp only [nxt, List.map_map, Function.comp_def, Atom.sym_var]
    rw [List.map_append, hnow, hnxt, List.nodup_append]
    refine ⟨nodup_sym_suffCurr hnames.atom u pos, nodup_sym_suffCurr hnames.states u (pos + 1), ?_⟩
    intro c hc d hd hcd
    obtain ⟨a, -, rfl⟩ := List.mem_map.mp hc
    obtain ⟨b, -, rfl⟩ := List.mem_map.mp hd
    have hpos := (Unroller.sym_suffCurr_inj.mp hcd).1
    omega
  have hsort : ∀ p ∈ now ++ nxt, p.2.sort = p.1.sort := by
    intro p hp
    rcases List.mem_append.mp hp with hp | hp
    · obtain ⟨q, hq, rfl⟩ := List.mem_map.mp hp
      rw [Atom.sort_sym]
      exact stepValue_sort bit q hq
    · obtain ⟨v, -, rfl⟩ := List.mem_map.mp hp
      exact ν'.atom_sort (.var v)
  obtain ⟨M, hfunc, hM⟩ := N.exists_assign_list (now ++ nxt) hsort hkeys
  have hval : ∀ p ∈ stepValue fresh top ν ν' bit, M.const (p.1.sym (u.suffCurr pos)) = p.2 :=
    fun p hp => hM (p.1.sym (u.suffCurr pos), p.2) (List.mem_append_left _ (List.mem_map.mpr ⟨p, hp, rfl⟩))
  simp only [stepValue, List.forall_mem_append, List.forall_mem_map, List.forall_mem_singleton] at hval
  obtain ⟨⟨⟨hatoms, hsel⟩, hdum⟩, hnext⟩ := hval
  refine ⟨M, ⟨hatoms, fun f hf => ?_, fun v hv => ?_⟩, hsel, hdum, hnext⟩
  · rw [hfunc]
    exact hN ⟨f, hf⟩
  · exact hM (v.sym (u.suffCurr (pos + 1)), ν'.atom (.var v))
      (List.mem_append_right _ (List.mem_map.mpr ⟨v, hv, rfl⟩))

section OneStep

variable {z3 : Z3} {suff : String} {φ : Term} (hφ : monoAssn fresh top z3 (Unroller.new suff) 1 pos = some φ)
include hφ

theorem sat_monoAssn_one : M.Sat φ ↔
    Selects fresh top (frame M ((Unroller.new suff).suffCurr pos)) ∧
      ∀ v ∈ top.getSttTree, M.const ((nextOf fresh top v).sym ((Unroller.new suff).suffCurr pos)) =
        M.const (v.sym ((Unroller.new suff).suffCurr (pos + 1))) := by
  have hend : ∀ ν : Valuation, (Unroller.new suff).EndHolds 1 ν := fun ν e he => by
    simp [Unroller.endPred, Unroller.new] at he
  have hpred : ∀ e, e ∉ (Unroller.new suff).initPred 0 ++ (Unroller.new suff).gPred ++ (Unroller.new suff).sPred 0 := by
    simp [Unroller.initPred, Unroller.new]
  rw [sat_monoAssn hφ, and_iff_left (hend _)]
  simp only [Nat.lt_one_iff, forall_eq, Nat.cast_zero, add_zero]
  exact and_iff_right fun e he => absurd he (hpred e)

theorem step_of_sat (hsat : M.Sat φ) (hM : Between (Unroller.new suff) pos top M ν ν') : top.Step ν ν' := by
  obtain ⟨hsel, hnext⟩ := (sat_monoAssn_one hφ).mp hsat
  have hspans : Spans fresh top (frame M ((Unroller.new suff).suffCurr pos)) ν ν' :=
    ⟨hM.atom, hM.func, fun v hv => by rw [frame_atom, Atom.sym_var, hnext v hv, hM.next v hv]⟩
  exact hspans.step (accepted_of_monoAssn hφ Nat.one_pos) hsel

theorem exists_sat_of_step (hnames : DistinctNames fresh top) (hstep : top.Step ν ν') :
    ∃ M, M.Sat φ ∧ Between (Unroller.new suff) pos top M ν ν' := by
  obtain ⟨x, hx⟩ := exists_bit (accepted_of_monoAssn hφ Nat.one_pos) hnames.bitsApart hstep
  obtain ⟨M, hM, hbits, hbit, hnext⟩ :=
    exists_between hnames (Unroller.new suff) pos ν ν' fun y => decide (y = x)
  refine ⟨M, (sat_monoAssn_one hφ).mpr ⟨hx _ ⟨hM.atom, hM.func, fun v hv => ?_⟩ ⟨fun p hp => ?_, ?_⟩, fun v hv => ?_⟩, hM⟩
  · rw [frame_atom, Atom.sym_var, hnext v hv]
  · rw [Valuation.Holds, Expr.eval, frame_atom, Atom.sym_var, hbits p hp]
    simp
  · rw [Valuation.Holds, Expr.eval, frame_atom, Atom.sym_var, hbit]
    simp
  · rw [hnext v hv, hM.next v hv]

end OneStep

/-- One unrolled step is satisfiable between two valuations exactly when the hierarchy can step from one
to the other, provided that the solver has distinct names for all that the step reads. -/
theorem monoAssn_iff_step (z3 : Z3) (suff : String) (fresh : Nat) (top : Ila) (pos : Int) {φ : Term}
    (hφ : monoAssn fresh top z3 (Unroller.new suff) 1 pos = some φ) (hnames : DistinctNames fresh top)
    (ν ν' : Valuation) :
    (∃ M : Model, M.Sat φ ∧ Between (Unroller.new suff) pos top M ν ν') ↔ top.Step ν ν' :=
  ⟨fun ⟨_, hsat, hM⟩ => step_of_sat hφ hsat hM, exists_sat_of_step hφ hnames⟩

/-- One Boolean state, and one instruction that always decodes and updates nothing. -/
def idle (name : String) : Ila :=
  .mk { IlaData.new 0 "m" with
        states := [⟨0, "x", some "m", .bool⟩]
        instrs := [⟨1, name, some (.const (.bool true)), [], none⟩] } []

theorem idle_step (name : String) : (idle name).Step default default :=
  .inl ⟨_, List.mem_cons_self, rfl, fun v hv => by
    obtain rfl := List.mem_singleton.mp hv
    rfl⟩

/-- One Boolean state, and one instruction that always decodes and toggles it. -/
def toggle : Ila :=
  .mk { IlaData.new 0 "m" with
        states := [⟨0, "x", some "m", .bool⟩]
        instrs := [⟨1, "flip", some (.const (.bool true)), [("x", some (.op .not [.var ⟨0, "x", some "m", .bool⟩]))], none⟩] } []

/-- The state is high. -/
def raised : Valuation where
  atom a := if a = .var ⟨0, "x", some "m", .bool⟩ then .bool true else (default : Valuation).atom a
  atom_sort a := by
    split_ifs with ha
    · rw [ha]
      rfl
    · exact (default : Valuation).atom_sort a
  func := (default : Valuation).func
  func_sort := (default : Valuation).func_sort

theorem toggle_step (ν : Valuation) : toggle.Step default ν ↔ ν.atom (.var ⟨0, "x", some "m", .bool⟩) = .bool true := by
  constructor
  · rintro (⟨h, hh, -, hupd⟩ | ⟨hnone, -⟩)
    · obtain rfl := List.mem_singleton.mp hh
      exact (Option.some.inj (hupd _ List.mem_cons_self)).symm
    · exact absurd rfl (hnone _ List.mem_cons_self)
  · intro hx
    refine .inl ⟨_, List.mem_cons_self, rfl, fun v hv => ?_⟩
    obtain rfl := List.mem_singleton.mp hv
    exact congrArg some hx.symm

/-- The step toggles the state, and does not keep it. -/
theorem monoAssn_iff_step_toggle : ∃ φ, monoAssn 2 toggle default (Unroller.new "") 1 0 = some φ ∧
    (∃ M : Model, M.Sat φ ∧ Between (Unroller.new "") 0 toggle M default raised) ∧
    ¬∃ M : Model, M.Sat φ ∧ Between (Unroller.new "") 0 toggle M default default := by
  obtain ⟨φ, hφ⟩ := Option.isSome_iff_exists.mp ((isSome_monoAssn 2 toggle default (Unroller.new "") 1 0).mpr (by decide))
  have hiff := monoAssn_iff_step default "" 2 toggle 0 hφ ⟨by decide, by decide⟩ default
  refine ⟨φ, hφ, (hiff raised).mpr ((toggle_step raised).mpr rfl), fun h => ?_⟩
  exact nomatch (toggle_step default).mp ((hiff default).mp h)

/-- An instruction of the top that is called `dead` shares the selection bit of the stutter step, so the
bit asks for the decode and for its negation. No step is left, although the instruction can fire. -/
theorem monoAssn_excludes_step : ∃ φ,
    monoAssn 2 (idle "dead") default (Unroller.new "") 1 0 = some φ ∧
    ((idle "dead").getSttTree.map Var.name).Nodup ∧ (idle "dead").Step default default ∧
    ¬∃ M : Model, M.Sat φ ∧ Between (Unroller.new "") 0 (idle "dead") M default default := by
  generalize (default : Z3) = z3
  obtain ⟨φ, hφ⟩ := Option.isSome_iff_exists.mp
    ((isSome_monoAssn 2 (idle "dead") z3 (Unroller.new "") 1 0).mpr (by decide))
  refine ⟨φ, hφ, by decide, idle_step "dead", ?_⟩
  rintro ⟨M, hsat, -⟩
  obtain ⟨hacc, hone, -⟩ := selects_iff.mp ((sat_monoAssn_one hφ).mp hsat).1
  have hx : (⟨0, "x", some "m", .bool⟩ : Var) ∈ (idle "dead").getSttTree := by decide
  obtain ⟨hdec, hnot⟩ := (holds_accDec ((accepted_of_monoAssn hφ Nat.one_pos).check hx).1).mp (hacc _ hx).1
  -- the two bits have one name
  have hbit : (frame M ((Unroller.new "").suffCurr 0)).Holds (.var (dummy 2 (idle "dead"))) := by
    rcases holds_atLeastOne.mp hone with h | ⟨p, hp, h⟩
    · exact h
    · obtain rfl := List.mem_singleton.mp hp
      exact h
  exact hnot hbit _ List.mem_cons_self rfl

end MonoUnroll

end Ilang
