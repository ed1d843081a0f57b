import Ilang.Ila.AstHub
import Ilang.Ila.Build
import Ilang.Mngr.Trace

/-!
# Completeness and determinism of the instruction set

The pass asks the solver whether two instructions of one ILA can be enabled together, and whether the instructions of the
hierarchy cover everything. If they do not it adds a default instruction to the top, decoded by the negation of all the
others. The verdict is the one from before the repair.
-/

namespace Ilang

open Smt

/-- The valid condition of an ILA, `true` where it is not set. -/
def validOf (d : IlaData) : Expr := d.valid.getD (.boolConst true)

section Pass

variable (z3 : Z3) (o : Oracle)

/-- The query of the inner loop. There is no decode to build it from if one is not set. -/
def overlaps (valid : Expr) (i j : Instr) : Option Bool :=
  i.decode.bind fun di => j.decode.map fun dj => o.sat [getExpr z3 "" valid, getExpr z3 "" (.and di dj)]

/-- The inner loop of `DetermVisitor::post`. -/
def noneOverlaps (valid : Expr) (i : Instr) : List Instr → Option Bool
  | [] => some true
  | j :: js => (overlaps z3 o valid i j).bind fun sat => if sat then some false else noneOverlaps valid i js

/-- `DetermVisitor::post` on an ILA that is reached with `is_determ` set. -/
def visitDeterm (valid : Expr) : List Instr → Option Bool
  | [] => some true
  | i :: is => (noneOverlaps z3 o valid i is).bind fun ok => if ok then visitDeterm valid is else some false

/-- `CheckDeterminism`, on the ILAs of the hierarchy in the order of the visit. -/
def checkDeterminism : List IlaData → Option Bool
  | [] => some true
  | d :: ds => (visitDeterm z3 o (validOf d) d.instrs).bind fun ok => if ok then checkDeterminism ds else some false

/-- The disjunction of everything that enables an instruction. -/
def anyEnabled (acc : Expr) : List HostedInstr → Option Expr
  | [] => some acc
  | h :: hs => h.instr.decode.bind fun d => anyEnabled (.or acc (.and (validOf h.host) d)) hs

/-- The top ILA has a state or an input under the name of every variable that is read. -/
def isClean (top : IlaData) (acc : Expr) : Bool :=
  acc.atoms.all fun a =>
    match a with
    | .var v => top.states.any (fun s => s.name == v.name) || top.inputs.any fun s => s.name == v.name
    | .nondet _ => true

def defaultName : String := "PASS_ADD_DEFAULT_INSTR"

/-- `NewInstr` and `set_decode` on the top ILA. -/
def addDefault (id : Nat) (acc : Expr) : Ila → Ila
  | .mk d cs => .mk (d.addInstr (Instr.setDecode (.not acc) ⟨id, Instr.newName d.instrs.length defaultName, none, [], none⟩)) cs

/-- `SanityCheckAndFix`: the verdict, and the hierarchy that it leaves. -/
def sanityCheckAndFix (id : Nat) (m : Ila) : Option (Bool × Ila) :=
  (checkDeterminism z3 o m.postOrder).bind fun isDeterm =>
    (anyEnabled (.boolConst false) m.getInstrTree).map fun acc =>
      let isComplete := !o.sat [.neg (getExpr z3 "" acc)]
      if isComplete then (isDeterm && isComplete, m)
      else
        let clean := isClean m.data acc
        (isDeterm && (isComplete && clean), if clean then addDefault id acc m else m)

end Pass

/-! ### What the pass is for -/

namespace HostedInstr

/-- The valid condition of the host and the decode hold. -/
def Enabled (ν : Valuation) (h : HostedInstr) : Prop := ν.Holds (validOf h.host) ∧ ∃ d ∈ h.instr.decode, ν.Holds d

end HostedInstr

namespace Ila

/-- At most one instruction of each ILA is enabled. -/
def Deterministic (ν : Valuation) (m : Ila) : Prop :=
  ∀ d ∈ m.postOrder, d.instrs.Pairwise fun i j => ¬(HostedInstr.Enabled ν ⟨d, i⟩ ∧ HostedInstr.Enabled ν ⟨d, j⟩)

/-- Some instruction is enabled. -/
def Complete (ν : Valuation) (m : Ila) : Prop := ∃ h ∈ m.getInstrTree, h.Enabled ν

/-- Exactly what is expected of the instructions, in every valuation. -/
def Sane (m : Ila) : Prop := ∀ ν, m.Deterministic ν ∧ m.Complete ν

/-- The same in the valuations that the solver sees, where variables with one solver name have one value. -/
def SaneByName (m : Ila) : Prop := ∀ M : Model, m.Deterministic (frame M "") ∧ m.Complete (frame M "")

/-- Decodes are set, and conditions are Boolean. -/
structure Decoded (m : Ila) : Prop where
  decode : ∀ h ∈ m.getInstrTree, ∃ d, h.instr.decode = some d ∧ d.check = some .bool
  valid : ∀ h ∈ m.getInstrTree, (validOf h.host).check = some .bool

/-- Every variable that a condition reads has the name of a state or an input of the top. -/
def Clean (m : Ila) : Prop :=
  ∀ h ∈ m.getInstrTree, ∀ v : Var, (.var v ∈ (validOf h.host).atoms ∨ ∃ d ∈ h.instr.decode, .var v ∈ d.atoms) →
    v.name ∈ (m.data.states ++ m.data.inputs).map Var.name

/-- The instructions leave something open, and the top can take the default instruction. -/
structure Repairable (m : Ila) : Prop where
  incomplete : ∃ M : Model, ¬m.Complete (frame M "")
  clean : m.Clean
  fresh : defaultName ∉ m.data.instrs.map Instr.name

end Ila

/-- What the pass is called for, on its verdict and the hierarchy that it leaves. -/
structure Establishes (m : Ila) (ok : Bool) (m' : Ila) : Prop where
  sane : ok = true → m'.Sane
  default : ∀ i, m'.data.instrs = m.data.instrs ++ [i] →
    (∀ ν, HostedInstr.Enabled ν ⟨m'.data, i⟩ ↔ ¬m.Complete ν) ∧ (∀ v, stateUpdCmpl i v = .var v) ∧
      ((∀ ν, m.Deterministic ν) → ok = true)

variable (z3 : Z3) (o : Oracle) {m : Ila}

/-! ### Determinism -/

theorem overlaps_eq {valid di dj : Expr} {i j : Instr} (hi : i.decode = some di) (hj : j.decode = some dj) :
    overlaps z3 o valid i j = some (o.sat [getExpr z3 "" valid, getExpr z3 "" (.and di dj)]) := by
  rw [overlaps, hi, hj]
  rfl

theorem sat_overlaps {d : IlaData} {i j : Instr} {di dj : Expr} (hi : i.decode = some di) (hj : j.decode = some dj)
    (hvalid : (validOf d).check = some .bool) (hdi : di.check = some .bool) (hdj : dj.check = some .bool) :
    o.sat [getExpr z3 "" (validOf d), getExpr z3 "" (.and di dj)] = true ↔
      ∃ M : Model, HostedInstr.Enabled (frame M "") ⟨d, i⟩ ∧ HostedInstr.Enabled (frame M "") ⟨d, j⟩ := by
  rw [o.sat_iff]
  apply exists_congr
  intro M
  simp only [List.forall_mem_cons, List.not_mem_nil, false_imp_iff, implies_true, and_true, sat_getExpr hvalid,
    sat_getExpr (Expr.check_and.mpr ⟨hdi, hdj⟩), Expr.holds_and, HostedInstr.Enabled, hi, hj, Option.mem_def,
    Option.some.injEq, exists_eq_left']
  tauto

/-- The solver sees the two instructions enabled together in no valuation. -/
def Apart (d : IlaData) (i j : Instr) : Prop :=
  ∀ M : Model, ¬(HostedInstr.Enabled (frame M "") ⟨d, i⟩ ∧ HostedInstr.Enabled (frame M "") ⟨d, j⟩)

section Host

variable {d : IlaData} {i : Instr} {is : List Instr} (hvalid : (validOf d).check = some .bool)
include hvalid

theorem noneOverlaps_spec {di : Expr} (hi : i.decode = some di) (hdi : di.check = some .bool)
    (his : ∀ j ∈ is, ∃ dj, j.decode = some dj ∧ dj.check = some .bool) :
    ∃ b, noneOverlaps z3 o (validOf d) i is = some b ∧ (b = true ↔ ∀ j ∈ is, Apart d i j) := by
  induction is with
  | nil => exact ⟨true, rfl, by simp⟩
  | cons j js ih =>
    obtain ⟨⟨dj, hj, hdj⟩, hjs⟩ := List.forall_mem_cons.mp his
    obtain ⟨b, hb, hiff⟩ := ih hjs
    have hsat := sat_overlaps z3 o hi hj hvalid hdi hdj
    rw [noneOverlaps, overlaps_eq z3 o hi hj, Option.bind_some, List.forall_mem_cons]
    by_cases h : o.sat [getExpr z3 "" (validOf d), getExpr z3 "" (.and di dj)] = true
    · obtain ⟨M, hM⟩ := hsat.mp h
      refine ⟨false, if_pos h, ?_⟩
      simp only [Bool.false_eq_true, false_iff]
      exact fun hall => hall.1 M hM
    · refine ⟨b, by rw [if_neg h, hb], ?_⟩
      rw [hiff]
      have hapart : Apart d i j := fun M hM => h (hsat.mpr ⟨M, hM⟩)
      exact ⟨fun hall => ⟨hapart, hall⟩, fun hall => hall.2⟩

theorem visitDeterm_spec (his : ∀ j ∈ is, ∃ dj, j.decode = some dj ∧ dj.check = some .bool) :
    ∃ b, visitDeterm z3 o (validOf d) is = some b ∧ (b = true ↔ is.Pairwise (Apart d)) := by
  induction is with
  | nil => exact ⟨true, rfl, by simp⟩
  | cons i is ih =>
    obtain ⟨⟨di, hi, hdi⟩, his⟩ := List.forall_mem_cons.mp his
    obtain ⟨b, hb, hiff⟩ := noneOverlaps_spec z3 o hvalid hi hdi his
    rw [visitDeterm, hb, Option.bind_some, List.pairwise_cons, ← hiff]
    cases b with
    | false => exact ⟨false, rfl, by simp⟩
    | true =>
      obtain ⟨b', hb', hiff'⟩ := ih his
      exact ⟨b', hb', by simp [hiff']⟩

end Host

theorem mem_getInstrTree {d : IlaData} {i : Instr} : ⟨d, i⟩ ∈ m.getInstrTree ↔ d ∈ m.postOrder ∧ i ∈ d.instrs := by
  simp only [Ila.getInstrTree, List.mem_flatMap, List.mem_map, HostedInstr.mk.injEq]
  constructor
  · rintro ⟨d', hd', i', hi', rfl, rfl⟩
    exact ⟨hd', hi'⟩
  · rintro ⟨hd, hi⟩
    exact ⟨d, hd, i, hi, rfl, rfl⟩

theorem checkDeterminism_spec {ds : List IlaData} (hm : m.Decoded) (hds : ∀ d ∈ ds, d ∈ m.postOrder) :
    ∃ b, checkDeterminism z3 o ds = some b ∧ (b = true ↔ ∀ d ∈ ds, d.instrs.Pairwise (Apart d)) := by
  induction ds with
  | nil => exact ⟨true, rfl, by simp⟩
  | cons d ds ih =>
    obtain ⟨hd, hds⟩ := List.forall_mem_cons.mp hds
    have hvisit : ∃ b, visitDeterm z3 o (validOf d) d.instrs = some b ∧ (b = true ↔ d.instrs.Pairwise (Apart d)) := by
      rcases hinstrs : d.instrs with _ | ⟨i, is⟩
      · exact ⟨true, rfl, by simp⟩
      · rw [← hinstrs]
        have hi : i ∈ d.instrs := by simp [hinstrs]
        exact visitDeterm_spec z3 o (hm.valid ⟨d, i⟩ (mem_getInstrTree.mpr ⟨hd, hi⟩)) fun j hj =>
          hm.decode ⟨d, j⟩ (mem_getInstrTree.mpr ⟨hd, hj⟩)
    obtain ⟨b, hb, hiff⟩ := hvisit
    rw [checkDeterminism, hb, Option.bind_some, List.forall_mem_cons, ← hiff]
    cases b with
    | false => exact ⟨false, rfl, by simp⟩
    | true =>
      obtain ⟨b', hb', hiff'⟩ := ih hds
      exact ⟨b', hb', by simp [hiff']⟩

theorem pairwise_forall {α β : Type} {R : α → β → β → Prop} {l : List β} :
    (l.Pairwise fun x y => ∀ a, R a x y) ↔ ∀ a, l.Pairwise (R a) := by
  induction l with
  | nil => simp
  | cons x l ih =>
    simp only [List.pairwise_cons, ih, forall_and]
    exact and_congr_left fun _ => ⟨fun h a y hy => h y hy a, fun h y hy a => h a y hy⟩

theorem checkDeterminism_iff (hm : m.Decoded) :
    ∃ b, checkDeterminism z3 o m.postOrder = some b ∧ (b = true ↔ ∀ M : Model, m.Deterministic (frame M "")) := by
  obtain ⟨b, hb, hiff⟩ := checkDeterminism_spec z3 o hm fun d hd => hd
  refine ⟨b, hb, hiff.trans ?_⟩
  constructor
  · intro h M d hd
    exact pairwise_forall.mp (h d hd) M
  · intro h d hd
    exact pairwise_forall.mpr fun M => h M d hd

/-! ### Completeness -/

/-- The instruction is enabled, as an expression. -/
structure AccSpec (acc acc' : Expr) (hs : List HostedInstr) : Prop where
  check : acc'.check = some .bool
  holds : ∀ ν : Valuation, ν.Holds acc' ↔ ν.Holds acc ∨ ∃ h ∈ hs, h.Enabled ν
  atoms : ∀ x, x ∈ acc'.atoms ↔
    x ∈ acc.atoms ∨ ∃ h ∈ hs, x ∈ (validOf h.host).atoms ∨ ∃ d ∈ h.instr.decode, x ∈ d.atoms

theorem anyEnabled_spec {hs : List HostedInstr} {acc : Expr} (hacc : acc.check = some .bool)
    (hdecode : ∀ h ∈ hs, ∃ d, h.instr.decode = some d ∧ d.check = some .bool)
    (hvalid : ∀ h ∈ hs, (validOf h.host).check = some .bool) :
    ∃ acc', anyEnabled acc hs = some acc' ∧ AccSpec acc acc' hs := by
  induction hs generalizing acc with
  | nil => exact ⟨acc, rfl, hacc, by simp, by simp⟩
  | cons h hs ih =>
    obtain ⟨⟨d, hd, hcheck⟩, hdecode⟩ := List.forall_mem_cons.mp hdecode
    obtain ⟨hv, hvalid⟩ := List.forall_mem_cons.mp hvalid
    have hand : (Expr.and (validOf h.host) d).check = some .bool := Expr.check_and.mpr ⟨hv, hcheck⟩
    obtain ⟨acc', hacc', hspec⟩ := ih (Expr.check_or.mpr ⟨hacc, hand⟩) hdecode hvalid
    refine ⟨acc', by rw [anyEnabled, hd, Option.bind_some, hacc'], hspec.check, fun ν => ?_, fun x => ?_⟩
    · rw [hspec.holds, Expr.holds_or hacc hand, Expr.holds_and, List.exists_mem_cons_iff, or_assoc]
      simp [HostedInstr.Enabled, hd]
    · rw [hspec.atoms, List.exists_mem_cons_iff, Expr.or, Expr.mem_atoms_pair, Expr.and, Expr.mem_atoms_pair, or_assoc]
      simp [hd]

theorem isClean_iff {d : IlaData} {acc : Expr} :
    isClean d acc = true ↔ ∀ v : Var, .var v ∈ acc.atoms → v.name ∈ (d.states ++ d.inputs).map Var.name := by
  rw [isClean, List.all_eq_true]
  constructor
  · intro h v hv
    simpa using h (.var v) hv
  · intro h a ha
    cases a with
    | var v => simpa using h v ha
    | nondet f => rfl

theorem anyEnabled_tree (hm : m.Decoded) : ∃ acc, anyEnabled (.boolConst false) m.getInstrTree = some acc ∧
    acc.check = some .bool ∧ (∀ ν, ν.Holds acc ↔ m.Complete ν) ∧ (isClean m.data acc = true ↔ m.Clean) := by
  have hinit : (Expr.boolConst false).check = some .bool := rfl
  obtain ⟨acc, hacc, hspec⟩ := anyEnabled_spec hinit hm.decode hm.valid
  have hfalse : ∀ ν : Valuation, ¬ν.Holds (.boolConst false) := fun ν h => by
    simp [Valuation.Holds, Expr.boolConst, Expr.eval, ConstVal.value] at h
  refine ⟨acc, hacc, hspec.check, fun ν => ?_, ?_⟩
  · rw [hspec.holds, or_iff_right (hfalse ν), Ila.Complete]
  · have hatoms : ∀ x, x ∉ (Expr.boolConst false).atoms := fun x => List.not_mem_nil
    simp only [isClean_iff, hspec.atoms, hatoms, false_or, Ila.Clean]
    constructor
    · intro h i hi v hv
      exact h v ⟨i, hi, hv⟩
    · intro h v hv
      obtain ⟨i, hi, hv⟩ := hv
      exact h i hi v hv

theorem sat_incomplete {acc : Expr} (hcheck : acc.check = some .bool) (hholds : ∀ ν, ν.Holds acc ↔ m.Complete ν) :
    o.sat [.neg (getExpr z3 "" acc)] = true ↔ ∃ M : Model, ¬m.Complete (frame M "") := by
  rw [o.sat_iff]
  apply exists_congr
  intro M
  rw [List.forall_mem_singleton, (isBool_getExpr hcheck "").sat_neg, sat_getExpr hcheck, hholds]

/-! ### The default instruction -/

/-- The instruction that is added for the negation of a condition. -/
def defaultInstr (id : Nat) (acc : Expr) : Instr := ⟨id, defaultName, some (.not acc), [], none⟩

theorem addDefault_data (id : Nat) (acc : Expr) : (addDefault id acc m).data = m.data.addInstr (defaultInstr id acc) := by
  cases m
  rfl

theorem addDefault_instrs (id : Nat) (acc : Expr) (i : Instr) : (addDefault id acc m).data.instrs = m.data.instrs ++ [i] ↔
    defaultName ∉ m.data.instrs.map Instr.name ∧ i = defaultInstr id acc := by
  rw [addDefault_data]
  change KeyVec.pushBack Instr.name m.data.instrs (defaultInstr id acc) = _ ↔ _
  by_cases hmem : defaultName ∈ m.data.instrs.map Instr.name
  · rw [KeyVec.pushBack_of_mem hmem]
    simp [hmem]
  · rw [KeyVec.pushBack_of_notMem hmem, List.append_cancel_left_eq]
    simp [hmem, eq_comm]

theorem stateUpdCmpl_defaultInstr (id : Nat) (acc : Expr) (v : Var) : stateUpdCmpl (defaultInstr id acc) v = .var v := rfl

theorem enabled_defaultInstr (id : Nat) {acc : Expr} (hcheck : acc.check = some .bool)
    (hholds : ∀ ν, ν.Holds acc ↔ m.Complete ν) (ν : Valuation) :
    HostedInstr.Enabled ν ⟨(addDefault id acc m).data, defaultInstr id acc⟩ ↔ ν.Holds (validOf m.data) ∧ ¬m.Complete ν := by
  have hvalid : validOf (addDefault id acc m).data = validOf m.data := by
    rw [addDefault_data]
    rfl
  have hdecode : (∃ d ∈ (defaultInstr id acc).decode, ν.Holds d) ↔ ν.Holds (.not acc) := by simp [defaultInstr]
  rw [HostedInstr.Enabled, hvalid, hdecode, Expr.holds_not hcheck, hholds]

/-! ### Names -/

/-- The conditions that enable the instructions. -/
def Ila.conditions (m : Ila) : List Expr := m.getInstrTree.flatMap fun h => validOf h.host :: h.instr.decode.toList

theorem enabled_congr {ν ν' : Valuation} {h : HostedInstr} (hh : h ∈ m.getInstrTree)
    (heval : ∀ e ∈ m.conditions, e.eval ν = e.eval ν') : h.Enabled ν ↔ h.Enabled ν' := by
  have hmem : ∀ e ∈ validOf h.host :: h.instr.decode.toList, ν.Holds e ↔ ν'.Holds e := fun e he => by
    rw [Valuation.Holds, heval e (List.mem_flatMap.mpr ⟨h, hh, he⟩), Valuation.Holds]
  rw [HostedInstr.Enabled, HostedInstr.Enabled, hmem _ List.mem_cons_self]
  apply and_congr_right
  intro _
  apply exists_congr
  intro d
  apply and_congr_right
  intro hd
  exact hmem d (List.mem_cons_of_mem _ (Option.mem_toList.mpr hd))

theorem Ila.SaneByName.sane (hsane : m.SaneByName)
    (hsep : Separate (m.conditions.flatMap Expr.atoms) (m.conditions.flatMap Expr.funcs)) : m.Sane := by
  intro ν
  obtain ⟨M, hM⟩ := hsep.exists_frame ν
  have heval : ∀ e ∈ m.conditions, e.eval (frame M "") = e.eval ν := fun e he =>
    hM e (fun a ha => List.mem_flatMap.mpr ⟨e, he, ha⟩) fun f hf => List.mem_flatMap.mpr ⟨e, he, hf⟩
  obtain ⟨hdet, h, hh, hen⟩ := hsane M
  refine ⟨fun d hd => ?_, h, hh, (enabled_congr hh heval).mp hen⟩
  refine (hdet d hd).imp_of_mem fun hi hj hij => ?_
  rwa [← enabled_congr (mem_getInstrTree.mpr ⟨hd, hi⟩) heval, ← enabled_congr (mem_getInstrTree.mpr ⟨hd, hj⟩) heval]

/-! ### The outcome -/

theorem sanityCheckAndFix_spec (id : Nat) (hm : m.Decoded) : ∃ acc isDeterm, acc.check = some .bool ∧
    (∀ ν, ν.Holds acc ↔ m.Complete ν) ∧ (isDeterm = true ↔ ∀ M : Model, m.Deterministic (frame M "")) ∧
    (((∀ M : Model, m.Complete (frame M "")) ∧ sanityCheckAndFix z3 o id m = some (isDeterm, m)) ∨
      ((∃ M : Model, ¬m.Complete (frame M "")) ∧ m.Clean ∧ sanityCheckAndFix z3 o id m = some (false, addDefault id acc m)) ∨
      ((∃ M : Model, ¬m.Complete (frame M "")) ∧ ¬m.Clean ∧ sanityCheckAndFix z3 o id m = some (false, m))) := by
  obtain ⟨isDeterm, hdeterm, hiff⟩ := checkDeterminism_iff z3 o hm
  obtain ⟨acc, hacc, hcheck, hholds, hclean⟩ := anyEnabled_tree hm
  have hsat := sat_incomplete z3 o hcheck hholds
  refine ⟨acc, isDeterm, hcheck, hholds, hiff, ?_⟩
  simp only [sanityCheckAndFix, hdeterm, hacc, Option.bind_some, Option.map_some]
  cases h : o.sat [.neg (getExpr z3 "" acc)] with
  | false =>
    left
    refine ⟨fun M => ?_, by simp⟩
    by_contra hM
    rw [hsat.mpr ⟨M, hM⟩] at h
    cases h
  | true =>
    right
    by_cases hc : m.Clean
    · left
      exact ⟨hsat.mp h, hc, by simp [hclean.mpr hc]⟩
    · right
      have hc' : isClean m.data acc = false := by rw [← Bool.not_eq_true, hclean]; exact hc
      exact ⟨hsat.mp h, hc, by simp [hc']⟩

theorem instrs_ne_concat {i : Instr} : m.data.instrs ≠ m.data.instrs ++ [i] := by simp

/-- The pass establishes what it is called for exactly if the names of the variables do not hide anything from the solver,
and a hierarchy that gets the default instruction is valid wherever nothing is enabled and is not deterministic. -/
theorem sanityCheckAndFix_establishes_iff (id : Nat) (hm : m.Decoded) :
    ∃ ok m', sanityCheckAndFix z3 o id m = some (ok, m') ∧ (Establishes m ok m' ↔
      (m.SaneByName → m.Sane) ∧
        (m.Repairable → (∀ ν, ¬m.Complete ν → ν.Holds (validOf m.data)) ∧ ¬∀ ν, m.Deterministic ν)) := by
  obtain ⟨acc, isDeterm, hcheck, hholds, hdeterm, ⟨hcompl, hpass⟩ | ⟨hincompl, hclean, hpass⟩ | ⟨hincompl, hclean, hpass⟩⟩ :=
    sanityCheckAndFix_spec z3 o id hm
  · refine ⟨isDeterm, m, hpass, fun h => ⟨fun hsane => ?_, fun hrep => ?_⟩, fun h => ⟨fun hok => ?_, fun i hi => ?_⟩⟩
    · exact h.sane (hdeterm.mpr fun M => (hsane M).1)
    · obtain ⟨M, hM⟩ := hrep.incomplete
      exact absurd (hcompl M) hM
    · exact h.1 fun M => ⟨hdeterm.mp hok M, hcompl M⟩
    · exact absurd hi instrs_ne_concat
  · have hname : ¬m.SaneByName := fun hsane => by
      obtain ⟨M, hM⟩ := hincompl
      exact hM (hsane M).2
    refine ⟨false, addDefault id acc m, hpass, fun h => ⟨fun hsane => absurd hsane hname, fun hrep => ?_⟩,
      fun h => ⟨fun hok => absurd hok Bool.false_ne_true, fun i hi => ?_⟩⟩
    · obtain ⟨henabled, -, hok⟩ := h.default _ ((addDefault_instrs id acc _).mpr ⟨hrep.fresh, rfl⟩)
      refine ⟨fun ν hν => ?_, fun hdet => by cases hok hdet⟩
      exact ((enabled_defaultInstr id hcheck hholds ν).mp ((henabled ν).mpr hν)).1
    · obtain ⟨hfresh, rfl⟩ := (addDefault_instrs id acc i).mp hi
      obtain ⟨hvalid, hdet⟩ := h.2 ⟨hincompl, hclean, hfresh⟩
      refine ⟨fun ν => ?_, stateUpdCmpl_defaultInstr id acc, fun h => absurd h hdet⟩
      rw [enabled_defaultInstr id hcheck hholds]
      exact ⟨fun h => h.2, fun h => ⟨hvalid ν h, h⟩⟩
  · refine ⟨false, m, hpass, fun h => ⟨fun hsane => ?_, fun hrep => absurd hrep.clean hclean⟩,
      fun h => ⟨fun hok => absurd hok Bool.false_ne_true, fun i hi => absurd hi instrs_ne_concat⟩⟩
    obtain ⟨M, hM⟩ := hincompl
    exact absurd (hsane M).2 hM

/-- An ILA over one Boolean state, with instructions of the given names and decodes. -/
def decodedBy (ds : List (String × Expr)) : Ila :=
  .mk { IlaData.new 0 "m" with
    states := [⟨1, "x", some "m", .bool⟩]
    instrs := ds.map fun d => ⟨2, d.1, some d.2, [], none⟩ } []

def readX : Expr := .var ⟨1, "x", some "m", .bool⟩

theorem check_readX : readX.check = some .bool := rfl

theorem decodedBy_tree (ds : List (String × Expr)) :
    (decodedBy ds).getInstrTree = ds.map fun d => ⟨(decodedBy ds).data, ⟨2, d.1, some d.2, [], none⟩⟩ := by
  simp [Ila.getInstrTree, decodedBy, Ila.postOrder, Ila.postOrderList, Ila.data, Function.comp_def]

theorem decoded_decodedBy (ds : List (String × Expr)) (h : ∀ d ∈ ds, d.2.check = some .bool) : (decodedBy ds).Decoded := by
  constructor
  · rw [decodedBy_tree, List.forall_mem_map]
    exact fun d hd => ⟨d.2, rfl, h d hd⟩
  · rw [decodedBy_tree, List.forall_mem_map]
    exact fun d _ => rfl

theorem enabled_decodedBy (ds : List (String × Expr)) (ν : Valuation) (d : String × Expr) :
    HostedInstr.Enabled ν ⟨(decodedBy ds).data, ⟨2, d.1, some d.2, [], none⟩⟩ ↔ ν.Holds d.2 := by
  have hvalid : ν.Holds (validOf (decodedBy ds).data) := Expr.holds_boolConst_true
  simp [HostedInstr.Enabled, hvalid]

theorem complete_decodedBy (ds : List (String × Expr)) (ν : Valuation) :
    (decodedBy ds).Complete ν ↔ ∃ d ∈ ds, ν.Holds d.2 := by
  rw [Ila.Complete, decodedBy_tree]
  simp only [List.mem_map, exists_exists_and_eq_and, enabled_decodedBy]

theorem deterministic_decodedBy (ds : List (String × Expr)) (ν : Valuation) :
    (decodedBy ds).Deterministic ν ↔ ds.Pairwise fun d e => ¬(ν.Holds d.2 ∧ ν.Holds e.2) := by
  have htree : (decodedBy ds).postOrder = [(decodedBy ds).data] := rfl
  have hinstrs : (decodedBy ds).data.instrs = ds.map fun d => ⟨2, d.1, some d.2, [], none⟩ := rfl
  rw [Ila.Deterministic, htree, List.forall_mem_singleton, hinstrs, List.pairwise_map]
  simp only [enabled_decodedBy]

def halves : List (String × Expr) := [("go", readX), ("stay", .not readX)]

theorem sane_halves : (decodedBy halves).Sane := by
  intro ν
  rw [deterministic_decodedBy, complete_decodedBy, halves]
  simp only [List.pairwise_cons, List.mem_cons, List.not_mem_nil, or_false, forall_eq, exists_eq_or_imp, exists_eq_left,
    Expr.holds_not check_readX]
  simp [Classical.em]

theorem sanityCheckAndFix_establishes_halves : ∃ ok m', sanityCheckAndFix default default 9 (decodedBy halves) =
    some (ok, m') ∧ Establishes (decodedBy halves) ok m' := by
  obtain ⟨ok, m', hpass, hiff⟩ := sanityCheckAndFix_establishes_iff default default 9
    (decoded_decodedBy halves (by simp [halves, Expr.check_not, check_readX]))
  refine ⟨ok, m', hpass, hiff.mpr ⟨fun _ => sane_halves, fun hrep => ?_⟩⟩
  obtain ⟨M, hM⟩ := hrep.incomplete
  exact absurd (sane_halves (frame M "")).2 hM

/-- One instruction that waits for the state gets a default instruction beside it, and is still reported. -/
theorem sanityCheckAndFix_reports_repaired :
    ∃ m', sanityCheckAndFix default default 9 (decodedBy [("go", readX)]) = some (false, m') ∧
      ¬Establishes (decodedBy [("go", readX)]) false m' := by
  have hm : (decodedBy [("go", readX)]).Decoded := decoded_decodedBy _ (by simp [check_readX])
  obtain ⟨acc, isDeterm, -, -, -, ⟨hcompl, -⟩ | ⟨-, -, hpass⟩ | ⟨-, hclean, -⟩⟩ :=
    sanityCheckAndFix_spec default default 9 hm
  · -- the state is false in the default model
    have hM := hcompl default
    simp only [complete_decodedBy, List.mem_singleton, exists_eq_left] at hM
    cases hM
  · refine ⟨_, hpass, fun h => ?_⟩
    have hadded := (addDefault_instrs (m := decodedBy [("go", readX)]) 9 acc _).mpr ⟨by decide, rfl⟩
    have hok := (h.default _ hadded).2.2 fun ν => by simp [deterministic_decodedBy]
    cases hok
  · refine absurd (fun h hh v hv => ?_) hclean
    rw [decodedBy_tree, List.map_singleton, List.mem_singleton] at hh
    subst hh
    simp [validOf, decodedBy, Ila.data, IlaData.new, Expr.boolConst, Expr.atoms, readX] at hv
    simp [decodedBy, Ila.data, hv]

end Ilang
