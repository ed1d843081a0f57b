import Ilang.Mngr.ChildProgCfg
import Ilang.Util.Container

/-!
# The entries of child-programs

`MapChildProgEntryPoint` goes through the instructions of an ILA, and for each of them through the children. The solver is asked
whether the instruction can make the child valid with an instruction of the child decoded then. The first such instruction becomes
the root of the sequence of the child, and the child becomes the program of an instruction that has none and triggers the root.
-/

namespace Ilang

namespace ChildEntry

open Smt

/-- A child with the root of its sequence, which is one of its instructions. There is no root without a sequence. -/
structure ChildProg where
  data : IlaData
  root : Option { e : Instr // e ∈ data.instrs }
  root_seq : data.instrSeq = [] → root = none

def ChildProg.entry (c : ChildProg) : Option Instr := c.root.map Subtype.val

/-! ### The pass -/

section Pass

variable (z3 : Z3) (o : Oracle)

/-- `CheckCausality`. The unroller asserts that the host of the first instruction has a state. -/
def checkCausality (m : IlaData) (a : Instr) (c : IlaData) (b : Instr) : Option Bool :=
  if m.states = [] then none
  else
    (PathUnroll.pathAssn z3 cfgUnroller [⟨m, a⟩] 0).bind fun path => b.decode.bind fun decode => c.valid.map fun valid =>
      let validPrev := getExpr z3 (cfgUnroller.suffCurr 0) valid
      let validNext := getExpr z3 (cfgUnroller.suffCurr 1) valid
      o.sat [((validPrev.neg.conj path).conj (getExpr z3 (cfgUnroller.suffCurr 1) decode)).conj validNext]

/-- The loop over the instructions of a child without a root: the root, and the program of the instruction. -/
def mapEntries (m : IlaData) (instr : Instr) (c : IlaData) :
    List { e : Instr // e ∈ c.instrs } → Option { e : Instr // e ∈ c.instrs } → Option Nat →
      Option (Option { e : Instr // e ∈ c.instrs } × Option Nat)
  | [], root, program => some (root, program)
  | e :: es, root, program =>
    (checkCausality z3 o m instr c e.val).bind fun res =>
      if res && root.isNone then mapEntries m instr c es (some e) (if program.isNone then some c.id else program)
      else mapEntries m instr c es root program

/-- The loop body on an instruction and a child. -/
def mapChild (m : IlaData) (instr : Instr) (c : ChildProg) (program : Option Nat) : Option (ChildProg × Option Nat) :=
  if hseq : c.data.instrSeq = [] then some (c, program)
  else
    match c.root with
    | some entry =>
      (checkCausality z3 o m instr c.data entry.val).map fun res =>
        (c, if res && program.isNone then some c.data.id else program)
    | none =>
      (mapEntries z3 o m instr c.data c.data.instrs.attach none program).map fun r =>
        (⟨c.data, r.1, fun h => absurd h hseq⟩, r.2)

/-- The loop over the children. -/
def mapChilds (m : IlaData) (instr : Instr) : List ChildProg → Option Nat → Option (List ChildProg × Option Nat)
  | [], program => some ([], program)
  | c :: cs, program =>
    (mapChild z3 o m instr c program).bind fun r => (mapChilds m instr cs r.2).map fun rs => (r.1 :: rs.1, rs.2)

/-- The loop over the instructions. -/
def mapInstrs (m : IlaData) : List Instr → List ChildProg → Option (List Instr × List ChildProg)
  | [], cs => some ([], cs)
  | i :: is, cs =>
    (mapChilds z3 o m i cs i.program).bind fun r => (mapInstrs m is r.1).map fun rs => ({ i with program := r.2 } :: rs.1, rs.2)

/-- `MapChildProgEntryPoint`. -/
def mapChildProgEntryPoint (m : IlaData) (cs : List ChildProg) : Option (IlaData × List ChildProg) :=
  (mapInstrs z3 o m m.instrs cs).map fun r => ({ m with instrs := r.1 }, r.2)

end Pass

/-! ### What an entry stands for -/

/-- In some state the instruction is decoded and the child is not valid, and in the state that its updates produce the child is
valid and its instruction is decoded. The inputs of the second step are new; other states of the hierarchy stay as they are. -/
def Triggers (top : Ila) (m : IlaData) (a : Instr) (c : IlaData) (b : Instr) : Prop :=
  ∃ ν ν' : Valuation, ν'.func = ν.func ∧ (∀ e ∈ a.decode, ν.Holds e) ∧ (∀ e ∈ c.valid, ¬ν.Holds e) ∧
    (∀ v ∈ m.states, (stateUpdCmpl a v).eval ν = some (ν'.atom (.var v))) ∧
    (∀ v ∈ top.getSttTree, v ∉ m.states → ν'.atom (.var v) = ν.atom (.var v)) ∧
    (∀ e ∈ c.valid, ν'.Holds e) ∧ ∀ e ∈ b.decode, ν'.Holds e

/-- The first child whose root the instruction triggers. -/
def IsProgram (T : Instr → IlaData → Instr → Prop) (i : Instr) : List ChildProg → Option Nat → Prop
  | [], program => program = none
  | c :: cs, program =>
    ((∃ e ∈ c.entry, T i c.data e) ∧ program = some c.data.id) ∨ ((∀ e ∈ c.entry, ¬T i c.data e) ∧ IsProgram T i cs program)

/-- What becomes of a child: a root that is there stays, and there is a new one if and only if some instruction is triggered. -/
structure Rooted (T : Instr → IlaData → Instr → Prop) (is : List Instr) (c c' : ChildProg) : Prop where
  same : c'.data = c.data
  kept : c.root ≠ none → c'.entry = c.entry
  noSeq : c.data.instrSeq = [] → c'.entry = none
  exact : c.data.instrSeq ≠ [] → c.root = none →
    (c'.entry ≠ none ↔ ∃ i ∈ is, ∃ e ∈ c.data.instrs, T i c.data e) ∧ ∀ e ∈ c'.entry, e ∈ c.data.instrs ∧ ∃ i ∈ is, T i c.data e

/-- What becomes of an instruction. -/
structure Programmed (T : Instr → IlaData → Instr → Prop) (cs : List ChildProg) (i i' : Instr) : Prop where
  same : { i' with program := i.program } = i
  kept : i.program ≠ none → i'.program = i.program
  exact : i.program = none → IsProgram T i cs i'.program

/-- What the pass does, given which instructions are triggered. -/
structure Mapped (T : Instr → IlaData → Instr → Prop) (m : IlaData) (cs : List ChildProg) (m' : IlaData) (cs' : List ChildProg) :
    Prop where
  same : { m' with instrs := m.instrs } = m
  roots : List.Forall₂ (Rooted T m.instrs) cs cs'
  programs : List.Forall₂ (Programmed T cs') m.instrs m'.instrs

/-- The expressions that the queries translate. -/
def entryExprs (m : IlaData) (cs : List ChildProg) : List Expr :=
  m.cfgExprs ++ (cs.filter fun c => c.data.instrSeq ≠ []).flatMap fun c =>
    c.data.valid.toList ++ c.data.instrs.flatMap fun b => b.decode.toList

/-- What the pass needs to go through: there is a state, the decodes and the valid conditions are set, and everything is well-sorted. -/
structure EntrySorted (m : IlaData) (cs : List ChildProg) : Prop where
  states : m.states ≠ []
  decode : ∀ i ∈ m.instrs, ∃ e, i.decode = some e ∧ e.check = some .bool
  update : ∀ i ∈ m.instrs, ∀ v ∈ m.states, (stateUpdCmpl i v).check = some v.sort
  valid : ∀ c ∈ cs, ∃ e, c.data.valid = some e ∧ e.check = some .bool
  childDecode : ∀ c ∈ cs, ∀ b ∈ c.data.instrs, ∃ e, b.decode = some e ∧ e.check = some .bool

/-- Further, the valid condition of a child reads no state of the hierarchy that the ILA does not have, none is read by an
instruction and by a decode of the child, and what is read has different names in the solver. -/
structure EntryReady (top : Ila) (m : IlaData) (cs : List ChildProg) : Prop where
  sorted : EntrySorted m cs
  own : ∀ v ∈ top.getSttTree, v ∉ m.states → ∀ c ∈ cs, c.data.instrSeq ≠ [] → (∀ e ∈ c.data.valid, .var v ∉ e.atoms) ∧
    ∀ b ∈ c.data.instrs, ∀ e ∈ b.decode, .var v ∈ e.atoms →
      ∀ i ∈ m.instrs, (∀ e ∈ i.decode, .var v ∉ e.atoms) ∧ ∀ w ∈ m.states, .var v ∉ (stateUpdCmpl i w).atoms
  names : Separate ((entryExprs m cs).flatMap Expr.atoms) ((entryExprs m cs).flatMap Expr.funcs)

/-! ### One query -/

section Query

variable (z3 : Z3) (o : Oracle) {top : Ila} {m : IlaData} {cs : List ChildProg} {a b : Instr} {c : IlaData}

/-- The solver finds values for the two frames. -/
def SolverTriggers (m : IlaData) (a : Instr) (c : IlaData) (b : Instr) : Prop :=
  ∃ M : Model, (∀ e ∈ a.decode, (frame M (cfgUnroller.suffCurr 0)).Holds e) ∧
    (∀ e ∈ c.valid, ¬(frame M (cfgUnroller.suffCurr 0)).Holds e) ∧
    (∀ v ∈ m.states, (stateUpdCmpl a v).eval (frame M (cfgUnroller.suffCurr 0)) = some (M.const (v.sym (cfgUnroller.suffCurr 1)))) ∧
    (∀ e ∈ c.valid, (frame M (cfgUnroller.suffCurr 1)).Holds e) ∧ ∀ e ∈ b.decode, (frame M (cfgUnroller.suffCurr 1)).Holds e

theorem checkCausality_iff (hm : EntrySorted m cs) (ha : a ∈ m.instrs) {child : ChildProg} (hc : child ∈ cs)
    (hb : b ∈ child.data.instrs) :
    ∃ sat, checkCausality z3 o m a child.data b = some sat ∧ (sat = true ↔ SolverTriggers m a child.data b) := by
  obtain ⟨da, hda, hdaCheck⟩ := hm.decode a ha
  obtain ⟨db, hdb, hdbCheck⟩ := hm.childDecode child hc b hb
  obtain ⟨valid, hvalid, hvalidCheck⟩ := hm.valid child hc
  obtain ⟨φ, hφ⟩ := exists_pathAssn z3 hda hdaCheck (hm.update a ha)
  refine ⟨_, by rw [checkCausality, if_neg hm.states, hφ, Option.bind_some, hdb, Option.bind_some, hvalid, Option.map_some], ?_⟩
  rw [o.sat_iff]
  have hquery : ∀ M : Model, M.Sat ((((getExpr z3 (cfgUnroller.suffCurr 0) valid).neg.conj φ).conj
      (getExpr z3 (cfgUnroller.suffCurr 1) db)).conj (getExpr z3 (cfgUnroller.suffCurr 1) valid)) ↔
      ¬(frame M (cfgUnroller.suffCurr 0)).Holds valid ∧ M.Sat (φ.conj (getExpr z3 (cfgUnroller.suffCurr 1) db)) ∧
        (frame M (cfgUnroller.suffCurr 1)).Holds valid := by
    intro M
    rw [Term.sat_conj, Term.sat_conj, Term.sat_conj, (isBool_getExpr hvalidCheck _).sat_neg, sat_getExpr hvalidCheck,
      sat_getExpr hvalidCheck, Term.sat_conj, and_assoc, and_assoc, and_assoc]
  simp only [List.forall_mem_singleton, hquery, sat_path z3 hda hdbCheck hφ, SolverTriggers, hda, hdb, hvalid, Option.mem_def,
    Option.some.injEq, forall_eq']
  refine exists_congr fun M => ?_
  tauto

theorem mem_entryExprs {e : Expr} : e ∈ entryExprs m cs ↔
    e ∈ m.cfgExprs ∨ ∃ child ∈ cs, child.data.instrSeq ≠ [] ∧
      (e ∈ child.data.valid ∨ ∃ b ∈ child.data.instrs, e ∈ b.decode) := by
  simp only [entryExprs, List.mem_append, List.mem_flatMap, List.mem_filter, decide_eq_true_eq, Option.mem_toList, and_assoc,
    Option.mem_def]

theorem keepStates_of_mem {ks : List Var} {ν ν' : Valuation} {v : Var} (h : v ∈ ks) :
    (keepStates ks ν ν').atom (.var v) = ν.atom (.var v) := if_pos (List.mem_map_of_mem h)

theorem keepStates_of_not_mem {ks : List Var} {ν ν' : Valuation} {v : Var} (h : v ∉ ks) :
    (keepStates ks ν ν').atom (.var v) = ν'.atom (.var v) := by
  refine if_neg fun hmem => ?_
  obtain ⟨w, hw, hvw⟩ := List.mem_map.mp hmem
  exact h (Atom.var.inj hvw ▸ hw)

/-- What the solver finds is what the instructions do. A state that only the decode of the child reads has its later value from the
start, and the other states that are not linked keep their value. -/
theorem triggers_of_solver {child : ChildProg} (hm : EntryReady top m cs) (ha : a ∈ m.instrs) (hc : child ∈ cs)
    (hseq : child.data.instrSeq ≠ []) (hb : b ∈ child.data.instrs) (h : SolverTriggers m a child.data b) :
    Triggers top m a child.data b := by
  obtain ⟨M, hdecode, hinvalid, hnext, hvalid, hentry⟩ := h
  let ν := frame M (cfgUnroller.suffCurr 0)
  let ν' := frame M (cfgUnroller.suffCurr 1)
  let others := top.getSttTree.filter (· ∉ m.states)
  let early := others.filter fun v => ∃ e ∈ b.decode, .var v ∈ e.atoms
  let late := others.filter fun v => ¬∃ e ∈ b.decode, .var v ∈ e.atoms
  have hothers : ∀ v ∈ others, v ∈ top.getSttTree ∧ v ∉ m.states := fun v hv => by simpa [others] using hv
  have hearly : ∀ v, v ∈ early ↔ v ∈ others ∧ ∃ e ∈ b.decode, .var v ∈ e.atoms := fun v => by simp [early]
  have hlate : ∀ v, v ∈ late ↔ v ∈ others ∧ ¬∃ e ∈ b.decode, .var v ∈ e.atoms := fun v => by
    simp only [late, List.mem_filter, decide_eq_true_eq]
  have hown : ∀ v ∈ others, (∀ e ∈ child.data.valid, .var v ∉ e.atoms) ∧ ∀ e ∈ b.decode, .var v ∈ e.atoms →
      (∀ e ∈ a.decode, .var v ∉ e.atoms) ∧ ∀ w ∈ m.states, .var v ∉ (stateUpdCmpl a w).atoms := by
    intro v hv
    have hall := hm.own v (hothers v hv).1 (hothers v hv).2 child hc hseq
    exact ⟨hall.1, fun e he hmem => hall.2 b hb e he hmem a ha⟩
  refine ⟨keepStates early ν' ν, keepStates late ν ν', rfl, fun e he => ?_, fun e he => ?_, fun v hv => ?_, fun v hv hnot => ?_,
    fun e he => ?_, fun e he => ?_⟩
  · have hread : ∀ v ∈ early, .var v ∉ e.atoms := fun v hv => by
      obtain ⟨hv', e', he', hmem⟩ := (hearly v).mp hv
      exact ((hown v hv').2 e' he' hmem).1 e he
    rw [Valuation.Holds, keepStates_eval hread]
    exact hdecode e he
  · have hread : ∀ v ∈ early, .var v ∉ e.atoms := fun v hv => (hown v ((hearly v).mp hv).1).1 e he
    rw [Valuation.Holds, keepStates_eval hread]
    exact hinvalid e he
  · have hread : ∀ w ∈ early, .var w ∉ (stateUpdCmpl a v).atoms := fun w hw => by
      obtain ⟨hw', e', he', hmem⟩ := (hearly w).mp hw
      exact ((hown w hw').2 e' he' hmem).2 v hv
    have hnot : v ∉ late := fun hmem => (hothers v ((hlate v).mp hmem).1).2 hv
    rw [keepStates_eval hread, keepStates_of_not_mem hnot]
    exact hnext v hv
  · have hmem : v ∈ others := by simp [others, hv, hnot]
    by_cases hread : ∃ e ∈ b.decode, .var v ∈ e.atoms
    · have hin : v ∈ early := (hearly v).mpr ⟨hmem, hread⟩
      have hout : v ∉ late := fun hlt => ((hlate v).mp hlt).2 hread
      rw [keepStates_of_mem hin, keepStates_of_not_mem hout]
    · have hin : v ∈ late := (hlate v).mpr ⟨hmem, hread⟩
      have hout : v ∉ early := fun hlt => hread ((hearly v).mp hlt).2
      rw [keepStates_of_mem hin, keepStates_of_not_mem hout]
  · have hread : ∀ v ∈ late, .var v ∉ e.atoms := fun v hv => (hown v ((hlate v).mp hv).1).1 e he
    rw [Valuation.Holds, keepStates_eval hread]
    exact hvalid e he
  · have hread : ∀ v ∈ late, .var v ∉ e.atoms := fun v hv hmem => ((hlate v).mp hv).2 ⟨e, he, hmem⟩
    rw [Valuation.Holds, keepStates_eval hread]
    exact hentry e he

theorem solver_of_triggers {child : ChildProg} (hm : EntryReady top m cs) (ha : a ∈ m.instrs) (hc : child ∈ cs)
    (hseq : child.data.instrSeq ≠ []) (hb : b ∈ child.data.instrs) (h : Triggers top m a child.data b) :
    SolverTriggers m a child.data b := by
  obtain ⟨ν, ν', hfunc, hdecode, hinvalid, hnext, -, hvalid, hentry⟩ := h
  obtain ⟨M, hM⟩ := exists_frames hm.names hfunc
  have hframes : ∀ e ∈ entryExprs m cs, e.eval (frame M (cfgUnroller.suffCurr 0)) = e.eval ν ∧
      e.eval (frame M (cfgUnroller.suffCurr 1)) = e.eval ν' := fun e he =>
    hM e (fun x hx => List.mem_flatMap.mpr ⟨e, he, hx⟩) fun f hf => List.mem_flatMap.mpr ⟨e, he, hf⟩
  have hvalidMem : ∀ e ∈ child.data.valid, e ∈ entryExprs m cs := fun e he => mem_entryExprs.mpr (.inr ⟨child, hc, hseq, .inl he⟩)
  refine ⟨M, fun e he => ?_, fun e he hholds => hinvalid e he ?_, fun v hv => ?_, fun e he => ?_, fun e he => ?_⟩
  · exact (hframes e (mem_entryExprs.mpr (.inl (mem_cfgExprs_decode ha he)))).1.trans (hdecode e he)
  · exact (hframes e (hvalidMem e he)).1.symm.trans hholds
  · have h := (hframes _ (mem_entryExprs.mpr (.inl (mem_cfgExprs_update ha hv)))).1
    rw [hnext v hv] at h
    exact h.trans (hframes _ (mem_entryExprs.mpr (.inl (mem_cfgExprs_var hv)))).2.symm
  · exact (hframes e (hvalidMem e he)).2.trans (hvalid e he)
  · exact (hframes e (mem_entryExprs.mpr (.inr ⟨child, hc, hseq, .inr ⟨b, hb, he⟩⟩))).2.trans (hentry e he)

theorem solverTriggers_iff {child : ChildProg} (hm : EntryReady top m cs) (ha : a ∈ m.instrs) (hc : child ∈ cs)
    (hseq : child.data.instrSeq ≠ []) (hb : b ∈ child.data.instrs) :
    SolverTriggers m a child.data b ↔ Triggers top m a child.data b :=
  ⟨triggers_of_solver hm ha hc hseq hb, solver_of_triggers hm ha hc hseq hb⟩

end Query

/-! ### The loops -/

section Loops

variable {z3 : Z3} {o : Oracle} {m : IlaData} {S T : Instr → IlaData → Instr → Prop} {a i : Instr} {d : IlaData} {c c' : ChildProg}

theorem ChildProg.mem_of_entry {e : Instr} (h : e ∈ c.entry) : e ∈ c.data.instrs := by
  obtain ⟨r, _, rfl⟩ := Option.map_eq_some_iff.mp h
  exact r.property

theorem ChildProg.entry_eq_none : c.entry = none ↔ c.root = none := Option.map_eq_none_iff

theorem ChildProg.seq_of_entry {e : Instr} (h : e ∈ c.entry) : c.data.instrSeq ≠ [] := by
  intro hseq
  rw [ChildProg.entry, c.root_seq hseq] at h
  exact absurd h (by simp)

/-- The queries on an instruction and a child return, with what `S` says. -/
def Checks (z3 : Z3) (o : Oracle) (m : IlaData) (S : Instr → IlaData → Instr → Prop) (a : Instr) (d : IlaData) : Prop :=
  ∀ b ∈ d.instrs, ∃ sat, checkCausality z3 o m a d b = some sat ∧ (sat = true ↔ S a d b)

theorem mapEntries_spec (h : Checks z3 o m S a d) (es : List { e : Instr // e ∈ d.instrs })
    (root : Option { e : Instr // e ∈ d.instrs }) (program : Option Nat) :
    ∃ root' program', mapEntries z3 o m a d es root program = some (root', program') ∧
      (root ≠ none → root' = root ∧ program' = program) ∧
      (root = none → (root' = none ∧ program' = program ∧ ∀ e ∈ es, ¬S a d e.val) ∨
        ∃ e, root' = some e ∧ S a d e.val ∧ program' = if program.isNone then some d.id else program) := by
  induction es generalizing root program with
  | nil => exact ⟨root, program, rfl, fun _ => ⟨rfl, rfl⟩, fun hroot => .inl ⟨hroot, rfl, by simp⟩⟩
  | cons e es ih =>
    obtain ⟨sat, hsat, hiff⟩ := h e.val e.property
    rw [mapEntries, hsat, Option.bind_some]
    by_cases hset : (sat && root.isNone) = true
    · obtain ⟨htrue, hroot⟩ := Bool.and_eq_true_iff.mp hset
      obtain ⟨root', program', hrun, hkept, _⟩ := ih (some e) (if program.isNone then some d.id else program)
      obtain ⟨hroot', hprogram'⟩ := hkept (Option.some_ne_none e)
      rw [if_pos hset]
      refine ⟨root', program', hrun, fun hne => absurd (Option.isNone_iff_eq_none.mp hroot) hne, fun _ => .inr ?_⟩
      exact ⟨e, hroot', hiff.mp htrue, hprogram'⟩
    · obtain ⟨root', program', hrun, hkept, hnew⟩ := ih root program
      rw [if_neg hset]
      refine ⟨root', program', hrun, hkept, fun hroot => ?_⟩
      have hnot : ¬S a d e.val := fun hs => hset (by rw [hiff.mpr hs, hroot]; rfl)
      exact (hnew hroot).imp_left fun ⟨hroot', hprogram', hrest⟩ => ⟨hroot', hprogram', List.forall_mem_cons.mpr ⟨hnot, hrest⟩⟩

/-- What becomes of a child when one instruction has been tried. -/
structure Visited (S : Instr → IlaData → Instr → Prop) (a : Instr) (c c' : ChildProg) : Prop where
  same : c'.data = c.data
  kept : c.root ≠ none → c'.entry = c.entry
  noSeq : c.data.instrSeq = [] → c'.entry = none
  tried : c.data.instrSeq ≠ [] → c'.entry = none → ∀ e ∈ c.data.instrs, ¬S a c.data e
  fresh : c.root = none → ∀ e ∈ c'.entry, S a c.data e

/-- Whether the child becomes the program. -/
def Takes (S : Instr → IlaData → Instr → Prop) (a : Instr) (c : ChildProg) (program program' : Option Nat) : Prop :=
  (program ≠ none → program' = program) ∧
    (program = none → ((∃ e ∈ c.entry, S a c.data e) ∧ program' = some c.data.id) ∨ ((∀ e ∈ c.entry, ¬S a c.data e) ∧ program' = none))

theorem mapChild_spec (h : Checks z3 o m S a c.data) (program : Option Nat) :
    ∃ c' program', mapChild z3 o m a c program = some (c', program') ∧ Visited S a c c' ∧ Takes S a c' program program' := by
  by_cases hseq : c.data.instrSeq = []
  · have hentry : c.entry = none := ChildProg.entry_eq_none.mpr (c.root_seq hseq)
    refine ⟨c, program, by rw [mapChild, dif_pos hseq], ⟨rfl, fun _ => rfl, fun _ => hentry, fun hne => absurd hseq hne, ?_⟩,
      fun _ => rfl, fun hprogram => .inr ⟨?_, hprogram⟩⟩
    · simp [hentry]
    · simp [hentry]
  · cases hroot : c.root with
    | some r =>
      have hentry : c.entry = some r.val := by rw [ChildProg.entry, hroot, Option.map_some]
      obtain ⟨sat, hsat, hiff⟩ := h r.val r.property
      refine ⟨c, if sat && program.isNone then some c.data.id else program, ?_,
        ⟨rfl, fun _ => rfl, fun hnil => absurd hnil hseq, ?_, fun hnone => absurd hnone (by rw [hroot]; exact Option.some_ne_none r)⟩, ?_, ?_⟩
      · rw [mapChild, dif_neg hseq, hroot]
        dsimp only
        rw [hsat, Option.map_some]
      · intro _ hnone
        rw [hentry] at hnone
        exact absurd hnone (Option.some_ne_none r.val)
      · intro hne
        exact if_neg fun hset => hne (Option.isNone_iff_eq_none.mp (Bool.and_eq_true_iff.mp hset).2)
      · intro hprogram
        subst hprogram
        cases sat with
        | true => exact .inl ⟨⟨r.val, hentry, hiff.mp rfl⟩, rfl⟩
        | false =>
          refine .inr ⟨fun e he => ?_, rfl⟩
          rw [hentry] at he
          obtain rfl := Option.some.inj he
          exact fun hs => Bool.false_ne_true (hiff.mpr hs)
    | none =>
      obtain ⟨root', program', hrun, _, hnew⟩ := mapEntries_spec h c.data.instrs.attach none program
      refine ⟨⟨c.data, root', fun hnil => absurd hnil hseq⟩, program', ?_, ?_, ?_⟩
      · rw [mapChild, dif_neg hseq, hroot]
        dsimp only
        rw [hrun, Option.map_some]
      · refine ⟨rfl, fun hne => absurd hroot hne, fun hnil => absurd hnil hseq, fun _ hnone e he => ?_, fun _ e he => ?_⟩
        · rcases hnew rfl with ⟨_, _, hall⟩ | ⟨e', hroot', _⟩
          · exact hall ⟨e, he⟩ (List.mem_attach _ _)
          · rw [ChildProg.entry_eq_none] at hnone
            exact absurd (hroot'.symm.trans hnone) (Option.some_ne_none e')
        · rcases hnew rfl with ⟨hroot', _⟩ | ⟨e', hroot', hs, _⟩
          · rw [ChildProg.entry, hroot', Option.map_none] at he
            exact absurd he (by simp)
          · rw [ChildProg.entry, hroot', Option.map_some] at he
            exact Option.some.inj he ▸ hs
      · rcases hnew rfl with ⟨hroot', hprogram', _⟩ | ⟨e', hroot', hs, hprogram'⟩
        · refine ⟨fun _ => hprogram', fun hprogram => .inr ⟨fun e he => ?_, hprogram'.trans hprogram⟩⟩
          rw [ChildProg.entry, hroot', Option.map_none] at he
          exact absurd he (by simp)
        · have hentry : e'.val ∈ (⟨c.data, root', fun hnil => absurd hnil hseq⟩ : ChildProg).entry := by
            rw [ChildProg.entry, hroot']
            rfl
          refine ⟨fun hne => ?_, fun hprogram => .inl ⟨⟨e'.val, hentry, hs⟩, ?_⟩⟩
          · rw [hprogram', if_neg fun hnone => hne (Option.isNone_iff_eq_none.mp hnone)]
          · rw [hprogram', hprogram]
            rfl

theorem mapChilds_spec (cs : List ChildProg) (h : ∀ c ∈ cs, Checks z3 o m S a c.data) (program : Option Nat) :
    ∃ cs' program', mapChilds z3 o m a cs program = some (cs', program') ∧ List.Forall₂ (Visited S a) cs cs' ∧
      (program ≠ none → program' = program) ∧ (program = none → IsProgram S a cs' program') := by
  induction cs generalizing program with
  | nil => exact ⟨[], program, rfl, .nil, fun _ => rfl, fun hprogram => hprogram⟩
  | cons c cs ih =>
    obtain ⟨hc, hcs⟩ := List.forall_mem_cons.mp h
    obtain ⟨c', program₁, hfirst, hvisited, htakes⟩ := mapChild_spec hc program
    obtain ⟨cs', program', hrest, hall, hkept, hfound⟩ := ih hcs program₁
    refine ⟨c' :: cs', program', by rw [mapChilds, hfirst, Option.bind_some, hrest, Option.map_some], .cons hvisited hall, ?_, ?_⟩
    · intro hne
      have hsame := htakes.1 hne
      rw [hkept (hsame ▸ hne), hsame]
    · intro hprogram
      rcases htakes.2 hprogram with ⟨htriggered, hset⟩ | ⟨hnot, hnone⟩
      · have hstays := hkept (by rw [hset]; exact Option.some_ne_none _)
        exact .inl ⟨htriggered, hstays.trans hset⟩
      · exact .inr ⟨hnot, hfound hnone⟩

theorem IsProgram.later {cs cs' : List ChildProg} {program : Option Nat}
    (h : List.Forall₂ (fun c c' => c'.data = c.data ∧ ((∃ e ∈ c'.entry, S a c.data e) ↔ ∃ e ∈ c.entry, S a c.data e)) cs cs')
    (hprogram : IsProgram S a cs program) : IsProgram S a cs' program := by
  induction h with
  | nil => exact hprogram
  | @cons c c' cs cs' hc _ ih =>
    obtain ⟨hdata, hiff⟩ := hc
    rcases hprogram with ⟨htriggered, hset⟩ | ⟨hnot, hrest⟩
    · left
      rw [hdata]
      exact ⟨hiff.mpr htriggered, hset⟩
    · right
      rw [hdata]
      refine ⟨fun e he hs => ?_, ih hrest⟩
      obtain ⟨e', he', hs'⟩ := hiff.mp ⟨e, he, hs⟩
      exact hnot e' he' hs'

theorem IsProgram.imp {cs : List ChildProg} {program : Option Nat} (h : ∀ c ∈ cs, ∀ e ∈ c.entry, S a c.data e ↔ T a c.data e)
    (hprogram : IsProgram S a cs program) : IsProgram T a cs program := by
  induction cs with
  | nil => exact hprogram
  | cons c cs ih =>
    obtain ⟨hc, hcs⟩ := List.forall_mem_cons.mp h
    rcases hprogram with ⟨⟨e, he, hs⟩, hset⟩ | ⟨hnot, hrest⟩
    · exact .inl ⟨⟨e, he, (hc e he).mp hs⟩, hset⟩
    · exact .inr ⟨fun e he ht => hnot e he ((hc e he).mpr ht), ih hcs hrest⟩

theorem Rooted.of_visited {is : List Instr} {c₁ : ChildProg} (h : Visited S i c c₁) (h' : Rooted S is c₁ c') : Rooted S (i :: is) c c' := by
  have hsame : c'.data = c.data := h'.same.trans h.same
  refine ⟨hsame, fun hne => ?_, fun hseq => h'.noSeq (h.same.symm ▸ hseq), fun hseq hroot => ?_⟩
  · have hfirst := h.kept hne
    have hne₁ : c₁.root ≠ none := fun hnone => by
      rw [ChildProg.entry_eq_none.mpr hnone] at hfirst
      exact hne (ChildProg.entry_eq_none.mp hfirst.symm)
    exact (h'.kept hne₁).trans hfirst
  · by_cases hroot₁ : c₁.root = none
    · -- the instruction triggers nothing, so it is for the later ones to find the root
      obtain ⟨hiff, hmem⟩ := h'.exact (h.same.symm ▸ hseq) hroot₁
      have hnot := h.tried hseq (ChildProg.entry_eq_none.mpr hroot₁)
      rw [h.same] at hiff hmem
      refine ⟨hiff.trans ⟨fun ⟨j, hj, hs⟩ => ⟨j, List.mem_cons_of_mem i hj, hs⟩, fun ⟨j, hj, e, he, hs⟩ => ?_⟩, fun e he => ?_⟩
      · rcases List.mem_cons.mp hj with rfl | hj
        · exact absurd hs (hnot e he)
        · exact ⟨j, hj, e, he, hs⟩
      · obtain ⟨hin, j, hj, hs⟩ := hmem e he
        exact ⟨hin, j, List.mem_cons_of_mem i hj, hs⟩
    · have hkept := h'.kept hroot₁
      obtain ⟨r, hr⟩ := Option.ne_none_iff_exists'.mp hroot₁
      have hentry : r.val ∈ c₁.entry := by rw [ChildProg.entry, hr]; rfl
      have htriggers : ∀ e ∈ c'.entry, e ∈ c.data.instrs ∧ ∃ j ∈ i :: is, S j c.data e := by
        intro e he
        rw [hkept] at he
        exact ⟨h.same ▸ ChildProg.mem_of_entry he, i, List.mem_cons_self, h.fresh hroot e he⟩
      refine ⟨⟨fun _ => ?_, fun _ hnone => ?_⟩, htriggers⟩
      · have hr' := htriggers r.val (hkept ▸ hentry)
        obtain ⟨hin, j, hj, hs⟩ := hr'
        exact ⟨j, hj, r.val, hin, hs⟩
      · rw [hkept] at hnone
        exact hroot₁ (ChildProg.entry_eq_none.mp hnone)

theorem mapInstrs_spec (is : List Instr) (cs : List ChildProg) (h : ∀ i ∈ is, ∀ d ∈ cs.map ChildProg.data, Checks z3 o m S i d) :
    ∃ is' cs', mapInstrs z3 o m is cs = some (is', cs') ∧ List.Forall₂ (Rooted S is) cs cs' ∧
      List.Forall₂ (Programmed S cs') is is' := by
  induction is generalizing cs with
  | nil =>
    refine ⟨[], cs, rfl, List.forall₂_same.mpr fun c _ => ?_, .nil⟩
    refine ⟨rfl, fun _ => rfl, fun hseq => ChildProg.entry_eq_none.mpr (c.root_seq hseq), fun _ hroot => ?_⟩
    rw [ChildProg.entry_eq_none.mpr hroot]
    simp
  | cons i is ih =>
    obtain ⟨hi, his⟩ := List.forall_mem_cons.mp h
    obtain ⟨cs₁, program, hchilds, hvisited, hkept, hfound⟩ :=
      mapChilds_spec cs (fun c hc => hi c.data (List.mem_map_of_mem hc)) i.program
    have hdatas : cs₁.map ChildProg.data = cs.map ChildProg.data := by
      have hforall : List.Forall₂ (fun c₁ c => ChildProg.data c₁ = ChildProg.data c) cs₁ cs := hvisited.flip.imp fun _ _ hv => hv.same
      rw [← List.forall₂_eq_eq_eq, List.forall₂_map_left_iff, List.forall₂_map_right_iff]
      exact hforall
    obtain ⟨is', cs', hrest, hrooted, hprogrammed⟩ := ih cs₁ (fun j hj d hd => his j hj d (hdatas ▸ hd))
    have hstep : ∀ x y z, Visited S i x y → Rooted S is y z → Rooted S (i :: is) x z := fun _ _ _ hv hr => Rooted.of_visited hv hr
    refine ⟨{ i with program := program } :: is', cs', by rw [mapInstrs, hchilds, Option.bind_some, hrest, Option.map_some],
      Pointwise.comp hstep hvisited hrooted, .cons ⟨rfl, hkept, fun hprogram => ?_⟩ hprogrammed⟩
    have htried : ∀ c₁ ∈ cs₁, c₁.data.instrSeq ≠ [] → c₁.root = none → ∀ e ∈ c₁.data.instrs, ¬S i c₁.data e := by
      intro c₁ hc₁ hseq hroot e he
      obtain ⟨c, -, hv⟩ := Pointwise.exists_left hvisited hc₁
      have hnot := hv.tried (hv.same ▸ hseq) (ChildProg.entry_eq_none.mpr hroot) e (hv.same ▸ he)
      rwa [← hv.same] at hnot
    refine IsProgram.later (((List.forall₂_and_left _ _).mpr ⟨htried, hrooted⟩).imp fun c₁ c' hc => ⟨hc.2.same, ?_⟩) (hfound hprogram)
    by_cases hroot : c₁.root = none
    · have hnone : ¬∃ e ∈ c₁.entry, S i c₁.data e := by
        rw [ChildProg.entry_eq_none.mpr hroot]
        simp
      refine ⟨fun ⟨e, he, hs⟩ => absurd hs ?_, fun hex => absurd hex hnone⟩
      have hseq : c₁.data.instrSeq ≠ [] := hc.2.same ▸ ChildProg.seq_of_entry he
      exact hc.1 hseq hroot e (hc.2.same ▸ ChildProg.mem_of_entry he)
    · rw [hc.2.kept hroot]

/-! ### The whole pass -/

theorem mapChildProgEntryPoint_spec (z3 : Z3) (o : Oracle) {cs : List ChildProg}
    (h : ∀ i ∈ m.instrs, ∀ d ∈ cs.map ChildProg.data, Checks z3 o m S i d) :
    ∃ m' cs', mapChildProgEntryPoint z3 o m cs = some (m', cs') ∧ Mapped S m cs m' cs' := by
  obtain ⟨is', cs', hrun, hrooted, hprogrammed⟩ := mapInstrs_spec m.instrs cs h
  exact ⟨{ m with instrs := is' }, cs', by rw [mapChildProgEntryPoint, hrun, Option.map_some], ⟨rfl, hrooted, hprogrammed⟩⟩

theorem Mapped.imp {cs cs' : List ChildProg} {m' : IlaData} (h : Mapped S m cs m' cs')
    (hT : ∀ i ∈ m.instrs, ∀ c ∈ cs, c.data.instrSeq ≠ [] → ∀ e ∈ c.data.instrs, S i c.data e ↔ T i c.data e) : Mapped T m cs m' cs' := by
  have hroots : List.Forall₂ (fun c c' => c ∈ cs ∧ Rooted S m.instrs c c') cs cs' :=
    (List.forall₂_and_left _ _).mpr ⟨fun _ hc => hc, h.roots⟩
  have hlate : ∀ i ∈ m.instrs, ∀ c' ∈ cs', ∀ e ∈ c'.entry, S i c'.data e ↔ T i c'.data e := by
    intro i hi c' hc' e he
    obtain ⟨c, -, hc⟩ := Pointwise.exists_left hroots hc'
    have hseq : c.data.instrSeq ≠ [] := hc.2.same ▸ ChildProg.seq_of_entry he
    have hiff := hT i hi c hc.1 hseq e (hc.2.same ▸ ChildProg.mem_of_entry he)
    rwa [← hc.2.same] at hiff
  refine ⟨h.same, hroots.imp ?_, ?_⟩
  · intro c c' hc
    refine ⟨hc.2.same, hc.2.kept, hc.2.noSeq, fun hseq hroot => ?_⟩
    obtain ⟨hiff, hmem⟩ := hc.2.exact hseq hroot
    refine ⟨hiff.trans ⟨?_, ?_⟩, fun e he => ?_⟩
    · intro ⟨i, hi, e, he, hs⟩
      exact ⟨i, hi, e, he, (hT i hi c hc.1 hseq e he).mp hs⟩
    · intro ⟨i, hi, e, he, ht⟩
      exact ⟨i, hi, e, he, (hT i hi c hc.1 hseq e he).mpr ht⟩
    · obtain ⟨hin, i, hi, hs⟩ := hmem e he
      exact ⟨hin, i, hi, (hT i hi c hc.1 hseq e hin).mp hs⟩
  · have hall : List.Forall₂ (fun i i' => i ∈ m.instrs ∧ Programmed S cs' i i') m.instrs m'.instrs :=
      (List.forall₂_and_left _ _).mpr ⟨fun _ hi => hi, h.programs⟩
    refine hall.imp ?_
    intro i i' hi
    exact ⟨hi.2.same, hi.2.kept, fun hprogram => IsProgram.imp (hlate i hi.1) (hi.2.exact hprogram)⟩

end Loops

/-- Every ILA whose children can be tested is linked with the children as its instructions trigger theirs: the pass goes through,
and roots and programs are those of the triggers. -/
theorem mapChildProgEntryPoint_exact (z3 : Z3) (o : Oracle) (top : Ila) (m : IlaData) (cs : List ChildProg)
    (hm : EntryReady top m cs) :
    ∃ m' cs', mapChildProgEntryPoint z3 o m cs = some (m', cs') ∧ Mapped (Triggers top m) m cs m' cs' := by
  have hchecks : ∀ i ∈ m.instrs, ∀ d ∈ cs.map ChildProg.data, Checks z3 o m (SolverTriggers m) i d := by
    intro i hi d hd b hb
    obtain ⟨c, hc, rfl⟩ := List.mem_map.mp hd
    exact checkCausality_iff z3 o hm.sorted hi hc hb
  obtain ⟨m', cs', hrun, hmapped⟩ := mapChildProgEntryPoint_spec z3 o hchecks
  exact ⟨m', cs', hrun, hmapped.imp fun i hi c hc hseq e he => solverTriggers_iff hm hi hc hseq he⟩

namespace EntryTest

def parentVar : Var := ⟨1, "p", some "P", .bool⟩

def childVar : Var := ⟨2, "x", some "P.C", .bool⟩

def enter : Instr := ⟨20, "enter", some (.var childVar), [], none⟩

/-- A child with a sequence of one instruction, which its own state decodes. -/
def child (valid : Expr) : ChildProg where
  data := { IlaData.new 1 "C" with
    rootName := "P.C"
    states := [childVar]
    valid := some valid
    instrs := [enter]
    instrSeq := [⟨20, 20, .boolConst true⟩] }
  root := none
  root_seq := fun h => absurd h (by simp)

/-- An ILA with one instruction. -/
def parent (updates : List (String × Option Expr)) : IlaData :=
  { IlaData.new 0 "P" with states := [parentVar], instrs := [⟨10, "start", some (.boolConst true), updates, none⟩] }

def family (valid : Expr) (updates : List (String × Option Expr)) : Ila := .mk (parent updates) [.mk (child valid).data []]

/-- The instruction makes the child valid. -/
def starting : List (String × Option Expr) := [("p", some (.boolConst true))]

end EntryTest

open EntryTest in
theorem mapChildProgEntryPoint_exact_starting : ∃ m' cs',
    mapChildProgEntryPoint default default (parent starting) [child (.var parentVar)] = some (m', cs') ∧
      Mapped (Triggers (family (.var parentVar) starting) (parent starting)) (parent starting) [child (.var parentVar)] m' cs' := by
  refine mapChildProgEntryPoint_exact default default (family (.var parentVar) starting) _ _ ⟨⟨?_, ?_, ?_, ?_, ?_⟩, ?_, ⟨by decide, by decide⟩⟩
  · decide
  · simp only [parent, List.forall_mem_singleton]
    exact ⟨_, rfl, rfl⟩
  · decide
  · rw [List.forall_mem_singleton]
    exact ⟨_, rfl, rfl⟩
  · simp only [List.forall_mem_singleton, child]
    exact ⟨_, rfl, rfl⟩
  · intro v hv hnot c hc _
    obtain rfl := List.mem_singleton.mp hc
    have hchild : v = childVar := by
      have htree : (family (.var parentVar) starting).getSttTree = [childVar, parentVar] := by decide
      rw [htree] at hv
      rcases List.mem_cons.mp hv with hchild | hparent
      · exact hchild
      · exact absurd hparent hnot
    subst hchild
    exact ⟨by decide, by decide⟩

open EntryTest in
theorem solver_finds_child : SolverTriggers (parent []) ⟨10, "start", some (.boolConst true), [], none⟩ (child (.var childVar)).data enter := by
  let M : Model := (default : Model).override fun c =>
    if c = childVar.sym (cfgUnroller.suffCurr 1) then some (.bool true) else none
  have hone : M.const (childVar.sym (cfgUnroller.suffCurr 1)) = .bool true := Model.override_some (if_pos rfl) rfl
  have hother : ∀ {v : Var} {t : Int}, ¬(t = 1 ∧ v.sym "" = childVar.sym "") →
      M.const (v.sym (cfgUnroller.suffCurr t)) = v.sort.default := fun h =>
    Model.override_none (if_neg fun heq => h (Unroller.sym_var_inj.mp heq))
  have hset : (frame M (cfgUnroller.suffCurr 1)).Holds (.var childVar) := congrArg some hone
  refine ⟨M, fun e he => ?_, fun e he hholds => ?_, fun v hv => ?_, fun e he => ?_, fun e he => ?_⟩
  · obtain rfl := Option.some.inj he
    rfl
  · obtain rfl := Option.some.inj he
    have hzero : M.const (childVar.sym (cfgUnroller.suffCurr 0)) = .bool true := Option.some.inj hholds
    rw [hother (by decide)] at hzero
    cases hzero
  · obtain rfl := List.mem_singleton.mp hv
    have hparent : ∀ t, M.const (parentVar.sym (cfgUnroller.suffCurr t)) = parentVar.sort.default := fun t =>
      hother fun h => absurd h.2 (by decide)
    exact congrArg some ((hparent 0).trans (hparent 1).symm)
  · obtain rfl := Option.some.inj he
    exact hset
  · obtain rfl := Option.some.inj he
    exact hset

open EntryTest in
theorem start_triggers_nothing {i : Instr} {e : Instr} :
    ¬Triggers (family (.var childVar) []) (parent []) i (child (.var childVar)).data e := by
  rintro ⟨ν, ν', -, -, hinvalid, -, hkeep, hvalid, -⟩
  have hsame := hkeep childVar (by decide) (by decide)
  refine hinvalid _ rfl ?_
  have hset : ν'.Holds (.var childVar) := hvalid _ rfl
  rw [Valuation.Holds, Expr.eval, ← hsame]
  exact hset

open EntryTest in
/-- A child whose valid condition is a state of its own gets a root, although no instruction can make it valid. -/
theorem mapChildProgEntryPoint_inexact : ∃ m' cs',
    mapChildProgEntryPoint default default (parent []) [child (.var childVar)] = some (m', cs') ∧
      ¬Mapped (Triggers (family (.var childVar) []) (parent [])) (parent []) [child (.var childVar)] m' cs' := by
  have hsorted : EntrySorted (parent []) [child (.var childVar)] := by
    refine ⟨by decide, ?_, by decide, ?_, ?_⟩
    · simp only [parent, List.forall_mem_singleton]
      exact ⟨_, rfl, rfl⟩
    · rw [List.forall_mem_singleton]
      exact ⟨_, rfl, rfl⟩
    · simp only [List.forall_mem_singleton, child]
      exact ⟨_, rfl, rfl⟩
  have hchecks : ∀ i ∈ (parent []).instrs, ∀ d ∈ [child (.var childVar)].map ChildProg.data,
      Checks default default (parent []) (SolverTriggers (parent [])) i d := by
    intro i hi d hd b hb
    obtain ⟨c, hc, rfl⟩ := List.mem_map.mp hd
    exact checkCausality_iff default default hsorted hi hc hb
  obtain ⟨m', cs', hrun, hmapped⟩ := mapChildProgEntryPoint_spec default default hchecks
  refine ⟨m', cs', hrun, fun hclaim => ?_⟩
  have hroots := hmapped.roots
  have hroots' := hclaim.roots
  cases hroots with
  | cons hroot _ =>
    cases hroots' with
    | cons hroot' _ =>
      have hseq : (child (.var childVar)).data.instrSeq ≠ [] := by simp [child]
      have hthere := (hroot.exact hseq rfl).1.mpr ⟨_, List.mem_singleton_self _, enter, List.mem_singleton_self _, solver_finds_child⟩
      obtain ⟨i, _, e, _, htriggers⟩ := (hroot'.exact hseq rfl).1.mp hthere
      exact start_triggers_nothing htriggers

end ChildEntry

end Ilang
