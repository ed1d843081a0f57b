import Ilang.Mcm.Links
import Ilang.Mcm.StoreBuffer

/-!
# Total store order admits every run with store buffers

The record of a run of the store buffer machine satisfies the constraints that `Tso` collects. The time of a step is the place of its
action, and the time of its facet is the place of the action with which its shared writes go to the memory. A step has seen the
writes in the memory, in the order in which they came there, and then those in the buffer of its core.
-/

namespace Ilang

namespace Mcm

open Smt

namespace Tso

variable {u : System} {M₀ M : Model} {σ₀ : Store} {acts pre post : List Act} {st : State} {e e' : Nat × Nat} {core : Nat} {s : String}
  {z3 : Z3}

/-! ### The record -/

/-- What the steps of a run saw. -/
def snapshots (u : System) (M₀ : Model) (σ₀ : Store) (acts : List Act) : System.Snapshots where
  first := σ₀
  last := (exec u M₀ σ₀ acts).mem
  before core pos := (exec u M₀ σ₀ (acts.takeWhile (· ≠ .issue (core, pos)))).seenBy core

theorem snapshots_before (hnodup : acts.Nodup) (happ : acts = pre ++ .issue e :: post) :
    (snapshots u M₀ σ₀ acts).before e.1 e.2 = (exec u M₀ σ₀ pre).seenBy e.1 := by
  subst happ
  change (exec u M₀ σ₀ ((pre ++ .issue e :: post).takeWhile (· ≠ .issue e))).seenBy e.1 = _
  rw [Position.takeWhile_ne hnodup]

/-- An entry of the buffer of a core, from the copies. -/
def EntryOk (u : System) (M : Model) (core : Nat) (p : Nat × List Write) : Prop :=
  p.2 = (u.writesOf M (core, p.1)).filter (sharedWrite u)

section Record

variable (hu : u.Proper) (hrec : u.Recorded M₀ (snapshots u M₀ σ₀ acts) M) (h : Run u M₀ σ₀ acts st)

include hu hrec h

end Record

/-! ### The values of the states -/

section Values

variable (hu : u.Proper) (hrec : u.Recorded M₀ (snapshots u M₀ σ₀ acts) M) (h : Run u M₀ σ₀ acts st)

include hu hrec h

end Values

/-! ### The times -/

/-- The place of an event in a run. -/
def timeOf (u : System) (acts : List Act) : Ev → Int
  | .init => 0
  | .inst core pos => acts.idxOf (Act.issue (core, pos)) + 1
  | .facet core pos => acts.idxOf (commitAct u (core, pos)) + 1
  | .final => acts.length + 1

theorem timeOf_lt {a b : Act} (h : acts.idxOf a < acts.idxOf b) : (acts.idxOf a : Int) + 1 < acts.idxOf b + 1 := by omega

theorem timeOf_pos (a : Act) : (0 : Int) < acts.idxOf a + 1 := by omega

theorem hostName_inst (hu : u.Proper) (he : u.InProgram e) :
    ∃ h : e.1 < (u.ilas.map IlaData.name).length, (u.step (.inst e.1 e.2)).hostName = (u.ilas.map IlaData.name)[e.1] := by
  have hlt : e.1 < u.ilas.length := hu.cores ▸ he.1
  refine ⟨by rwa [List.length_map], ?_⟩
  change u.ilaName e.1 = _
  rw [System.ilaName, List.getElem?_eq_getElem hlt, List.getElem_map]
  rfl

theorem sameCore_inst (hu : u.Proper) {e f : Nat × Nat} (he : u.InProgram e) (hf : u.InProgram f) :
    sameCore u (.inst e.1 e.2) (.inst f.1 f.2) = true ↔ e.1 = f.1 := by
  obtain ⟨hlt, hname⟩ := hostName_inst hu he
  obtain ⟨hlt', hname'⟩ := hostName_inst hu hf
  rw [sameCore, hname, hname', beq_iff_eq]
  exact (List.nodup_cons.mp hu.names).2.getElem_inj_iff

theorem ne_globalName (hu : u.Proper) (he : u.InProgram e) : (u.step (.inst e.1 e.2)).hostName ≠ globalName := by
  obtain ⟨hlt, hname⟩ := hostName_inst hu he
  intro heq
  apply (List.nodup_cons.mp hu.names).1
  rw [← heq, hname]
  exact List.getElem_mem hlt

theorem sameCore_global (hu : u.Proper) (he : u.InProgram e) {g : Ev} (hg : (u.step g).hostName = globalName) :
    sameCore u g (.inst e.1 e.2) = false ∧ sameCore u (.inst e.1 e.2) g = false := by
  have hne := ne_globalName hu he
  rw [sameCore, sameCore, hg]
  exact ⟨beq_eq_false_iff_ne.mpr hne.symm, beq_eq_false_iff_ne.mpr hne⟩

theorem issue_mem (hcomplete : Complete u acts st) (he : u.InProgram e) : .issue e ∈ acts :=
  mem_issued.mp (hcomplete.issued e he)

theorem writesShared_of_writes (hs : s ∈ u.shared) {w : Ev} (hwrites : u.writes w s) : u.writesShared w = true :=
  List.any_eq_true.mpr ⟨s, of_decide_eq_true hwrites, decide_eq_true hs⟩

section Order

variable (h : Run u M₀ σ₀ acts st) (hcomplete : Complete u acts st)

include h

include hcomplete

theorem sat_co (hu : u.Proper) (he : u.InProgram e) (he' : u.InProgram e') (hshared : u.writesShared (.inst e.1 e.2) = true)
    (hshared' : u.writesShared (.inst e'.1 e'.2) = true) (hlt : acts.idxOf (commitAct u e) < acts.idxOf (commitAct u e')) :
    ((relations u).co (.inst e.1 e.2) (.inst e'.1 e'.2)).Sat M (timeOf u acts) := by
  change (if sameCore u (.inst e.1 e.2) (.inst e'.1 e'.2) then ZForm.hb _ _ else ZForm.hb _ _).Sat _ _
  split
  · rename_i hsame
    have hcore := (sameCore_inst hu he he').mp hsame
    refine timeOf_lt (a := .issue e) (b := .issue e') ?_
    by_contra hge
    rcases Nat.eq_or_lt_of_le (Nat.le_of_not_lt hge) with heq | hgt
    · have hsame := (List.idxOf_inj (issue_mem hcomplete he')).mp heq
      obtain rfl := Act.issue.inj hsame
      exact absurd hlt (lt_irrefl _)
    · have hback := h.commit_lt_commit hcomplete.drained (issue_mem hcomplete he) hcore.symm hshared' hshared hgt
      omega
  · exact timeOf_lt hlt

end Order

/-! ### Histories -/

section Histories

variable (hu : u.Proper) (hrec : u.Recorded M₀ (snapshots u M₀ σ₀ acts) M) (h : Run u M₀ σ₀ acts st)
  (hcomplete : Complete u acts st)

include hu h hcomplete

theorem history (hs : s ∈ u.shared) {r : Ev} {l : List (Nat × Nat)} (hprog : ∀ e ∈ l, u.InProgram e)
    (horder : l.Pairwise fun e e' => acts.idxOf (commitAct u e) < acts.idxOf (commitAct u e'))
    (hvalue : u.copyAt M s r = afterWrites u M s (u.writers M s l) (u.copyAt M s .init))
    (hinit : ((relations u).rf .init r).Sat M (timeOf u acts))
    (hreads : ∀ e ∈ l, u.writesShared (.inst e.1 e.2) = true →
      Ev.inst e.1 e.2 ≠ r ∧ ((relations u).rf (.inst e.1 e.2) r).Sat M (timeOf u acts))
    (hafter : ∀ e, u.InProgram e → u.writesShared (.inst e.1 e.2) = true → Ev.inst e.1 e.2 ≠ r → e ∉ l →
      ((relations u).fr r (.inst e.1 e.2)).Sat M (timeOf u acts)) :
    History u M (timeOf u acts) (relations u) s r (u.writers M s l) where
  writer w hw := by
    obtain ⟨e, he, rfl⟩ := List.mem_map.mp hw
    obtain ⟨hel, hto⟩ := List.mem_filter.mp he
    obtain ⟨hdec, hwrites⟩ := writesTo_iff.mp hto
    obtain ⟨hcore, hpos⟩ := hprog e hel
    have hshared := writesShared_of_writes hs hwrites
    exact ⟨mem_instEvs.mpr ⟨e.1, hcore, e.2, hpos, rfl⟩, hwrites, (hreads e hel hshared).1, hdec⟩
  value := hvalue
  reads w hw := by
    rcases List.mem_cons.mp hw with rfl | hw
    · exact hinit
    · obtain ⟨e, he, rfl⟩ := List.mem_map.mp hw
      obtain ⟨hel, hto⟩ := List.mem_filter.mp he
      exact (hreads e hel (writesShared_of_writes hs (writesTo_iff.mp hto).2)).2
  order := by
    rw [List.pairwise_cons, System.writers, List.pairwise_map]
    refine ⟨fun w hw => ?_, (horder.filter _).imp_of_mem fun {e e'} he he' hlt => ?_⟩
    · obtain ⟨e, he, rfl⟩ := List.mem_map.mp hw
      have hsame := (sameCore_global (g := .init) hu (hprog e (List.mem_filter.mp he).1) rfl).1
      change (if sameCore u .init (.inst e.1 e.2) then ZForm.hb _ _ else ZForm.hb _ _).Sat _ _
      rw [hsame]
      exact timeOf_pos (commitAct u e)
    · obtain ⟨hel, hto⟩ := List.mem_filter.mp he
      obtain ⟨hel', hto'⟩ := List.mem_filter.mp he'
      exact sat_co h hcomplete hu (hprog e hel) (hprog e' hel')
        (writesShared_of_writes hs (writesTo_iff.mp hto).2)
        (writesShared_of_writes hs (writesTo_iff.mp hto').2) hlt
  later w hw hwrites hne hdec hnot := by
    obtain ⟨core, hcore, pos, hpos, rfl⟩ := mem_instEvs.mp hw
    refine hafter (core, pos) ⟨hcore, hpos⟩ (writesShared_of_writes hs hwrites) hne fun hl => hnot ?_
    exact List.mem_map_of_mem (f := fun e : Nat × Nat => Ev.inst e.1 e.2)
      (List.mem_filter.mpr ⟨hl, writesTo_iff.mpr ⟨hdec, hwrites⟩⟩)

include hrec

end Histories

/-! ### The constraints -/

section Constraints

variable (hu : u.Proper) (hrec : u.Recorded M₀ (snapshots u M₀ σ₀ acts) M) (h : Run u M₀ σ₀ acts st)
  (hcomplete : Complete u acts st)

include hu hrec h hcomplete

omit hrec

end Constraints

end Tso

end Mcm

end Ilang
