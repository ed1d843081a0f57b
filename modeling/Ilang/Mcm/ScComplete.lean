import Ilang.Mcm.Links

/-!
# Sequential consistency admits every interleaving

The machine of sequential consistency takes the steps of the cores one at a time, in one store. The cores that are in order follow
their programs, the others take their steps in any order. Every run of the machine satisfies the constraints that `Sc` collects,
with the states of the run as the copies and the places in the run as the times. So a property that the solver finds no model for
is one that no interleaving ends in.
-/

namespace Ilang

namespace Mcm

open Smt

namespace Sc

/-! ### The machine -/

/-- A step in the store. -/
def fire (u : System) (M₀ : Model) (σ : Store) (e : Nat × Nat) : Store :=
  σ.writeAll (u.stepWrites (u.view e.1 σ (System.stepFrame M₀ e.2)) e.1 e.2)

section Fire

variable {u : System} {M₀ : Model} {core pos : Nat} {v : Var} (σ : Store)

/-- A step of the machine is a transition of the ILA of its core: a state gets the value of its update, and keeps the value that it
has if the instruction is not decoded or does not write it. -/
theorem val_fire (hu : u.Proper) (hcore : core < u.tmpl.length) (hpos : pos < progLength u core) (hv : v ∈ u.coreStates core) :
    some ((fire u M₀ σ (core, pos)).val (u.loc v)) =
      if Value.isTrue ((u.instr core pos).decode.eval (u.view core σ (System.stepFrame M₀ pos))) then
        (((u.instr core pos).update v.name).getD (.var v)).eval (u.view core σ (System.stepFrame M₀ pos))
      else some (σ.val (u.loc v)) := by
  have hnames := hu.updateNames core hcore pos hpos
  have hstates := fun p hp => (hu.update core hcore pos hpos p hp).1
  have hold : (u.view core σ (System.stepFrame M₀ pos)).atom (.var v) = σ.val (u.loc v) :=
    if_pos ⟨hv, hu.loc_sort (System.mem_stateVars_of_core hv)⟩
  rw [fire, Store.val_writeAll, System.stepWrites]
  split
  · rw [filter_writeOf hu hv hnames hstates]
    cases he : (u.instr core pos).update v.name with
    | none =>
      rw [show (u.instr core pos).updates.lookup v.name = none from he, Option.getD_none, Expr.eval, hold]
      rfl
    | some e =>
      have hnext := next_writeOf hu hcore hpos (Entries.mem_of_lookup he) σ (System.stepFrame M₀ pos)
      rw [hu.coreVar_name hv] at hnext
      rw [show (u.instr core pos).updates.lookup v.name = some e from he, Option.getD_some, hnext]
      rfl
  · rfl

theorem val_fire_other (hu : u.Proper) {core' : Nat} (hcore : core' < u.tmpl.length) (hpos : pos < progLength u core')
    (hv : v ∈ u.coreStates core) (hprivate : v.name ∉ u.shared) (hne : core' ≠ core) :
    (fire u M₀ σ (core', pos)).val v = σ.val v :=
  val_stepWrites_other hu hcore hpos hv hprivate hne _ σ

end Fire

/-- The runs from a store. -/
inductive Run (u : System) (M₀ : Model) (σ₀ : Store) : List (Nat × Nat) → Store → Prop
  | nil : Run u M₀ σ₀ [] σ₀
  | step {tr : List (Nat × Nat)} {σ : Store} {e : Nat × Nat} (hrun : Run u M₀ σ₀ tr σ) (hready : u.Ready tr e) :
    Run u M₀ σ₀ (tr ++ [e]) (fire u M₀ σ e)

variable {u : System} {M₀ M : Model} {σ₀ σ : Store} {tr : List (Nat × Nat)} {z3 : Z3}

namespace Run

theorem store_eq (h : Run u M₀ σ₀ tr σ) : σ = tr.foldl (fire u M₀) σ₀ := by
  induction h with
  | nil => rfl
  | step hrun hready ih => rw [List.foldl_append, ← ih, List.foldl_cons, List.foldl_nil]

theorem nodup (h : Run u M₀ σ₀ tr σ) : tr.Nodup := by
  induction h with
  | nil => exact List.nodup_nil
  | step hrun hready ih =>
    rw [List.nodup_append]
    refine ⟨ih, List.nodup_singleton _, fun a ha b hb heq => hready.fresh ?_⟩
    rwa [← List.mem_singleton.mp hb, ← heq]

theorem inProgram (h : Run u M₀ σ₀ tr σ) : ∀ e ∈ tr, u.InProgram e := by
  induction h with
  | nil => exact fun e he => absurd he List.not_mem_nil
  | step hrun hready ih =>
    rw [List.forall_mem_append, List.forall_mem_singleton]
    exact ⟨ih, hready.inProgram⟩

theorem append_singleton {e : Nat × Nat} (h : Run u M₀ σ₀ (tr ++ [e]) σ) : ∃ σ', Run u M₀ σ₀ tr σ' ∧ u.Ready tr e := by
  generalize htr : tr ++ [e] = tr' at h
  cases h with
  | nil => simp at htr
  | step hrun hready =>
    obtain ⟨rfl, heq⟩ := List.append_inj' htr rfl
    obtain rfl := List.singleton_inj.mp heq
    exact ⟨_, hrun, hready⟩

theorem of_append {pre post : List (Nat × Nat)} (h : Run u M₀ σ₀ (pre ++ post) σ) :
    Run u M₀ σ₀ pre (pre.foldl (fire u M₀) σ₀) := by
  induction post using List.reverseRecOn generalizing σ with
  | nil =>
    rw [List.append_nil] at h
    exact h.store_eq ▸ h
  | append_singleton post e ih =>
    rw [← List.append_assoc] at h
    obtain ⟨σ', hrun, -⟩ := h.append_singleton
    exact ih hrun

end Run

/-! ### The record -/

/-- What the steps of a run saw. -/
def snapshots (u : System) (M₀ : Model) (σ₀ : Store) (tr : List (Nat × Nat)) : System.Snapshots where
  first := σ₀
  last := tr.foldl (fire u M₀) σ₀
  before core pos := (tr.takeWhile (· ≠ (core, pos))).foldl (fire u M₀) σ₀

/-- The place of an event in a run. -/
def timeOf (tr : List (Nat × Nat)) : Ev → Int
  | .inst core pos => tr.idxOf (core, pos) + 1
  | .final => tr.length + 1
  | _ => 0

theorem snapshots_before (hnodup : tr.Nodup) {pre post : List (Nat × Nat)} {e : Nat × Nat} (happ : tr = pre ++ e :: post) :
    (snapshots u M₀ σ₀ tr).before e.1 e.2 = pre.foldl (fire u M₀) σ₀ := by
  subst happ
  change ((pre ++ e :: post).takeWhile (· ≠ e)).foldl (fire u M₀) σ₀ = _
  rw [Position.takeWhile_ne hnodup]

theorem foldl_fire (hu : u.Proper) (hrec : u.Recorded M₀ (snapshots u M₀ σ₀ tr) M) (hnodup : tr.Nodup)
    (hprog : ∀ e ∈ tr, u.InProgram e) {pre post : List (Nat × Nat)} (happ : tr = pre ++ post) :
    pre.foldl (fire u M₀) σ₀ = σ₀.writeAll (pre.flatMap (u.writesOf M)) := by
  induction pre using List.reverseRecOn generalizing post with
  | nil => rfl
  | append_singleton pre e ih =>
    rw [List.append_assoc, List.singleton_append] at happ
    obtain ⟨hcore, hpos⟩ := hprog e (happ ▸ List.mem_append_right _ List.mem_cons_self)
    have hwrites := writesOf_eq hu hrec hcore hpos
    rw [System.seen, snapshots_before hnodup happ] at hwrites
    rw [List.foldl_append, List.flatMap_append, Store.writeAll_append, ← ih happ, List.flatMap_singleton,
      show u.writesOf M e = _ from hwrites]
    rfl

theorem timeOf_lt_iff (e e' : Nat × Nat) :
    timeOf tr (.inst e.1 e.2) < timeOf tr (.inst e'.1 e'.2) ↔ tr.idxOf e < tr.idxOf e' := by
  change (tr.idxOf e : Int) + 1 < tr.idxOf e' + 1 ↔ _
  omega

theorem history (hu : u.Proper) (hrun : Run u M₀ σ₀ tr σ) (hcomplete : u.Complete tr)
    (hrec : u.Recorded M₀ (snapshots u M₀ σ₀ tr) M) {s : String} (hs : s ∈ u.shared) {r : Ev} {l post : List (Nat × Nat)}
    (happ : tr = l ++ post) (hcopy : u.copyAt M s r = (l.foldl (fire u M₀) σ₀).val (u.globalVar s))
    (hpositive : 0 < r.time (timeOf tr))
    (hbefore : ∀ e ∈ l, timeOf tr (.inst e.1 e.2) < r.time (timeOf tr) ∧ Ev.inst e.1 e.2 ≠ r)
    (hafter : ∀ e ∈ post, Ev.inst e.1 e.2 ≠ r → r.time (timeOf tr) < timeOf tr (.inst e.1 e.2)) :
    History u M (timeOf tr) relations s r (u.writers M s l) where
  writer w hw := by
    obtain ⟨e, he, rfl⟩ := List.mem_map.mp hw
    obtain ⟨hel, hto⟩ := List.mem_filter.mp he
    obtain ⟨hdec, hwrites⟩ := writesTo_iff.mp hto
    obtain ⟨hcore, hpos⟩ := hrun.inProgram e (happ ▸ List.mem_append_left _ hel)
    exact ⟨mem_instEvs.mpr ⟨e.1, hcore, e.2, hpos, rfl⟩, hwrites, (hbefore e hel).2, hdec⟩
  value := by
    rw [hcopy, foldl_fire hu hrec hrun.nodup hrun.inProgram happ, val_shared hu hs, copyAt_init hrec hs]
    · rfl
    · exact fun e he => hrun.inProgram e (happ ▸ List.mem_append_left _ he)
  reads w hw := by
    rcases List.mem_cons.mp hw with rfl | hw
    · exact hpositive
    · obtain ⟨e, he, rfl⟩ := List.mem_map.mp hw
      exact (hbefore e (List.mem_of_mem_filter he)).1
  order := by
    rw [List.pairwise_cons, System.writers, List.pairwise_map]
    refine ⟨fun w hw => ?_, ?_⟩
    · obtain ⟨e, -, rfl⟩ := List.mem_map.mp hw
      change (0 : Int) < tr.idxOf e + 1
      omega
    · have htimes := (Position.pairwise_idxOf hrun.nodup).imp (timeOf_lt_iff _ _).mpr
      exact (htimes.sublist (happ ▸ List.sublist_append_left l post)).filter _
  later w hw hwrites hne hdec hnot := by
    obtain ⟨core, hcore, pos, hpos, rfl⟩ := mem_instEvs.mp hw
    have hin := hcomplete (core, pos) ⟨hcore, hpos⟩
    rw [happ, List.mem_append] at hin
    refine hafter (core, pos) (hin.resolve_left fun hl => hnot ?_) hne
    exact List.mem_map_of_mem (f := fun e : Nat × Nat => Ev.inst e.1 e.2)
      (List.mem_filter.mpr ⟨hl, writesTo_iff.mpr ⟨hdec, hwrites⟩⟩)

end Sc

end Mcm

end Ilang
