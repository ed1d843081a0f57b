import Ilang.Mcm.CoreRun

/-!
# Store buffers

The machine of total store order. A step of a core takes its private writes at once and puts its shared writes in the buffer of
the core, from which they go to the memory one entry after the other. A core sees the memory with its own buffer on the top of it. A
read-modify-write goes to the memory at once, and it waits for the buffer to be empty, as a fence does. A writer that is not decoded
takes an empty entry.

A run of the machine is known by its actions. What an entry waits for can be read off their order: the entries of a core are
drained in the order in which they were made.
-/

namespace Ilang

namespace Mcm

open Smt

namespace Tso

/-! ### The machine -/

inductive Act where
  | issue (e : Nat × Nat)
  | drain (e : Nat × Nat)
  deriving DecidableEq

/-- The memory with the private states, and the entries of each core. An entry has the position of its step. -/
structure State where
  mem : Store
  buffer : Nat → List (Nat × List Write)

/-- What a core sees. -/
def State.seenBy (st : State) (core : Nat) : Store := st.mem.writeAll ((st.buffer core).flatMap Prod.snd)

section Machine

variable (u : System) (M₀ : Model)

def sharedWrite (w : Write) : Bool := decide (w.var.name ∈ u.shared)

/-- The step is a read-modify-write. -/
def rmw (e : Nat × Nat) : Bool := isRmw u (.inst e.1 e.2)

/-- The step waits for the buffer of its core. -/
def waits (e : Nat × Nat) : Bool := isFence u (.inst e.1 e.2) || rmw u e

/-- The step takes an entry. -/
def buffered (e : Nat × Nat) : Bool := u.writesShared (.inst e.1 e.2) && !rmw u e

/-- The writes of a step. -/
def State.writes (st : State) (e : Nat × Nat) : List Write :=
  u.stepWrites (u.view e.1 (st.seenBy e.1) (System.stepFrame M₀ e.2)) e.1 e.2

def State.issue (st : State) (e : Nat × Nat) : State where
  mem := st.mem.writeAll ((st.writes u M₀ e).filter fun w => rmw u e || !sharedWrite u w)
  buffer :=
    if buffered u e then Function.update st.buffer e.1 (st.buffer e.1 ++ [(e.2, (st.writes u M₀ e).filter (sharedWrite u))])
    else st.buffer

def State.drain (st : State) (e : Nat × Nat) : State where
  mem := st.mem.writeAll (((st.buffer e.1).take 1).flatMap Prod.snd)
  buffer := Function.update st.buffer e.1 ((st.buffer e.1).drop 1)

def State.act (st : State) : Act → State
  | .issue e => st.issue u M₀ e
  | .drain e => st.drain e

/-- The state after some actions. -/
def exec (σ₀ : Store) (acts : List Act) : State := acts.foldl (State.act u M₀) ⟨σ₀, fun _ => []⟩

/-- The step that an action takes. -/
def issueOf : Act → Option (Nat × Nat)
  | .issue e => some e
  | .drain _ => none

def issued (acts : List Act) : List (Nat × Nat) := acts.filterMap issueOf

/-- The runs from a store. -/
inductive Run (σ₀ : Store) : List Act → State → Prop
  | nil : Run σ₀ [] ⟨σ₀, fun _ => []⟩
  | issue {acts : List Act} {st : State} {e : Nat × Nat} (hrun : Run σ₀ acts st) (hready : u.Ready (issued acts) e)
    (hempty : waits u e → st.buffer e.1 = []) : Run σ₀ (acts ++ [.issue e]) (st.issue u M₀ e)
  | drain {acts : List Act} {st : State} {e : Nat × Nat} (hrun : Run σ₀ acts st)
    (hhead : (st.buffer e.1).head?.map Prod.fst = some e.2) : Run σ₀ (acts ++ [.drain e]) (st.drain e)

/-- Every step has been taken and every entry has been drained. -/
structure Complete (acts : List Act) (st : State) : Prop where
  issued : u.Complete (issued acts)
  drained : ∀ core, st.buffer core = []

end Machine

variable {u : System} {M₀ : Model} {σ₀ : Store} {acts : List Act} {st : State} {e e' : Nat × Nat} {core : Nat}

theorem mem_issued : e ∈ issued acts ↔ .issue e ∈ acts := by
  rw [issued, List.mem_filterMap]
  constructor
  · rintro ⟨a, ha, heq⟩
    cases a with
    | issue f =>
      rw [← Option.some.inj heq]
      exact ha
    | drain f => cases heq
  · exact fun h => ⟨_, h, rfl⟩

/-! ### The entries of a core -/

/-- The steps of a core that have taken an entry. -/
def pushes (u : System) (core : Nat) (acts : List Act) : List (Nat × Nat) := acts.filterMap fun a => match a with
  | .issue e => if e.1 = core ∧ buffered u e then some e else none
  | .drain _ => none

/-- The steps of a core whose entries have been drained. -/
def drains (core : Nat) (acts : List Act) : List (Nat × Nat) := acts.filterMap fun a => match a with
  | .issue _ => none
  | .drain e => if e.1 = core then some e else none

theorem mem_pushes : e ∈ pushes u core acts ↔ .issue e ∈ acts ∧ e.1 = core ∧ buffered u e = true := by
  rw [pushes, List.mem_filterMap]
  constructor
  · rintro ⟨a, ha, heq⟩
    cases a with
    | issue f =>
      obtain ⟨hcond, hf⟩ := Option.ite_none_right_eq_some.mp heq
      obtain rfl := Option.some.inj hf
      exact ⟨ha, hcond⟩
    | drain f => cases heq
  · rintro ⟨hmem, hcond⟩
    exact ⟨_, hmem, if_pos hcond⟩

theorem mem_drains : e ∈ drains core acts ↔ .drain e ∈ acts ∧ e.1 = core := by
  rw [drains, List.mem_filterMap]
  constructor
  · rintro ⟨a, ha, heq⟩
    cases a with
    | issue f => cases heq
    | drain f =>
      obtain ⟨hcond, hf⟩ := Option.ite_none_right_eq_some.mp heq
      obtain rfl := Option.some.inj hf
      exact ⟨ha, hcond⟩
  · rintro ⟨hmem, hcond⟩
    exact ⟨_, hmem, if_pos hcond⟩

theorem nodup_pushes (h : acts.Nodup) (core : Nat) : (pushes u core acts).Nodup := by
  refine h.filterMap fun a a' e ha ha' => ?_
  cases a with
  | issue f =>
    cases a' with
    | issue f' =>
      rw [Option.mem_def] at ha ha'
      rw [(Option.ite_none_right_eq_some.mp ha).2 |> Option.some.inj, (Option.ite_none_right_eq_some.mp ha').2 |> Option.some.inj]
    | drain f' => cases ha'
  | drain f => cases ha

/-- The steps whose entries are in the buffer of a core. -/
def State.waiting (st : State) (core : Nat) : List (Nat × Nat) := (st.buffer core).map fun p => (core, p.1)

theorem exists_head {l : List (Nat × List Write)} {pos : Nat} (h : l.head?.map Prod.fst = some pos) :
    ∃ ws rest, l = (pos, ws) :: rest := by
  cases l with
  | nil => cases h
  | cons p l =>
    obtain ⟨q, ws⟩ := p
    obtain rfl : q = pos := Option.some.inj h
    exact ⟨ws, l, rfl⟩

theorem exec_append (a : Act) : exec u M₀ σ₀ (acts ++ [a]) = (exec u M₀ σ₀ acts).act u M₀ a := by
  rw [exec, List.foldl_append]
  rfl

namespace Run

theorem pushes_eq (h : Run u M₀ σ₀ acts st) (core : Nat) : pushes u core acts = drains core acts ++ st.waiting core := by
  induction h with
  | nil => rfl
  | @issue acts st e hrun hready hempty ih =>
    rw [pushes, drains, List.filterMap_append, List.filterMap_append, ← pushes, ← drains, ih]
    by_cases hbuf : buffered u e = true
    · by_cases hcore : e.1 = core
      · subst hcore
        simp [State.issue, State.waiting, hbuf]
      · have hne : core ≠ e.1 := fun heq => hcore heq.symm
        simp [State.issue, State.waiting, hbuf, hcore, Function.update_of_ne hne]
    · simp [State.issue, State.waiting, hbuf]
  | @drain acts st e hrun hhead ih =>
    rw [pushes, drains, List.filterMap_append, List.filterMap_append, ← pushes, ← drains, ih]
    by_cases hcore : e.1 = core
    · subst hcore
      obtain ⟨ws, rest, hbuf⟩ := exists_head hhead
      simp [State.drain, State.waiting, hbuf]
    · have hne : core ≠ e.1 := fun heq => hcore heq.symm
      simp [State.drain, State.waiting, hcore, Function.update_of_ne hne]

theorem nodup (h : Run u M₀ σ₀ acts st) : acts.Nodup := by
  induction h with
  | nil => exact List.nodup_nil
  | issue hrun hready hempty ih =>
    refine List.nodup_append.mpr ⟨ih, List.nodup_singleton _, fun a ha b hb heq => hready.fresh (mem_issued.mpr ?_)⟩
    rwa [← List.mem_singleton.mp hb, ← heq]
  | @drain acts st e hrun hhead ih =>
    refine List.nodup_append.mpr ⟨ih, List.nodup_singleton _, fun a ha b hb heq => ?_⟩
    rw [heq, List.mem_singleton.mp hb] at ha
    obtain ⟨ws, rest, hbuf⟩ := exists_head hhead
    have hpushes := nodup_pushes (u := u) ih e.1
    rw [hrun.pushes_eq, List.nodup_append] at hpushes
    refine hpushes.2.2 e (mem_drains.mpr ⟨ha, rfl⟩) e ?_ rfl
    rw [State.waiting, hbuf]
    exact List.mem_cons_self

theorem state_eq (h : Run u M₀ σ₀ acts st) : st = exec u M₀ σ₀ acts := by
  induction h with
  | nil => rfl
  | issue hrun hready hempty ih => rw [exec_append, ← ih, State.act]
  | drain hrun hhead ih => rw [exec_append, ← ih, State.act]

theorem append_singleton {a : Act} (h : Run u M₀ σ₀ (acts ++ [a]) st) : Run u M₀ σ₀ acts (exec u M₀ σ₀ acts) ∧
    (∀ e, a = .issue e → u.Ready (issued acts) e ∧ (waits u e → (exec u M₀ σ₀ acts).buffer e.1 = [])) ∧
    ∀ e, a = .drain e → ((exec u M₀ σ₀ acts).buffer e.1).head?.map Prod.fst = some e.2 := by
  generalize hacts : acts ++ [a] = acts' at h
  cases h with
  | nil => simp at hacts
  | issue hrun hready hempty =>
    obtain ⟨rfl, heq⟩ := List.append_inj' hacts rfl
    obtain rfl := List.singleton_inj.mp heq
    rw [← hrun.state_eq]
    refine ⟨hrun, fun f hf => ?_, fun f hf => by cases hf⟩
    obtain rfl := Act.issue.inj hf
    exact ⟨hready, hempty⟩
  | drain hrun hhead =>
    obtain ⟨rfl, heq⟩ := List.append_inj' hacts rfl
    obtain rfl := List.singleton_inj.mp heq
    rw [← hrun.state_eq]
    refine ⟨hrun, (fun f hf => by cases hf), fun f hf => ?_⟩
    obtain rfl := Act.drain.inj hf
    exact hhead

theorem of_append {pre post : List Act} (h : Run u M₀ σ₀ (pre ++ post) st) : Run u M₀ σ₀ pre (exec u M₀ σ₀ pre) := by
  induction post using List.reverseRecOn generalizing st with
  | nil =>
    rw [List.append_nil] at h
    exact h.state_eq ▸ h
  | append_singleton post a ih =>
    rw [← List.append_assoc] at h
    exact ih h.append_singleton.1

theorem at_issue (h : Run u M₀ σ₀ acts st) {pre post : List Act} (happ : acts = pre ++ .issue e :: post) :
    u.Ready (issued pre) e ∧ (waits u e → (exec u M₀ σ₀ pre).buffer e.1 = []) := by
  rw [happ, List.append_cons] at h
  exact h.of_append.append_singleton.2.1 e rfl

theorem at_drain (h : Run u M₀ σ₀ acts st) {pre post : List Act} (happ : acts = pre ++ .drain e :: post) :
    ∃ ws rest, (exec u M₀ σ₀ pre).buffer e.1 = (e.2, ws) :: rest := by
  rw [happ, List.append_cons] at h
  exact exists_head (h.of_append.append_singleton.2.2 e rfl)

theorem of_eq_append (h : Run u M₀ σ₀ acts st) {pre post : List Act} (happ : acts = pre ++ post) :
    Run u M₀ σ₀ pre (exec u M₀ σ₀ pre) := (happ ▸ h).of_append

theorem waiting_at_drain (h : Run u M₀ σ₀ acts st) {pre post : List Act} (happ : acts = pre ++ .drain e :: post) :
    ∃ rest, (exec u M₀ σ₀ pre).waiting e.1 = e :: rest := by
  obtain ⟨ws, rest, hbuf⟩ := h.at_drain happ
  refine ⟨rest.map fun p => (e.1, p.1), ?_⟩
  rw [State.waiting, hbuf]
  rfl

theorem inProgram (h : Run u M₀ σ₀ acts st) (he : .issue e ∈ acts) : u.InProgram e := by
  obtain ⟨pre, post, happ⟩ := List.append_of_mem he
  exact (h.at_issue happ).1.inProgram

end Run

/-! ### The order of the actions -/

/-- The action with which the shared writes of a step take effect. -/
def commitAct (u : System) (e : Nat × Nat) : Act := if rmw u e then .issue e else .drain e

theorem commitAct_rmw (h : rmw u e = true) : commitAct u e = .issue e := if_pos h

theorem commitAct_buffered (h : buffered u e = true) : commitAct u e = .drain e := by
  rw [buffered, Bool.and_eq_true, Bool.not_eq_true'] at h
  exact if_neg (by rw [h.2]; exact Bool.false_ne_true)

theorem rmw_or_buffered (h : u.writesShared (.inst e.1 e.2) = true) : rmw u e = true ∨ buffered u e = true := by
  cases hrmw : rmw u e with
  | true => exact .inl rfl
  | false =>
    right
    rw [buffered, h, hrmw]
    rfl

namespace Run

variable (h : Run u M₀ σ₀ acts st)

include h

theorem issue_lt_drain (hmem : .drain e ∈ acts) :
    .issue e ∈ acts ∧ buffered u e = true ∧ acts.idxOf (Act.issue e) < acts.idxOf (Act.drain e) := by
  obtain ⟨pre, post, happ⟩ := List.append_of_mem hmem
  obtain ⟨rest, hwaiting⟩ := h.waiting_at_drain happ
  have hpush : e ∈ pushes u e.1 pre := by
    rw [(h.of_eq_append happ).pushes_eq, hwaiting]
    exact List.mem_append_right _ List.mem_cons_self
  obtain ⟨hissue, -, hbuf⟩ := mem_pushes.mp hpush
  exact ⟨happ ▸ List.mem_append_left _ hissue, hbuf, (Position.idxOf_lt_iff h.nodup happ).mpr hissue⟩

theorem mem_drain (hdrained : ∀ core, st.buffer core = []) (hissue : .issue e ∈ acts) (hbuf : buffered u e = true) :
    .drain e ∈ acts := by
  have hpush : e ∈ pushes u e.1 acts := mem_pushes.mpr ⟨hissue, rfl, hbuf⟩
  rw [h.pushes_eq, State.waiting, hdrained, List.map_nil, List.append_nil] at hpush
  exact (mem_drains.mp hpush).1

theorem commit_lt_of_waits {f : Nat × Nat} (hf : .issue f ∈ acts) (hwaits : waits u f = true) (hcore : e.1 = f.1)
    (hshared : u.writesShared (.inst e.1 e.2) = true) (hlt : acts.idxOf (Act.issue e) < acts.idxOf (Act.issue f)) :
    acts.idxOf (commitAct u e) < acts.idxOf (Act.issue f) := by
  obtain ⟨pre, post, happ⟩ := List.append_of_mem hf
  obtain ⟨-, hempty⟩ := h.at_issue happ
  have hissue := (Position.idxOf_lt_iff h.nodup happ).mp hlt
  refine (Position.idxOf_lt_iff h.nodup happ).mpr ?_
  rcases rmw_or_buffered hshared with hrmw | hbuf
  · rwa [commitAct_rmw hrmw]
  · have hpush : e ∈ pushes u f.1 pre := mem_pushes.mpr ⟨hissue, hcore, hbuf⟩
    rw [(h.of_eq_append happ).pushes_eq, State.waiting, hempty hwaits, List.map_nil, List.append_nil] at hpush
    rw [commitAct_buffered hbuf]
    exact (mem_drains.mp hpush).1

theorem pairwise_pushes (core : Nat) :
    (pushes u core acts).Pairwise fun e e' => acts.idxOf (Act.issue e) < acts.idxOf (Act.issue e') := by
  refine (Position.pairwise_idxOf h.nodup).filterMap _ fun a a' hlt e he e' he' => ?_
  cases a with
  | issue f =>
    cases a' with
    | issue f' =>
      obtain rfl := Option.some.inj (Option.ite_none_right_eq_some.mp he).2
      obtain rfl := Option.some.inj (Option.ite_none_right_eq_some.mp he').2
      exact hlt
    | drain f' => cases he'
  | drain f => cases he

theorem commit_lt_commit (hdrained : ∀ core, st.buffer core = []) (he' : .issue e' ∈ acts)
    (hcore : e.1 = e'.1) (hshared : u.writesShared (.inst e.1 e.2) = true) (hshared' : u.writesShared (.inst e'.1 e'.2) = true)
    (hlt : acts.idxOf (Act.issue e) < acts.idxOf (Act.issue e')) :
    acts.idxOf (commitAct u e) < acts.idxOf (commitAct u e') := by
  rcases rmw_or_buffered hshared' with hrmw' | hbuf'
  · rw [commitAct_rmw hrmw']
    refine h.commit_lt_of_waits he' ?_ hcore hshared hlt
    rw [waits, hrmw', Bool.or_true]
  · have hdrain' := h.mem_drain hdrained he' hbuf'
    have hafter := (h.issue_lt_drain hdrain').2.2
    rw [commitAct_buffered hbuf']
    rcases rmw_or_buffered hshared with hrmw | hbuf
    · rw [commitAct_rmw hrmw]
      omega
    · obtain ⟨pre, post, happ⟩ := List.append_of_mem hdrain'
      obtain ⟨rest, hwaiting⟩ := h.waiting_at_drain happ
      have hrun := h.of_eq_append happ
      have hissue : .issue e ∈ pre := (Position.idxOf_lt_iff h.nodup happ).mp (hlt.trans hafter)
      have hpush : e ∈ pushes u e'.1 pre := mem_pushes.mpr ⟨hissue, hcore, hbuf⟩
      have horder := hrun.pairwise_pushes e'.1
      rw [hrun.pushes_eq, hwaiting] at hpush horder
      rw [commitAct_buffered hbuf]
      refine (Position.idxOf_lt_iff h.nodup happ).mpr ?_
      rcases List.mem_append.mp hpush with hdone | hleft
      · exact (mem_drains.mp hdone).1
      · exfalso
        rcases List.mem_cons.mp hleft with rfl | hrest
        · exact absurd hlt (lt_irrefl _)
        · have hlater := (List.pairwise_cons.mp (List.pairwise_append.mp horder).2.1).1 e hrest
          have hissue' : .issue e' ∈ pre := (Position.idxOf_lt_iff h.nodup happ).mp hafter
          rw [happ, List.idxOf_append_of_mem hissue, List.idxOf_append_of_mem hissue'] at hlt
          exact absurd hlt (not_lt_of_gt hlater)

end Run

end Tso

end Mcm

end Ilang
