import Ilang.Mcm.MemoryModel

/-!
# Push and pop

`InterIlaUnroller::Push` remembers how many constraints there are, and `Pop` drops the ones that came later. The operations in
between also change what later operations look at, and this is not undone: a property of a step adds the states that it mentions
to the read set of the step, a final property that reads a shared state leaves its step in `READ_list`, linking the states enters
every two steps that it compares in a table, with the states that they access together at that time, and a step of a final
property collects the loads of its property once more each time it is asked for them.

A program is unrolled here already, by a memory model that is given by its relations and its further axioms (`Sc` and `Tso`).
`LinkStates` asserts that every store to a shared memory can be taken apart; with nested accesses it goes no further.
-/

namespace Ilang

namespace Mcm

open Smt

/-- A step of `READ_list`. The loads of the step are its `nad_map_`, to which a step of a final property adds those of the property
whenever it is asked. An instruction is searched only once. -/
structure ReadStep where
  step : TraceStep
  again : List (String × Expr × Expr)

/-- `FindAddrDataPairVecInInst`, as far as the step is changed. -/
def ReadStep.search (r : ReadStep) : ReadStep := { r with step := { r.step with loads := r.step.loads ++ r.again } }

/-- `l_r_names_to_state`: for two steps, the states of one sort that both access. -/
abbrev CheckedTable := List ((Ev × Ev) × List String)

/-- What operations on the unroller change. -/
structure Session where
  cstr : List ZForm
  /-- `zexpr_vec_pos_stack_`. -/
  stack : List Nat
  /-- `_inst_read_set` of the steps. -/
  readSet : Ev → List String
  /-- The steps of final properties in `READ_list`. -/
  finals : List ReadStep
  checked : CheckedTable

/-- The operations. A filter looks at a step, and a solver decides what `CheckSat` answers. -/
inductive SessionOp where
  | linkStates (ordered : List Bool)
  | addProperty (property : Expr) (filter : TraceStep → Bool)
  | getProperty (property : Expr) (filter : TraceStep → Bool)
  | setFinalProperty (property : Expr)
  | checkSat
  | push
  | pop

/-- What an operation hands to its caller. -/
inductive SessionOut where
  | collected (fs : List ZForm)
  | verdict (b : Bool)

/-- An unrolled program: the solver interface, the cores, the relations and further axioms of the memory model, all its trace
steps, and the solver. -/
structure Unrolled where
  z3 : Z3
  u : System
  R : Relations
  more : List ZForm
  allSteps : List Ev
  solve : List ZForm → Bool

/-- A loop that collects a result of every element, and hands on what it changes. -/
def thread {α β γ : Type} (f : α → β → α × γ) : α → List β → α × List γ
  | a, [] => (a, [])
  | a, b :: bs =>
    let r := f a b
    let rs := thread f r.1 bs
    (rs.1, r.2 :: rs.2)

theorem thread_fixed {α β γ : Type} {f : α → β → α × γ} {a : α} {l : List β} (h : ∀ b ∈ l, (f a b).1 = a) :
    thread f a l = (a, l.map fun b => (f a b).2) := by
  induction l with
  | nil => rfl
  | cons b l ih =>
    have hstep := ih fun b' hb' => h b' (List.mem_cons_of_mem b hb')
    rw [thread, h b List.mem_cons_self, hstep, List.map_cons]

namespace Unrolled

variable (c : Unrolled) (m : Session)

/-! ### What the operations look at -/

/-- A step, with its read set as it is now. -/
def stepAt (e : Ev) : TraceStep := { c.u.step e with readSet := m.readSet e }

/-- The step of a final property. -/
def finalStep (p : Expr) : ReadStep where
  step := { System.step { c.u with property := p } .final with loads := [] }
  again := loads p

/-- The instructions in `READ_list`, which they are in by the read sets that they had first. -/
def instReads : List ReadStep := (c.u.instEvs.filter c.u.readsShared).map fun e => ⟨c.stepAt m e, []⟩

/-- `READ_list`. -/
def readSteps : List ReadStep := c.instReads m ++ m.finals

/-- The writes to a state, apart from a step. -/
def writers (s : String) (r : Ev) : List Ev := c.u.writeList.filter fun w => w ≠ r ∧ c.u.writes w s

/-- The pairs of steps that `SameAddress` and `SameData` check, in order. -/
def checks : List (TraceStep × TraceStep × String) :=
  c.u.shared.flatMap fun s => ((c.readSteps m).filter fun r => s ∈ r.step.readSet).flatMap fun r =>
    (c.writers s r.step.ev).flatMap fun w =>
      (((c.writers s r.step.ev).filter (· ≠ w)).map fun w2 => (r.step, c.stepAt m w2, s)) ++ [(c.stepAt m w, r.step, s)]

/-- `SameAddrDataSanityCheck`. Two steps that are in the table are not compared again. -/
def sanityCheck (table : CheckedTable) (k : TraceStep × TraceStep × String) : Option CheckedTable :=
  match table.lookup (k.1.ev, k.2.1.ev) with
  | some names => if k.2.2 ∈ names then some table else none
  | none =>
    (c.u.sameTypeIntersect k.1 k.2.1).bind fun names =>
      if k.2.2 ∈ names then some (((k.1.ev, k.2.1.ev), names) :: table) else none

def noWriteBetween (s : String) (w : Ev) (r : ReadStep) (w2 : Ev) : ReadStep × ZForm :=
  let r' := if (r.step.stateVar s).sort.isMem ∧ w2 ≠ .init then r.search else r
  (r', .implies .true (.implies (.and (sameAddress c.z3 r'.step (c.stepAt m w2) s .read .write) (decodeOf c.z3 (c.stepAt m w2)))
    (.or (c.R.co w2 w) (c.R.fr r.step.ev w2))))

def readsFrom (s : String) (r : ReadStep) (w : Ev) : ReadStep × ZForm :=
  let between := thread (c.noWriteBetween m s w) r
    (c.u.writeList.filter fun w2 => w2 ≠ w ∧ w2 ≠ r.step.ev ∧ c.u.writes w2 s)
  let isMem := ((c.stepAt m w).stateVar s).sort.isMem
  let r₁ := if isMem ∧ w ≠ .init then between.1.search else between.1
  let r₂ := if isMem then r₁.search else r₁
  (r₂, .and .true (.and (.and (.and (.and (sameAddress c.z3 (c.stepAt m w) r₁.step s .write .read)
      (sameData c.z3 (c.stepAt m w) r₂.step c.u.globalVar s .write .read)) (decodeOf c.z3 (c.stepAt m w))) (c.R.rf w r.step.ev))
    (.forallList between.2)))

def readAxiom (s : String) (r : ReadStep) : ReadStep × ZForm :=
  let froms := thread (c.readsFrom m s) r (c.writers s r.step.ev)
  (froms.1, .implies .true (.existsList froms.2))

def stateAxiom (rs : List ReadStep) (s : String) : List ReadStep × ZForm :=
  (rs.map fun r => if s ∈ r.step.readSet then (c.readAxiom m s r).1 else r,
    .forallList ((rs.filter fun r => s ∈ r.step.readSet).map fun r => (c.readAxiom m s r).2))

/-- `RF_CO_FR` for the read sets as they are now, with the steps of `READ_list` as they are left. -/
def rfCoFr : List ReadStep × ZForm :=
  let axioms := thread (c.stateAxiom m) (c.readSteps m) c.u.shared
  (axioms.1, .forallList axioms.2)

def linkOrdered (core : Nat) : Nat → Nat → LastUpdate → List ZForm
  | _, 0, last =>
    (c.u.privateNames core).map fun s =>
      .eq (getExpr c.z3 "final" (.var (c.u.coreVar core s)))
        (getExpr c.z3 (toString (lastOf c.u core last s).2) (lastOf c.u core last s).1)
  | pos, n + 1, last =>
    let ts := c.stepAt m (.inst core pos)
    linkReads c.z3 c.u core last ts ++ (if pos = 0 then [] else [.hb (.inst core (pos - 1)) (.inst core pos)]) ++
      linkOrdered core (pos + 1) n (addWrites c.u core pos last ts)

def linkUnordered (core : Nat) : List ZForm :=
  ((List.range ((c.u.tmpl[core]?).getD []).length).flatMap fun pos =>
    ((c.u.privateNames core).filter fun s => s ∈ m.readSet (.inst core pos)).map (linkUnorderedRead c.z3 c.u core pos)) ++
  (c.u.privateNames core).map (linkUnorderedFinal c.z3 c.u core)

/-- `SetLocalState` for the read sets as they are now. -/
def setLocalState (ordered : List Bool) : List ZForm :=
  (List.range c.u.tmpl.length).flatMap fun core =>
    if (ordered[core]?).getD false then c.linkOrdered m core 0 ((c.u.tmpl[core]?).getD []).length []
    else c.linkUnordered m core

/-- Every update of a shared memory is a store that can be taken apart. -/
def storesFlat : Bool :=
  c.u.writeList.all fun e => (c.u.step e).isInit || ((c.u.step e).inst.updates.all fun p =>
    !decide (p.1 ∈ c.u.shared) || !p.2.sort.isMem || (checkAndPeel 1 p.2).isSome)

/-- `LinkStates`. -/
def link (ordered : List Bool) : Option Session :=
  if c.storesFlat then
    ((c.checks m).foldlM c.sanityCheck m.checked).map fun checked =>
      { m with
        cstr := m.cstr ++ (c.rfCoFr m).2 :: c.more ++ c.setLocalState m ordered
        finals := (c.rfCoFr m).1.drop (c.instReads m).length
        checked := checked }
  else none

/-! ### The operations -/

/-- The steps that a filter selects. -/
def selected (filter : TraceStep → Bool) : List Ev := c.allSteps.filter fun e => filter (c.stepAt m e)

/-- What `GetSingleTraceStepProperty` gives to its collector. -/
def collect (p : Expr) (filter : TraceStep → Bool) : List ZForm :=
  (c.selected m filter).map fun e => .holds ((c.stepAt m e).conv c.z3 p)

/-- The selected steps read what the property mentions from now on. -/
def addReads (p : Expr) (filter : TraceStep → Bool) : Session :=
  { m with readSet := fun e =>
    if e ∈ c.selected m filter then (uses p).foldl (fun names n => names.insert n) (m.readSet e) else m.readSet e }

def apply : SessionOp → Option (Session × List SessionOut)
  | .linkStates ordered => (c.link m ordered).map fun m' => (m', [])
  | .addProperty p filter => some ({ c.addReads m p filter with cstr := m.cstr ++ c.collect m p filter }, [])
  | .getProperty p filter => some (c.addReads m p filter, [.collected (c.collect m p filter)])
  | .setFinalProperty p =>
    some ({ m with
      cstr := m.cstr ++ c.u.allInstEvs.map (fun e => .hb e .final) ++ [.holds ((c.finalStep p).step.conv c.z3 p)]
      finals := if (uses p).any fun s => decide (s ∈ c.u.shared) then m.finals ++ [c.finalStep p] else m.finals }, [])
  | .checkSat => some (m, [.verdict (c.solve m.cstr)])
  | .push => some ({ m with stack := m.cstr.length :: m.stack }, [])
  | .pop =>
    match m.stack with
    | [] => none
    | n :: stack => some ({ m with cstr := m.cstr.take n, stack := stack }, [])

/-- Operations one after another, with everything they hand out. -/
def run : Session → List SessionOp → Option (Session × List SessionOut)
  | m, [] => some (m, [])
  | m, op :: ops => (c.apply m op).bind fun (m', outs) => (run m' ops).map fun (m'', outs') => (m'', outs ++ outs')

/-- A condition on every operation and the session before it. -/
def Every (P : Session → SessionOp → Prop) : Session → List SessionOp → Prop
  | _, [] => True
  | m, op :: ops => P m op ∧ ∀ m' outs, c.apply m op = some (m', outs) → Every P m' ops

/-- A step is asked for its loads again when a state that it reads is linked: its property has some, and the state is a memory. -/
def Rereads (r : ReadStep) (s : String) : Prop :=
  r.again ≠ [] ∧ s ∈ r.step.readSet ∧
    ((r.step.stateVar s).sort.isMem ∨ ∃ w ∈ c.u.writeList, ((c.u.step w).stateVar s).sort.isMem)

instance (r : ReadStep) (s : String) : Decidable (c.Rereads r s) := inferInstanceAs (Decidable (_ ∧ _ ∧ _))

/-- The operation leaves everything but the constraints alone: a property of steps mentions only what they read already, a final
property no shared state, and the states are linked over steps that are in the table already, without final properties that load from
a shared memory. -/
def Keeps (m : Session) : SessionOp → Prop
  | .addProperty p filter | .getProperty p filter => ∀ e ∈ c.selected m filter, ∀ n ∈ uses p, n ∈ m.readSet e
  | .setFinalProperty p => ∀ n ∈ uses p, n ∉ c.u.shared
  | .linkStates _ =>
    (∀ k ∈ c.checks m, (m.checked.lookup (k.1.ev, k.2.1.ev)).isSome) ∧ ∀ r ∈ m.finals, ∀ s ∈ c.u.shared, ¬ c.Rereads r s
  | _ => True

instance (m : Session) : (op : SessionOp) → Decidable (c.Keeps m op)
  | .addProperty _ _ | .getProperty _ _ => inferInstanceAs (Decidable (∀ e ∈ _, ∀ n ∈ _, n ∈ m.readSet e))
  | .setFinalProperty _ => inferInstanceAs (Decidable (∀ n ∈ _, n ∉ c.u.shared))
  | .linkStates _ =>
    inferInstanceAs (Decidable ((∀ k ∈ c.checks m, (m.checked.lookup (k.1.ev, k.2.1.ev)).isSome) ∧
      ∀ r ∈ m.finals, ∀ s ∈ c.u.shared, ¬ c.Rereads r s))
  | .checkSat | .push | .pop => .isTrue trivial

instance Every.decide (P : Session → SessionOp → Prop) [∀ m op, Decidable (P m op)] : ∀ m ops, Decidable (c.Every P m ops)
  | _, [] => .isTrue trivial
  | m, op :: ops =>
    match happly : c.apply m op with
    | none => decidable_of_iff (P m op) ⟨fun hp => ⟨hp, by simp [happly]⟩, And.left⟩
    | some (m', outs) =>
      haveI := Every.decide P m' ops
      decidable_of_iff (P m op ∧ c.Every P m' ops)
        ⟨fun hp => ⟨hp.1, by simpa [happly] using hp.2⟩, fun hp => ⟨hp.1, hp.2 m' outs happly⟩⟩

end Unrolled

/-- Every `Push` has its `Pop`. -/
inductive Balanced : List SessionOp → Prop where
  | nil : Balanced []
  | op {op : SessionOp} {b : List SessionOp} (hpush : op ≠ .push) (hpop : op ≠ .pop) (hb : Balanced b) : Balanced (op :: b)
  | nest {b b' : List SessionOp} (hb : Balanced b) (hb' : Balanced b') : Balanced (.push :: (b ++ .pop :: b'))

namespace Unrolled

variable {c : Unrolled} {m m' : Session}

/-! ### Linking without a trace -/

section Still

variable {r : ReadStep} {s : String} {w : Ev}

theorem search_still (h : ¬ c.Rereads r s) (hs : s ∈ r.step.readSet) {P : Prop} [Decidable P]
    (hP : P → (r.step.stateVar s).sort.isMem ∨ ∃ w ∈ c.u.writeList, ((c.u.step w).stateVar s).sort.isMem) :
    (if P then r.search else r) = r := by
  split
  · rename_i hp
    have hagain : r.again = [] := by
      by_contra hne
      exact h ⟨hne, hs, hP hp⟩
    obtain ⟨step, again⟩ := r
    subst hagain
    simp [ReadStep.search]
  · rfl

theorem noWriteBetween_still (h : ¬ c.Rereads r s) (hs : s ∈ r.step.readSet) (w2 : Ev) :
    (c.noWriteBetween m s w r w2).1 = r :=
  search_still h hs fun hp => .inl hp.1

theorem readsFrom_still (h : ¬ c.Rereads r s) (hs : s ∈ r.step.readSet) (hw : w ∈ c.u.writeList) :
    c.readsFrom m s r w = (r, .and .true (.and (.and (.and (.and (sameAddress c.z3 (c.stepAt m w) r.step s .write .read)
      (sameData c.z3 (c.stepAt m w) r.step c.u.globalVar s .write .read)) (decodeOf c.z3 (c.stepAt m w))) (c.R.rf w r.step.ev))
      (.forallList ((c.u.writeList.filter fun w2 => w2 ≠ w ∧ w2 ≠ r.step.ev ∧ c.u.writes w2 s).map fun w2 =>
        (c.noWriteBetween m s w r w2).2)))) := by
  have hthread := thread_fixed (f := c.noWriteBetween m s w) (a := r)
    (l := c.u.writeList.filter fun w2 => w2 ≠ w ∧ w2 ≠ r.step.ev ∧ c.u.writes w2 s) fun w2 _ => noWriteBetween_still h hs w2
  have hfirst := search_still h hs (P := ((c.stepAt m w).stateVar s).sort.isMem ∧ w ≠ .init) fun hp => .inr ⟨w, hw, hp.1⟩
  have hsecond := search_still h hs (P := ((c.stepAt m w).stateVar s).sort.isMem) fun hp => .inr ⟨w, hw, hp⟩
  rw [readsFrom, hthread]
  dsimp only
  rw [hfirst, hsecond]

theorem readAxiom_still (h : ¬ c.Rereads r s) (hs : s ∈ r.step.readSet) : c.readAxiom m s r =
    (r, .implies .true (.existsList ((c.writers s r.step.ev).map fun w => (c.readsFrom m s r w).2))) := by
  have hthread := thread_fixed (f := c.readsFrom m s) (a := r) (l := c.writers s r.step.ev) fun w hw => by
    rw [readsFrom_still h hs (List.mem_of_mem_filter hw)]
  rw [readAxiom, hthread]

theorem stateAxiom_still {rs : List ReadStep} (h : ∀ r ∈ rs, ¬ c.Rereads r s) : (c.stateAxiom m rs s).1 = rs := by
  rw [stateAxiom]
  dsimp only
  refine (List.map_congr_left fun r hr => ?_).trans (List.map_id rs)
  split
  · rename_i hs
    rw [readAxiom_still (h r hr) hs]
    rfl
  · rfl

theorem rfCoFr_still (h : ∀ r ∈ c.readSteps m, ∀ s ∈ c.u.shared, ¬ c.Rereads r s) : c.rfCoFr m =
    (c.readSteps m, .forallList (c.u.shared.map fun s => (c.stateAxiom m (c.readSteps m) s).2)) := by
  rw [rfCoFr, thread_fixed fun s hs => stateAxiom_still fun r hr => h r hr s hs]

theorem instReads_still (hr : r ∈ c.instReads m) : ¬ c.Rereads r s := by
  obtain ⟨e, -, rfl⟩ := List.mem_map.mp hr
  exact fun h => h.1 rfl

theorem foldlM_sanityCheck {table table' : CheckedTable} {ks : List (TraceStep × TraceStep × String)}
    (hknown : ∀ k ∈ ks, (table.lookup (k.1.ev, k.2.1.ev)).isSome) (hrun : ks.foldlM c.sanityCheck table = some table') :
    table' = table := by
  induction ks with
  | nil => exact (Option.some.inj hrun).symm
  | cons k ks ih =>
    rw [List.forall_mem_cons] at hknown
    obtain ⟨t, hstep, hrest⟩ := Option.bind_eq_some_iff.mp hrun
    obtain ⟨names, hnames⟩ := Option.isSome_iff_exists.mp hknown.1
    rw [sanityCheck, hnames] at hstep
    obtain ⟨-, heq⟩ := Option.ite_none_right_eq_some.mp hstep
    cases heq
    exact ih hknown.2 hrest

end Still

/-! ### The constraints of a fresh program -/

theorem ev_step (u : System) (e : Ev) : (u.step e).ev = e := by
  cases e <;> rfl

section Fresh

variable (hread : ∀ e, m.readSet e = (c.u.step e).readSet)
  (hfinal : m.finals = if c.u.readsShared .final then [c.finalStep c.u.property] else [])

include hread in
theorem stepAt_fresh (e : Ev) : c.stepAt m e = c.u.step e := by
  rw [stepAt, hread]

include hread hfinal in
theorem readSteps_fresh (hload : loads c.u.property = []) : c.readSteps m = c.u.readList.map fun e => ⟨c.u.step e, []⟩ := by
  have hstep : c.finalStep c.u.property = ⟨c.u.step .final, []⟩ := by
    have hloads : (c.u.step .final).loads = [] := hload
    rw [finalStep, hload]
    simp only [System.step] at hloads ⊢
    rw [hloads]
  rw [readSteps, instReads, System.readList, List.filter_append, List.map_append, hfinal]
  congr 1
  · apply List.map_congr_left
    intro e _
    rw [stepAt_fresh hread]
  · cases h : c.u.readsShared .final <;> simp [h, hstep]

include hread in
theorem linkOrdered_fresh (core n pos : Nat) (last : LastUpdate) :
    c.linkOrdered m core pos n last = Mcm.linkOrdered c.z3 c.u core pos n last := by
  induction n generalizing pos last with
  | zero => rfl
  | succ n ih => rw [linkOrdered, Mcm.linkOrdered, stepAt_fresh hread, ih]

include hread in
theorem readsFrom_fresh {s : String} {e w : Ev} (hs : s ∈ (c.u.step e).readSet) (hw : w ∈ c.u.writeList) :
    (c.readsFrom m s ⟨c.u.step e, []⟩ w).2 = Mcm.readsFrom c.z3 c.u c.R s e w := by
  have hstill : ¬ c.Rereads ⟨c.u.step e, []⟩ s := fun h => h.1 rfl
  have hnone : ∀ w2, (c.noWriteBetween m s w ⟨c.u.step e, []⟩ w2).2 = Mcm.noWriteBetween c.z3 c.u c.R s e w w2 := by
    intro w2
    have hsame : (c.noWriteBetween m s w ⟨c.u.step e, []⟩ w2).1 = ⟨c.u.step e, []⟩ := noWriteBetween_still hstill hs w2
    rw [noWriteBetween] at hsame ⊢
    dsimp only at hsame ⊢
    rw [hsame, stepAt_fresh hread, ev_step]
    rfl
  rw [readsFrom_still hstill hs hw, Mcm.readsFrom, stepAt_fresh hread]
  simp only [hnone, ev_step]

include hread hfinal in
theorem link_fresh (hload : loads c.u.property = []) : (c.rfCoFr m).2 = Mcm.rfCoFr c.z3 c.u c.R ∧
    c.setLocalState m c.u.ordered = Mcm.setLocalState c.z3 c.u := by
  have hsteps := readSteps_fresh hread hfinal hload
  have hstill : ∀ r ∈ c.readSteps m, ∀ s ∈ c.u.shared, ¬ c.Rereads r s := by
    intro r hr s _ h
    rw [hsteps] at hr
    obtain ⟨e, -, rfl⟩ := List.mem_map.mp hr
    exact h.1 rfl
  constructor
  · rw [rfCoFr_still hstill, Mcm.rfCoFr, hsteps]
    refine congrArg ZForm.forallList (List.map_congr_left fun s _ => ?_)
    rw [stateAxiom]
    dsimp only
    rw [List.filter_map, List.map_map]
    refine congrArg ZForm.forallList (List.map_congr_left fun e he => ?_)
    have hs : s ∈ (c.u.step e).readSet := of_decide_eq_true (List.mem_filter.mp he).2
    have hagain : ¬ c.Rereads ⟨c.u.step e, []⟩ s := fun h => h.1 rfl
    rw [Function.comp_apply, readAxiom_still hagain hs, writers]
    dsimp only
    rw [ev_step]
    refine congrArg (fun fs => ZForm.implies .true (.existsList fs)) (List.map_congr_left fun w hw => ?_)
    exact readsFrom_fresh hread hs (List.mem_of_mem_filter hw)
  · rw [setLocalState, Mcm.setLocalState]
    refine congrArg (List.flatMap · _) (funext fun core => ?_)
    rw [linkOrdered_fresh hread, linkUnordered, Mcm.linkUnordered]
    simp only [hread, System.reads]

end Fresh

/-! ### A block is undone -/

theorem foldl_insert_of_mem {l names : List String} (h : ∀ n ∈ l, n ∈ names) :
    l.foldl (fun names n => names.insert n) names = names := by
  induction l with
  | nil => rfl
  | cons n l ih =>
    rw [List.foldl_cons, List.insert_of_mem (h n List.mem_cons_self)]
    exact ih fun n' hn' => h n' (List.mem_cons_of_mem n hn')

theorem addReads_of_keeps {p : Expr} {filter : TraceStep → Bool}
    (hkeeps : ∀ e ∈ c.selected m filter, ∀ n ∈ uses p, n ∈ m.readSet e) : c.addReads m p filter = m := by
  have hread : (fun e => if e ∈ c.selected m filter then (uses p).foldl (fun names n => names.insert n) (m.readSet e)
      else m.readSet e) = m.readSet := by
    funext e
    split
    · rename_i he
      exact foldl_insert_of_mem (hkeeps e he)
    · rfl
  rw [addReads, hread]

theorem link_keeps {ordered : List Bool} (hkeeps : c.Keeps m (.linkStates ordered)) (hlink : c.link m ordered = some m') :
    ∃ fs, m' = { m with cstr := m.cstr ++ fs } := by
  obtain ⟨-, hlink⟩ := Option.ite_none_right_eq_some.mp hlink
  obtain ⟨table, htable, rfl⟩ := Option.map_eq_some_iff.mp hlink
  have hstill : ∀ r ∈ c.readSteps m, ∀ s ∈ c.u.shared, ¬ c.Rereads r s := by
    intro r hr s hs
    cases List.mem_append.mp hr with
    | inl hinst => exact instReads_still hinst
    | inr hfinal => exact hkeeps.2 r hfinal s hs
  have hfinals : (c.rfCoFr m).1.drop (c.instReads m).length = m.finals := by
    rw [rfCoFr_still hstill]
    exact List.drop_left
  refine ⟨(c.rfCoFr m).2 :: c.more ++ c.setLocalState m ordered, ?_⟩
  rw [hfinals, foldlM_sanityCheck hkeeps.1 htable, List.append_assoc]

theorem apply_keeps {op : SessionOp} {outs : List SessionOut} (hpush : op ≠ .push) (hpop : op ≠ .pop)
    (hkeeps : c.Keeps m op) (happly : c.apply m op = some (m', outs)) : ∃ fs, m' = { m with cstr := m.cstr ++ fs } := by
  cases op with
  | linkStates ordered =>
    obtain ⟨m₁, hlink, heq⟩ := Option.map_eq_some_iff.mp happly
    obtain ⟨rfl, -⟩ := Prod.mk.inj heq
    exact link_keeps hkeeps hlink
  | addProperty p filter =>
    obtain ⟨rfl, -⟩ := Prod.mk.inj (Option.some.inj happly)
    exact ⟨c.collect m p filter, by rw [addReads_of_keeps hkeeps]⟩
  | getProperty p filter =>
    obtain ⟨rfl, -⟩ := Prod.mk.inj (Option.some.inj happly)
    exact ⟨[], by rw [addReads_of_keeps hkeeps, List.append_nil]⟩
  | setFinalProperty p =>
    have hshared : ((uses p).any fun s => decide (s ∈ c.u.shared)) = false := by
      rw [List.any_eq_false]
      intro n hn
      simpa using hkeeps n hn
    simp only [apply, hshared, Bool.false_eq_true, if_false] at happly
    obtain ⟨rfl, -⟩ := Prod.mk.inj (Option.some.inj happly)
    exact ⟨_, by rw [List.append_assoc]⟩
  | checkSat =>
    obtain ⟨rfl, -⟩ := Prod.mk.inj (Option.some.inj happly)
    exact ⟨[], by rw [List.append_nil]⟩
  | push => exact absurd rfl hpush
  | pop => exact absurd rfl hpop

theorem run_cons {op : SessionOp} {ops : List SessionOp} {outs : List SessionOut} (hrun : c.run m (op :: ops) = some (m', outs)) :
    ∃ m₁ outs₁ outs₂, c.apply m op = some (m₁, outs₁) ∧ c.run m₁ ops = some (m', outs₂) ∧ outs = outs₁ ++ outs₂ := by
  rw [run] at hrun
  obtain ⟨⟨m₁, outs₁⟩, happly, hrun⟩ := Option.bind_eq_some_iff.mp hrun
  obtain ⟨⟨m₂, outs₂⟩, hrest, heq⟩ := Option.map_eq_some_iff.mp hrun
  obtain ⟨rfl, rfl⟩ := Prod.mk.inj heq
  exact ⟨m₁, outs₁, outs₂, happly, hrest, rfl⟩

theorem run_append (ops ops' : List SessionOp) : c.run m (ops ++ ops') = (c.run m ops).bind fun (m', outs) =>
    (c.run m' ops').map fun (m'', outs') => (m'', outs ++ outs') := by
  induction ops generalizing m with
  | nil =>
    rw [List.nil_append, run, Option.bind_some]
    simp
  | cons op ops ih =>
    rw [List.cons_append, run, run]
    cases c.apply m op with
    | none => rfl
    | some r =>
      simp only [Option.bind_some, ih]
      cases c.run r.1 ops with
      | none => rfl
      | some r' =>
        simp only [Option.bind_some, Option.map_some]
        cases c.run r'.1 ops' <;> simp

theorem run_append_eq_some {ops ops' : List SessionOp} {outs : List SessionOut}
    (hrun : c.run m (ops ++ ops') = some (m', outs)) :
    ∃ m₁ outs₁ outs₂, c.run m ops = some (m₁, outs₁) ∧ c.run m₁ ops' = some (m', outs₂) ∧ outs = outs₁ ++ outs₂ := by
  rw [run_append] at hrun
  obtain ⟨⟨m₁, outs₁⟩, hops, hrun⟩ := Option.bind_eq_some_iff.mp hrun
  obtain ⟨⟨m₂, outs₂⟩, hrest, heq⟩ := Option.map_eq_some_iff.mp hrun
  obtain ⟨rfl, rfl⟩ := Prod.mk.inj heq
  exact ⟨m₁, outs₁, outs₂, hops, hrest, rfl⟩

theorem every_append {P : Session → SessionOp → Prop} {ops ops' : List SessionOp} (h : c.Every P m (ops ++ ops')) :
    c.Every P m ops ∧ ∀ m' outs, c.run m ops = some (m', outs) → c.Every P m' ops' := by
  induction ops generalizing m with
  | nil =>
    refine ⟨trivial, fun m' outs hrun => ?_⟩
    obtain ⟨rfl, -⟩ := Prod.mk.inj (Option.some.inj hrun)
    exact h
  | cons op ops ih =>
    refine ⟨⟨h.1, fun m' outs happly => (ih (h.2 m' outs happly)).1⟩, fun m' outs hrun => ?_⟩
    obtain ⟨m₁, outs₁, outs₂, happly, hrest, -⟩ := run_cons hrun
    exact (ih (h.2 m₁ outs₁ happly)).2 m' outs₂ hrest

theorem apply_pop {fs : List ZForm} :
    c.apply { m with cstr := m.cstr ++ fs, stack := m.cstr.length :: m.stack } .pop = some (m, []) := by
  simp only [apply, List.take_left]

theorem run_balanced {b : List SessionOp} {outs : List SessionOut} (hb : Balanced b) (hkeeps : c.Every c.Keeps m b)
    (hrun : c.run m b = some (m', outs)) : ∃ fs, m' = { m with cstr := m.cstr ++ fs } := by
  induction hb generalizing m m' outs with
  | nil =>
    obtain ⟨rfl, -⟩ := Prod.mk.inj (Option.some.inj hrun)
    exact ⟨[], by rw [List.append_nil]⟩
  | @op op b hpush hpop _ ih =>
    obtain ⟨m₁, outs₁, outs₂, happly, hrest, -⟩ := run_cons hrun
    obtain ⟨fs, rfl⟩ := apply_keeps hpush hpop hkeeps.1 happly
    obtain ⟨fs', rfl⟩ := ih (hkeeps.2 _ outs₁ happly) hrest
    exact ⟨fs ++ fs', by rw [List.append_assoc]⟩
  | @nest b b' _ _ ih ih' =>
    obtain ⟨m₁, outs₁, outs₂, happly, hrun, -⟩ := run_cons hrun
    have hbkeeps := every_append (hkeeps.2 m₁ outs₁ happly)
    obtain ⟨rfl, -⟩ := Prod.mk.inj (Option.some.inj happly)
    obtain ⟨m₂, outs₂, outs₃, hblock, hrest, -⟩ := run_append_eq_some hrun
    have hafter := hbkeeps.2 m₂ outs₂ hblock
    obtain ⟨fs, rfl⟩ := ih hbkeeps.1 hblock
    obtain ⟨m₄, outs₄, outs₅, hpop, hlast, -⟩ := run_cons hrest
    have hkeeps' := hafter.2 m₄ outs₄ hpop
    obtain ⟨rfl, -⟩ := Prod.mk.inj (Option.some.inj (hpop.symm.trans (@apply_pop c m fs)))
    exact ih' hkeeps' hlast

/-- A block whose operations leave the read sets and `READ_list` alone is undone by its pop: whatever comes later adds the same
constraints, hands out the same and gets the same verdicts as without the block. -/
theorem push_pop_transparent {b : List SessionOp} {outs : List SessionOut} (hb : Balanced b)
    (hkeeps : c.Every c.Keeps m (.push :: b)) (hrun : c.run m (.push :: b) = some (m', outs)) (rest : List SessionOp) :
    c.run m (.push :: b ++ .pop :: rest) = (c.run m rest).map fun r => (r.1, outs ++ r.2) := by
  obtain ⟨m₁, outs₁, outs₂, happly, hblock, -⟩ := run_cons hrun
  have hbkeeps := hkeeps.2 m₁ outs₁ happly
  obtain ⟨rfl, -⟩ := Prod.mk.inj (Option.some.inj happly)
  obtain ⟨fs, rfl⟩ := run_balanced hb hbkeeps hblock
  rw [run_append, hrun, Option.bind_some]
  simp only [run, apply_pop, Option.bind_some, Option.map_map]
  rfl

/-- A program right after it is unrolled, with sequential consistency. -/
def ofSystem (u : System) : Unrolled := ⟨default, u, Sc.relations, [], u.allInstEvs, fun fs => fs.length < 9⟩

def fresh (u : System) : Session := ⟨Sc.registerSteps u, [], fun e => (u.step e).readSet, [], []⟩

def eqConst (name : String) (x : Nat) : Expr := .op .eq [.var ⟨0, name, some "c0", .bv 8⟩, .const (.bv x 8)]

/-- A core with a private state that its only instruction does not read. -/
def writeOnly : System where
  ilas := [{ IlaData.new 0 "c0" with states := [⟨0, "r", some "c0", .bv 8⟩] }]
  tmpl := [[⟨"set", .const (.bool true), [("r", .const (.bv 1 8))]⟩]]
  ordered := [true]
  property := .const (.bool true)

/-- A property that is only looked at stays in the read set of the instruction, and linking the states adds a constraint more. -/
theorem push_pop_leaks_writeOnly :
    Balanced [.getProperty (eqConst "r" 0) fun ts => ts.ev = .inst 0 0] ∧
      ((ofSystem writeOnly).run (fresh writeOnly) (.push :: [.getProperty (eqConst "r" 0) fun ts => ts.ev = .inst 0 0])).isSome ∧
      ∃ rest, (((ofSystem writeOnly).run (fresh writeOnly)
          (.push :: [.getProperty (eqConst "r" 0) fun ts => ts.ev = .inst 0 0] ++ .pop :: rest)).map fun r => r.1.cstr.length) ≠
        ((ofSystem writeOnly).run (fresh writeOnly) rest).map fun r => r.1.cstr.length :=
  ⟨.op (by simp) (by simp) .nil, by decide, [.linkStates [true]], by decide⟩

def sharedVar (core : Nat) : Var := ⟨core, "x", some (if core = 0 then "c0" else "c1"), .bv 8⟩

/-- A core writes a shared state that the other one reads. -/
def writeRead : System where
  ilas := [{ IlaData.new 0 "c0" with states := [sharedVar 0] }, { IlaData.new 1 "c1" with states := [sharedVar 1] }]
  tmpl := [[⟨"put", .const (.bool true), [("x", .const (.bv 1 8))]⟩],
    [⟨"get", .op .eq [.var (sharedVar 1), .const (.bv 1 8)], []⟩]]
  ordered := [true, true]
  property := .const (.bool true)

/-- The states are linked once. -/
def linked : Session := ((ofSystem writeRead).link (fresh writeRead) [true, true]).getD (fresh writeRead)

def readProperty : Expr := .op .eq [.var (sharedVar 1), .const (.bv 0 8)]

def readBlock : List SessionOp :=
  [.addProperty readProperty (fun ts => ts.ev = .inst 1 0), .push, .linkStates [true, true], .checkSat, .pop, .checkSat]

example : linked.checked.length = 4 := by decide

theorem push_pop_transparent_writeRead : ∃ outs, outs.length = 2 ∧ ∀ rest,
    (ofSystem writeRead).run linked (.push :: readBlock ++ .pop :: rest) =
      ((ofSystem writeRead).run linked rest).map fun r => (r.1, outs ++ r.2) := by
  have hbalanced : Balanced readBlock :=
    .op (by simp) (by simp) (.nest (b := [.linkStates [true, true], .checkSat])
      (.op (by simp) (by simp) (.op (by simp) (by simp) .nil)) (.op (by simp) (by simp) .nil))
  obtain ⟨m, outs, hrun, hlen⟩ : ∃ m outs, (ofSystem writeRead).run linked (.push :: readBlock) = some (m, outs) ∧
      outs.length = 2 := ⟨_, _, rfl, rfl⟩
  exact ⟨outs, hlen, push_pop_transparent hbalanced (by decide +kernel) hrun⟩

end Unrolled

end Mcm

end Ilang
