import Ilang.Mcm.History

/-!
# The steps of a run

A step computes its writes from what its core sees. In a model that has the record of the run it computes the same writes from the
copies of the step, so what a run has done is known from the model alone. A shared state has then been written by the decoded
writers in the order of their writes, and a private state by the last one of its core. Everything that the constraints say about
the cores one by one follows: the initial conditions, the final property and the links between the private states.
-/

namespace Ilang

namespace Mcm

open Smt

namespace System

variable (u : System)

/-- A step of a program. -/
def InProgram (e : Nat × Nat) : Prop := e.1 < u.tmpl.length ∧ e.2 < progLength u e.1

/-- A step that can be taken next. -/
structure Ready (tr : List (Nat × Nat)) (e : Nat × Nat) : Prop where
  inProgram : u.InProgram e
  fresh : e ∉ tr
  ordered : (u.ordered[e.1]?).getD false → ∀ q < e.2, (e.1, q) ∈ tr

/-- Every step has been taken. -/
def Complete (tr : List (Nat × Nat)) : Prop := ∀ e, u.InProgram e → e ∈ tr

/-- The valuation in which a step is executed. -/
def seen (M₀ : Model) (S : Snapshots) (core pos : Nat) : Valuation := u.view core (S.before core pos) (stepFrame M₀ pos)

variable (M : Model)

/-- The writes of a step, computed from its copies. -/
def writesOf (e : Nat × Nat) : List Write := u.stepWrites (stepFrame M e.2) e.1 e.2

/-- A step is decoded and writes a state. -/
def writesTo (s : String) (e : Nat × Nat) : Bool :=
  Value.isTrue ((u.instr e.1 e.2).decode.eval (stepFrame M e.2)) && u.writes (.inst e.1 e.2) s

/-- The decoded writers of a state among some steps. -/
def writers (s : String) (es : List (Nat × Nat)) : List Ev := (es.filter (u.writesTo M s)).map fun e => .inst e.1 e.2

end System

variable {u : System} {M₀ M : Model} {S : System.Snapshots} {T : Ev → Int} {z3 : Z3} {s : String} {core pos : Nat}

/-! ### Steps in the model and in the store -/

theorem writeOf_congr {ν μ : Valuation} {e : Expr} (h : ∀ x : Expr, x.atoms ⊆ e.atoms → x.eval ν = x.eval μ) :
    u.writeOf ν core (s, e) = u.writeOf μ core (s, e) := by
  unfold System.writeOf
  dsimp only
  cases haddr : checkAndPeel 1 e with
  | none => simp only [h e (List.Subset.refl _)]
  | some addr =>
    cases hdata : checkAndPeel 2 e with
    | none => simp only [h e (List.Subset.refl _)]
    | some data =>
      simp only [h e (List.Subset.refl _), h addr (atoms_checkAndPeel haddr), h data (atoms_checkAndPeel hdata)]

theorem writesOf_eq (hu : u.Proper) (hrec : u.Recorded M₀ S M) (hcore : core < u.tmpl.length) (hpos : pos < progLength u core) :
    u.writesOf M (core, pos) = u.stepWrites (u.seen M₀ S core pos) core pos := by
  obtain ⟨-, hdecode⟩ := hu.decode core hcore pos hpos
  have hwrite : ∀ p ∈ (u.instr core pos).updates,
      u.writeOf (System.stepFrame M pos) core p = u.writeOf (u.seen M₀ S core pos) core p := by
    intro p hp
    obtain ⟨-, -, hlocal⟩ := hu.update core hcore pos hpos p hp
    exact writeOf_congr fun x hx => hrec.eval_step hu hcore hpos fun a ha => hlocal a (hx ha)
  rw [System.writesOf, System.stepWrites, System.stepWrites, hrec.eval_step hu hcore hpos hdecode, List.map_congr_left hwrite]
  rfl

theorem writesTo_iff {e : Nat × Nat} : u.writesTo M s e = true ↔ u.Decoded M (.inst e.1 e.2) ∧ u.writes (.inst e.1 e.2) s := by
  rw [System.writesTo, Bool.and_eq_true, Value.isTrue_iff]
  exact Iff.rfl

theorem var_writeOf (ν : Valuation) (p : String × Expr) : (u.writeOf ν core p).var = u.loc (u.coreVar core p.1) := by
  unfold System.writeOf
  split
  · split <;> rfl
  · rfl

theorem filter_writeOf (hu : u.Proper) {ν : Valuation} {v : Var} (hv : v ∈ u.coreStates core) {l : List (String × Expr)}
    (hnames : (l.map Prod.fst).Nodup) (hstates : ∀ p ∈ l, p.1 ∈ (u.coreStates core).map Var.name) :
    (l.map (u.writeOf ν core)).filter (fun w => w.var = u.loc v) =
      (l.lookup v.name).toList.map fun e => u.writeOf ν core (v.name, e) := by
  induction l with
  | nil => rfl
  | cons p l ih =>
    rw [List.map_cons, List.nodup_cons] at hnames
    have hrest := ih hnames.2 fun q hq => hstates q (List.mem_cons_of_mem _ hq)
    obtain ⟨hmem, hname⟩ := hu.coreVar_mem (hstates p List.mem_cons_self)
    by_cases hp : p.1 = v.name
    · have hhead : (u.writeOf ν core p).var = u.loc v := by rw [var_writeOf, hp, hu.coreVar_name hv]
      have hnone : l.lookup v.name = none := Entries.lookup_eq_none_iff.mpr (hp ▸ hnames.1)
      rw [hnone] at hrest
      obtain ⟨n, e⟩ := p
      obtain rfl : n = v.name := hp
      rw [List.map_cons, List.filter_cons, if_pos (decide_eq_true hhead), hrest, List.lookup_cons_self]
      rfl
    · have hhead : (u.writeOf ν core p).var ≠ u.loc v := by
        rw [var_writeOf]
        intro heq
        rw [← hname, hu.loc_inj hmem hv heq] at hp
        exact hp rfl
      rw [List.map_cons, List.filter_cons, if_neg (by simpa using hhead), hrest, List.lookup_cons,
        beq_eq_false_iff_ne.mpr (Ne.symm hp)]

theorem val_writesOf (hu : u.Proper) (hcore : core < u.tmpl.length) (hpos : pos < progLength u core) {v : Var}
    (hv : v ∈ u.coreStates core) (σ : Store) :
    (σ.writeAll (u.writesOf M (core, pos))).val (u.loc v) =
      if u.writesTo M v.name (core, pos) then (u.writeAt M v.name (.inst core pos)).next (σ.val (u.loc v)) else σ.val (u.loc v) := by
  have hnames := hu.updateNames core hcore pos hpos
  have hstates := fun p hp => (hu.update core hcore pos hpos p hp).1
  rw [Store.val_writeAll, System.writesOf, System.stepWrites, System.writesTo]
  by_cases hdec : Value.isTrue ((u.instr core pos).decode.eval (System.stepFrame M pos)) = true
  · rw [if_pos hdec, filter_writeOf hu hv hnames hstates, hdec, Bool.true_and]
    cases he : (u.instr core pos).update v.name with
    | none =>
      have hnot : u.writes (.inst core pos) v.name = false :=
        decide_eq_false fun hmem => Entries.lookup_eq_none_iff.mp he hmem
      rw [show (u.instr core pos).updates.lookup v.name = none from he, hnot]
      rfl
    | some e =>
      have hwrites : u.writes (.inst core pos) v.name = true :=
        decide_eq_true (List.mem_map_of_mem (f := Prod.fst) (Entries.mem_of_lookup he))
      rw [show (u.instr core pos).updates.lookup v.name = some e from he, hwrites, writeAt_of_update he]
      rfl
  · have hfalse := Bool.eq_false_iff.mpr hdec
    rw [if_neg hdec, hfalse]
    rfl

theorem next_writeOf (hu : u.Proper) (hcore : core < u.tmpl.length) (hpos : pos < progLength u core) {p : String × Expr}
    (hp : p ∈ (u.instr core pos).updates) (σ : Store) (ν : Valuation) :
    p.2.eval (u.view core σ ν) =
      some ((u.writeOf (u.view core σ ν) core p).next (σ.val (u.loc (u.coreVar core p.1)))) := by
  obtain ⟨hname, hcheck, -⟩ := hu.update core hcore pos hpos p hp
  obtain ⟨hmem, -⟩ := hu.coreVar_mem hname
  have hloc := hu.loc_sort (System.mem_stateVars_of_core hmem)
  have hold : (u.view core σ ν).atom (.var (u.coreVar core p.1)) = σ.val (u.loc (u.coreVar core p.1)) := if_pos ⟨hmem, hloc⟩
  have hsort : (σ.val (u.loc (u.coreVar core p.1))).sort = (u.coreVar core p.1).sort := (σ.val_sort _).trans hloc
  obtain ⟨x, hx, hxsort⟩ := Expr.eval_of_check hcheck (u.view core σ ν)
  have hwhole : ∀ v, (Write.whole v x).next (σ.val (u.loc (u.coreVar core p.1))) = x := fun v =>
    Write.next_whole (hxsort.trans hsort.symm)
  unfold System.writeOf
  split
  · rename_i hshared
    cases haddr : checkAndPeel 1 p.2 with
    | none =>
      dsimp only
      rw [hx, Option.getD_some, hwhole]
    | some addr =>
      obtain ⟨args, hargs, hnested, -⟩ := checkAndPeel_isSome haddr
      rw [hargs] at hcheck hnested
      obtain ⟨hisMem, m, y, z, rfl⟩ := exists_store_args hcheck
      have hown := hu.ownStores core hcore pos hpos p hp hshared (by rw [haddr]; rfl)
      rw [hargs] at hown
      obtain ⟨a, d, hmemSort⟩ := exists_mem_of_isMem hisMem
      rw [hmemSort] at hcheck hsort
      obtain ⟨-, hcy, hcz⟩ := Expr.check_store hcheck
      obtain ⟨i, hi⟩ := Expr.eval_bv (u.view core σ ν) hcy
      obtain ⟨w, hw⟩ := Expr.eval_bv (u.view core σ ν) hcz
      obtain ⟨f, hf⟩ := Value.exists_mem hsort
      obtain ⟨hy, hz⟩ := checkAndPeel_store hnested
      obtain rfl : m = .var (u.coreVar core p.1) := by
        cases m with
        | var v => rw [of_decide_eq_true hown]
        | const c => cases hown
        | op o args => cases hown
        | appFunc g args => cases hown
      rw [hargs] at haddr ⊢
      rw [hy] at haddr
      obtain rfl := Option.some.inj haddr
      simp only [hz, hi, hw, Option.getD_some, hf, Write.next_word]
      rw [Expr.eval, Expr.evalList, Expr.evalList, Expr.evalList, Expr.evalList, Expr.eval, hold, hf, hi, hw]
      exact ExprOp.apply_store f i w
  · rw [hx, Option.getD_some, hwhole]

theorem var_stepWrites (hu : u.Proper) (hcore : core < u.tmpl.length) (hpos : pos < progLength u core) {ν : Valuation} {w : Write}
    (hw : w ∈ u.stepWrites ν core pos) : ∃ v ∈ u.coreStates core, w.var = u.loc v := by
  rw [System.stepWrites] at hw
  split at hw
  · obtain ⟨p, hp, rfl⟩ := List.mem_map.mp hw
    refine ⟨_, (hu.coreVar_mem (hu.update core hcore pos hpos p hp).1).1, ?_⟩
    exact var_writeOf ν p
  · exact absurd hw List.not_mem_nil

theorem val_writesOf_shared (hu : u.Proper) (hcore : core < u.tmpl.length) (hpos : pos < progLength u core) (hs : s ∈ u.shared)
    (σ : Store) : (σ.writeAll (u.writesOf M (core, pos))).val (u.globalVar s) =
      if u.writesTo M s (core, pos) then (u.writeAt M s (.inst core pos)).next (σ.val (u.globalVar s))
      else σ.val (u.globalVar s) := by
  by_cases hmem : s ∈ (u.coreStates core).map Var.name
  · obtain ⟨hv, hname⟩ := hu.coreVar_mem hmem
    have hval := val_writesOf (M := M) hu hcore hpos hv σ
    rwa [hname, System.loc_shared (by rw [hname]; exact hs), hname] at hval
  · have hnot : u.writesTo M s (core, pos) = false := by
      rw [Bool.eq_false_iff]
      intro hto
      obtain ⟨e, -, he⟩ := exists_update (writesTo_iff.mp hto).2
      exact hmem (hu.update core hcore pos hpos _ he).1
    rw [if_neg (by rw [hnot]; exact Bool.false_ne_true)]
    refine Store.val_writeAll_of_ne fun w hw heq => ?_
    obtain ⟨v, hv, hvar⟩ := var_stepWrites hu hcore hpos hw
    have hname : v.name = s := by
      have hloc : (u.loc v).name = v.name := by
        unfold System.loc
        split <;> rfl
      rw [← hloc, ← hvar, heq]
      rfl
    exact hmem (hname ▸ List.mem_map_of_mem hv)

theorem val_shared (hu : u.Proper) (hs : s ∈ u.shared) {es : List (Nat × Nat)} (hes : ∀ e ∈ es, u.InProgram e) (σ : Store) :
    (σ.writeAll (es.flatMap (u.writesOf M))).val (u.globalVar s) = afterWrites u M s (u.writers M s es) (σ.val (u.globalVar s)) := by
  induction es generalizing σ with
  | nil => rfl
  | cons e es ih =>
    obtain ⟨⟨hcore, hpos⟩, hes⟩ := List.forall_mem_cons.mp hes
    rw [List.flatMap_cons, Store.writeAll_append, ih hes, val_writesOf_shared hu hcore hpos hs, System.writers, System.writers,
      List.filter_cons]
    split
    · rfl
    · rfl

theorem val_stepWrites_other (hu : u.Proper) {core' : Nat} (hcore : core' < u.tmpl.length) (hpos : pos < progLength u core')
    {v : Var} (hv : v ∈ u.coreStates core) (hprivate : v.name ∉ u.shared) (hne : core' ≠ core) (ν : Valuation) (σ : Store) :
    (σ.writeAll (u.stepWrites ν core' pos)).val v = σ.val v := by
  refine Store.val_writeAll_of_ne fun w hw heq => ?_
  obtain ⟨v', hv', hvar⟩ := var_stepWrites hu hcore hpos hw
  by_cases hshared : v'.name ∈ u.shared
  · rw [System.loc_shared hshared] at hvar
    rw [← heq, hvar] at hprivate
    exact hprivate hshared
  · rw [System.loc_private hshared] at hvar
    exact hne (hu.core_eq (hvar ▸ hv') (heq ▸ hv))

/-! ### Private states -/

namespace Taken

variable {tr : List (Nat × Nat)}

/-- A private state of a core before its next step, or at the end. -/
def valueBefore (u : System) (M : Model) (S : System.Snapshots) (core n : Nat) (v : Var) : Value :=
  afterWrites u M v.name (u.writers M v.name ((List.range n).map fun q => (core, q))) (S.first.val v)

end Taken

/-! ### The copies of a shared state -/

theorem copyAt_init (hrec : u.Recorded M₀ S M) (hs : s ∈ u.shared) : u.copyAt M s .init = S.first.val (u.globalVar s) := by
  have hfirst := hrec.first _ (List.mem_append_right _ (List.mem_map_of_mem hs))
  rwa [System.loc_shared (v := u.globalVar s) hs] at hfirst

end Mcm

end Ilang
