import Ilang.Mngr.EqCheckSound

/-!
# The incremental checks

`CommDiag::IncEqCheck` and `CommDiag::IncCheck` unroll the flushed paths a few steps at a time. In every
round they ask for executions whose paths have all completed so far, and which are related before the
instruction but not after it. If there are none, a lemma is added to the solver, and the paths that may
still be incomplete are unrolled further.

The lemma is meant for the paths that have completed, but it says that the property follows from the
assumption in any case. No later round can then find anything.
-/

namespace Ilang

open Smt

namespace CommDiag

/-- The flushed path, the one after the instruction, and the step of the instruction. -/
inductive Phase where
  | old
  | new
  | apl

def Phase.tag : Phase → String
  | .old => "old"
  | .new => "new"
  | .apl => "apl"

/-- The paths that are flushed. -/
inductive UID where
  | aOld
  | aNew
  | bOld
  | bNew
  deriving DecidableEq

namespace UID

def all : List UID := [.aOld, .aNew, .bOld, .bNew]

/-- `GetUnrl`. -/
def phase : UID → Phase
  | .aOld => .old
  | .aNew => .new
  | .bOld => .old
  | .bNew => .new

/-- `GetRefine`. -/
def refine (crr : CompRefRel) : UID → RefinementMap
  | .aOld => crr.refineA
  | .aNew => crr.refineA
  | .bOld => crr.refineB
  | .bNew => crr.refineB

end UID

/-- The steps that are unrolled next. -/
structure UnrlUnit where
  lo : Int
  hi : Int

/-- The positions of a loop from a bound to another one. -/
def ints (lo hi : Int) : List Int := (List.range (hi + 1 - lo).toNat).map fun n => lo + (n : Nat)

section Check

variable (z3 : Z3) (o : Oracle) (fresh : Nat) (crr : CompRefRel)

/-- `GetZ3ApplInstr`. -/
def applInstr (r : RefinementMap) : Option Term :=
  (MonoUnroll.monoAssn fresh r.coi z3 ((globPreds "apl" r.invs).addStepPred r.appl 0) 1 0).map fun applyOneStep =>
    let eq := Term.conjAll (r.coi.getSttTree.flatMap fun v =>
      [(getExpr z3 (curr "apl" 0) (.var v)).eq (getExpr z3 (curr "old" 0) (.var v)),
        (getExpr z3 (curr "apl" 1) (.var v)).eq (getExpr z3 (curr "new" 0) (.var v))])
    ((((Term.bool true).conj applyOneStep).conj eq).conj (getExpr z3 (curr "old" 0) r.flush)).conj
      (getExpr z3 (curr "new" 0) r.flush)

/-- `GetZ3IncUnrl` and `GetZ3IncFlsh`. A negative length is converted to a huge one, so the loop goes on
until the memory is used up. -/
def incUnrl (flush : Expr) (uid : UID) (base length : Int) : Option Term :=
  if length < 0 then none
  else
    let r := uid.refine crr
    let tag := uid.phase.tag
    (MonoUnroll.monoAssn fresh r.coi z3 (globPreds tag [flush]) length.toNat base).map fun tran =>
      ((ints base (base + length)).map fun pos =>
        (getExpr z3 ((Unroller.new tag).suffCurr pos) r.cmpl).implies
          (eqStates z3 r.coi.getSttTree tag ((Unroller.new tag).suffCurr pos))).foldl Term.conj tran

/-- `GetZ3Cmpl` and `GetZ3IncCmpl`. -/
def incCmpl (uid : UID) (hi : Int) : Term :=
  ((ints 0 hi).map fun pos => getExpr z3 ((Unroller.new uid.phase.tag).suffCurr pos) (uid.refine crr).cmpl).foldl
    Term.disj (Term.bool false)

/-- The flag that all paths have completed. -/
def cmplFlag : Sym := ⟨"cmpl_flag", .bool⟩

/-- `CheckCmpl`. What must hold is kept. -/
def checkCmpl (s : Solver) (cmpl : Term) : Solver × Bool :=
  let asked := s.push.add cmpl.neg
  if asked.check o then (asked.pop, false) else ((asked.pop.add cmpl).push, true)

/-- What the two checks do differently: the relation of the next steps, and how completion is put together. -/
structure Inc where
  tran : UID → UnrlUnit → Int → Option Term
  cmplAll : (UID → Term) → Term

/-- The new steps are unrolled. -/
def addTrans (inc : Inc) (w : UID → UnrlUnit) (i : Int) (s : Solver) : Option Solver :=
  UID.all.foldlM (fun s uid => if (w uid).hi = i then (inc.tran uid (w uid) i).map s.add else some s) s

/-- A path that may be incomplete is unrolled further. -/
def advance (step i : Int) (cmpl : UID → Term) (st : Solver × (UID → UnrlUnit)) (uid : UID) :
    Solver × (UID → UnrlUnit) :=
  let hi := (st.2 uid).hi
  if hi = i then
    let (s, sufficient) := checkCmpl o st.1 (cmpl uid)
    (s, Function.update st.2 uid ⟨hi, if sufficient then hi else hi + step⟩)
  else (st.1, Function.update st.2 uid ⟨hi, hi⟩)

/-- The question of a round. -/
def incQuery (cmplAcc : Term) (s : Solver) : Solver :=
  ((s.add ((Term.const cmplFlag).eq cmplAcc)).add
    ((Term.const cmplFlag).implies (getExpr z3 "old" crr.relation))).add
      ((Term.const cmplFlag).implies (getExpr z3 "new" crr.relation)).neg

/-- What is kept after a round. -/
def partialProp (cmplAcc : Term) : Term :=
  ((cmplAcc.implies (getExpr z3 "old" crr.relation)).conj (getExpr z3 "old" crr.relation)).implies
    (getExpr z3 "new" crr.relation)

/-- The rounds, as many as there is fuel for. -/
def incLoop (inc : Inc) (max step : Int) : Nat → Solver → (UID → UnrlUnit) → Int → Option Bool
  | 0, _, _, _ => none
  | fuel + 1, s, w, i =>
    if max < i then some true
    else if ∀ uid ∈ UID.all, (w uid).hi < i then some true
    else (addTrans inc w i s).bind fun s =>
      let cmpl := fun uid => incCmpl z3 crr uid (w uid).hi
      let asked := incQuery z3 crr (inc.cmplAll cmpl) s.push
      if asked.check o then some false
      else
        let st := UID.all.foldl (advance o step i cmpl) ((asked.pop.add (partialProp z3 crr (inc.cmplAll cmpl))).push, w)
        incLoop inc max step fuel st.1 st.2 (i + step)

def incStart (inc : Inc) (min max step : Int) (fuel : Nat) : Option Bool :=
  (applInstr z3 fresh crr.refineA).bind fun applInstrA => (applInstr z3 fresh crr.refineB).bind fun applInstrB =>
    incLoop z3 o crr inc max step fuel ((Solver.new.add applInstrA).add applInstrB).push (fun _ => ⟨0, min⟩) min

/-- `IncEqCheck`. A path is unrolled from the position of the round, with its own flush condition. -/
def incEqCheck (min max step : Int) (fuel : Nat) : Option Bool :=
  incStart z3 o fresh crr
    { tran := fun uid _ i => incUnrl z3 fresh crr (uid.refine crr).flush uid i step
      cmplAll := fun cmpl => (((cmpl .aOld).conj (cmpl .aNew)).conj (cmpl .bOld)).conj (cmpl .bNew) } min max step fuel

/-- `IncCheck`. The two models share the unrollers, which `Init` leaves with the second flush condition. -/
def incCheck (min max step : Int) (fuel : Nat) : Option Bool :=
  incStart z3 o fresh crr
    { tran := fun uid uu _ => incUnrl z3 fresh crr crr.refineB.flush uid uu.lo (uu.hi - uu.lo)
      cmplAll := fun cmpl => (UID.all.map cmpl).foldl Term.conj (Term.bool true) } min max step fuel

end Check

/-! ### What a round asks -/

section Meaning

variable {z3 : Z3} {o : Oracle} {fresh : Nat} {crr : CompRefRel} {M : Model}

theorem mem_ints {lo hi p : Int} : p ∈ ints lo hi ↔ lo ≤ p ∧ p ≤ hi := by
  simp only [ints, List.mem_map, List.mem_range]
  constructor
  · rintro ⟨n, hn, rfl⟩
    omega
  · intro hp
    exact ⟨(p - lo).toNat, by omega, by omega⟩

theorem Phase.tag_inj : Function.Injective Phase.tag := by
  intro a b h
  cases a <;> cases b <;> simp [Phase.tag] at h ⊢

theorem Phase.tag_plain (p : Phase) : '_' ∉ p.tag.toList ∧ p.tag ≠ "" := by
  cases p <;> decide

theorem sym_ne_cmplFlag (a : Atom) (p : Phase) : (∀ i : Int, a.sym ((Unroller.new p.tag).suffCurr i) ≠ cmplFlag) ∧
    a.sym p.tag ≠ cmplFlag := by
  have hne : ∀ s : String, s ++ "_" ++ p.tag ≠ "cmpl" ++ "_" ++ "flag" := by
    intro s h
    have htag := (Name.tagged_inj h p.tag_plain.1 (by decide)).2
    cases p <;> exact absurd htag (by decide)
  refine ⟨fun i h => ?_, fun h => ?_⟩
  · have hname : (a.sym "").name ++ ("_sEp" ++ "_") ++ (toString i ++ ("_" ++ p.tag)) = "cmpl" ++ "_" ++ "flag" :=
      (Unroller.name_suffCurr (Unroller.new p.tag) a i).symm.trans (congrArg Sym.name h)
    refine hne ((a.sym "").name ++ ("_sEp" ++ "_") ++ toString i) ?_
    simpa only [String.append_assoc] using hname
  · have hname := congrArg Sym.name h
    rw [Unroller.name_tag a p.tag_plain.2] at hname
    exact hne _ hname

theorem exists_flag (N : Model) : ∃ M : Model, M.const cmplFlag = .bool true ∧ (∀ f, M.func f = N.func f) ∧
    ∀ p : Phase, (∀ i : Nat, frame M (curr p.tag i) = frame N (curr p.tag i)) ∧ frame M p.tag = frame N p.tag := by
  obtain ⟨M, hfunc, hflag, hrest⟩ := N.exists_assign (fun _ : Unit => cmplFlag) (fun _ => .bool true) (fun _ => rfl)
    fun _ _ _ => rfl
  have hframe : ∀ s, (∀ a : Atom, a.sym s ≠ cmplFlag) → frame M s = frame N s := by
    intro s hs
    have hatom : (frame M s).atom = (frame N s).atom := funext fun a => hrest _ fun _ => (hs a).symm
    have hfun : (frame M s).func = (frame N s).func := funext fun f => congrFun hfunc f.z3FuncDecl
    cases hM : frame M s
    cases hN : frame N s
    simp only [hM, hN] at hatom hfun
    subst hatom hfun
    rfl
  refine ⟨M, hflag (), fun f => congrFun hfunc f, fun p => ⟨fun i => hframe _ fun a => ?_, hframe _ fun a => ?_⟩⟩
  · exact (sym_ne_cmplFlag a p).1 i
  · exact (sym_ne_cmplFlag a p).2

theorem isBool_cmplFlag : (Term.const cmplFlag).IsBool := by
  intro M
  obtain ⟨b, hb⟩ := Value.exists_bool (M.const_sort cmplFlag)
  exact ⟨b, by rw [Term.eval, hb]⟩

theorem isBool_incCmpl (uid : UID) (hi : Int) : (incCmpl z3 crr uid hi).IsBool :=
  Term.isBool_foldl_disj (Term.isBool_bool false) (List.forall_mem_map.mpr fun _ _ => isBool_getExpr (uid.refine crr).cmpl_check _)

theorem sat_incCmpl {uid : UID} {hi : Int} : M.Sat (incCmpl z3 crr uid hi) ↔
    ∃ i : Nat, (i : Int) ≤ hi ∧ (frame M (curr uid.phase.tag i)).Holds (uid.refine crr).cmpl := by
  rw [incCmpl, Term.sat_foldl_disj (Term.isBool_bool false)
    (List.forall_mem_map.mpr fun _ _ => isBool_getExpr (uid.refine crr).cmpl_check _)]
  simp only [List.mem_map, mem_ints, exists_exists_and_eq_and, sat_getExpr (uid.refine crr).cmpl_check]
  constructor
  · rintro (hfalse | ⟨p, ⟨h0, hp⟩, hcmpl⟩)
    · simp [Model.Sat, Term.eval] at hfalse
    · obtain ⟨i, rfl⟩ := Int.eq_ofNat_of_zero_le h0
      exact ⟨i, hp, hcmpl⟩
  · rintro ⟨i, hi, hcmpl⟩
    exact .inr ⟨i, ⟨Int.natCast_nonneg i, hi⟩, hcmpl⟩

theorem sat_incQuery {cmplAcc : Term} {s : Solver} (hflag : M.const cmplFlag = .bool true) (hs : ∀ t ∈ s.assertions, M.Sat t)
    (hcmpl : M.Sat cmplAcc) (hassm : M.Sat (getExpr z3 "old" crr.relation))
    (hprop : ¬M.Sat (getExpr z3 "new" crr.relation)) : ∀ t ∈ (incQuery z3 crr cmplAcc s).assertions, M.Sat t := by
  have hcf : M.Sat (Term.const cmplFlag) := by
    rw [Model.Sat, Term.eval, hflag]
  have hprop' : (getExpr z3 "new" crr.relation).IsBool := isBool_getExpr crr.relation_check _
  simp only [incQuery, Solver.assertions_add, List.forall_mem_append, List.forall_mem_singleton]
  refine ⟨⟨⟨hs, Term.sat_eq.mpr ⟨_, hcf, hcmpl⟩⟩, ?_⟩, ?_⟩
  · exact (isBool_cmplFlag.sat_implies (isBool_getExpr crr.relation_check _)).mpr fun _ => hassm
  · rw [(isBool_cmplFlag.implies hprop').sat_neg, isBool_cmplFlag.sat_implies hprop']
    exact fun h => hprop (h hcf)

theorem sat_partialProp {cmplAcc : Term} (hcmpl : cmplAcc.IsBool) (h : M.Sat (partialProp z3 crr cmplAcc))
    (hassm : M.Sat (getExpr z3 "old" crr.relation)) : M.Sat (getExpr z3 "new" crr.relation) := by
  have hold : (getExpr z3 "old" crr.relation).IsBool := isBool_getExpr crr.relation_check _
  have hnew : (getExpr z3 "new" crr.relation).IsBool := isBool_getExpr crr.relation_check _
  rw [partialProp, ((hcmpl.implies hold).conj hold).sat_implies hnew, Term.sat_conj, hcmpl.sat_implies hold] at h
  exact h ⟨fun _ => hassm, hassm⟩

end Meaning

/-! ### Executions -/

/-- One step under the apply condition, and two paths that are flushed from its ends. -/
structure IncRuns (r : RefinementMap) (apl old new : Trace) (nOld nNew : Nat) : Prop where
  applied : (apl.frame 0).Holds r.appl
  step : r.coi.Step (apl.frame 0) (apl.frame 1)
  keeps : r.Keeps apl 1
  start : RefinementMap.SameOn r.coi.getSttTree (apl.frame 0) (old.frame 0)
  next : RefinementMap.SameOn r.coi.getSttTree (apl.frame 1) (new.frame 0)
  old_flushes : r.Flushes old 0 nOld
  new_flushes : r.Flushes new 0 nNew
  old_func : old.func = apl.func
  new_func : new.func = apl.func

/-- No execution, whose paths all complete within the bounds, is related before the instruction and not after it. -/
def CommutesWithin (crr : CompRefRel) (min max : Int) : Prop :=
  ∀ aplA oldA newA aplB oldB newB : Trace, ∀ nOldA nNewA nOldB nNewB : Nat, aplB.func = aplA.func →
    IncRuns crr.refineA aplA oldA newA nOldA nNewA → IncRuns crr.refineB aplB oldB newB nOldB nNewB →
    (∀ n ∈ [nOldA, nNewA, nOldB, nNewB], min ≤ (n : Int) ∧ (n : Int) ≤ max) →
    ∀ i ≤ nOldA, ∀ j ≤ nOldB, crr.refineA.Completes oldA i → crr.refineB.Completes oldB j →
      (crr.join (oldA.frame i) (oldB.frame j)).Holds crr.relation →
    ∀ i' ≤ nNewA, ∀ j' ≤ nNewB, crr.refineA.Completes newA i' → crr.refineB.Completes newB j' →
      (crr.join (newA.frame i') (newB.frame j')).Holds crr.relation

/-- A path completes in the first round, and it can be flushed for some length without another state at a
completion point. -/
structure Settles (r : RefinementMap) (min length : Int) (τ : Trace) (n : Nat) : Prop where
  early : ∃ i ≤ n, (i : Int) ≤ min ∧ r.Completes τ i
  goesOn : ∃ τ' : Trace, ∃ m : Nat, n ≤ m ∧ length ≤ m ∧ r.Flushes τ' 0 m ∧ τ'.func = τ.func ∧
    (∀ i ≤ n, τ'.frame i = τ.frame i) ∧ ∀ i ≤ m, ∀ j ≤ m, r.Completes τ' i → r.Completes τ' j →
      RefinementMap.SameOn r.coi.getSttTree (τ'.frame i) (τ'.frame j)

/-- All paths that complete within the bound do so. -/
def Settled (r : RefinementMap) (min max length : Int) : Prop :=
  ∀ (apl old new : Trace) (nOld nNew : Nat), IncRuns r apl old new nOld nNew → (nOld : Int) ≤ max → (nNew : Int) ≤ max →
    (∃ i ≤ nOld, r.Completes old i) → (∃ i ≤ nNew, r.Completes new i) →
      Settles r min length old nOld ∧ Settles r min length new nNew

section Sound

variable {z3 : Z3} {o : Oracle} {fresh : Nat} {crr : CompRefRel} {M : Model}

theorem accepted_of_applInstr {r : RefinementMap} {φ : Term} (hφ : applInstr z3 fresh r = some φ) :
    MonoUnroll.Accepted fresh r.coi := by
  rw [applInstr, Option.map_eq_some_iff] at hφ
  obtain ⟨step, hstep, -⟩ := hφ
  exact MonoUnroll.accepted_of_monoAssn hstep Nat.one_pos

theorem sat_applInstr {r : RefinementMap} {apl old new : Trace} {nOld nNew : Nat} {x y z : Nat → Var} {φ : Term}
    (hφ : applInstr z3 fresh r = some φ) (hruns : IncRuns r apl old new nOld nNew)
    (hapl : ∀ i, r.Records fresh "apl" M apl (x i) i) (hold : r.Records fresh "old" M old (y 0) 0)
    (hnew : r.Records fresh "new" M new (z 0) 0) (hx : r.Picks fresh apl 1 x) : M.Sat φ := by
  rw [applInstr, Option.map_eq_some_iff] at hφ
  obtain ⟨step, hstep, rfl⟩ := hφ
  have hinv : ∀ i ≤ 1, ∀ e ∈ r.invs, (frame M (curr "apl" i)).Holds e := fun i hi e he =>
    ((hapl i).holds_iff (by simp [RefinementMap.exprs, he])).mpr (hruns.keeps i hi e he)
  have happl : (frame M (curr "apl" 0)).Holds r.appl :=
    ((hapl 0).holds_iff (by simp [RefinementMap.exprs])).mpr hruns.applied
  have htag : ((globPreds "apl" r.invs).addStepPred r.appl 0).extraSuff = "apl" := by
    rw [globPreds_eq]
    rfl
  rw [Term.sat_conj, Term.sat_conj, Term.sat_conj, Term.sat_conj, Term.sat_conjAll, List.forall_mem_flatMap,
    sat_getExpr r.flush_check, sat_getExpr r.flush_check, sat_monoAssn_iff 0 htag hstep, globPreds_eq]
  refine ⟨⟨⟨⟨rfl, stepwise_of_records hapl hx, fun i hi e he => ?_, fun e he => ?_⟩, fun v hv => ?_⟩, ?_⟩, ?_⟩
  · obtain rfl : i = 0 := by omega
    simp only [Unroller.initPred, Unroller.addStepPred, Unroller.new, List.mem_append] at he
    rcases he with (he | he) | he
    · cases he
    · exact hinv 0 (Nat.zero_le 1) e he
    · obtain rfl : e = r.appl := by simpa using he
      exact happl
  · simp only [Unroller.addStepPred, Unroller.new, List.mem_append] at he
    rcases he with he | he
    · exact hinv 1 le_rfl e he
    · cases he
  · simp only [List.forall_mem_cons, List.not_mem_nil, false_implies, implies_true, and_true, sat_eqVar]
    have hzero : M.const (v.sym (curr "apl" 0)) = apl.atom 0 (.var v) := (hapl 0).const_eq hv
    have hone : M.const (v.sym (curr "apl" 1)) = apl.atom 1 (.var v) := (hapl 1).const_eq hv
    exact ⟨(hzero.trans (hruns.start v hv)).trans (hold.const_eq hv).symm,
      (hone.trans (hruns.next v hv)).trans (hnew.const_eq hv).symm⟩
  · exact (hold.holds_iff (by simp [RefinementMap.exprs])).mpr (hruns.old_flushes.2 0 le_rfl (Nat.zero_le _))
  · exact (hnew.holds_iff (by simp [RefinementMap.exprs])).mpr (hruns.new_flushes.2 0 le_rfl (Nat.zero_le _))

theorem sat_incUnrl {flush : Expr} {uid : UID} {base m : Nat} {length : Int} {τ : Trace} {x : Nat → Var} {φ : Term}
    (hφ : incUnrl z3 fresh crr flush uid base length = some φ) (hm : (base : Int) + length ≤ m)
    (hrec : ∀ i, (uid.refine crr).Records fresh uid.phase.tag M τ (x i) i) (hx : (uid.refine crr).Picks fresh τ m x)
    (hflush : ∀ i ≤ m, (frame M (curr uid.phase.tag i)).Holds flush)
    (hmark : ∀ i ≤ m, (uid.refine crr).Completes τ i →
      RefinementMap.SameOn (uid.refine crr).coi.getSttTree (frame M uid.phase.tag) (τ.frame i)) : M.Sat φ := by
  simp only [incUnrl, Option.ite_none_left_eq_some, Option.map_eq_some_iff] at hφ
  obtain ⟨hpos, tran, htran, rfl⟩ := hφ
  have htag : (globPreds uid.phase.tag [flush]).extraSuff = uid.phase.tag := by
    rw [globPreds_eq]
    rfl
  have hsum : base + length.toNat ≤ m := by omega
  rw [Term.sat_foldl_conj, List.forall_mem_map, sat_monoAssn_iff base htag htran, globPreds_eq]
  refine ⟨⟨stepwise_of_records hrec fun i hi => hx i (by omega), fun i hi e he => ?_, fun e he => ?_⟩, fun p hp => ?_⟩
  · obtain rfl : e = flush := by simpa [Unroller.initPred, Unroller.new] using he
    exact hflush _ (by omega)
  · obtain rfl : e = flush := by simpa [Unroller.new] using he
    exact hflush _ (by omega)
  · rw [mem_ints] at hp
    obtain ⟨i, rfl⟩ := Int.eq_ofNat_of_zero_le (show 0 ≤ p by omega)
    refine sat_markAt.mpr fun hcmpl v hv => ?_
    have hcmpl' := ((hrec i).holds_iff (by simp [RefinementMap.exprs])).mp hcmpl
    exact (hmark i (by omega) hcmpl' v hv).trans ((hrec i).const_eq hv).symm

theorem incLoop_first {inc : Inc} {min max step : Int} {fuel : Nat} {s : Solver} (hle : min ≤ max)
    (h : incLoop z3 o crr inc max step fuel s (fun _ => ⟨0, min⟩) min = some true) :
    ∃ t : UID → Term, (∀ uid, inc.tran uid ⟨0, min⟩ min = some (t uid)) ∧ ∀ M : Model, (∀ a ∈ s.assertions, M.Sat a) →
      (∀ uid, M.Sat (t uid)) → M.const cmplFlag = .bool true → M.Sat (inc.cmplAll fun uid => incCmpl z3 crr uid min) →
      M.Sat (getExpr z3 "old" crr.relation) → M.Sat (getExpr z3 "new" crr.relation) := by
  cases fuel with
  | zero => cases h
  | succ fuel =>
    rw [incLoop, if_neg (by omega), if_neg fun hall => Int.lt_irrefl min (hall .aOld List.mem_cons_self),
      Option.bind_eq_some_iff] at h
    obtain ⟨s', hs', h⟩ := h
    simp only [addTrans, UID.all, if_true, List.foldlM_cons, List.foldlM_nil, Option.bind_eq_bind, Option.bind_eq_some_iff,
      Option.map_eq_some_iff, Option.pure_def, Option.some.injEq] at hs'
    obtain ⟨-, ⟨ta, hta, rfl⟩, -, ⟨tb, htb, rfl⟩, -, ⟨tc, htc, rfl⟩, -, ⟨td, htd, rfl⟩, rfl⟩ := hs'
    let t : UID → Term := fun uid =>
      match uid with
      | .aOld => ta
      | .aNew => tb
      | .bOld => tc
      | .bNew => td
    refine ⟨t, fun uid => by cases uid <;> assumption, fun M hM ht hflag hcmpl hassm => ?_⟩
    by_contra hprop
    have hsat : (incQuery z3 crr (inc.cmplAll fun uid => incCmpl z3 crr uid min)
        ((((s.add ta).add tb).add tc).add td).push).check o = true := by
      rw [Solver.check, o.sat_iff]
      refine ⟨M, sat_incQuery hflag ?_ hcmpl hassm hprop⟩
      simp only [Solver.assertions_push, Solver.assertions_add, List.forall_mem_append, List.forall_mem_singleton]
      exact ⟨⟨⟨⟨hM, ht .aOld⟩, ht .aNew⟩, ht .bOld⟩, ht .bNew⟩
    rw [if_pos hsat] at h
    cases h

/-- What the two checks have in common: all paths are unrolled with some flush condition, over steps that
lie within a length, and completion is the completion of all of them. -/
structure Inc.Covers (inc : Inc) (z3 : Z3) (fresh : Nat) (crr : CompRefRel) (min length : Int) : Prop where
  tran : ∀ uid, ∃ flush base len, 0 ≤ base ∧ base + len ≤ length ∧ (flush = (uid.refine crr).flush ∨ flush = crr.refineB.flush) ∧
    inc.tran uid ⟨0, min⟩ min = incUnrl z3 fresh crr flush uid base len
  all : ∀ (M : Model) (cmpl : UID → Term), (∀ uid, M.Sat (cmpl uid)) → M.Sat (inc.cmplAll cmpl)

/-- A function on the phases. -/
def Phase.pick {α : Type} (old new apl : α) : Phase → α
  | .old => old
  | .new => new
  | .apl => apl

theorem records_congr {r : RefinementMap} {N : Model} {tag : String} {τ : Trace} {x : Var} {i : Nat}
    (hframe : frame M (curr tag i) = frame N (curr tag i)) (h : r.Records fresh tag N τ x i) :
    r.Records fresh tag M τ x i := by
  have hframe' : frame M ((Unroller.new tag).suffCurr i) = frame N ((Unroller.new tag).suffCurr i) := hframe
  obtain ⟨heval, hspans, honly⟩ := h
  rw [← hframe'] at heval hspans honly
  exact ⟨heval, hspans, honly⟩

theorem Settles.exists_path {r : RefinementMap} {min length : Int} {τ : Trace} {n i : Nat}
    (hs : Settles r min length τ n) (hi : i ≤ n) (hci : r.Completes τ i) :
    ∃ τ' : Trace, r.Flushes τ' 0 length.toNat ∧ τ'.func = τ.func ∧ τ'.frame 0 = τ.frame 0 ∧
      (∃ l : Nat, (l : Int) ≤ min ∧ r.Completes τ' l) ∧
      ∀ l ≤ length.toNat, r.Completes τ' l → RefinementMap.SameOn r.coi.getSttTree (τ.frame i) (τ'.frame l) := by
  obtain ⟨l, hl, hmin, hcl⟩ := hs.early
  obtain ⟨τ', m, hnm, hlen, hflush, hfunc, hsame, hone⟩ := hs.goesOn
  have hcompletes : ∀ k ≤ n, r.Completes τ k → r.Completes τ' k := by
    intro k hk hck
    rw [RefinementMap.Completes, hsame k hk]
    exact hck
  refine ⟨τ', ⟨fun k hk => hflush.1 k (by omega), fun k _ hk => hflush.2 k (Nat.zero_le k) (by omega)⟩, hfunc,
    hsame 0 (Nat.zero_le n), ⟨l, hmin, hcompletes l hl hcl⟩, fun k hk hck => ?_⟩
  rw [← hsame i hi]
  exact hone i (by omega) k (by omega) (hcompletes i hi hci) hck

theorem IncRuns.exists_unrolled {r : RefinementMap} {apl old new : Trace} {nOld nNew i i' : Nat} {min length : Int}
    (hruns : IncRuns r apl old new nOld nNew) (hold : Settles r min length old nOld) (hnew : Settles r min length new nNew)
    (hi : i ≤ nOld) (hci : r.Completes old i) (hi' : i' ≤ nNew) (hci' : r.Completes new i') :
    ∃ old' new' : Trace, IncRuns r apl old' new' length.toNat length.toNat ∧
      (∃ l : Nat, (l : Int) ≤ min ∧ r.Completes old' l) ∧ (∃ l : Nat, (l : Int) ≤ min ∧ r.Completes new' l) ∧
      (∀ l ≤ length.toNat, r.Completes old' l → RefinementMap.SameOn r.coi.getSttTree (old.frame i) (old'.frame l)) ∧
      ∀ l ≤ length.toNat, r.Completes new' l → RefinementMap.SameOn r.coi.getSttTree (new.frame i') (new'.frame l) := by
  obtain ⟨old', hflush, hfunc, hzero, hearly, hsame⟩ := hold.exists_path hi hci
  obtain ⟨new', hflush', hfunc', hzero', hearly', hsame'⟩ := hnew.exists_path hi' hci'
  refine ⟨old', new', ?_, hearly, hearly', hsame, hsame'⟩
  refine ⟨hruns.applied, hruns.step, hruns.keeps, ?_, ?_, hflush, hflush', hfunc.trans hruns.old_func,
    hfunc'.trans hruns.new_func⟩
  · rw [hzero]
    exact hruns.start
  · rw [hzero']
    exact hruns.next

theorem exists_recorded_runs {L : Nat} {aplA oldA newA aplB oldB newB : Trace} (hnames : crr.DistinctNames fresh)
    (hfunc : aplB.func = aplA.func) (hrunA : IncRuns crr.refineA aplA oldA newA L L)
    (hrunB : IncRuns crr.refineB aplB oldB newB L L) (xA xB : Phase → Nat → Var) (rep : Phase → Valuation) :
    ∃ M : Model, M.const cmplFlag = .bool true ∧
      (∀ p i, crr.refineA.Records fresh p.tag M (p.pick oldA newA aplA) (xA p i) i) ∧
      (∀ p i, crr.refineB.Records fresh p.tag M (p.pick oldB newB aplB) (xB p i) i) ∧
      (∀ p, ∀ a ∈ crr.repAtoms, M.const (a.sym p.tag) = (rep p).atom a) ∧
      ∀ f ∈ crr.funcs, M.func f.z3FuncDecl = aplA.func f := by
  obtain ⟨N, hrecA, hrecB, hrep, hN⟩ := CompRefRel.exists_records Phase.tag_inj Phase.tag_plain hnames
    (Phase.pick oldA newA aplA) (Phase.pick oldB newB aplB) xA xB rep (aplA.frame 0)
    (fun p => by
      cases p with
      | old => exact hrunA.old_func
      | new => exact hrunA.new_func
      | apl => rfl)
    (fun p => by
      cases p with
      | old => exact hrunB.old_func.trans hfunc
      | new => exact hrunB.new_func.trans hfunc
      | apl => exact hfunc)
  obtain ⟨M, hflag, hMN, hframe⟩ := exists_flag N
  refine ⟨M, hflag, fun p i => records_congr ((hframe p).1 i) (hrecA p i),
    fun p i => records_congr ((hframe p).1 i) (hrecB p i), fun p a ha => ?_, fun f hf => (hMN _).trans (hN f hf)⟩
  have hatom : (frame M p.tag).atom a = (frame N p.tag).atom a := by rw [(hframe p).2]
  exact hatom.trans (hrep p a ha)

theorem exists_phase_picks {r : RefinementMap} {apl old new : Trace} {L : Nat} (hacc : MonoUnroll.Accepted fresh r.coi)
    (hnames : r.DistinctNames fresh) (hruns : IncRuns r apl old new L L) :
    ∃ x : Phase → Nat → Var, r.Picks fresh old L (x .old) ∧ r.Picks fresh new L (x .new) ∧ r.Picks fresh apl 1 (x .apl) := by
  have hbits := RefinementMap.bitsApart_of_nodup hnames.side
  obtain ⟨x, hx⟩ := RefinementMap.exists_picks (fun _ => hacc) hbits hruns.old_flushes.1
  obtain ⟨y, hy⟩ := RefinementMap.exists_picks (fun _ => hacc) hbits hruns.new_flushes.1
  have hstep : ∀ i < 1, r.coi.Step (apl.frame i) (apl.frame (i + 1)) := by
    intro i hi
    obtain rfl : i = 0 := by omega
    exact hruns.step
  obtain ⟨z, hz⟩ := RefinementMap.exists_picks (fun _ => hacc) hbits hstep
  exact ⟨Phase.pick x y z, hx, hy, hz⟩

/-- A path that is recorded, with its bits, and marked. -/
structure Unrolled (fresh : Nat) (crr : CompRefRel) (min : Int) (L : Nat) (M : Model) (uid : UID) (τ : Trace) (x : Nat → Var) :
    Prop where
  recorded : ∀ i, (uid.refine crr).Records fresh uid.phase.tag M τ (x i) i
  picks : (uid.refine crr).Picks fresh τ L x
  flushes : (uid.refine crr).Flushes τ 0 L
  early : ∃ l : Nat, (l : Int) ≤ min ∧ (uid.refine crr).Completes τ l
  marked : ∀ l ≤ L, (uid.refine crr).Completes τ l →
    RefinementMap.SameOn (uid.refine crr).coi.getSttTree (frame M uid.phase.tag) (τ.frame l)

theorem Unrolled.sat_incCmpl {min : Int} {L : Nat} {uid : UID} {τ : Trace} {x : Nat → Var}
    (h : Unrolled fresh crr min L M uid τ x) : M.Sat (incCmpl z3 crr uid min) := by
  obtain ⟨l, hl, hcmpl⟩ := h.early
  exact CommDiag.sat_incCmpl.mpr ⟨l, hl, ((h.recorded l).holds_iff (by simp [RefinementMap.exprs])).mpr hcmpl⟩

theorem Unrolled.holds_flush {min : Int} {L : Nat} {uid : UID} {τ : Trace} {x : Nat → Var}
    (h : Unrolled fresh crr min L M uid τ x) : ∀ i ≤ L, (frame M (curr uid.phase.tag i)).Holds (uid.refine crr).flush :=
  fun i hi => ((h.recorded i).holds_iff (by simp [RefinementMap.exprs])).mpr (h.flushes.2 i (Nat.zero_le i) hi)

theorem Inc.Covers.sat_tran {inc : Inc} {min length : Int} (hinc : inc.Covers z3 fresh crr min length)
    (hall : ∀ uid, ∃ τ x, Unrolled fresh crr min length.toNat M uid τ x) {t : UID → Term}
    (ht : ∀ uid, inc.tran uid ⟨0, min⟩ min = some (t uid)) (uid : UID) : M.Sat (t uid) := by
  have hflushB : ∀ i ≤ length.toNat, (frame M (curr uid.phase.tag i)).Holds crr.refineB.flush := by
    obtain ⟨_, _, hold⟩ := hall .bOld
    obtain ⟨_, _, hnew⟩ := hall .bNew
    cases uid with
    | aOld => exact hold.holds_flush
    | aNew => exact hnew.holds_flush
    | bOld => exact hold.holds_flush
    | bNew => exact hnew.holds_flush
  obtain ⟨τ, x, h⟩ := hall uid
  obtain ⟨flush, base, len, hbase, hlen, hflush, htran⟩ := hinc.tran uid
  obtain ⟨b, rfl⟩ := Int.eq_ofNat_of_zero_le hbase
  rw [ht] at htran
  have hflush' : ∀ i ≤ length.toNat, (frame M (curr uid.phase.tag i)).Holds flush := by
    rcases hflush with rfl | rfl
    · exact h.holds_flush
    · exact hflushB
  exact sat_incUnrl htran.symm (by omega) h.recorded h.picks hflush' h.marked

theorem incStart_sound {inc : Inc} {min max step length : Int} {fuel : Nat} (hinc : inc.Covers z3 fresh crr min length)
    (hnames : crr.DistinctNames fresh) (hA : Settled crr.refineA min max length)
    (hB : Settled crr.refineB min max length) (h : incStart z3 o fresh crr inc min max step fuel = some true) :
    CommutesWithin crr min max := by
  intro aplA oldA newA aplB oldB newB nOldA nNewA nOldB nNewB hfunc hrunA hrunB hn i hi j hj hci hcj hrel i' hi' j' hj' hci' hcj'
  simp only [List.forall_mem_cons, List.not_mem_nil, false_implies, implies_true, and_true] at hn
  obtain ⟨hnOA, hnNA, hnOB, hnNB⟩ := hn
  simp only [incStart, Option.bind_eq_some_iff] at h
  obtain ⟨applA, happlA, applB, happlB, h⟩ := h
  obtain ⟨t, ht, hquery⟩ := incLoop_first (by omega) h
  -- the paths are continued, so that they are as long as what is unrolled
  obtain ⟨hsOA, hsNA⟩ := hA aplA oldA newA nOldA nNewA hrunA hnOA.2 hnNA.2 ⟨i, hi, hci⟩ ⟨i', hi', hci'⟩
  obtain ⟨hsOB, hsNB⟩ := hB aplB oldB newB nOldB nNewB hrunB hnOB.2 hnNB.2 ⟨j, hj, hcj⟩ ⟨j', hj', hcj'⟩
  obtain ⟨oldA', newA', hrunA', ⟨kOA, hkOA, hcOA⟩, ⟨kNA, hkNA, hcNA⟩, hoA, hnA⟩ :=
    hrunA.exists_unrolled hsOA hsNA hi hci hi' hci'
  obtain ⟨oldB', newB', hrunB', ⟨kOB, hkOB, hcOB⟩, ⟨kNB, hkNB, hcNB⟩, hoB, hnB⟩ :=
    hrunB.exists_unrolled hsOB hsNB hj hcj hj' hcj'
  obtain ⟨xA, hxoA, hxnA, hxaA⟩ := exists_phase_picks (accepted_of_applInstr happlA) hnames.refineA hrunA'
  obtain ⟨xB, hxoB, hxnB, hxaB⟩ := exists_phase_picks (accepted_of_applInstr happlB) hnames.refineB hrunB'
  obtain ⟨M, hflag, hrecA, hrecB, hrep, hM⟩ := exists_recorded_runs hnames hfunc hrunA' hrunB' xA xB
    (Phase.pick (crr.join (oldA.frame i) (oldB.frame j)) (crr.join (newA.frame i') (newB.frame j')) (aplA.frame 0))
  have hrepA : ∀ v ∈ crr.refineA.coi.getSttTree, Atom.var v ∈ crr.repAtoms := fun v hv =>
    List.mem_append_right _ (List.mem_map_of_mem (List.mem_append_left _ hv))
  have hrepB : ∀ v ∈ crr.refineB.coi.getSttTree, Atom.var v ∈ crr.repAtoms := fun v hv =>
    List.mem_append_right _ (List.mem_map_of_mem (List.mem_append_right _ hv))
  have hall : ∀ uid, ∃ τ x, Unrolled fresh crr min length.toNat M uid τ x := by
    intro uid
    cases uid with
    | aOld =>
      refine ⟨oldA', xA .old, hrecA .old, hxoA, hrunA'.old_flushes, ⟨kOA, hkOA, hcOA⟩, fun l hl hc v hv => ?_⟩
      exact ((hrep .old _ (hrepA v hv)).trans (CompRefRel.join_a _ _ hv)).trans (hoA l hl hc v hv)
    | aNew =>
      refine ⟨newA', xA .new, hrecA .new, hxnA, hrunA'.new_flushes, ⟨kNA, hkNA, hcNA⟩, fun l hl hc v hv => ?_⟩
      exact ((hrep .new _ (hrepA v hv)).trans (CompRefRel.join_a _ _ hv)).trans (hnA l hl hc v hv)
    | bOld =>
      refine ⟨oldB', xB .old, hrecB .old, hxoB, hrunB'.old_flushes, ⟨kOB, hkOB, hcOB⟩, fun l hl hc v hv => ?_⟩
      exact ((hrep .old _ (hrepB v hv)).trans (CompRefRel.join_b hnames _ _ hv)).trans (hoB l hl hc v hv)
    | bNew =>
      refine ⟨newB', xB .new, hrecB .new, hxnB, hrunB'.new_flushes, ⟨kNB, hkNB, hcNB⟩, fun l hl hc v hv => ?_⟩
      exact ((hrep .new _ (hrepB v hv)).trans (CompRefRel.join_b hnames _ _ hv)).trans (hnB l hl hc v hv)
  have hsatA := sat_applInstr happlA hrunA' (hrecA .apl) (hrecA .old 0) (hrecA .new 0) hxaA
  have hsatB := sat_applInstr happlB hrunB' (hrecB .apl) (hrecB .old 0) (hrecB .new 0) hxaB
  have hcmpl : M.Sat (inc.cmplAll fun uid => incCmpl z3 crr uid min) := by
    refine hinc.all M _ fun uid => ?_
    obtain ⟨τ, x, hunr⟩ := hall uid
    exact hunr.sat_incCmpl
  have hprop := hquery M (by simpa using ⟨hsatA, hsatB⟩) (hinc.sat_tran hall ht) hflag hcmpl ((sat_getExpr crr.relation_check).mpr
    ((CompRefRel.holds_relation (hrep .old) fun f hf => (hM f hf).trans (congrFun hrunA.old_func f).symm).mpr hrel))
  exact (CompRefRel.holds_relation (hrep .new) fun f hf => (hM f hf).trans (congrFun hrunA.new_func f).symm).mp
    ((sat_getExpr crr.relation_check).mp hprop)

theorem commutesWithin_of_neg {min max length : Int} (hneg : min < 0) (hA : Settled crr.refineA min max length) :
    CommutesWithin crr min max := by
  intro aplA oldA newA _ _ _ nOldA nNewA _ _ _ hrunA _ hn i hi j hj hci hcj hrel i' hi' j' hj' hci' hcj'
  simp only [List.forall_mem_cons] at hn
  obtain ⟨l, -, hl, -⟩ := (hA aplA oldA newA nOldA nNewA hrunA hn.1.2 hn.2.1.2 ⟨i, hi, hci⟩ ⟨i', hi', hci'⟩).1.early
  omega

/-- If the paths that complete do so in the first round, then what the incremental checks accept commutes. -/
theorem incChecks_sound {min max step : Int} {fuel : Nat} (hnames : crr.DistinctNames fresh) :
    (Settled crr.refineA min max (min + step) → Settled crr.refineB min max (min + step) →
      incEqCheck z3 o fresh crr min max step fuel = some true → CommutesWithin crr min max) ∧
    (Settled crr.refineA min max min → Settled crr.refineB min max min →
      incCheck z3 o fresh crr min max step fuel = some true → CommutesWithin crr min max) := by
  refine ⟨fun hA hB h => ?_, fun hA hB h => ?_⟩
  · rcases Int.lt_or_le min 0 with hneg | hmin
    · exact commutesWithin_of_neg hneg hA
    · refine incStart_sound ⟨fun uid => ?_, fun M cmpl hall => ?_⟩ hnames hA hB h
      · exact ⟨_, min, step, hmin, le_rfl, .inl rfl, rfl⟩
      · simp only [Term.sat_conj]
        exact ⟨⟨⟨hall .aOld, hall .aNew⟩, hall .bOld⟩, hall .bNew⟩
  · refine incStart_sound ⟨fun uid => ?_, fun M cmpl hall => ?_⟩ hnames hA hB h
    · exact ⟨_, 0, min - 0, le_rfl, by omega, .inr rfl, rfl⟩
    · rw [Term.sat_foldl_conj, List.forall_mem_map]
      exact ⟨rfl, fun uid _ => hall uid⟩

end Sound

/-! ### Positive answers -/

section Answers

variable {z3 : Z3} {o : Oracle} {fresh : Nat} {crr : CompRefRel} {M : Model} {inc : Inc}

/-- The assertions leave no counterexample. -/
def Kept (z3 : Z3) (crr : CompRefRel) (s : Solver) : Prop :=
  ∀ M : Model, (∀ t ∈ s.assertions, M.Sat t) → M.Sat (getExpr z3 "old" crr.relation) → M.Sat (getExpr z3 "new" crr.relation)

theorem Kept.mono {s s' : Solver} (h : Kept z3 crr s) (hsub : ∀ t ∈ s.assertions, t ∈ s'.assertions) : Kept z3 crr s' :=
  fun M hM => h M fun t ht => hM t (hsub t ht)

theorem check_incQuery_of_kept {s : Solver} (h : Kept z3 crr s) (cmplAcc : Term) :
    (incQuery z3 crr cmplAcc s).check o = false := by
  rw [Solver.check, o.sat_eq_false_iff]
  intro M hM
  have hprop' : (getExpr z3 "new" crr.relation).IsBool := isBool_getExpr crr.relation_check _
  simp only [incQuery, Solver.assertions_add, List.forall_mem_append, List.forall_mem_singleton,
    (isBool_cmplFlag.implies hprop').sat_neg, isBool_cmplFlag.sat_implies hprop',
    isBool_cmplFlag.sat_implies (isBool_getExpr crr.relation_check _), Classical.not_imp] at hM
  obtain ⟨⟨⟨hs, -⟩, hassm⟩, hcf, hprop⟩ := hM
  exact hprop (h M hs (hassm hcf))

theorem exists_addTrans {w : UID → UnrlUnit} {i : Int} (htran : ∀ uid, (inc.tran uid (w uid) i).isSome) (s : Solver) :
    ∃ s', addTrans inc w i s = some s' ∧ ∀ t ∈ s.assertions, t ∈ s'.assertions := by
  have hfold : ∀ (l : List UID) (s : Solver), ∃ s', l.foldlM (fun s uid =>
      if (w uid).hi = i then (inc.tran uid (w uid) i).map s.add else some s) s = some s' ∧
      ∀ t ∈ s.assertions, t ∈ s'.assertions := by
    intro l
    induction l with
    | nil => exact fun s => ⟨s, rfl, fun _ ht => ht⟩
    | cons uid l ih =>
      intro s
      rw [List.foldlM_cons]
      split
      · obtain ⟨φ, hφ⟩ := Option.isSome_iff_exists.mp (htran uid)
        obtain ⟨s', hs', hsub⟩ := ih (s.add φ)
        rw [hφ]
        exact ⟨s', hs', fun t ht => hsub t (List.mem_append_left _ ht)⟩
      · exact ih s
  exact hfold UID.all s

theorem checkCmpl_mono (s : Solver) (cmpl : Term) : ∀ t ∈ s.assertions, t ∈ (checkCmpl o s cmpl).1.assertions := by
  intro t ht
  rw [checkCmpl]
  split
  · exact ht
  · exact List.mem_append_left _ ht

theorem foldl_advance {step i : Int} (hstep : 0 ≤ step) (cmpl : UID → Term) (l : List UID) (st : Solver × (UID → UnrlUnit))
    (hw : ∀ uid, (st.2 uid).lo ≤ (st.2 uid).hi) :
    (∀ t ∈ st.1.assertions, t ∈ (l.foldl (advance o step i cmpl) st).1.assertions) ∧
      ∀ uid, ((l.foldl (advance o step i cmpl) st).2 uid).lo ≤ ((l.foldl (advance o step i cmpl) st).2 uid).hi := by
  induction l generalizing st with
  | nil => exact ⟨fun _ ht => ht, hw⟩
  | cons u l ih =>
    rw [List.foldl_cons]
    have hnext : (∀ t ∈ st.1.assertions, t ∈ (advance o step i cmpl st u).1.assertions) ∧
        ∀ uid, ((advance o step i cmpl st u).2 uid).lo ≤ ((advance o step i cmpl st u).2 uid).hi := by
      simp only [advance]
      split
      · refine ⟨checkCmpl_mono _ _, fun uid => ?_⟩
        by_cases huid : uid = u
        · subst huid
          simp only [Function.update_self]
          split <;> omega
        · simp only [Function.update_of_ne huid]
          exact hw uid
      · refine ⟨fun _ ht => ht, fun uid => ?_⟩
        by_cases huid : uid = u
        · subst huid
          simp only [Function.update_self]
          exact Int.le_refl _
        · simp only [Function.update_of_ne huid]
          exact hw uid
    obtain ⟨hsub, hlast⟩ := ih _ hnext.2
    exact ⟨fun t ht => hsub t (hnext.1 t ht), hlast⟩

theorem incLoop_of_kept {max step : Int} (hstep : 0 < step)
    (htran : ∀ (uid : UID) (uu : UnrlUnit) (i : Int), uu.lo ≤ uu.hi → (inc.tran uid uu i).isSome)
    {fuel : Nat} {s : Solver} {w : UID → UnrlUnit} {i : Int} (hs : Kept z3 crr s) (hw : ∀ uid, (w uid).lo ≤ (w uid).hi)
    (hfuel : (max + 1 - i).toNat < fuel) : incLoop z3 o crr inc max step fuel s w i = some true := by
  induction fuel generalizing s w i with
  | zero => omega
  | succ fuel ih =>
    rw [incLoop]
    split
    · rfl
    split
    · rfl
    obtain ⟨s', hs', hsub⟩ := exists_addTrans (fun uid => htran uid (w uid) i (hw uid)) s
    have hkept : Kept z3 crr s' := hs.mono hsub
    have hfalse := check_incQuery_of_kept (o := o) (s := s'.push) hkept
      (inc.cmplAll fun uid => incCmpl z3 crr uid (w uid).hi)
    simp only [hs', Option.bind_some, hfalse, Bool.false_eq_true, if_false]
    obtain ⟨hsub', hw'⟩ := foldl_advance (o := o) (i := i) (Int.le_of_lt hstep) (fun uid => incCmpl z3 crr uid (w uid).hi)
      UID.all ((s'.add (partialProp z3 crr (inc.cmplAll fun uid => incCmpl z3 crr uid (w uid).hi))).push, w) hw
    refine ih (hkept.mono fun t ht => hsub' t (List.mem_append_left _ ht)) hw' (by omega)

theorem applied_of_sat {r : RefinementMap} {φ : Term} (hφ : applInstr z3 fresh r = some φ) (hsat : M.Sat φ) :
    r.coi.Step (frame M (curr "apl" 0)) (frame M (curr "apl" 1)) ∧ (frame M (curr "apl" 0)).Holds r.appl ∧
      RefinementMap.SameOn r.coi.getSttTree (frame M (curr "apl" 0)) (frame M (curr "old" 0)) ∧
      RefinementMap.SameOn r.coi.getSttTree (frame M (curr "apl" 1)) (frame M (curr "new" 0)) := by
  have hacc := accepted_of_applInstr hφ
  rw [applInstr, Option.map_eq_some_iff] at hφ
  obtain ⟨step, hstep, rfl⟩ := hφ
  have htag : ((globPreds "apl" r.invs).addStepPred r.appl 0).extraSuff = "apl" := by
    rw [globPreds_eq]
    rfl
  rw [Term.sat_conj, Term.sat_conj, Term.sat_conj, Term.sat_conj, Term.sat_conjAll, List.forall_mem_flatMap,
    sat_monoAssn_iff 0 htag hstep] at hsat
  obtain ⟨⟨⟨⟨-, hstepwise, hpred, -⟩, heq⟩, -⟩, -⟩ := hsat
  have hone := hstepwise.step hacc Nat.one_pos
  refine ⟨hone, hpred 0 Nat.one_pos r.appl (by simp [Unroller.addStepPred]), fun v hv => ?_, fun v hv => ?_⟩
  · exact sat_eqVar.mp (heq v hv _ List.mem_cons_self)
  · exact sat_eqVar.mp (heq v hv _ (List.mem_cons_of_mem _ List.mem_cons_self))

theorem marked_of_sat (base : Nat) {flush : Expr} {uid : UID} {length : Int} {φ : Term}
    (hφ : incUnrl z3 fresh crr flush uid base length = some φ) (hsat : M.Sat φ)
    (hcmpl : (frame M (curr uid.phase.tag base)).Holds (uid.refine crr).cmpl) :
    RefinementMap.SameOn (uid.refine crr).coi.getSttTree (frame M uid.phase.tag) (frame M (curr uid.phase.tag base)) := by
  simp only [incUnrl, Option.ite_none_left_eq_some, Option.map_eq_some_iff] at hφ
  obtain ⟨hpos, tran, -, rfl⟩ := hφ
  rw [Term.sat_foldl_conj, List.forall_mem_map] at hsat
  exact sat_markAt.mp (hsat.2 base (mem_ints.mpr ⟨le_rfl, by omega⟩)) hcmpl

theorem isSome_applInstr (z3 : Z3) {r : RefinementMap} (hunroll : MonoUnroll.Unrollable fresh r.coi) :
    (applInstr z3 fresh r).isSome := by
  rw [applInstr, Option.isSome_map, globPreds_eq]
  refine hunroll.isSome z3 (fun e he => by cases he) fun i _ e he => ?_
  simp only [Unroller.addStepPred, Unroller.new, List.mem_append] at he
  rcases he with he | he
  · exact r.invs_check e he
  · split at he
    · obtain rfl : e = r.appl := by simpa using he
      exact r.appl_check
    · cases he

theorem isSome_incUnrl {flush : Expr} {uid : UID} {base length : Int} (hunroll : MonoUnroll.Unrollable fresh (uid.refine crr).coi)
    (hflush : flush.check = some .bool) (hlen : 0 ≤ length) : (incUnrl z3 fresh crr flush uid base length).isSome := by
  rw [incUnrl, if_neg (by omega), Option.isSome_map, globPreds_eq]
  refine hunroll.isSome z3 (fun e he => by cases he) fun i _ e he => ?_
  obtain rfl : e = flush := by simpa [Unroller.new] using he
  exact hflush

theorem incStart_of_first {min max step : Int} {fuel : Nat} (hstep : 0 < step) (hmin : 0 ≤ min) (hle : min ≤ max)
    (hA : MonoUnroll.Unrollable fresh crr.refineA.coi) (hB : MonoUnroll.Unrollable fresh crr.refineB.coi)
    (htran : ∀ (uid : UID) (uu : UnrlUnit) (i : Int), uu.lo ≤ uu.hi → (inc.tran uid uu i).isSome)
    (hbool : ∀ cmpl : UID → Term, (∀ uid, (cmpl uid).IsBool) → (inc.cmplAll cmpl).IsBool)
    (hfirst : ∀ (φA φB : Term) (t : UID → Term), applInstr z3 fresh crr.refineA = some φA → applInstr z3 fresh crr.refineB = some φB →
      (∀ uid, inc.tran uid ⟨0, min⟩ min = some (t uid)) → ∀ M : Model, M.Sat φA → M.Sat φB → (∀ uid, M.Sat (t uid)) →
      M.Sat (inc.cmplAll fun uid => incCmpl z3 crr uid min) →
      M.Sat (getExpr z3 "old" crr.relation) → M.Sat (getExpr z3 "new" crr.relation))
    (hfuel : (max + 1 - min).toNat < fuel) : incStart z3 o fresh crr inc min max step fuel = some true := by
  obtain ⟨φA, hφA⟩ := Option.isSome_iff_exists.mp (isSome_applInstr z3 hA)
  obtain ⟨φB, hφB⟩ := Option.isSome_iff_exists.mp (isSome_applInstr z3 hB)
  have hex : ∀ uid, ∃ t, inc.tran uid ⟨0, min⟩ min = some t := fun uid =>
    Option.isSome_iff_exists.mp (htran uid ⟨0, min⟩ min hmin)
  choose t ht using hex
  obtain ⟨fuel, rfl⟩ : ∃ n, fuel = n + 1 := ⟨fuel - 1, by omega⟩
  let s := ((Solver.new.add φA).add φB).push
  let s' := (((s.add (t .aOld)).add (t .aNew)).add (t .bOld)).add (t .bNew)
  let acc := inc.cmplAll fun uid => incCmpl z3 crr uid min
  have hacc : acc.IsBool := hbool _ fun uid => isBool_incCmpl uid min
  have hs' : addTrans inc (fun _ => ⟨0, min⟩) min s = some s' := by
    simp only [addTrans, UID.all, if_true, List.foldlM_cons, List.foldlM_nil, ht, Option.map_some, Option.bind_eq_bind,
      Option.bind_some, Option.pure_def]
    rfl
  have hprop' : (getExpr z3 "new" crr.relation).IsBool := isBool_getExpr crr.relation_check _
  have hfalse : (incQuery z3 crr acc s'.push).check o = false := by
    rw [Solver.check, o.sat_eq_false_iff]
    intro M hM
    simp only [incQuery, Solver.assertions_add, Solver.assertions_push, Solver.assertions_new, List.forall_mem_append,
      List.forall_mem_singleton, (isBool_cmplFlag.implies hprop').sat_neg, isBool_cmplFlag.sat_implies hprop',
      isBool_cmplFlag.sat_implies (isBool_getExpr crr.relation_check _), Classical.not_imp, s', s] at hM
    obtain ⟨⟨⟨⟨⟨⟨⟨⟨⟨-, hφA'⟩, hφB'⟩, hta⟩, htb⟩, htc⟩, htd⟩, heq⟩, hassm⟩, hcf, hprop⟩ := hM
    have hall : M.Sat acc := by
      obtain ⟨w, hw, hw'⟩ := Term.sat_eq.mp heq
      exact hw'.trans (hw.symm.trans hcf)
    refine hprop (hfirst φA φB t hφA hφB ht M hφA' hφB' (fun uid => ?_) hall (hassm hcf))
    cases uid <;> assumption
  rw [incStart, hφA, Option.bind_some, hφB, Option.bind_some, incLoop, if_neg (by omega),
    if_neg fun hall => Int.lt_irrefl min (hall .aOld List.mem_cons_self), hs', Option.bind_some]
  simp only [show (incQuery z3 crr (inc.cmplAll fun uid => incCmpl z3 crr uid min) s'.push).check o = false from hfalse,
    Bool.false_eq_true, if_false]
  obtain ⟨hsub, hw⟩ := foldl_advance (o := o) (i := min) (Int.le_of_lt hstep) (fun uid => incCmpl z3 crr uid min) UID.all
    ((s'.add (partialProp z3 crr acc)).push, fun _ => ⟨0, min⟩) fun _ => hmin
  refine incLoop_of_kept hstep htran (fun M hM => ?_) hw (by omega)
  exact sat_partialProp hacc (hM _ (hsub _ (List.mem_append_right _ (List.mem_singleton_self _))))

theorem incChecks_of_first (hA : MonoUnroll.Unrollable fresh crr.refineA.coi) (hB : MonoUnroll.Unrollable fresh crr.refineB.coi)
    (hfirst : ∀ (φ tNew : Term) (flush : Expr) (length : Int) (M : Model), applInstr z3 fresh crr.refineA = some φ → M.Sat φ →
      incUnrl z3 fresh crr flush .aNew 0 length = some tNew → M.Sat tNew → M.Sat (incCmpl z3 crr .aOld 0) →
      M.Sat (incCmpl z3 crr .aNew 0) → M.Sat (getExpr z3 "new" crr.relation)) (max : Nat) :
    incEqCheck z3 o fresh crr 0 max 1 (max + 2) = some true ∧ incCheck z3 o fresh crr 0 max 1 (max + 2) = some true := by
  have hunroll : ∀ uid : UID, MonoUnroll.Unrollable fresh (uid.refine crr).coi := by
    intro uid
    cases uid with
    | aOld => exact hA
    | aNew => exact hA
    | bOld => exact hB
    | bNew => exact hB
  refine ⟨?_, ?_⟩
  · refine incStart_of_first Int.one_pos le_rfl (Int.natCast_nonneg max) hA hB
      (fun uid uu i _ => isSome_incUnrl (hunroll uid) (RefinementMap.flush_check _) Int.one_nonneg)
      (fun cmpl h => (((h .aOld).conj (h .aNew)).conj (h .bOld)).conj (h .bNew)) ?_ (by omega)
    intro φA φB t hφA hφB ht M hA hB hM hcmpl _
    simp only [Term.sat_conj] at hcmpl
    have hnew : incUnrl z3 fresh crr crr.refineA.flush .aNew 0 1 = some (t .aNew) := ht .aNew
    exact hfirst φA _ _ _ M hφA hA hnew (hM .aNew) hcmpl.1.1.1 hcmpl.1.1.2
  · refine incStart_of_first Int.one_pos le_rfl (Int.natCast_nonneg max) hA hB
      (fun uid uu i h => isSome_incUnrl (hunroll uid) (RefinementMap.flush_check _) (by omega))
      (fun cmpl h => Term.isBool_foldl_conj (Term.isBool_bool true) (List.forall_mem_map.mpr fun uid _ => h uid)) ?_ (by omega)
    intro φA φB t hφA hφB ht M hA hB hM hcmpl _
    rw [Term.sat_foldl_conj, List.forall_mem_map] at hcmpl
    have hnew : incUnrl z3 fresh crr crr.refineB.flush .aNew 0 (0 - 0) = some (t .aNew) := ht .aNew
    exact hfirst φA _ _ _ M hφA hA hnew (hM .aNew) (hcmpl.2 .aOld List.mem_cons_self)
      (hcmpl.2 .aNew (List.mem_cons_of_mem _ List.mem_cons_self))

end Answers

/-! ### The latch, checked incrementally -/

/-- The latch is complete when `x` is set, and related when `z` is. -/
def latchInc : CompRefRel where
  refineA := latch (.var latchX) rfl
  refineB := idler
  relation := (Expr.boolConst true).and (.var latchZ)
  relation_check := latchZ_check

theorem latchInc_names : latchInc.DistinctNames 9 := by
  refine ⟨by decide, by decide, by decide⟩

theorem latchInc_related {ν : Valuation} : ν.Holds latchInc.relation ↔ ν.Holds (.var latchZ) := by
  rw [show latchInc.relation = (Expr.boolConst true).and (.var latchZ) from rfl, Expr.holds_and,
    and_iff_right Expr.holds_boolConst_true]

theorem latchInc_first {z3 : Z3} {φ tNew : Term} {flush : Expr} {length : Int} {M : Model}
    (hφ : applInstr z3 9 latchInc.refineA = some φ) (hsat : M.Sat φ)
    (ht : incUnrl z3 9 latchInc flush .aNew 0 length = some tNew) (hnew : M.Sat tNew)
    (hcOld : M.Sat (incCmpl z3 latchInc .aOld 0)) (hcNew : M.Sat (incCmpl z3 latchInc .aNew 0)) :
    M.Sat (getExpr z3 "new" latchInc.relation) := by
  have hxmem : latchX ∈ latchInc.refineA.coi.getSttTree := mem_getSttTree List.mem_cons_self
  have hzmem : latchZ ∈ latchInc.refineA.coi.getSttTree := mem_getSttTree (List.mem_cons_of_mem _ List.mem_cons_self)
  obtain ⟨hstep, happl, hstart, hnext⟩ := applied_of_sat hφ hsat
  obtain ⟨i, hi, hx⟩ := sat_incCmpl.mp hcOld
  obtain rfl : i = 0 := by omega
  obtain ⟨j, hj, hx'⟩ := sat_incCmpl.mp hcNew
  obtain rfl : j = 0 := by omega
  have hinput : ¬(frame M (curr "apl" 0)).Holds (.var latchI) := (Expr.holds_not rfl).mp happl
  have hxapl := (holds_var_of_sameOn hstart hxmem).mpr hx
  have hzapl := (latch_step.mp hstep).2.mpr (.inr ⟨hinput, hxapl⟩)
  have hmark := marked_of_sat 0 ht hnew hx'
  rw [sat_getExpr latchInc.relation_check, latchInc_related]
  exact (holds_var_of_sameOn hmark hzmem).mpr ((holds_var_of_sameOn hnext hzmem).mp hzapl)

theorem incChecks_latchInc (z3 : Z3) (o : Oracle) (max : Nat) : incEqCheck z3 o 9 latchInc 0 max 1 (max + 2) = some true ∧
    incCheck z3 o 9 latchInc 0 max 1 (max + 2) = some true :=
  incChecks_of_first latch_unrollable idle_unrollable (fun _ _ _ _ _ => latchInc_first) max

theorem latchInc_violates : ¬CommutesWithin latchInc 0 1 := by
  intro hcomm
  have hrunA : IncRuns latchInc.refineA (latchAppl false true) (latchOrig false true) (latchOrig true false) 1 1 := by
    have hruns := latch_runs (.var latchX) rfl false true 1 0
    refine ⟨hruns.applied.starts.applied, hruns.applied.flushes.1 0 Nat.one_pos, hruns.applied.keeps,
      fun v hv => (hruns.applied.starts.same v hv).symm, fun v hv => ?_, hruns.flushed.flushes,
      (latch_runs (.var latchX) rfl true false 1 0).flushed.flushes, rfl, rfl⟩
    rw [show latchInc.refineA.coi.getSttTree = [latchX, latchZ] from latch_stt, List.mem_pair] at hv
    rcases hv with rfl | rfl
    · rfl
    · rfl
  have hrunB : IncRuns latchInc.refineB idleAppl idleOrig idleOrig 1 1 := by
    have hruns := idle_runs 1 0
    refine ⟨hruns.applied.starts.applied, hruns.applied.flushes.1 0 Nat.one_pos, hruns.applied.keeps,
      fun v hv => (hruns.applied.starts.same v hv).symm, fun v hv => ?_, hruns.flushed.flushes, hruns.flushed.flushes, rfl, rfl⟩
    rw [show latchInc.refineB.coi.getSttTree = [idleW] from idle_stt, List.mem_singleton] at hv
    rw [hv]
    rfl
  have hjoin : ∀ ν μ : Valuation, (latchInc.join ν μ).Holds latchInc.relation ↔ ν.Holds (.var latchZ) := by
    intro ν μ
    have hatom : (latchInc.join ν μ).atom (.var latchZ) = ν.atom (.var latchZ) :=
      CompRefRel.join_a ν μ (mem_getSttTree (List.mem_cons_of_mem _ List.mem_cons_self))
    rw [latchInc_related, Valuation.Holds, Valuation.Holds, Expr.eval, Expr.eval, hatom]
  have hrel := hcomm (latchAppl false true) (latchOrig false true) (latchOrig true false) idleAppl idleOrig idleOrig 1 1 1 1 rfl
    hrunA hrunB (by decide) 1 le_rfl 0 (Nat.zero_le 1)
    ((bits_holds rfl).mpr (by decide)) rfl ((hjoin _ _).mpr ((bits_holds rfl).mpr (by decide))) 0 (Nat.zero_le 1) 0
    (Nat.zero_le 1) ((bits_holds rfl).mpr (by decide)) rfl
  exact absurd ((bits_holds rfl).mp ((hjoin _ _).mp hrel)) (by decide)

/-- The execution is found in no round. -/
theorem incChecks_miss_execution : ¬∀ (z3 : Z3) (o : Oracle) (fresh : Nat) (crr : CompRefRel) (min max step : Int) (fuel : Nat),
    crr.DistinctNames fresh → (incEqCheck z3 o fresh crr min max step fuel = some true → CommutesWithin crr min max) ∧
      (incCheck z3 o fresh crr min max step fuel = some true → CommutesWithin crr min max) := by
  intro hall
  have hlatch := hall default default 9 latchInc 0 1 1 3 latchInc_names
  exact latchInc_violates (hlatch.1 (incChecks_latchInc _ _ 1).1)

/-! ### The latch, when `x` is set -/

theorem latchX_check : ((Expr.boolConst true).and (.var latchX)).check = some .bool := rfl

theorem latchSet_sorted : ∀ e ∈ [(Expr.var latchI).not.and (.var latchX), .var latchI, .var latchZ] ++ ([] : List Expr),
    e.check = some .bool := by
  simp only [List.append_nil, List.forall_mem_cons, List.not_mem_nil, false_implies, implies_true, and_true]
  exact ⟨rfl, rfl, rfl⟩

/-- The instruction is applied when `x` is set. A path keeps `z`, so it completes at the start or never. -/
def latchSet : CompRefRel where
  refineA := ⟨latchIla, (Expr.var latchI).not.and (.var latchX), .var latchI, .var latchZ, -1, -1, [], latchSet_sorted⟩
  refineB := idler
  relation := (Expr.boolConst true).and (.var latchX)
  relation_check := latchX_check

theorem latchSet_names : latchSet.DistinctNames 9 := by
  refine ⟨by decide, by decide, by decide⟩

theorem latchSet_first {z3 : Z3} {φ tNew : Term} {flush : Expr} {length : Int} {M : Model}
    (hφ : applInstr z3 9 latchSet.refineA = some φ) (hsat : M.Sat φ)
    (ht : incUnrl z3 9 latchSet flush .aNew 0 length = some tNew) (hnew : M.Sat tNew)
    (hcNew : M.Sat (incCmpl z3 latchSet .aNew 0)) : M.Sat (getExpr z3 "new" latchSet.relation) := by
  have hxmem : latchX ∈ latchSet.refineA.coi.getSttTree := mem_getSttTree List.mem_cons_self
  obtain ⟨hstep, -, -, hnext⟩ := applied_of_sat hφ hsat
  obtain ⟨j, hj, hz⟩ := sat_incCmpl.mp hcNew
  obtain rfl : j = 0 := by omega
  have hmark := marked_of_sat 0 ht hnew hz
  rw [sat_getExpr latchSet.relation_check, show latchSet.relation = (Expr.boolConst true).and (.var latchX) from rfl,
    Expr.holds_and, and_iff_right Expr.holds_boolConst_true]
  exact (holds_var_of_sameOn hmark hxmem).mpr ((holds_var_of_sameOn hnext hxmem).mp (latch_step.mp hstep).1)

theorem incChecks_latchSet (z3 : Z3) (o : Oracle) (max : Nat) : incEqCheck z3 o 9 latchSet 0 max 1 (max + 2) = some true ∧
    incCheck z3 o 9 latchSet 0 max 1 (max + 2) = some true :=
  incChecks_of_first latch_unrollable idle_unrollable (fun _ _ _ _ _ hφ hM ht hnew _ hc => latchSet_first hφ hM ht hnew hc) max

theorem settles_of_stays {r : RefinementMap} {min length : Int} {τ : Trace} {n : Nat} (hmin : 0 ≤ min) (hcmpl : r.Completes τ 0)
    (hflush : r.Flushes τ 0 n) (hstep : r.coi.Step (τ.frame n) (τ.frame n))
    (hsame : ∀ i ≤ n, RefinementMap.SameOn r.coi.getSttTree (τ.frame 0) (τ.frame i)) : Settles r min length τ n := by
  let stopped : Trace := ⟨fun i => τ.atom (i ⊓ n), fun i => τ.atom_sort (i ⊓ n), τ.func, τ.func_sort⟩
  have hframe : ∀ i, stopped.frame i = τ.frame (i ⊓ n) := fun _ => rfl
  refine ⟨⟨0, Nat.zero_le n, hmin, hcmpl⟩, stopped, n ⊔ length.toNat, le_sup_left, by omega, ⟨fun i _ => ?_, fun i _ _ => ?_⟩, rfl,
    fun i hi => ?_, fun i _ j _ _ _ v hv => ?_⟩
  · rw [hframe, hframe]
    rcases Nat.lt_or_ge i n with hi | hi
    · rw [min_eq_left (Nat.le_of_lt hi), min_eq_left hi]
      exact hflush.1 i hi
    · rw [min_eq_right hi, min_eq_right (Nat.le_succ_of_le hi)]
      exact hstep
  · rw [hframe]
    exact hflush.2 _ (Nat.zero_le _) inf_le_right
  · rw [hframe, min_eq_left hi]
  · rw [hframe, hframe]
    exact (hsame _ inf_le_right v hv).symm.trans (hsame _ inf_le_right v hv)

theorem latchSet_stays {τ : Trace} {n : Nat} (hflush : latchSet.refineA.Flushes τ 0 n) (hx : (τ.frame 0).Holds (.var latchX)) :
    ∀ i ≤ n, (τ.frame i).Holds (.var latchX) ∧ ((τ.frame i).Holds (.var latchZ) ↔ (τ.frame 0).Holds (.var latchZ)) := by
  intro i hi
  induction i with
  | zero => exact ⟨hx, Iff.rfl⟩
  | succ i ih =>
    obtain ⟨hx', hz'⟩ := latch_step.mp (hflush.1 i hi)
    have hinput : (τ.frame i).Holds (.var latchI) := hflush.2 i (Nat.zero_le i) (Nat.le_of_succ_le hi)
    refine ⟨hx', Iff.trans ?_ (ih (Nat.le_of_succ_le hi)).2⟩
    simpa [hinput] using hz'

theorem latchSet_settles {τ : Trace} {n i : Nat} {length : Int} (hflush : latchSet.refineA.Flushes τ 0 n)
    (hx : (τ.frame 0).Holds (.var latchX)) (hi : i ≤ n) (hz : latchSet.refineA.Completes τ i) :
    Settles latchSet.refineA 0 length τ n := by
  have hstays := latchSet_stays hflush hx
  refine settles_of_stays le_rfl ((hstays i hi).2.mp hz) hflush ?_ fun j hj v hv => ?_
  · have hinput : (τ.frame n).Holds (.var latchI) := hflush.2 n (Nat.zero_le n) le_rfl
    refine latch_step.mpr ⟨(hstays n le_rfl).1, ?_⟩
    simp [hinput]
  · rw [show latchSet.refineA.coi.getSttTree = [latchX, latchZ] from latch_stt, List.mem_pair] at hv
    have hbool : ∀ {u : Var}, u.sort = .bool → ((τ.frame 0).Holds (.var u) ↔ (τ.frame j).Holds (.var u)) →
        (τ.frame 0).atom (.var u) = (τ.frame j).atom (.var u) := by
      intro u hu hiff
      obtain ⟨b, hb, hB⟩ := holds_var u (τ.frame 0) hu
      obtain ⟨c, hc, hC⟩ := holds_var u (τ.frame j) hu
      rw [hb, hc, Bool.eq_iff_iff.mpr (hB.symm.trans (hiff.trans hC))]
    rcases hv with rfl | rfl
    · exact hbool rfl (iff_of_true hx (hstays j hj).1)
    · exact hbool rfl (hstays j hj).2.symm

theorem latchSet_settled (max length : Int) : Settled latchSet.refineA 0 max length ∧ Settled latchSet.refineB 0 max length := by
  refine ⟨fun apl old new nOld nNew hruns _ _ hold hnew => ?_, fun apl old new nOld nNew hruns _ _ _ _ => ?_⟩
  · have hxmem : latchX ∈ latchSet.refineA.coi.getSttTree := mem_getSttTree List.mem_cons_self
    obtain ⟨i, hi, hz⟩ := hold
    obtain ⟨j, hj, hz'⟩ := hnew
    have happl : (apl.frame 0).Holds (.var latchX) := (Expr.holds_and.mp hruns.applied).2
    have hstep : (apl.frame 1).Holds (.var latchX) := (latch_step.mp hruns.step).1
    exact ⟨latchSet_settles hruns.old_flushes ((holds_var_of_sameOn hruns.start hxmem).mp happl) hi hz,
      latchSet_settles hruns.new_flushes ((holds_var_of_sameOn hruns.next hxmem).mp hstep) hj hz'⟩
  · have hidle : ∀ {τ : Trace} {n : Nat}, idler.Flushes τ 0 n → Settles idler 0 length τ n := by
      intro τ n hflush
      refine settles_of_stays le_rfl rfl hflush (idle_step.mpr rfl) fun i hi v hv => ?_
      rw [show idler.coi.getSttTree = [idleW] from idle_stt, List.mem_singleton] at hv
      rw [hv]
      induction i with
      | zero => rfl
      | succ i ih => exact (ih (Nat.le_of_succ_le hi)).trans (idle_step.mp (hflush.1 i hi)).symm
    exact ⟨hidle hruns.old_flushes, hidle hruns.new_flushes⟩

/-- Three rounds: the flushed path need not complete, so that it is unrolled on. -/
theorem incChecks_sound_latchSet : CommutesWithin latchSet 0 2 ∧ CommutesWithin latchSet 0 2 :=
  ⟨(incChecks_sound latchSet_names).1 (latchSet_settled _ _).1 (latchSet_settled _ _).2 (incChecks_latchSet default default 2).1,
    (incChecks_sound latchSet_names).2 (latchSet_settled _ _).1 (latchSet_settled _ _).2 (incChecks_latchSet default default 2).2⟩

end CommDiag

end Ilang
