import Ilang.Target.Z3Adapter
import Ilang.Util.Name

/-!
# Unrolling

`Unroller` turns a transition function and a set of predicates into one formula over numbered frames.
`UnrollAssn` gives every frame its own constants and asserts the next-state equalities between them,
`UnrollSubs` substitutes the next-state expressions forward and asserts only the last equality, and
`UnrollNone` leaves the frames apart. The subclasses supply the state variables, the next-state
functions and the step predicates (`Trans`).

For each of the three, one theorem says what the models of the formula are.
-/

namespace Ilang

open Smt

/-- The predicates and the suffix of an unroller. -/
structure Unroller where
  extraSuff : String
  gPred : List Expr
  iPred : List Expr
  sPred : Int → List Expr

/-- What `DefineDepVar` and `Transition` provide: the state variables, and for every step the
next-state function and the step predicates. -/
structure Trans where
  vars : List Var
  next : Nat → Var → Expr
  pred : Nat → List Expr

namespace Unroller

/-- An unroller without predicates. -/
def new (suff : String) : Unroller := ⟨suff, [], [], fun _ => []⟩

def addGlobPred (u : Unroller) (p : Expr) : Unroller := { u with gPred := u.gPred ++ [p] }

def addInitPred (u : Unroller) (p : Expr) : Unroller := { u with iPred := u.iPred ++ [p] }

def addStepPred (u : Unroller) (p : Expr) (k : Int) : Unroller :=
  { u with sPred := fun i => if i = k then u.sPred i ++ [p] else u.sPred i }

def suffCurr (u : Unroller) (t : Int) : String := toString t ++ "_" ++ u.extraSuff

def suffNext (u : Unroller) (t : Int) : String := toString t ++ "_" ++ u.extraSuff ++ ".nxt"

/-! ### Names of frames

The constants of two frames are the same only if the frames are, and then only if the variables have
the same constant to begin with. -/

theorem formatStr_suffCurr (u : Unroller) (name pre : String) (t : Int) :
    formatStr name pre (u.suffCurr t) =
      formatStr name pre "" ++ ("_sEp" ++ "_") ++ (toString t ++ ("_" ++ u.extraSuff)) := by
  have hne : u.suffCurr t ≠ "" := by
    intro h
    have hlen := congrArg String.length h
    simp [suffCurr, String.length_append] at hlen
  simp only [formatStr, if_neg hne, if_true]
  rw [suffCurr, show ("_sEp_" : String) = "_sEp" ++ "_" from rfl]
  simp only [String.append_assoc]

theorem name_suffCurr (u : Unroller) (a : Atom) (t : Int) : (a.sym (u.suffCurr t)).name =
    (a.sym "").name ++ ("_sEp" ++ "_") ++ (toString t ++ ("_" ++ u.extraSuff)) := by
  cases a <;> exact formatStr_suffCurr u _ _ t

theorem sym_eq_of_name {a b : Atom} {s t : String} (h : a.sym s = b.sym t)
    (hname : (a.sym "").name = (b.sym "").name) : a.sym "" = b.sym "" := by
  have hsort := congrArg Sym.sort h
  rw [Atom.sort_sym, Atom.sort_sym] at hsort
  rw [Sym.mk.injEq]
  exact ⟨hname, by rw [Atom.sort_sym, Atom.sort_sym, hsort]⟩

theorem sym_suffCurr_inj {u : Unroller} {a b : Atom} {s t : Int} :
    a.sym (u.suffCurr s) = b.sym (u.suffCurr t) ↔ s = t ∧ a.sym "" = b.sym "" := by
  constructor
  · intro h
    have hn := congrArg Sym.name h
    rw [name_suffCurr, name_suffCurr] at hn
    obtain ⟨hbase, ht⟩ := Name.numbered_inj hn
    exact ⟨ht, sym_eq_of_name h hbase⟩
  · rintro ⟨rfl, h⟩
    rw [Sym.mk.injEq]
    exact ⟨by rw [name_suffCurr, name_suffCurr, h], by rw [Atom.sort_sym, Atom.sort_sym, ← a.sort_sym "", h, Atom.sort_sym]⟩

/-! ### Names of several unrollers

A tag without underscores can be read off the end of a name, so unrollers with different tags have no
constants in common. The constants without a number, which stand for one chosen frame, are different from
those of all frames. -/

section Tags

variable (u u' : Unroller) {a b : Atom} {s t : Int} (hu : '_' ∉ u.extraSuff.toList) (hu' : '_' ∉ u'.extraSuff.toList)
include hu hu'

theorem sym_suffCurr_tag_inj (h : a.sym (u.suffCurr s) = b.sym (u'.suffCurr t)) :
    u.extraSuff = u'.extraSuff ∧ s = t ∧ a.sym "" = b.sym "" := by
  have hn := congrArg Sym.name h
  rw [name_suffCurr, name_suffCurr] at hn
  have hcut : ((a.sym "").name ++ ("_sEp" ++ "_") ++ toString s) ++ "_" ++ u.extraSuff =
      ((b.sym "").name ++ ("_sEp" ++ "_") ++ toString t) ++ "_" ++ u'.extraSuff := by
    simpa only [String.append_assoc] using hn
  have htag := (Name.tagged_inj hcut hu hu').2
  have hsame : u'.suffCurr t = u.suffCurr t := by rw [suffCurr, suffCurr, htag]
  rw [hsame] at h
  exact ⟨htag, sym_suffCurr_inj.mp h⟩

omit hu hu' in
theorem name_tag (a : Atom) {tag : String} (htag : tag ≠ "") :
    (a.sym tag).name = (a.sym "").name ++ "_sEp" ++ "_" ++ tag := by
  have hformat : ∀ name pre : String, formatStr name pre tag = formatStr name pre "" ++ "_sEp" ++ "_" ++ tag := by
    intro name pre
    simp only [formatStr, if_neg htag, if_true]
    rw [show ("_sEp_" : String) = "_sEp" ++ "_" from rfl]
    simp only [String.append_assoc]
  cases a <;> exact hformat _ _

theorem sym_tag_inj (hne : u.extraSuff ≠ "") (hne' : u'.extraSuff ≠ "") (h : a.sym u.extraSuff = b.sym u'.extraSuff) :
    u.extraSuff = u'.extraSuff ∧ a.sym "" = b.sym "" := by
  have hn := congrArg Sym.name h
  rw [name_tag a hne, name_tag b hne'] at hn
  obtain ⟨hbase, htag⟩ := Name.tagged_inj hn hu hu'
  have hl := congrArg String.toList hbase
  simp only [String.toList_append] at hl
  exact ⟨htag, sym_eq_of_name h (String.toList_inj.mp (List.append_cancel_right hl))⟩

theorem sym_tag_ne_suffCurr (hne : u.extraSuff ≠ "") : a.sym u.extraSuff ≠ b.sym (u'.suffCurr t) := by
  intro h
  have hn := congrArg Sym.name h
  rw [name_tag a hne, name_suffCurr] at hn
  have hcut : ((a.sym "").name ++ "_sEp") ++ "_" ++ u.extraSuff =
      ((b.sym "").name ++ ("_sEp" ++ "_") ++ toString t) ++ "_" ++ u'.extraSuff := by
    simpa only [String.append_assoc] using hn
  have hbase := (Name.tagged_inj hcut hu hu').1
  -- before the tag stands the separator here, and the number of the frame there
  have hcut' : (a.sym "").name ++ "_" ++ "sEp" = ((b.sym "").name ++ "_sEp") ++ "_" ++ toString t := by
    rw [show ("_sEp" : String) = "_" ++ "sEp" from rfl] at hbase ⊢
    simpa only [String.append_assoc] using hbase
  have hnum := (Name.tagged_inj hcut' (by decide) (Name.underscore_notMem_toString t)).2
  exact Name.toString_ne_of_letter (c := 's') (by decide) (by decide) (by decide) hnum.symm

end Tags

/-! ### The three unrollings -/

/-- The initial predicates are asserted in the first step only. -/
def initPred (u : Unroller) (i : Nat) : List Expr := if i = 0 then u.iPred else []

/-- All the predicates of a step. -/
def stepPred (u : Unroller) (tr : Trans) (i : Nat) : List Expr :=
  u.initPred i ++ u.gPred ++ tr.pred i ++ u.sPred i

/-- The predicates of the end state. -/
def endPred (u : Unroller) (len : Nat) : List Expr := u.gPred ++ u.sPred len

/-- Z3 accepts the unrolling: predicates are Boolean and a next-state value has the sort of its state.
Anything else raises an exception in Z3, which the unroller does not catch. -/
def Sorted (u : Unroller) (tr : Trans) (len : Nat) (ends : List Expr) : Prop :=
  (∀ i < len, (∀ e ∈ u.stepPred tr i, e.check = some .bool) ∧
    ∀ v ∈ tr.vars, (tr.next i v).check = some v.sort) ∧
  ∀ e ∈ ends, e.check = some .bool

instance (u : Unroller) (tr : Trans) (len : Nat) (ends : List Expr) : Decidable (u.Sorted tr len ends) :=
  inferInstanceAs (Decidable (_ ∧ _))

variable (z3 : Z3) (u : Unroller) (tr : Trans)

/-- `IExprToZExpr`. -/
def iExprToZExpr (es : List Expr) (suffix : String) : List Term := es.map (getExpr z3 suffix)

/-- `IExprToZExpr` with a substitution. -/
def iExprToZExprSubst (es : List Expr) (suffix : String) (σ : Sym → Option Term) : List Term :=
  es.map fun e => (getExpr z3 suffix e).subst σ

/-- `AssertEqual`. The first vector is indexed by the state variables, like `k_next_` and `k_prev_`. -/
def assertEqual (vars : List Var) (a : Var → Term) (suffix : String) : List Term :=
  vars.map fun v => (a v).eq (getExpr z3 suffix (.var v))

/-- `ConjPred`. -/
def conjPred (vec : List Term) : Term := z3.simplify (Term.conjAll vec)

/-- The substitution of the constants of a frame by the terms computed for it. When two variables have
one constant, the later one in the vector is used. -/
def substOf (vars : List Var) (suffix : String) (a : Var → Term) : Sym → Option Term := fun c =>
  (vars.reverse.find? fun v => v.sym suffix = c).map a

/-- `k_prev_z3_` and the constraints of the first `i` steps of `UnrollSubs`. -/
def subsLoop (pos : Int) : Nat → (Var → Term) × List Term
  | 0 => (fun v => getExpr z3 (u.suffCurr pos) (.var v), [])
  | i + 1 =>
    let (kPrev, cstr) := subsLoop pos i
    let kSuffix := u.suffCurr (pos + i)
    let σ := substOf tr.vars kSuffix kPrev
    (fun v => (getExpr z3 kSuffix (tr.next i v)).subst σ,
      cstr ++ iExprToZExprSubst z3 (u.initPred i) kSuffix σ ++ iExprToZExprSubst z3 u.gPred kSuffix σ
        ++ iExprToZExprSubst z3 (tr.pred i) kSuffix σ ++ iExprToZExprSubst z3 (u.sPred i) kSuffix σ)

/-- The constraints of the end state. Both callers take the frame of `len`, whatever the start. -/
def endCstr (len : Nat) : List Term :=
  iExprToZExpr z3 u.gPred (u.suffCurr len) ++ iExprToZExpr z3 (u.sPred len) (u.suffCurr len)

def unrollSubs (len : Nat) (pos : Int) : Option Term :=
  if u.Sorted tr len (u.endPred len) then
    some (conjPred z3 ((subsLoop z3 u tr pos len).2
      ++ assertEqual z3 tr.vars (subsLoop z3 u tr pos len).1 (u.suffCurr len) ++ endCstr z3 u len))
  else none

/-- The constraints of one step of `UnrollAssn`. -/
def assnStep (pos : Int) (i : Nat) : List Term :=
  let kSuffix := u.suffCurr (pos + i)
  iExprToZExpr z3 (u.initPred i) kSuffix ++ iExprToZExpr z3 u.gPred kSuffix
    ++ iExprToZExpr z3 (u.sPred i) kSuffix ++ iExprToZExpr z3 (tr.pred i) kSuffix
    ++ assertEqual z3 tr.vars (fun v => getExpr z3 kSuffix (tr.next i v)) (u.suffCurr (pos + i + 1))

def unrollAssn (len : Nat) (pos : Int) : Option Term :=
  if u.Sorted tr len (u.endPred len) then
    some (conjPred z3 ((List.range len).flatMap (assnStep z3 u tr pos) ++ endCstr z3 u len))
  else none

/-- The constraints of one step of `UnrollNone`. -/
def noneStep (pos : Int) (i : Nat) : List Term :=
  let kSuffix := u.suffCurr (pos + i)
  iExprToZExpr z3 (u.initPred i) kSuffix ++ iExprToZExpr z3 u.gPred kSuffix
    ++ iExprToZExpr z3 (tr.pred i) kSuffix ++ iExprToZExpr z3 (u.sPred i) kSuffix
    ++ assertEqual z3 tr.vars (fun v => getExpr z3 kSuffix (tr.next i v)) (u.suffNext (pos + i))

def unrollNone (len : Nat) (pos : Int) : Option Term :=
  if u.Sorted tr len [] then
    some (conjPred z3 ((List.range len).flatMap (noneStep z3 u tr pos)))
  else none

/-! ### What the constraints say -/

variable {z3 u tr}

theorem sat_conjPred {M : Model} {vec : List Term} : M.Sat (conjPred z3 vec) ↔ ∀ t ∈ vec, M.Sat t := by
  rw [Model.Sat, conjPred, z3.eval_simplify]
  exact Term.sat_conjAll

theorem sat_iExprToZExpr {M : Model} {es : List Expr} {suffix : String}
    (h : ∀ e ∈ es, e.check = some .bool) :
    (∀ t ∈ iExprToZExpr z3 es suffix, M.Sat t) ↔ ∀ e ∈ es, (frame M suffix).Holds e := by
  rw [iExprToZExpr, List.forall_mem_map]
  exact forall₂_congr fun e he => sat_getExpr (h e he)

theorem sat_assertEqual {M : Model} {vars : List Var} {a : Var → Term} {suffix : String} :
    (∀ t ∈ assertEqual z3 vars a suffix, M.Sat t) ↔
      ∀ v ∈ vars, (a v).eval M = some (M.const (v.sym suffix)) := by
  rw [assertEqual, List.forall_mem_map]
  refine forall₂_congr fun v _ => ?_
  rw [Term.sat_eq, getExpr_var, Term.eval]
  constructor
  · rintro ⟨w, ha, hw⟩
    rw [ha, hw]
  · exact fun ha => ⟨_, ha, rfl⟩

/-- One step is taken in a frame: its predicates hold and the next-state functions give the values. -/
def StepHolds (u : Unroller) (tr : Trans) (i : Nat) (ν : Valuation) (nxt : Var → Value) : Prop :=
  (∀ e ∈ u.stepPred tr i, ν.Holds e) ∧ ∀ v ∈ tr.vars, (tr.next i v).eval ν = some (nxt v)

/-- The predicates of the end state hold. -/
def EndHolds (u : Unroller) (len : Nat) (ν : Valuation) : Prop := ∀ e ∈ u.endPred len, ν.Holds e

theorem Sorted.step {len : Nat} {ends : List Expr} (h : u.Sorted tr len ends) {i : Nat} (hi : i < len) :
    ∀ e ∈ u.stepPred tr i, e.check = some .bool := (h.1 i hi).1

theorem Sorted.next {len : Nat} {ends : List Expr} (h : u.Sorted tr len ends) {i : Nat} (hi : i < len) {v : Var}
    (hv : v ∈ tr.vars) : (tr.next i v).check = some v.sort := (h.1 i hi).2 v hv

theorem sat_assertNext {M : Model} {i : Nat} {s suffix : String}
    (h : ∀ v ∈ tr.vars, (tr.next i v).check = some v.sort) :
    (∀ t ∈ assertEqual z3 tr.vars (fun v => getExpr z3 s (tr.next i v)) suffix, M.Sat t) ↔
      ∀ v ∈ tr.vars, (tr.next i v).eval (frame M s) = some (M.const (v.sym suffix)) := by
  rw [sat_assertEqual]
  exact forall₂_congr fun v hv => by rw [getExpr_eval z3 M s (h v hv)]

theorem forall_mem_stepPred {i : Nat} {P : Expr → Prop} :
    (∀ e ∈ u.stepPred tr i, P e) ↔ (∀ e ∈ u.initPred i, P e) ∧ (∀ e ∈ u.gPred, P e) ∧
      (∀ e ∈ tr.pred i, P e) ∧ ∀ e ∈ u.sPred i, P e := by
  simp only [stepPred, List.forall_mem_append, and_assoc]

theorem sat_assnStep {M : Model} {len : Nat} {ends : List Expr} {pos : Int} {i : Nat}
    (h : u.Sorted tr len ends) (hi : i < len) :
    (∀ t ∈ assnStep z3 u tr pos i, M.Sat t) ↔ u.StepHolds tr i (frame M (u.suffCurr (pos + i)))
      fun v => M.const (v.sym (u.suffCurr (pos + i + 1))) := by
  obtain ⟨hinit, hglob, hpred, hstep⟩ := forall_mem_stepPred.mp (h.step hi)
  simp only [assnStep, List.forall_mem_append]
  rw [sat_iExprToZExpr hinit, sat_iExprToZExpr hglob, sat_iExprToZExpr hpred, sat_iExprToZExpr hstep,
    sat_assertNext fun v hv => h.next hi hv, StepHolds, forall_mem_stepPred]
  tauto

theorem sat_noneStep {M : Model} {len : Nat} {ends : List Expr} {pos : Int} {i : Nat}
    (h : u.Sorted tr len ends) (hi : i < len) :
    (∀ t ∈ noneStep z3 u tr pos i, M.Sat t) ↔ u.StepHolds tr i (frame M (u.suffCurr (pos + i)))
      fun v => M.const (v.sym (u.suffNext (pos + i))) := by
  obtain ⟨hinit, hglob, hpred, hstep⟩ := forall_mem_stepPred.mp (h.step hi)
  simp only [noneStep, List.forall_mem_append]
  rw [sat_iExprToZExpr hinit, sat_iExprToZExpr hglob, sat_iExprToZExpr hpred, sat_iExprToZExpr hstep,
    sat_assertNext fun v hv => h.next hi hv, StepHolds, forall_mem_stepPred]
  tauto

theorem sat_endCstr {M : Model} {len : Nat} (h : ∀ e ∈ u.endPred len, e.check = some .bool) :
    (∀ t ∈ endCstr z3 u len, M.Sat t) ↔ u.EndHolds len (frame M (u.suffCurr len)) := by
  rw [endPred, List.forall_mem_append] at h
  rw [endCstr, List.forall_mem_append, sat_iExprToZExpr h.1, sat_iExprToZExpr h.2, EndHolds, endPred,
    List.forall_mem_append]

theorem forall_mem_flatMap_range {len : Nat} {f : Nat → List Term} {P : Term → Prop} :
    (∀ t ∈ (List.range len).flatMap f, P t) ↔ ∀ i < len, ∀ t ∈ f i, P t := by
  simp only [List.mem_flatMap, List.mem_range]
  exact ⟨fun h i hi t ht => h t ⟨i, hi, ht⟩, fun h t ⟨i, hi, ht⟩ => h i hi t ht⟩

theorem sat_unrollAssn {M : Model} {len : Nat} {pos : Int} {φ : Term}
    (h : unrollAssn z3 u tr len pos = some φ) :
    M.Sat φ ↔ (∀ i < len, u.StepHolds tr i (frame M (u.suffCurr (pos + i)))
        fun v => M.const (v.sym (u.suffCurr (pos + i + 1)))) ∧
      u.EndHolds len (frame M (u.suffCurr len)) := by
  rw [unrollAssn, Option.ite_none_right_eq_some] at h
  obtain ⟨hsorted, hφ⟩ := h
  obtain rfl := Option.some.inj hφ
  rw [sat_conjPred, List.forall_mem_append, forall_mem_flatMap_range, sat_endCstr hsorted.2]
  exact and_congr_left fun _ => forall₂_congr fun i hi => sat_assnStep hsorted hi

theorem sat_unrollNone {M : Model} {len : Nat} {pos : Int} {φ : Term}
    (h : unrollNone z3 u tr len pos = some φ) :
    M.Sat φ ↔ ∀ i < len, u.StepHolds tr i (frame M (u.suffCurr (pos + i)))
      fun v => M.const (v.sym (u.suffNext (pos + i))) := by
  rw [unrollNone, Option.ite_none_right_eq_some] at h
  obtain ⟨hsorted, hφ⟩ := h
  obtain rfl := Option.some.inj hφ
  rw [sat_conjPred, forall_mem_flatMap_range]
  exact forall₂_congr fun i hi => sat_noneStep hsorted hi

/-! ### Substitution reads each frame through the values computed for it -/

theorem substOf_some {vars : List Var} {suffix : String} {a : Var → Term} {c : Sym} {t : Term}
    (h : substOf vars suffix a c = some t) : ∃ v ∈ vars, v.sym suffix = c ∧ a v = t := by
  rw [substOf, Option.map_eq_some_iff] at h
  obtain ⟨v, hv, ht⟩ := h
  have hsym : v.sym suffix = c := by simpa using List.find?_some hv
  exact ⟨v, List.mem_reverse.mp (List.mem_of_find?_eq_some hv), hsym, ht⟩

theorem substOf_none {vars : List Var} {suffix : String} {a : Var → Term} {c : Sym}
    (h : substOf vars suffix a c = none) : ∀ v ∈ vars, v.sym suffix ≠ c := by
  rw [substOf, Option.map_eq_none_iff, List.find?_eq_none] at h
  intro v hv hc
  exact h v (List.mem_reverse.mpr hv) (decide_eq_true hc)

/-- The model in which the constants of frame `i` have the values that are substituted for them. -/
def subsModel (z3 : Z3) (u : Unroller) (tr : Trans) (pos : Int) (M : Model) (i : Nat) : Model :=
  Term.substModel M (substOf tr.vars (u.suffCurr (pos + i)) (subsLoop z3 u tr pos i).1)

theorem subsLoop_zero_eval (M : Model) (pos : Int) (v : Var) :
    ((subsLoop z3 u tr pos 0).1 v).eval M = some (M.const (v.sym (u.suffCurr pos))) := by
  simp only [subsLoop, getExpr_var, Term.eval]

theorem substOf_subsLoop_sorted (z3 : Z3) (M : Model) (pos : Int) {len : Nat} {ends : List Expr}
    (h : u.Sorted tr len ends) {i : Nat} (hi : i ≤ len) :
    ∀ c t, substOf tr.vars (u.suffCurr (pos + i)) (subsLoop z3 u tr pos i).1 c = some t →
      ∃ w, t.eval M = some w ∧ w.sort = c.sort := by
  induction i with
  | zero =>
    intro c t ht
    obtain ⟨v, -, hc, rfl⟩ := substOf_some ht
    refine ⟨M.const (v.sym (u.suffCurr pos)), subsLoop_zero_eval M pos v, ?_⟩
    rw [M.const_sort, ← hc]
    rfl
  | succ i ih =>
    intro c t ht
    obtain ⟨v, hv, hc, rfl⟩ := substOf_some ht
    have hnext := h.next hi hv
    obtain ⟨w, hw, hsort⟩ := Expr.eval_of_check hnext (frame (subsModel z3 u tr pos M i) (u.suffCurr (pos + i)))
    refine ⟨w, ?_, by rw [hsort, ← hc]; rfl⟩
    rw [subsLoop, Term.eval_subst (ih (Nat.le_of_lt hi)), ← hw]
    exact getExpr_eval z3 _ _ hnext

theorem subsLoop_succ_eval {M : Model} {len : Nat} {ends : List Expr} {pos : Int}
    (h : u.Sorted tr len ends) {i : Nat} (hi : i < len) {v : Var} (hv : v ∈ tr.vars) :
    ((subsLoop z3 u tr pos (i + 1)).1 v).eval M =
      (tr.next i v).eval (frame (subsModel z3 u tr pos M i) (u.suffCurr (pos + i))) := by
  rw [subsLoop, Term.eval_subst (substOf_subsLoop_sorted z3 M pos h (Nat.le_of_lt hi))]
  exact getExpr_eval z3 _ _ (h.next hi hv)

theorem sat_iExprToZExprSubst {M : Model} {es : List Expr} {suffix : String} {σ : Sym → Option Term}
    (hσ : ∀ c t, σ c = some t → ∃ w, t.eval M = some w ∧ w.sort = c.sort)
    (h : ∀ e ∈ es, e.check = some .bool) :
    (∀ t ∈ iExprToZExprSubst z3 es suffix σ, M.Sat t) ↔
      ∀ e ∈ es, (frame (Term.substModel M σ) suffix).Holds e := by
  rw [iExprToZExprSubst, List.forall_mem_map]
  refine forall₂_congr fun e he => ?_
  rw [Model.Sat, Term.eval_subst hσ]
  exact sat_getExpr (h e he)

theorem sat_subsLoop {M : Model} {len : Nat} {ends : List Expr} {pos : Int} (h : u.Sorted tr len ends)
    {i : Nat} (hi : i ≤ len) :
    (∀ t ∈ (subsLoop z3 u tr pos i).2, M.Sat t) ↔ ∀ j < i, ∀ e ∈ u.stepPred tr j,
      (frame (subsModel z3 u tr pos M j) (u.suffCurr (pos + j))).Holds e := by
  induction i with
  | zero => simp [subsLoop]
  | succ i ih =>
    obtain ⟨hinit, hglob, hpred, hstep⟩ := forall_mem_stepPred.mp (h.step hi)
    have hσ := substOf_subsLoop_sorted z3 M pos h (Nat.le_of_lt hi)
    rw [subsLoop]
    simp only [List.forall_mem_append]
    rw [ih (Nat.le_of_lt hi), sat_iExprToZExprSubst hσ hinit, sat_iExprToZExprSubst hσ hglob,
      sat_iExprToZExprSubst hσ hpred, sat_iExprToZExprSubst hσ hstep, Nat.forall_lt_succ_right,
      forall_mem_stepPred (i := i), subsModel]
    tauto

theorem sat_unrollSubs {M : Model} {len : Nat} {pos : Int} {φ : Term}
    (h : unrollSubs z3 u tr len pos = some φ) :
    M.Sat φ ↔ (∀ i < len, ∀ e ∈ u.stepPred tr i,
        (frame (subsModel z3 u tr pos M i) (u.suffCurr (pos + i))).Holds e) ∧
      (∀ v ∈ tr.vars, ((subsLoop z3 u tr pos len).1 v).eval M = some (M.const (v.sym (u.suffCurr len)))) ∧
      u.EndHolds len (frame M (u.suffCurr len)) := by
  rw [unrollSubs, Option.ite_none_right_eq_some] at h
  obtain ⟨hsorted, hφ⟩ := h
  obtain rfl := Option.some.inj hφ
  rw [sat_conjPred, List.forall_mem_append, List.forall_mem_append, sat_subsLoop hsorted le_rfl,
    sat_assertEqual, sat_endCstr hsorted.2, and_assoc]

end Unroller

end Ilang
