import Ilang.Vtarget.InvObj

/-!
# Calls on invariant objects

The calls that add invariants to the objects or take them away, over runs of any calls on any objects. A call adds all of an
invariant or nothing, and says which, unless a file cannot be read by the ABC parser, an invariant is repeated after its clauses have
been inserted, or there is no text behind the answer of a CHC solver.
-/

namespace Ilang

open Abc (Cnf)

/-! ### The ABC parser -/

/-- What is read of the files, or `none` for one that cannot be opened. There is no AIGER map in BLIF mode, and not always a map
of an abstraction. -/
structure AbcFiles where
  blif : Option (List Abc.BlifLatch)
  aiger : Option (Option (List Abc.MapLine))
  gla : Option (Option Abc.GlaMap)
  result : Option (List (List Nat))

namespace AbcFiles

/-- All files, if they can be opened. -/
def content (f : AbcFiles) : Option Abc.Input :=
  f.blif.bind fun blif => (f.aiger.elim (some none) (Option.map some)).bind fun aiger =>
    (f.gla.elim (some none) (Option.map some)).bind fun gla => f.result.map fun lines => ⟨blif, aiger, gla, lines⟩

/-- The files in front of the first that cannot be opened. -/
def before (f : AbcFiles) : Abc.Input :=
  match f.blif, f.aiger, f.gla with
  | none, _, _ => ⟨[], none, none, []⟩
  | some blif, some none, _ => ⟨blif, none, none, []⟩
  | some blif, aiger, some none => ⟨blif, aiger.join, none, []⟩
  | some blif, aiger, gla => ⟨blif, aiger.join, gla.join, []⟩

/-- The constructor of the parser. It aborts if what it reads is not well-formed, and stops at a file that it cannot open. -/
def parse (o : Abc.Options) (f : AbcFiles) : Option (Option (Abc.Input × List Abc.Cube)) :=
  match f.content with
  | some i => (Abc.parse o i).map fun cubes => some (i, cubes)
  | none => (Abc.parse o f.before).map fun _ => none

end AbcFiles

namespace Abc

def cubeText (c : Cube) : VText :=
  c.lits.foldl (fun cube l =>
    let literal := (if l.1 then ['~'] else []) ++ l.2
    if cube.isEmpty then literal else cube ++ " & ".toList ++ literal) []

def cubesText (cubes : List Cube) : VText :=
  cubes.foldl (fun result c =>
    if result.isEmpty then '(' :: (cubeText c ++ [')']) else result ++ " | (".toList ++ cubeText c ++ [')']) []

/-- `parse_result` of a parser that got to the end. -/
def resultText (cubes : List Cube) : VText := replaceAll ('~' :: '(' :: (cubesText cubes ++ [')'])) allAssumedReg zeroText

end Abc

/-! ### The calls of one object -/

/-- What an SMT parser makes of a text: the expression, and the definitions of the variables in it. -/
structure Translation where
  finalTranslateResult : VText
  localVars : List (VText × VText × CInt)
  freeVars : List (VText × CInt)

namespace InvariantObject

/-- The names of free variables with their widths, which must not be there with other widths. -/
def addFreeVars (m : OrdMap VText CInt) (vars : List (VText × CInt)) : Option (OrdMap VText CInt) :=
  vars.foldlM (fun m v =>
    match m.find? v.1 with
    | none => some (m.emplace v.1 v.2)
    | some w => if w = v.2 then some m else none) m

/-- The parser has no names of variables outside of the design to give. -/
def addInvariantFromAbcResultFile (o : InvariantObject) (replaceOutsideVar : Bool) (f : AbcFiles) (ref cnf : Cnf) :
    Option ((InvariantObject × Cnf) × Bool) :=
  if o.dutInstName.isEmpty then none
  else
    (f.parse ⟨o.dutInstName, replaceOutsideVar⟩).map fun r =>
      let inv := r.elim [] fun p => Abc.resultText p.2
      let cnf := r.elim cnf fun p => Abc.parseCnf p.1 ref cnf p.2
      let succeed := r.elim true fun p => !p.2.isEmpty
      if !succeed then ((o, cnf), false)
      else if inv ∈ o.invVlgExprs then ((o, cnf), false)
      else (({ o with invVlgExprs := o.invVlgExprs ++ [inv], smtFormulaVec := o.smtFormulaVec ++ [[]] }, cnf), true)

/-- The text behind the answer, which is the first line. -/
def textBehindUnsat (file : Option VText) : Option VText :=
  file.bind fun text => if text.takeWhile (· ≠ '\n') = "unsat".toList then some (text.dropWhile (· ≠ '\n')).tail else none

def addInvariantFromChcResultFile (o : InvariantObject) (file : Option VText) (translate : VText → Option Translation) :
    Option (InvariantObject × Bool) :=
  if o.dutInstName.isEmpty then none
  else
    match textBehindUnsat file with
    | none => some (o, false)
    | some rawSmt =>
      (translate rawSmt).bind fun t =>
        if t.finalTranslateResult ∈ o.invVlgExprs then some (o, false)
        else if rawSmt.isEmpty then some ({ o with invVlgExprs := o.invVlgExprs ++ [t.finalTranslateResult] }, false)
        else
          (addFreeVars o.invExtraFreeVars t.freeVars).map fun freeVars =>
            ({ o with
              invVlgExprs := o.invVlgExprs ++ [t.finalTranslateResult]
              smtFormulaVec := o.smtFormulaVec ++ [rawSmt]
              invExtraVlgVars := o.invExtraVlgVars ++ t.localVars
              invExtraFreeVars := freeVars }, true)

def addInvariantFromGrainResultFile (o : InvariantObject) (file : Option VText) (translate : VText → Option Translation) :
    Option InvariantObject :=
  if o.dutInstName.isEmpty then none
  else
    match file with
    | none => some o
    | some rawSmt =>
      (translate rawSmt).bind fun t => (addFreeVars o.invExtraFreeVars t.freeVars).map fun freeVars =>
        { o with
          invVlgExprs := o.invVlgExprs ++ [t.finalTranslateResult]
          smtFormulaVec := o.smtFormulaVec ++ [[]]
          invExtraVlgVars := o.invExtraVlgVars ++ t.localVars
          invExtraFreeVars := freeVars }

def addInvariantFromVerilogExpr (o : InvariantObject) (vlgIn : VText) : InvariantObject :=
  { o with invVlgExprs := o.invVlgExprs ++ [vlgIn], smtFormulaVec := o.smtFormulaVec ++ [[]] }

def insertFromAnotherInvObj (o r : InvariantObject) : InvariantObject :=
  { o with
    invExtraVlgVars := o.invExtraVlgVars ++ r.invExtraVlgVars
    invExtraFreeVars := r.invExtraFreeVars.entries.foldl (fun m v => m.emplace v.1 v.2) o.invExtraFreeVars
    invVlgExprs := o.invVlgExprs ++ r.invVlgExprs
    smtFormulaVec := o.smtFormulaVec ++ r.smtFormulaVec }

def removeInvByIdx (o : InvariantObject) (idx : ℕ) : Option InvariantObject :=
  if idx < o.invVlgExprs.length then
    some { o with invVlgExprs := o.invVlgExprs.eraseIdx idx, smtFormulaVec := o.smtFormulaVec.eraseIdx idx }
  else none

def clearAllInvariants (o : InvariantObject) : InvariantObject := ⟨[], [], .empty, [], o.dutInstName⟩

end InvariantObject

/-! ### Runs -/

/-- The objects and the CNFs of a program. -/
structure InvWorld where
  objs : ℕ → InvariantObject
  cnfs : ℕ → Cnf

inductive InvCall
  | fromAbc (i : ℕ) (replaceOutsideVar : Bool) (f : AbcFiles) (ref cnf : ℕ)
  | fromChc (i : ℕ) (file : Option VText) (translate : VText → Option Translation)
  | fromGrain (i : ℕ) (file : Option VText) (translate : VText → Option Translation)
  | fromVerilogExpr (i : ℕ) (vlgIn : VText)
  | insertFrom (i j : ℕ)
  | removeByIdx (i idx : ℕ)
  | clearAll (i : ℕ)

namespace InvWorld

def setObj (w : InvWorld) (i : ℕ) (o : InvariantObject) : InvWorld := { w with objs := Function.update w.objs i o }

def setCnf (w : InvWorld) (k : ℕ) (c : Cnf) : InvWorld := { w with cnfs := Function.update w.cnfs k c }

/-- A call, with what it returns. There is no result if it aborts, or if an object is inserted into itself. -/
def step (w : InvWorld) : InvCall → Option (InvWorld × Option Bool)
  | .fromAbc i replaceOutsideVar f ref cnf =>
    ((w.objs i).addInvariantFromAbcResultFile replaceOutsideVar f (w.cnfs ref) (w.cnfs cnf)).map fun r =>
      ((w.setObj i r.1.1).setCnf cnf r.1.2, some r.2)
  | .fromChc i file translate =>
    ((w.objs i).addInvariantFromChcResultFile file translate).map fun r => (w.setObj i r.1, some r.2)
  | .fromGrain i file translate => ((w.objs i).addInvariantFromGrainResultFile file translate).map fun o => (w.setObj i o, none)
  | .fromVerilogExpr i vlgIn => some (w.setObj i ((w.objs i).addInvariantFromVerilogExpr vlgIn), none)
  | .insertFrom i j => if i = j then none else some (w.setObj i ((w.objs i).insertFromAnotherInvObj (w.objs j)), none)
  | .removeByIdx i idx => ((w.objs i).removeInvByIdx idx).map fun o => (w.setObj i o, none)
  | .clearAll i => some (w.setObj i (w.objs i).clearAllInvariants, none)

/-- As many formulae as expressions. -/
def Even (w : InvWorld) : Prop := ∀ i, (w.objs i).smtFormulaVec.length = (w.objs i).invVlgExprs.length

/-- All files of a call can be read, and there is an invariant in the result. -/
def Found (w : InvWorld) : InvCall → Prop
  | .fromAbc i replaceOutsideVar f _ _ =>
    ∃ inp cubes, f.content = some inp ∧ Abc.parse ⟨(w.objs i).dutInstName, replaceOutsideVar⟩ inp = some cubes ∧ cubes ≠ []
  | .fromChc _ file translate => ∃ rawSmt t, InvariantObject.textBehindUnsat file = some rawSmt ∧ translate rawSmt = some t ∧
      t.finalTranslateResult ≠ []
  | _ => False

/-- What is promised of a call. -/
structure Respects (w : InvWorld) (c : InvCall) (r : InvWorld × Option Bool) : Prop where
  even : r.1.Even
  unchanged : r.2 = some false → r.1 = w
  found : r.2 = some true → w.Found c

/-- What is promised of a run. -/
def Atomic (w : InvWorld) : List InvCall → Prop
  | [] => True
  | c :: cs => ∀ r, w.step c = some r → w.Respects c r ∧ r.1.Atomic cs

/-- The condition for a call. With a file that the ABC parser cannot open there must already be an empty expression, with a repeated
invariant of an AIGER file all clauses must be there, and behind the answer of a CHC solver there must be text that the parser can
make an expression of. -/
def Meets (w : InvWorld) : InvCall → Prop
  | .fromAbc i replaceOutsideVar f ref cnf =>
    match f.content with
    | none => [] ∈ (w.objs i).invVlgExprs
    | some inp => inp.aiger.isSome = true → ∀ cubes, Abc.parse ⟨(w.objs i).dutInstName, replaceOutsideVar⟩ inp = some cubes →
        Abc.resultText cubes ∈ (w.objs i).invVlgExprs → ∀ c ∈ cubes,
          Abc.clause2Str (Abc.canonicalizeClause c.clause) ∈ (w.cnfs ref).map Prod.fst ∨
          Abc.clause2Str (Abc.canonicalizeClause c.clause) ∈ (w.cnfs cnf).map Prod.fst
  | .fromChc i file translate => ∀ rawSmt t, InvariantObject.textBehindUnsat file = some rawSmt → translate rawSmt = some t →
      t.finalTranslateResult ∉ (w.objs i).invVlgExprs → rawSmt ≠ [] ∧ t.finalTranslateResult ≠ []
  | _ => True

/-- Every call that does not abort meets its condition. -/
def AllMeet (w : InvWorld) : List InvCall → Prop
  | [] => True
  | c :: cs => ∀ r, w.step c = some r → w.Meets c ∧ r.1.AllMeet cs

end InvWorld

/-! ### The calls one by one -/

namespace Abc

section Insertions

variable {ref : Cnf}

theorem length_insertAll_le (cnf : Cnf) (cubes : List Cube) :
    cnf.length ≤ (cubes.foldl (fun cnf c => insertClauseNewerFromReference ref cnf c.clause) cnf).length := by
  induction cubes generalizing cnf with
  | nil => exact Nat.le_refl _
  | cons c cubes ih =>
    refine Nat.le_trans ?_ (ih _)
    unfold insertClauseNewerFromReference
    dsimp only
    split_ifs
    · exact Nat.le_refl _
    · exact Nat.le_refl _
    · rw [List.length_append]
      exact Nat.le_add_right _ _

theorem insertAll_eq_iff {cnf : Cnf} {cubes : List Cube} :
    cubes.foldl (fun cnf c => insertClauseNewerFromReference ref cnf c.clause) cnf = cnf ↔
      ∀ c ∈ cubes, clause2Str (canonicalizeClause c.clause) ∈ ref.map Prod.fst ∨
        clause2Str (canonicalizeClause c.clause) ∈ cnf.map Prod.fst := by
  induction cubes with
  | nil => exact iff_of_true rfl (List.forall_mem_nil _)
  | cons c cubes ih =>
    rw [List.forall_mem_cons, List.foldl_cons]
    by_cases hthere : clause2Str (canonicalizeClause c.clause) ∈ ref.map Prod.fst ∨
        clause2Str (canonicalizeClause c.clause) ∈ cnf.map Prod.fst
    · have hsame : insertClauseNewerFromReference ref cnf c.clause = cnf := by
        unfold insertClauseNewerFromReference
        dsimp only
        split_ifs with href hcnf
        · rfl
        · rfl
        · exact absurd hthere (not_or.mpr ⟨href, hcnf⟩)
      rw [hsame, ih]
      exact (and_iff_right hthere).symm
    · refine iff_of_false (fun heq => ?_) fun h => hthere h.1
      obtain ⟨href, hcnf⟩ := not_or.mp hthere
      have hlength := @length_insertAll_le ref (insertClauseNewerFromReference ref cnf c.clause) cubes
      rw [heq] at hlength
      unfold insertClauseNewerFromReference at hlength
      dsimp only at hlength
      rw [if_neg href, if_neg hcnf, List.length_append, List.length_singleton] at hlength
      omega

end Insertions

end Abc

namespace InvariantObject

variable {o : InvariantObject}

/-- The object with one more expression, without a formula of its own. -/
def push (o : InvariantObject) (inv : VText) : InvariantObject :=
  { o with invVlgExprs := o.invVlgExprs ++ [inv], smtFormulaVec := o.smtFormulaVec ++ [[]] }

theorem fromAbc_unreadable {replaceOutsideVar : Bool} {f : AbcFiles} {ref cnf : Cnf} {r : (InvariantObject × Cnf) × Bool}
    (hfiles : f.content = none) (h : o.addInvariantFromAbcResultFile replaceOutsideVar f ref cnf = some r) :
    r = if [] ∈ o.invVlgExprs then ((o, cnf), false) else ((o.push [], cnf), true) := by
  unfold addInvariantFromAbcResultFile at h
  split at h
  · cases h
  · obtain ⟨p, hp, rfl⟩ := Option.map_eq_some_iff.mp h
    rw [AbcFiles.parse, hfiles] at hp
    obtain ⟨_, _, rfl⟩ := Option.map_eq_some_iff.mp hp
    rfl

theorem fromAbc_readable {replaceOutsideVar : Bool} {f : AbcFiles} {ref cnf : Cnf} {r : (InvariantObject × Cnf) × Bool}
    {inp : Abc.Input} (hfiles : f.content = some inp)
    (h : o.addInvariantFromAbcResultFile replaceOutsideVar f ref cnf = some r) :
    ∃ cubes, Abc.parse ⟨o.dutInstName, replaceOutsideVar⟩ inp = some cubes ∧
      r = if cubes = [] ∨ Abc.resultText cubes ∈ o.invVlgExprs then ((o, Abc.parseCnf inp ref cnf cubes), false)
        else ((o.push (Abc.resultText cubes), Abc.parseCnf inp ref cnf cubes), true) := by
  unfold addInvariantFromAbcResultFile at h
  split at h
  · cases h
  · obtain ⟨p, hp, rfl⟩ := Option.map_eq_some_iff.mp h
    rw [AbcFiles.parse, hfiles] at hp
    obtain ⟨cubes, hcubes, rfl⟩ := Option.map_eq_some_iff.mp hp
    refine ⟨cubes, hcubes, ?_⟩
    cases cubes with
    | nil => exact (if_pos (Or.inl rfl)).symm
    | cons c cubes =>
      by_cases hin : Abc.resultText (c :: cubes) ∈ o.invVlgExprs
      · exact (if_pos hin).trans (if_pos (Or.inr hin)).symm
      · exact (if_neg hin).trans (if_neg (not_or.mpr ⟨List.cons_ne_nil _ _, hin⟩)).symm

theorem fromChc_cases {file : Option VText} {translate : VText → Option Translation} {r : InvariantObject × Bool}
    (h : o.addInvariantFromChcResultFile file translate = some r) :
    (textBehindUnsat file = none ∧ r = (o, false)) ∨
    ∃ rawSmt t, textBehindUnsat file = some rawSmt ∧ translate rawSmt = some t ∧
      ((t.finalTranslateResult ∈ o.invVlgExprs ∧ r = (o, false)) ∨
      (t.finalTranslateResult ∉ o.invVlgExprs ∧ rawSmt = [] ∧
        r = ({ o with invVlgExprs := o.invVlgExprs ++ [t.finalTranslateResult] }, false)) ∨
      (t.finalTranslateResult ∉ o.invVlgExprs ∧ rawSmt ≠ [] ∧ r.2 = true ∧
        r.1.invVlgExprs = o.invVlgExprs ++ [t.finalTranslateResult] ∧ r.1.smtFormulaVec = o.smtFormulaVec ++ [rawSmt])) := by
  unfold addInvariantFromChcResultFile at h
  split at h
  · cases h
  · cases hraw : textBehindUnsat file with
    | none =>
      rw [hraw] at h
      exact .inl ⟨rfl, (Option.some.inj h).symm⟩
    | some rawSmt =>
      rw [hraw] at h
      obtain ⟨t, ht, h⟩ := Option.bind_eq_some_iff.mp h
      refine .inr ⟨rawSmt, t, rfl, ht, ?_⟩
      split_ifs at h with hin hempty
      · exact .inl ⟨hin, (Option.some.inj h).symm⟩
      · exact .inr (.inl ⟨hin, List.isEmpty_iff.mp hempty, (Option.some.inj h).symm⟩)
      · obtain ⟨freeVars, _, rfl⟩ := Option.map_eq_some_iff.mp h
        exact .inr (.inr ⟨hin, mt List.isEmpty_iff.mpr hempty, rfl, rfl, rfl⟩)

theorem fromGrain_length {file : Option VText} {translate : VText → Option Translation} {o' : InvariantObject}
    (hlength : o.smtFormulaVec.length = o.invVlgExprs.length)
    (h : o.addInvariantFromGrainResultFile file translate = some o') : o'.smtFormulaVec.length = o'.invVlgExprs.length := by
  unfold addInvariantFromGrainResultFile at h
  split at h
  · cases h
  · split at h
    · exact Option.some.inj h ▸ hlength
    · obtain ⟨t, _, h⟩ := Option.bind_eq_some_iff.mp h
      obtain ⟨freeVars, _, rfl⟩ := Option.map_eq_some_iff.mp h
      rw [List.length_append, List.length_append, hlength]
      rfl

theorem push_length (hlength : o.smtFormulaVec.length = o.invVlgExprs.length) (inv : VText) :
    (o.push inv).smtFormulaVec.length = (o.push inv).invVlgExprs.length := by
  rw [push, List.length_append, List.length_append, hlength]
  rfl

theorem insertFrom_length {r : InvariantObject} (hlength : o.smtFormulaVec.length = o.invVlgExprs.length)
    (hr : r.smtFormulaVec.length = r.invVlgExprs.length) :
    (o.insertFromAnotherInvObj r).smtFormulaVec.length = (o.insertFromAnotherInvObj r).invVlgExprs.length := by
  rw [insertFromAnotherInvObj, List.length_append, List.length_append, hlength, hr]

theorem removeByIdx_length {idx : ℕ} {o' : InvariantObject} (hlength : o.smtFormulaVec.length = o.invVlgExprs.length)
    (h : o.removeInvByIdx idx = some o') : o'.smtFormulaVec.length = o'.invVlgExprs.length := by
  unfold removeInvByIdx at h
  split at h
  · rename_i hidx
    rw [← Option.some.inj h]
    dsimp only
    rw [List.length_eraseIdx_of_lt hidx, List.length_eraseIdx_of_lt (hlength ▸ hidx), hlength]
  · cases h

end InvariantObject

/-! ### Runs -/

namespace InvWorld

variable {w : InvWorld}

theorem setObj_self (i : ℕ) : w.setObj i (w.objs i) = w := by
  rw [setObj, Function.update_eq_self]

theorem setCnf_self (k : ℕ) : w.setCnf k (w.cnfs k) = w := by
  rw [setCnf, Function.update_eq_self]

theorem Even.setObj (h : w.Even) {i : ℕ} {o : InvariantObject} (ho : o.smtFormulaVec.length = o.invVlgExprs.length) :
    (w.setObj i o).Even := by
  intro j
  show (Function.update w.objs i o j).smtFormulaVec.length = (Function.update w.objs i o j).invVlgExprs.length
  by_cases hj : j = i
  · rw [hj, Function.update_self]
    exact ho
  · rw [Function.update_of_ne hj]
    exact h j

theorem setObj_inj {i : ℕ} {o : InvariantObject} (h : w.setObj i o = w) : o = w.objs i := by
  have hobj : Function.update w.objs i o i = w.objs i := congrFun (congrArg InvWorld.objs h) i
  rwa [Function.update_self] at hobj

theorem setCnf_eq_iff {k : ℕ} {c : Cnf} : w.setCnf k c = w ↔ c = w.cnfs k := by
  constructor
  · intro h
    have hcnf : Function.update w.cnfs k c k = w.cnfs k := congrFun (congrArg InvWorld.cnfs h) k
    rwa [Function.update_self] at hcnf
  · rintro rfl
    exact setCnf_self k

theorem Respects.of_none {c : InvCall} {w' : InvWorld} (h : w'.Even) : w.Respects c (w', none) where
  even := h
  unchanged h := nomatch h
  found h := nomatch h

theorem fromAbc_respects_iff (hw : w.Even) {i ref cnf : ℕ} {replaceOutsideVar : Bool} {f : AbcFiles}
    {r : InvWorld × Option Bool} (h : w.step (.fromAbc i replaceOutsideVar f ref cnf) = some r) :
    w.Respects (.fromAbc i replaceOutsideVar f ref cnf) r ↔ w.Meets (.fromAbc i replaceOutsideVar f ref cnf) := by
  obtain ⟨q, hq, rfl⟩ := Option.map_eq_some_iff.mp h
  cases hfiles : f.content with
  | none =>
    have hmeets : w.Meets (.fromAbc i replaceOutsideVar f ref cnf) = ([] ∈ (w.objs i).invVlgExprs) := by
      rw [Meets, hfiles]
    rw [hmeets]
    have hq := InvariantObject.fromAbc_unreadable hfiles hq
    by_cases hin : [] ∈ (w.objs i).invVlgExprs
    · rw [if_pos hin] at hq
      subst hq
      refine iff_of_true ⟨?_, fun _ => ?_, fun h => by cases h⟩ hin
      · rw [setObj_self, setCnf_self]
        exact hw
      · rw [setObj_self, setCnf_self]
    · rw [if_neg hin] at hq
      subst hq
      refine iff_of_false (fun hrespects => ?_) hin
      obtain ⟨inp, _, hcontent, _⟩ := hrespects.found rfl
      exact absurd (hfiles.symm.trans hcontent) (Option.some_ne_none inp).symm
  | some inp =>
    obtain ⟨cubes, hcubes, hq⟩ := InvariantObject.fromAbc_readable hfiles hq
    have hmeets : w.Meets (.fromAbc i replaceOutsideVar f ref cnf) ↔ (inp.aiger.isSome = true →
        Abc.resultText cubes ∈ (w.objs i).invVlgExprs → ∀ c ∈ cubes,
          Abc.clause2Str (Abc.canonicalizeClause c.clause) ∈ (w.cnfs ref).map Prod.fst ∨
          Abc.clause2Str (Abc.canonicalizeClause c.clause) ∈ (w.cnfs cnf).map Prod.fst) := by
      rw [Meets, hfiles]
      refine ⟨fun h haiger => h haiger cubes hcubes, fun h haiger cubes' hcubes' => ?_⟩
      obtain rfl := Option.some.inj (hcubes.symm.trans hcubes')
      exact h haiger
    rw [hmeets]
    by_cases hin : cubes = [] ∨ Abc.resultText cubes ∈ (w.objs i).invVlgExprs
    · rw [if_pos hin] at hq
      subst hq
      have hrespects : w.Respects (.fromAbc i replaceOutsideVar f ref cnf)
          ((w.setObj i (w.objs i)).setCnf cnf (Abc.parseCnf inp (w.cnfs ref) (w.cnfs cnf) cubes), some false) ↔
          Abc.parseCnf inp (w.cnfs ref) (w.cnfs cnf) cubes = w.cnfs cnf := by
        rw [setObj_self, ← setCnf_eq_iff]
        exact ⟨fun h => h.unchanged rfl, fun heq => ⟨hw, fun _ => heq, fun h => by cases h⟩⟩
      rw [hrespects, Abc.parseCnf]
      by_cases haiger : inp.aiger.isSome = true
      · rw [if_pos haiger, Abc.insertAll_eq_iff]
        constructor
        · exact fun hall _ _ => hall
        · intro hmeets
          obtain rfl | hin := hin
          · exact List.forall_mem_nil _
          · exact hmeets haiger hin
      · rw [if_neg haiger]
        exact iff_of_true rfl fun h => absurd h haiger
    · rw [if_neg hin] at hq
      subst hq
      obtain ⟨hne, hnew⟩ := not_or.mp hin
      refine iff_of_true ⟨?_, fun h => (by cases h), fun _ => ⟨inp, cubes, hfiles, hcubes, hne⟩⟩ fun _ hin' => absurd hin' hnew
      exact hw.setObj (InvariantObject.push_length (hw i) _)

theorem fromChc_respects_iff (hw : w.Even) {i : ℕ} {file : Option VText} {translate : VText → Option Translation}
    {r : InvWorld × Option Bool} (h : w.step (.fromChc i file translate) = some r) :
    w.Respects (.fromChc i file translate) r ↔ w.Meets (.fromChc i file translate) := by
  obtain ⟨q, hq, rfl⟩ := Option.map_eq_some_iff.mp h
  have hfailed : w.Respects (.fromChc i file translate) (w.setObj i (w.objs i), some false) := by
    rw [setObj_self]
    exact ⟨hw, fun _ => rfl, fun h => nomatch h⟩
  obtain ⟨hnone, rfl⟩ | ⟨rawSmt, t, hraw, ht, hcases⟩ := InvariantObject.fromChc_cases hq
  · exact iff_of_true hfailed fun rawSmt t hraw => nomatch hnone.symm.trans hraw
  · have hmeets : w.Meets (.fromChc i file translate) ↔
        (t.finalTranslateResult ∉ (w.objs i).invVlgExprs → rawSmt ≠ [] ∧ t.finalTranslateResult ≠ []) := by
      constructor
      · exact fun h => h rawSmt t hraw ht
      · intro h rawSmt' t' hraw' ht'
        obtain rfl := Option.some.inj (hraw.symm.trans hraw')
        obtain rfl := Option.some.inj (ht.symm.trans ht')
        exact h
    rw [hmeets]
    obtain ⟨hin, rfl⟩ | ⟨hin, hempty, rfl⟩ | ⟨hin, hne, htrue, hexprs, hsmts⟩ := hcases
    · exact iff_of_true hfailed fun h => absurd hin h
    · refine iff_of_false (fun hrespects => ?_) fun h => (h hin).1 hempty
      have hlength := congrArg (fun o => o.invVlgExprs.length) (setObj_inj (hrespects.unchanged rfl))
      dsimp only at hlength
      rw [List.length_append, List.length_singleton] at hlength
      omega
    · obtain ⟨o, b⟩ := q
      obtain rfl : b = true := htrue
      constructor
      · intro hrespects _
        obtain ⟨rawSmt', t', hraw', ht', hfinal⟩ := hrespects.found rfl
        obtain rfl := Option.some.inj (hraw.symm.trans hraw')
        obtain rfl := Option.some.inj (ht.symm.trans ht')
        exact ⟨hne, hfinal⟩
      · intro h
        refine ⟨hw.setObj ?_, fun h => (nomatch h), fun _ => ⟨rawSmt, t, hraw, ht, (h hin).2⟩⟩
        rw [hexprs, hsmts, List.length_append, List.length_append, hw i]
        rfl

theorem step_respects_iff (hw : w.Even) {c : InvCall} {r : InvWorld × Option Bool} (h : w.step c = some r) :
    w.Respects c r ↔ w.Meets c := by
  cases c with
  | fromAbc i replaceOutsideVar f ref cnf => exact fromAbc_respects_iff hw h
  | fromChc i file translate => exact fromChc_respects_iff hw h
  | fromGrain i file translate =>
    obtain ⟨o, ho, rfl⟩ := Option.map_eq_some_iff.mp h
    exact iff_of_true (.of_none (hw.setObj (InvariantObject.fromGrain_length (hw i) ho))) trivial
  | fromVerilogExpr i vlgIn =>
    obtain rfl := Option.some.inj h
    exact iff_of_true (.of_none (hw.setObj (InvariantObject.push_length (hw i) vlgIn))) trivial
  | insertFrom i j =>
    rw [step] at h
    split at h
    · cases h
    · obtain rfl := Option.some.inj h
      exact iff_of_true (.of_none (hw.setObj (InvariantObject.insertFrom_length (hw i) (hw j)))) trivial
  | removeByIdx i idx =>
    obtain ⟨o, ho, rfl⟩ := Option.map_eq_some_iff.mp h
    exact iff_of_true (.of_none (hw.setObj (InvariantObject.removeByIdx_length (hw i) ho))) trivial
  | clearAll i =>
    obtain rfl := Option.some.inj h
    exact iff_of_true (.of_none (hw.setObj rfl)) trivial

/-- In a run, all calls do what is promised of them exactly if all that do not abort meet their conditions. -/
theorem atomic_iff (hw : w.Even) (cs : List InvCall) : w.Atomic cs ↔ w.AllMeet cs := by
  induction cs generalizing w with
  | nil => exact Iff.rfl
  | cons c cs ih =>
    refine forall₂_congr fun r hr => ?_
    rw [step_respects_iff hw hr]
    constructor
    · intro ⟨hmeets, hrest⟩
      exact ⟨hmeets, (ih ((step_respects_iff hw hr).mpr hmeets).even).mp hrest⟩
    · intro ⟨hmeets, hrest⟩
      exact ⟨hmeets, (ih ((step_respects_iff hw hr).mpr hmeets).even).mpr hrest⟩

/-- Empty objects of one design. -/
def start : InvWorld := ⟨fun _ => { InvariantObject.empty with dutInstName := "m1".toList }, fun _ => []⟩

theorem start_even : start.Even := fun _ => rfl

def translateTrue (rawSmt : VText) : Option Translation :=
  if rawSmt = "true".toList then some ⟨"1'b1".toList, [], []⟩ else none

/-- A CHC result, the expression removed again, another one, and its copy in the next object. -/
theorem atomic_start : start.Atomic [.fromChc 0 (some "unsat\ntrue".toList) translateTrue, .removeByIdx 0 0,
    .fromVerilogExpr 0 "m1.x".toList, .insertFrom 1 0] := by
  refine (atomic_iff start_even _).mpr fun r _ => ⟨?_, fun _ _ => ⟨trivial, fun _ _ => ⟨trivial, fun _ _ => ⟨trivial, trivial⟩⟩⟩⟩
  intro rawSmt t hraw ht _
  have htext : InvariantObject.textBehindUnsat (some "unsat\ntrue".toList) = some "true".toList := by decide
  obtain rfl := Option.some.inj (htext.symm.trans hraw)
  have htrue : translateTrue "true".toList = some ⟨"1'b1".toList, [], []⟩ := if_pos rfl
  obtain rfl := Option.some.inj (htrue.symm.trans ht)
  exact ⟨by decide, by decide⟩

/-- An ABC result that cannot be opened gives an empty invariant. -/
theorem unreadable_adds_empty : ¬ ∀ (w : InvWorld) (cs : List InvCall), w.Even → w.Atomic cs := by
  intro h
  have hstep : start.step (.fromAbc 0 true ⟨some [], none, none, none⟩ 0 0) =
      some ((start.setObj 0 ((start.objs 0).push [])).setCnf 0 [], some true) := rfl
  obtain ⟨hrespects, _⟩ := h start [.fromAbc 0 true ⟨some [], none, none, none⟩ 0 0] start_even _ hstep
  obtain ⟨inp, _, hcontent, _⟩ := hrespects.found rfl
  cases hcontent

end InvWorld

end Ilang
