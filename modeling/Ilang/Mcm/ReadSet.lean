import Ilang.Mcm.MemoryModel

/-!
# Read sets

The read set of an instruction is meant to hold the name of everything that its decode and its updates depend on. The
traversal leaves out the memory that a store goes to. That is right for an update of this very memory, which keeps what
it does not overwrite, and wrong wherever else the result of the store is read.
-/

namespace Ilang

namespace Mcm

open Smt

/-! ### The memories that stores go to -/

mutual

/-- The variables that `VarUseFinder::Traverse` leaves out. -/
def storeBases : Expr → List String
  | .var _ => []
  | .const _ => []
  | .op .store (.var v :: args) => v.name :: storeBasesList args
  | .op _ args => storeBasesList args
  | .appFunc _ args => storeBasesList args

def storeBasesList : List Expr → List String
  | [] => []
  | e :: es => storeBases e ++ storeBasesList es

end

/-- The same for an update of a memory, whose own stores may go to the memory itself. -/
def chainBases (s : Var) : Expr → List String
  | .var v => if v = s then [] else [v.name]
  | .op .store [x, addr, data] => chainBases s x ++ (storeBases addr ++ storeBases data)
  | .op .ite [c, x, y] => storeBases c ++ (chainBases s x ++ chainBases s y)
  | e => storeBases e

/-! ### What an update writes -/

/-- The contents that an update starts from, if not those of the memory itself, and the stores on top of it. -/
abbrev MemWrites := Option Value × List (Value × Value)

/-- What an update of a memory writes. -/
def writes (ν : Valuation) (s : Var) : Expr → Option MemWrites
  | .var v => some (if v = s then none else some (ν.atom (.var v)), [])
  | .op .store [x, addr, data] => (writes ν s x).bind fun w => (addr.eval ν).bind fun a => (data.eval ν).map fun d =>
    (w.1, w.2 ++ [(a, d)])
  | .op .ite [c, x, y] => if Value.isTrue (c.eval ν) then writes ν s x else writes ν s y
  | e => (e.eval ν).map fun m => (some m, [])

/-- The memory after an update. -/
def overwrite (old : Value) (w : MemWrites) : Option Value :=
  w.2.foldlM (fun m p => ExprOp.store.apply [m, p.1, p.2]) (w.1.getD old)

theorem overwrite_append (old : Value) (w : MemWrites) (p : Value × Value) :
    overwrite old (w.1, w.2 ++ [p]) = (overwrite old w).bind fun m => ExprOp.store.apply [m, p.1, p.2] := by
  rw [overwrite, overwrite, List.foldlM_append]
  refine congrArg ((w.2.foldlM (fun m p => ExprOp.store.apply [m, p.1, p.2]) (w.1.getD old)).bind) (funext fun m => ?_)
  rw [List.foldlM_cons]
  cases ExprOp.store.apply [m, p.1, p.2] <;> rfl

theorem eval_eq_overwrite (ν : Valuation) (s : Var) {e : Expr} {a d : Nat} (h : e.check = some (.mem a d)) :
    e.eval ν = (writes ν s e).bind (overwrite (ν.atom (.var s))) := by
  induction e using chainBases.induct s with
  | case1 =>
    rw [writes, if_pos rfl, Expr.eval]
    rfl
  | case2 v hne =>
    rw [writes, if_neg hne, Expr.eval]
    rfl
  | case3 x addr data ih =>
    obtain ⟨hx, -, -⟩ := Expr.check_store h
    have hstore : (Expr.op .store [x, addr, data]).eval ν = (x.eval ν).bind fun m => (addr.eval ν).bind fun i =>
        (data.eval ν).bind fun v => ExprOp.store.apply [m, i, v] := by
      simp only [Expr.eval, Expr.evalList]
      cases x.eval ν <;> cases addr.eval ν <;> cases data.eval ν <;> rfl
    rw [hstore, ih hx, writes]
    cases writes ν s x with
    | none => rfl
    | some w =>
      simp only [Option.bind_some]
      cases addr.eval ν with
      | none => cases overwrite (ν.atom (.var s)) w <;> rfl
      | some i =>
        cases data.eval ν with
        | none => cases overwrite (ν.atom (.var s)) w <;> rfl
        | some v => exact (overwrite_append _ w (i, v)).symm
  | case4 c x y ihx ihy =>
    obtain ⟨-, hx, hy⟩ := Expr.check_ite h
    rw [Expr.eval_ite h, writes]
    split
    · exact ihx hx
    · exact ihy hy
  | case5 e hvar hstore hite =>
    have hwrites : writes ν s e = (e.eval ν).map fun m => (some m, []) := by
      rw [writes]
      all_goals assumption
    rw [hwrites]
    cases e.eval ν <;> rfl

/-! ### Two valuations -/

/-- Two valuations with the same functions agree on the variables of some names. -/
structure Agree (names : List String) (ν μ : Valuation) : Prop where
  var : ∀ v : Var, v.name ∈ names → ν.atom (.var v) = μ.atom (.var v)
  nondet : ∀ f, ν.atom (.nondet f) = μ.atom (.nondet f)
  func : ν.func = μ.func

theorem mem_usesList {es : List Expr} {n : String} : n ∈ usesList es ↔ ∃ e ∈ es, n ∈ uses e := by
  induction es with
  | nil => simp [usesList]
  | cons e es ih => simp [usesList, ih]

theorem mem_storeBasesList {es : List Expr} {n : String} : n ∈ storeBasesList es ↔ ∃ e ∈ es, n ∈ storeBases e := by
  induction es with
  | nil => simp [storeBasesList]
  | cons e es ih => simp [storeBasesList, ih]

theorem mem_uses_or_storeBases {e : Expr} {v : Var} (hv : Atom.var v ∈ e.atoms) : v.name ∈ uses e ∨ v.name ∈ storeBases e := by
  have hargs : ∀ args : List Expr, (∀ a ∈ args, Atom.var v ∈ a.atoms → v.name ∈ uses a ∨ v.name ∈ storeBases a) →
      Atom.var v ∈ Expr.atomsList args → v.name ∈ usesList args ∨ v.name ∈ storeBasesList args := by
    intro args ih hv
    obtain ⟨a, ha, hva⟩ := Expr.mem_atomsList.mp hv
    rcases ih a ha hva with huse | hbase
    · exact .inl (mem_usesList.mpr ⟨a, ha, huse⟩)
    · exact .inr (mem_storeBasesList.mpr ⟨a, ha, hbase⟩)
  induction e using Expr.ind with
  | var w =>
    obtain rfl : v = w := by simpa [Expr.atoms] using hv
    exact .inl (by simp [uses])
  | const c => simp [Expr.atoms] at hv
  | op o args ih =>
    rw [Expr.atoms] at hv
    by_cases hbase : o = .store ∧ ∃ w as, args = .var w :: as
    · obtain ⟨rfl, w, as, rfl⟩ := hbase
      rw [uses, storeBases]
      rw [Expr.atomsList, List.mem_append] at hv
      rcases hv with hw | hv
      · obtain rfl : v = w := by simpa [Expr.atoms] using hw
        exact .inr List.mem_cons_self
      · exact (hargs as (fun a ha => ih a (List.mem_cons_of_mem _ ha)) hv).imp_right (List.mem_cons_of_mem _)
    · have hother : ∀ (w : Var) (as : List Expr), o = .store → args = .var w :: as → False :=
        fun w as ho has => hbase ⟨ho, w, as, has⟩
      rw [uses.eq_4 o args hother, storeBases.eq_4 o args hother]
      exact hargs args ih hv
  | appFunc f args ih =>
    rw [uses, storeBases]
    rw [Expr.atoms] at hv
    split at hv
    · simp at hv
    · exact hargs args ih hv

variable {ν μ : Valuation} {names : List String}

theorem eval_of_agree (h : Agree names ν μ) {e : Expr} (huses : ∀ n ∈ uses e, n ∈ names)
    (hbases : ∀ n ∈ storeBases e, n ∈ names) : e.eval ν = e.eval μ := by
  refine Expr.eval_congr (fun f _ => congrFun h.func f) fun x hx => ?_
  cases x with
  | var v =>
    rcases mem_uses_or_storeBases hx with huse | hbase
    · exact h.var v (huses v.name huse)
    · exact h.var v (hbases v.name hbase)
  | nondet f => exact h.nondet f

theorem uses_store {x addr data : Expr} {n : String} :
    n ∈ uses (.op .store [x, addr, data]) ↔ ((∀ v, x ≠ .var v) ∧ n ∈ uses x) ∨ n ∈ uses addr ∨ n ∈ uses data := by
  by_cases hx : ∃ v, x = .var v
  · obtain ⟨v, rfl⟩ := hx
    simp [uses, usesList]
  · have hne : ∀ v, x ≠ .var v := fun v heq => hx ⟨v, heq⟩
    rw [uses.eq_4 _ _ fun v as _ has => hne v (List.cons.inj has).1]
    simp only [usesList, List.append_nil, List.mem_append]
    exact or_congr_left (and_iff_right hne).symm

/-- An update of a memory writes the same where the valuations agree on all that its addresses, data and conditions read. -/
theorem writes_of_agree (h : Agree names ν μ) {s : Var} {e : Expr} (huses : (∀ v, e ≠ .var v) → ∀ n ∈ uses e, n ∈ names)
    (hbases : ∀ n ∈ chainBases s e, n ∈ names) : writes ν s e = writes μ s e := by
  induction e using chainBases.induct s with
  | case1 => rw [writes, writes, if_pos rfl, if_pos rfl]
  | case2 v hne =>
    rw [writes, writes, if_neg hne, if_neg hne, h.var v (hbases v.name (by simp [chainBases, hne]))]
  | case3 x addr data ih =>
    have hall := huses fun v => by simp
    rw [chainBases, List.forall_mem_append, List.forall_mem_append] at hbases
    obtain ⟨hx, haddr, hdata⟩ := hbases
    have hx' := ih (fun hne n hn => hall n (uses_store.mpr (.inl ⟨hne, hn⟩))) hx
    have haddr' := eval_of_agree h (fun n hn => hall n (uses_store.mpr (.inr (.inl hn)))) haddr
    have hdata' := eval_of_agree h (fun n hn => hall n (uses_store.mpr (.inr (.inr hn)))) hdata
    rw [writes, writes, hx', haddr', hdata']
  | case4 c x y ihx ihy =>
    have hall := huses fun v => by simp
    simp only [uses, usesList, List.append_nil, List.forall_mem_append] at hall
    obtain ⟨hc, hx, hy⟩ := hall
    rw [chainBases, List.forall_mem_append, List.forall_mem_append] at hbases
    obtain ⟨hcb, hxb, hyb⟩ := hbases
    rw [writes, writes, eval_of_agree h hc hcb, ihx (fun _ => hx) hxb, ihy (fun _ => hy) hyb]
  | case5 e hvar hstore hite =>
    have hwrites : ∀ ν, writes ν s e = (e.eval ν).map fun m => (some m, []) := by
      intro ν
      rw [writes]
      all_goals assumption
    have hchain : chainBases s e = storeBases e := by
      rw [chainBases]
      all_goals assumption
    rw [hwrites, hwrites, eval_of_agree h (huses hvar) (hchain ▸ hbases)]

/-! ### Instructions -/

/-- Every memory that a store goes to is also found in another place, stores in an update of this very memory apart. -/
def BasesFound (stateVar : String → Var) (i : McmInstr) (readSet : List String) : Prop :=
  (∀ n ∈ storeBases i.decode, n ∈ readSet) ∧ ∀ p ∈ i.updates,
    if p.2.sort.isMem then ∀ n ∈ chainBases (stateVar p.1) p.2, n ∈ readSet else ∀ n ∈ storeBases p.2, n ∈ readSet

instance (stateVar : String → Var) (i : McmInstr) (readSet : List String) : Decidable (BasesFound stateVar i readSet) :=
  inferInstanceAs (Decidable (_ ∧ ∀ p ∈ i.updates, _))

/-- Two valuations that agree on the read set of a step make the same decision, give the same values to what is not a
memory, and write the same data to the same addresses. -/
def SameStep (ν μ : Valuation) (ts : TraceStep) : Prop :=
  ts.inst.decode.eval ν = ts.inst.decode.eval μ ∧ ∀ p ∈ ts.inst.updates,
    if p.2.sort.isMem then writes ν (ts.stateVar p.1) p.2 = writes μ (ts.stateVar p.1) p.2 else p.2.eval ν = p.2.eval μ

/-- The read set of a step is complete whenever no memory is hidden behind a store. -/
theorem readSet_complete {ev : Ev} {hostName : String} {stateVar : String → Var} {pos : Nat} {i : McmInstr}
    (hbases : BasesFound stateVar i (TraceStep.ofInstr ev hostName stateVar pos i).readSet) {ν μ : Valuation}
    (h : Agree (TraceStep.ofInstr ev hostName stateVar pos i).readSet ν μ) :
    SameStep ν μ (TraceStep.ofInstr ev hostName stateVar pos i) := by
  obtain ⟨hdecode, hupdates⟩ := hbases
  refine ⟨eval_of_agree h (fun n hn => List.mem_append_left _ hn) hdecode, fun p hp => ?_⟩
  have huses : ∀ n ∈ uses p.2, n ∈ (TraceStep.ofInstr ev hostName stateVar pos i).readSet := fun n hn =>
    List.mem_append_right _ (List.mem_flatMap.mpr ⟨p, hp, hn⟩)
  have hbase := hupdates p hp
  split
  · rename_i hmem
    rw [if_pos hmem] at hbase
    exact writes_of_agree h (fun _ => huses) hbase
  · rename_i hmem
    rw [if_neg hmem] at hbase
    exact eval_of_agree h huses hbase

/-- A memory with one value at every address, and everything else at its default. -/
def fillMem (m : Var) (a d x : Nat) (hsort : m.sort = .mem a d) : Valuation where
  atom y := if y = .var m then .mem a d fun _ => BitVec.ofNat d x else y.sort.default
  atom_sort y := by
    split
    · rename_i hy
      rw [hy]
      exact hsort.symm
    · exact Srt.sort_default _
  func f _ := f.out.default
  func_sort f _ := Srt.sort_default f.out

def bitConst (x : Nat) : Expr := .const (.bv x 1)

def coreMem : Var := ⟨0, "m", none, .mem 1 1⟩

/-- An instruction that is decoded from what a store leaves in a memory. -/
def storedLoad : McmInstr := ⟨"i", .op .eq [.op .load [.op .store [.var coreMem, bitConst 0, bitConst 1], bitConst 1], bitConst 0], []⟩

/-- Its read set is empty, though the memory decides. -/
theorem readSet_misses_storedLoad :
    ∃ ν μ, Agree (TraceStep.ofInstr .init "" (fun _ => coreMem) 1 storedLoad).readSet ν μ ∧
      ¬SameStep ν μ (TraceStep.ofInstr .init "" (fun _ => coreMem) 1 storedLoad) := by
  refine ⟨fillMem coreMem 1 1 0 rfl, fillMem coreMem 1 1 1 rfl, ⟨fun v hv => ?_, fun f => rfl, rfl⟩, fun hsame => ?_⟩
  · cases hv
  · have hdecode : some (Value.bool true) = some (Value.bool false) := hsame.1
    simp at hdecode

def otherMem : Var := ⟨1, "k", none, .mem 1 1⟩

/-- An update that stores twice into its own memory, the second time what it loads from another one after a store. -/
def storeTwice : McmInstr :=
  ⟨"i", .op .eq [.op .load [.var otherMem, bitConst 0], bitConst 0],
    [("m", .op .store [.op .store [.var coreMem, bitConst 0, bitConst 1], bitConst 1, .op .load [.op .store [.var otherMem, bitConst 1, bitConst 0], bitConst 0]])]⟩

/-- The memory that the update goes to is not read, and the two valuations differ there. -/
theorem readSet_complete_storeTwice :
    "m" ∉ (TraceStep.ofInstr .init "" (fun _ => coreMem) 1 storeTwice).readSet ∧
      SameStep (fillMem coreMem 1 1 0 rfl) (fillMem coreMem 1 1 1 rfl) (TraceStep.ofInstr .init "" (fun _ => coreMem) 1 storeTwice) := by
  refine ⟨by decide, readSet_complete (by decide) ⟨fun v hv => ?_, fun f => rfl, rfl⟩⟩
  have hname : v.name = "k" := by simpa [TraceStep.ofInstr, storeTwice, uses, usesList, bitConst, coreMem, otherMem] using hv
  have hne : v ≠ coreMem := fun heq => by simp [heq, coreMem] at hname
  simp [fillMem, hne]

end Mcm

end Ilang
