import Ilang.Util.Clocked
import Mathlib.Data.Nat.Init
import Mathlib.Logic.Function.Basic
import Mathlib.Tactic.Choose

/-!
# Abstract memories

A memory that the design and the instruction share is replaced, for the check of one instruction, by a module that keeps
one written entry of each side. `absmem` has the contents before the instruction in an array; `absmem_ra` does not have
them either, and takes the values of reads from outside. Both are Verilog text in the generator, in which the two sides are
written out. What they stand for is one memory for each side, with all of its writes.

The two modules differ in what a second write to the same address does: `absmem_ra` takes it, and `absmem` drops it.

The array of `absmem` has an entry for every address. Its size is the parameter `TTS` of the instance, which the generator
computes with `pow` as a `long long`; so from 63 address bits on, where that does not fit, the array is not the one here.
-/

namespace Ilang

variable {aw dw : Nat}

inductive Side where
  | vlg | ila
  deriving DecidableEq, Repr

def Side.other : Side → Side
  | .vlg => .ila
  | .ila => .vlg

/-- The inputs of one side. -/
structure MemPort (aw dw : Nat) where
  raddr : BitVec aw
  ren : Bool
  waddr : BitVec aw
  wdata : BitVec dw
  wen : Bool
  rRandInput : BitVec dw

structure MemInp (aw dw : Nat) where
  rst : Bool
  compare : Bool
  issue : Bool
  port : Side → MemPort aw dw

/-- An entry: `e0`, `a0` and `d0`. -/
structure MemEntry (aw dw : Nat) where
  e0 : Bool
  a0 : BitVec aw
  d0 : BitVec dw

def MemEntry.hit (e : MemEntry aw dw) (a : BitVec aw) : Bool := e.e0 && e.a0 == a

/-! ### Modules -/

/-- The register that both modules begin with. It comes out of the reset with the option to avoid the issue stage. -/
def startAndOn (avoidIssue : Bool) (on : Bool) (i : MemInp aw dw) : Bool :=
  if i.rst then avoidIssue else if i.issue then true else on

/-- The reads and the writes that count: `ren_real` and `wen_real`. -/
def renReal (on : Bool) (i : MemInp aw dw) (s : Side) : Bool := (i.port s).ren && !i.compare && on

def wenReal (on : Bool) (i : MemInp aw dw) (s : Side) : Bool := (i.port s).wen && !i.compare && on

/-- The registers of `absmem`. -/
structure AbsMem (aw dw : Nat) where
  on : Bool
  mem : BitVec aw → BitVec dw
  m : Side → MemEntry aw dw

namespace AbsMem

def step (avoidIssue : Bool) (st : AbsMem aw dw) (i : MemInp aw dw) : AbsMem aw dw where
  on := startAndOn avoidIssue st.on i
  mem := st.mem
  m := fun s =>
    if i.rst then { st.m s with e0 := false }
    else if !(st.m s).e0 && wenReal st.on i s then ⟨true, (i.port s).waddr, (i.port s).wdata⟩
    else st.m s

def rdata (st : AbsMem aw dw) (i : MemInp aw dw) (s : Side) : BitVec dw :=
  if renReal st.on i s then
    if (st.m s).hit (i.port s).raddr then (st.m s).d0 else st.mem (i.port s).raddr
  else (i.port s).rRandInput

/-- `vlg_match_ila` and `ila_match_vlg`. -/
def matched (st : AbsMem aw dw) (s : Side) : Bool :=
  if (st.m s).e0 then
    if (st.m s.other).hit (st.m s).a0 then (st.m s.other).d0 == (st.m s).d0
    else (st.m s).d0 == st.mem (st.m s).a0
  else true

def equal (st : AbsMem aw dw) (i : MemInp aw dw) : Bool := i.compare && st.matched .ila && st.matched .vlg

end AbsMem

/-- The registers of `absmem_ra`. -/
structure AbsMemRa (aw dw : Nat) where
  on : Bool
  r : Side → MemEntry aw dw
  m : Side → MemEntry aw dw

namespace AbsMemRa

def step (avoidIssue : Bool) (st : AbsMemRa aw dw) (i : MemInp aw dw) : AbsMemRa aw dw where
  on := startAndOn avoidIssue st.on i
  r := fun s =>
    if i.rst then { st.r s with e0 := false }
    else if renReal st.on i s && !(st.r s).e0 then ⟨true, (i.port s).raddr, (i.port s).rRandInput⟩
    else st.r s
  m := fun s =>
    if i.rst then { st.m s with e0 := false }
    else if wenReal st.on i s && (!(st.m s).e0 || (st.m s).hit (i.port s).waddr) then
      ⟨true, (i.port s).waddr, (i.port s).wdata⟩
    else st.m s

def rdata (st : AbsMemRa aw dw) (i : MemInp aw dw) (s : Side) : BitVec dw :=
  if renReal st.on i s then
    if (st.m s).hit (i.port s).raddr then (st.m s).d0 else (i.port s).rRandInput
  else (i.port s).rRandInput

def matched (st : AbsMemRa aw dw) (s : Side) : Bool :=
  if (st.m s).e0 then
    if (st.m s.other).hit (st.m s).a0 then (st.m s.other).d0 == (st.m s).d0
    else if (st.r s.other).hit (st.m s).a0 then (st.r s.other).d0 == (st.m s).d0
    else false
  else true

def equal (st : AbsMemRa aw dw) (i : MemInp aw dw) : Bool := i.compare && st.matched .ila && st.matched .vlg

end AbsMemRa

/-! ### Concrete memories -/

/-- The memory of one side: its contents at the reset, and all of its writes that count. -/
def concreteStep (on : Bool) (init : BitVec aw → BitVec dw) (s : Side) (c : BitVec aw → BitVec dw) (i : MemInp aw dw) :
    BitVec aw → BitVec dw :=
  if i.rst then init
  else if wenReal on i s then Function.update c (i.port s).waddr (i.port s).wdata
  else c

section Trace

variable (avoidIssue : Bool) (on₀ : Bool) (inp : Nat → MemInp aw dw)

/-- `start_and_on` in every cycle, which is the same in both modules. -/
def onAt : Nat → Bool := Clocked.run (startAndOn avoidIssue) on₀ inp

def concreteAt (init : BitVec aw → BitVec dw) (s : Side) : Nat → BitVec aw → BitVec dw
  | 0 => init
  | t + 1 => concreteStep (onAt avoidIssue on₀ inp t) init s (concreteAt init s t) (inp t)

/-- The writes of one side that count go to one address. -/
def OneAddress (k : Nat) (s : Side) : Prop :=
  ∃ a, ∀ t, k ≤ t → wenReal (onAt avoidIssue on₀ inp t) (inp t) s = true → ((inp t).port s).waddr = a

end Trace

/-- The reset is asserted in the first cycles, and in no other one. -/
def MemResetFirst (inp : Nat → MemInp aw dw) (k : Nat) : Prop := 0 < k ∧ ∀ t, (inp t).rst = true ↔ t < k

/-- What the modules promise in a cycle: the reads that count see the memory of their side, and the memories are the same
where `equal` is high. -/
structure MemSound (i : MemInp aw dw) (ren : Side → Bool) (rdata : Side → BitVec dw) (equal : Bool)
    (concrete : Side → BitVec aw → BitVec dw) : Prop where
  read : ∀ s, ren s = true → rdata s = concrete s (i.port s).raddr
  equal : equal = true → concrete .vlg = concrete .ila

/-! ### An entry stands for a memory -/

/-- The memory is its first contents with the entry on top. -/
def MemEntry.Represents (e : MemEntry aw dw) (init c : BitVec aw → BitVec dw) (a : BitVec aw) : Prop :=
  (e.e0 = true → e.a0 = a) ∧ c = if e.e0 then Function.update init e.a0 e.d0 else init

namespace MemEntry.Represents

variable {e e' : MemEntry aw dw} {init c c' : BitVec aw → BitVec dw} {a a' : BitVec aw}

theorem empty (h : e.e0 = false) (init : BitVec aw → BitVec dw) (a : BitVec aw) : e.Represents init init a :=
  ⟨fun hup => absurd (h.symm.trans hup) (by simp), by rw [h]; rfl⟩

theorem write (h : e.Represents init c a) (x : BitVec dw) :
    (MemEntry.mk true a x).Represents init (Function.update c a x) a := by
  refine ⟨fun _ => rfl, ?_⟩
  rw [h.2]
  split
  · rename_i hup
    rw [h.1 hup, Function.update_idem]
    rfl
  · rfl

theorem write_same (h : e.Represents init c a) (hup : e.e0 = true) : e.Represents init (Function.update c a e.d0) a := by
  refine ⟨h.1, ?_⟩
  rw [h.2, if_pos hup, h.1 hup, Function.update_idem]

theorem apply (h : e.Represents init c a) (x : BitVec aw) : c x = if e.hit x then e.d0 else init x := by
  rw [h.2, MemEntry.hit]
  cases hup : e.e0 with
  | false => rfl
  | true =>
    by_cases hx : e.a0 = x
    · subst hx
      simp
    · simp [hx, Function.update_of_ne (Ne.symm hx)]

theorem eq_init (h : e.Represents init c a) (hd : e.e0 = true → e.d0 = init e.a0) : c = init := by
  rw [h.2]
  split
  · rename_i hup
    rw [hd hup, Function.update_eq_self]
  · rfl

theorem eq_of_same (h : e.Represents init c a) (h' : e'.Represents init c' a') (hup : e.e0 = true) (hup' : e'.e0 = true)
    (ha : e'.a0 = e.a0) (hd : e'.d0 = e.d0) : c = c' := by
  rw [h.2, h'.2, if_pos hup, if_pos hup', ha, hd]

end MemEntry.Represents

theorem concrete_eq_of_match {m : Side → MemEntry aw dw} {init : BitVec aw → BitVec dw}
    {c : Side → BitVec aw → BitVec dw} {a : Side → BitVec aw} (h : ∀ s, (m s).Represents init (c s) (a s))
    (hmatch : ∀ s, (m s).e0 = true → if (m s.other).hit (m s).a0 then (m s.other).d0 = (m s).d0 else (m s).d0 = init (m s).a0) :
    c .vlg = c .ila := by
  by_cases hsame : (m .vlg).e0 = true ∧ (m .ila).hit (m .vlg).a0 = true
  · obtain ⟨hup, hhit⟩ := hsame
    have hd := hmatch .vlg hup
    rw [Side.other, if_pos hhit] at hd
    rw [MemEntry.hit, Bool.and_eq_true, beq_iff_eq] at hhit
    exact (h .vlg).eq_of_same (h .ila) hup hhit.1 hhit.2 hd
  · -- No entry meets an entry of the other side, so both memories are as they were.
    have hinit : ∀ s, c s = init := by
      intro s
      refine (h s).eq_init fun hup => ?_
      have hd := hmatch s hup
      rw [if_neg] at hd
      · exact hd
      · intro hhit
        cases s with
        | vlg => exact hsame ⟨hup, hhit⟩
        | ila =>
          rw [MemEntry.hit, Bool.and_eq_true, beq_iff_eq] at hhit
          exact hsame ⟨hhit.1, by rw [MemEntry.hit, hup, Bool.true_and, beq_iff_eq]; exact hhit.2.symm⟩
    rw [hinit, hinit]

/-! ### Runs -/

section Runs

variable {avoidIssue : Bool} {inp : Nat → MemInp aw dw} {k : Nat} {init : BitVec aw → BitVec dw}

theorem mem_rst_false (h : MemResetFirst inp k) {t : Nat} (ht : k ≤ t) : (inp t).rst = false :=
  Bool.eq_false_iff.mpr fun hrst => Nat.not_le_of_lt ((h.2 t).mp hrst) ht

theorem exists_last_rst (h : MemResetFirst inp k) : ∃ n, k = n + 1 ∧ (inp n).rst = true := by
  obtain ⟨n, rfl⟩ : ∃ n, k = n + 1 := ⟨k - 1, (Nat.succ_pred_eq_of_pos h.1).symm⟩
  exact ⟨n, rfl, (h.2 n).mpr (Nat.lt_succ_self n)⟩

theorem concreteAt_reset (h : MemResetFirst inp k) (on₀ : Bool) (s : Side) :
    concreteAt avoidIssue on₀ inp init s k = init := by
  obtain ⟨n, rfl, hrst⟩ := exists_last_rst h
  rw [concreteAt, concreteStep, if_pos hrst]

theorem concreteAt_succ (h : MemResetFirst inp k) (on₀ : Bool) (s : Side) {t : Nat} (ht : k ≤ t) :
    concreteAt avoidIssue on₀ inp init s (t + 1) =
      if wenReal (onAt avoidIssue on₀ inp t) (inp t) s then
        Function.update (concreteAt avoidIssue on₀ inp init s t) ((inp t).port s).waddr ((inp t).port s).wdata
      else concreteAt avoidIssue on₀ inp init s t := by
  rw [concreteAt, concreteStep, mem_rst_false h ht]
  rfl

namespace AbsMem

variable {st : AbsMem aw dw}

def reg (avoidIssue : Bool) (st : AbsMem aw dw) (inp : Nat → MemInp aw dw) : Nat → AbsMem aw dw :=
  Clocked.run (step avoidIssue) st inp

theorem reg_on (t : Nat) : (reg avoidIssue st inp t).on = onAt avoidIssue st.on inp t := by
  induction t with
  | zero => rfl
  | succ t ih => rw [reg, Clocked.run_succ, onAt, Clocked.run_succ, ← onAt, ← ih]; rfl

theorem reg_mem (t : Nat) : (reg avoidIssue st inp t).mem = st.mem := by
  induction t with
  | zero => rfl
  | succ t ih => rw [← ih]; rfl

/-- The writes of one side that count all carry the same data. -/
def SameData (avoidIssue : Bool) (on₀ : Bool) (inp : Nat → MemInp aw dw) (k : Nat) : Prop :=
  ∀ t t' s, k ≤ t → k ≤ t' → wenReal (onAt avoidIssue on₀ inp t) (inp t) s = true →
    wenReal (onAt avoidIssue on₀ inp t') (inp t') s = true → ((inp t).port s).wdata = ((inp t').port s).wdata

theorem m_reset (h : MemResetFirst inp k) (s : Side) : ((reg avoidIssue st inp k).m s).e0 = false := by
  obtain ⟨n, rfl, hrst⟩ := exists_last_rst h
  rw [reg, Clocked.run_succ, step]
  simp [hrst]

theorem m_succ (h : MemResetFirst inp k) (s : Side) {t : Nat} (ht : k ≤ t) : (reg avoidIssue st inp (t + 1)).m s =
    if !((reg avoidIssue st inp t).m s).e0 && wenReal (onAt avoidIssue st.on inp t) (inp t) s then
      ⟨true, ((inp t).port s).waddr, ((inp t).port s).wdata⟩
    else (reg avoidIssue st inp t).m s := by
  rw [reg, Clocked.run_succ, step, ← reg_on, ← reg]
  simp [mem_rst_false h ht]

theorem exists_write (h : MemResetFirst inp k) (s : Side) {t : Nat} (ht : k ≤ t)
    (hup : ((reg avoidIssue st inp t).m s).e0 = true) :
    ∃ t', k ≤ t' ∧ wenReal (onAt avoidIssue st.on inp t') (inp t') s = true ∧
      ((reg avoidIssue st inp t).m s).d0 = ((inp t').port s).wdata := by
  induction t, ht using Nat.le_induction with
  | base =>
    rw [m_reset h s] at hup
    cases hup
  | succ t ht ih =>
    rw [m_succ h s ht] at hup ⊢
    split
    · rename_i hwrite
      rw [Bool.and_eq_true] at hwrite
      exact ⟨t, ht, hwrite.2, rfl⟩
    · rename_i hkeep
      rw [if_neg hkeep] at hup
      exact ih hup

theorem represents (h : MemResetFirst inp k) (hdata : SameData avoidIssue st.on inp k) (s : Side) {a : BitVec aw}
    (ha : ∀ t, k ≤ t → wenReal (onAt avoidIssue st.on inp t) (inp t) s = true → ((inp t).port s).waddr = a) {t : Nat}
    (ht : k ≤ t) : ((reg avoidIssue st inp t).m s).Represents init (concreteAt avoidIssue st.on inp init s t) a := by
  induction t, ht using Nat.le_induction with
  | base =>
    rw [concreteAt_reset h]
    exact .empty (m_reset h s) init a
  | succ t ht ih =>
    rw [concreteAt_succ h st.on s ht, m_succ h s ht]
    cases hw : wenReal (onAt avoidIssue st.on inp t) (inp t) s with
    | false => simpa using ih
    | true =>
      cases hup : ((reg avoidIssue st inp t).m s).e0 with
      | false =>
        simp only [Bool.not_false, Bool.and_self, if_true, ha t ht hw]
        exact ih.write _
      | true =>
        -- The write is dropped, and it would have changed nothing.
        obtain ⟨t', ht', hw', hd⟩ := exists_write h s ht hup
        simp only [Bool.not_true, Bool.false_and, if_true, Bool.false_eq_true, if_false, ha t ht hw,
          hdata t t' s ht ht' hw hw', ← hd]
        exact ih.write_same hup

theorem sound (h : MemResetFirst inp k) (hone : ∀ s, OneAddress avoidIssue st.on inp k s)
    (hdata : SameData avoidIssue st.on inp k) {t : Nat} (ht : k ≤ t) :
    MemSound (inp t) (renReal (onAt avoidIssue st.on inp t) (inp t)) ((reg avoidIssue st inp t).rdata (inp t))
      ((reg avoidIssue st inp t).equal (inp t)) fun s => concreteAt avoidIssue st.on inp st.mem s t := by
  choose a ha using hone
  have hrep : ∀ s, ((reg avoidIssue st inp t).m s).Represents st.mem (concreteAt avoidIssue st.on inp st.mem s t) (a s) :=
    fun s => represents h hdata s (ha s) ht
  refine ⟨fun s hren => ?_, fun hequal => concrete_eq_of_match hrep fun s hup => ?_⟩
  · rw [rdata, reg_on, hren, if_pos rfl, reg_mem, (hrep s).apply]
  · rw [equal, Bool.and_eq_true, Bool.and_eq_true] at hequal
    have hmatch : (reg avoidIssue st inp t).matched s = true := by
      cases s with
      | vlg => exact hequal.2
      | ila => exact hequal.1.2
    rw [matched, if_pos hup, reg_mem] at hmatch
    split at hmatch
    · rename_i hhit
      rw [if_pos hhit]
      exact beq_iff_eq.mp hmatch
    · rename_i hhit
      rw [if_neg hhit]
      exact beq_iff_eq.mp hmatch

end AbsMem

namespace AbsMemRa

variable {st : AbsMemRa aw dw}

def reg (avoidIssue : Bool) (st : AbsMemRa aw dw) (inp : Nat → MemInp aw dw) : Nat → AbsMemRa aw dw :=
  Clocked.run (step avoidIssue) st inp

theorem reg_on (t : Nat) : (reg avoidIssue st inp t).on = onAt avoidIssue st.on inp t := by
  induction t with
  | zero => rfl
  | succ t ih => rw [reg, Clocked.run_succ, onAt, Clocked.run_succ, ← onAt, ← ih]; rfl

/-- The values from outside for reads that are not forwarded are those of some contents. -/
def Supplied (avoidIssue : Bool) (st : AbsMemRa aw dw) (inp : Nat → MemInp aw dw) (k : Nat)
    (init : BitVec aw → BitVec dw) : Prop :=
  ∀ t s, k ≤ t → renReal (onAt avoidIssue st.on inp t) (inp t) s = true →
    ((reg avoidIssue st inp t).m s).hit ((inp t).port s).raddr = false →
    ((inp t).port s).rRandInput = init ((inp t).port s).raddr

theorem m_reset (h : MemResetFirst inp k) (s : Side) :
    ((reg avoidIssue st inp k).m s).e0 = false ∧ ((reg avoidIssue st inp k).r s).e0 = false := by
  obtain ⟨n, rfl, hrst⟩ := exists_last_rst h
  rw [reg, Clocked.run_succ, step]
  simp [hrst]

theorem m_succ (h : MemResetFirst inp k) (s : Side) {t : Nat} (ht : k ≤ t) : (reg avoidIssue st inp (t + 1)).m s =
    if wenReal (onAt avoidIssue st.on inp t) (inp t) s &&
        (!((reg avoidIssue st inp t).m s).e0 || ((reg avoidIssue st inp t).m s).hit ((inp t).port s).waddr) then
      ⟨true, ((inp t).port s).waddr, ((inp t).port s).wdata⟩
    else (reg avoidIssue st inp t).m s := by
  rw [reg, Clocked.run_succ, step, ← reg_on, ← reg]
  simp [mem_rst_false h ht]

theorem r_succ (h : MemResetFirst inp k) (s : Side) {t : Nat} (ht : k ≤ t) : (reg avoidIssue st inp (t + 1)).r s =
    if renReal (onAt avoidIssue st.on inp t) (inp t) s && !((reg avoidIssue st inp t).r s).e0 then
      ⟨true, ((inp t).port s).raddr, ((inp t).port s).rRandInput⟩
    else (reg avoidIssue st inp t).r s := by
  rw [reg, Clocked.run_succ, step, ← reg_on, ← reg]
  simp [mem_rst_false h ht]

theorem represents (h : MemResetFirst inp k) (s : Side) {a : BitVec aw}
    (ha : ∀ t, k ≤ t → wenReal (onAt avoidIssue st.on inp t) (inp t) s = true → ((inp t).port s).waddr = a) {t : Nat}
    (ht : k ≤ t) : ((reg avoidIssue st inp t).m s).Represents init (concreteAt avoidIssue st.on inp init s t) a := by
  induction t, ht using Nat.le_induction with
  | base =>
    rw [concreteAt_reset h]
    exact .empty (m_reset h s).1 init a
  | succ t ht ih =>
    rw [concreteAt_succ h st.on s ht, m_succ h s ht]
    cases hw : wenReal (onAt avoidIssue st.on inp t) (inp t) s with
    | false => simpa using ih
    | true =>
      -- The entry is empty, or it is at the one address, so the write is always taken.
      have htaken : (!((reg avoidIssue st inp t).m s).e0 ||
          ((reg avoidIssue st inp t).m s).hit ((inp t).port s).waddr) = true := by
        cases hup : ((reg avoidIssue st inp t).m s).e0 with
        | false => rfl
        | true => simp [MemEntry.hit, hup, ih.1 hup, ha t ht hw]
      rw [htaken, Bool.and_self, if_pos rfl, if_pos rfl, ha t ht hw]
      exact ih.write _

/-- A read entry is at the address of the write entry, or it has the first contents. -/
def ReadOk (m r : MemEntry aw dw) (init : BitVec aw → BitVec dw) : Prop :=
  r.e0 = true → m.hit r.a0 = true ∨ r.d0 = init r.a0

theorem readOk (h : MemResetFirst inp k) (hsup : Supplied avoidIssue st inp k init) (s : Side) {t : Nat} (ht : k ≤ t) :
    ReadOk ((reg avoidIssue st inp t).m s) ((reg avoidIssue st inp t).r s) init := by
  induction t, ht using Nat.le_induction with
  | base =>
    intro hup
    rw [(m_reset h s).2] at hup
    cases hup
  | succ t ht ih =>
    -- An entry that is written stays at its address.
    have hstay : ∀ x, ((reg avoidIssue st inp t).m s).hit x = true → ((reg avoidIssue st inp (t + 1)).m s).hit x = true := by
      intro x hx
      rw [m_succ h s ht]
      split
      · rename_i htaken
        rw [MemEntry.hit, Bool.and_eq_true, beq_iff_eq] at hx
        rw [Bool.and_eq_true, hx.1, Bool.not_true, Bool.false_or, MemEntry.hit, Bool.and_eq_true, beq_iff_eq] at htaken
        rw [MemEntry.hit, Bool.true_and, beq_iff_eq, ← htaken.2.2, hx.2]
      · exact hx
    intro hup
    rw [r_succ h s ht] at hup ⊢
    split at hup
    · rename_i hread
      rw [if_pos hread]
      rw [Bool.and_eq_true] at hread
      cases hhit : ((reg avoidIssue st inp t).m s).hit ((inp t).port s).raddr with
      | true => exact .inl (hstay _ hhit)
      | false => exact .inr (hsup t s ht hread.1 hhit)
    · rename_i hread
      rw [if_neg hread]
      exact (ih hup).imp_left (hstay _)

theorem sound (h : MemResetFirst inp k) (hone : ∀ s, OneAddress avoidIssue st.on inp k s)
    (hsup : Supplied avoidIssue st inp k init) {t : Nat} (ht : k ≤ t) :
    MemSound (inp t) (renReal (onAt avoidIssue st.on inp t) (inp t)) ((reg avoidIssue st inp t).rdata (inp t))
      ((reg avoidIssue st inp t).equal (inp t)) fun s => concreteAt avoidIssue st.on inp init s t := by
  choose a ha using hone
  have hrep : ∀ s, ((reg avoidIssue st inp t).m s).Represents init (concreteAt avoidIssue st.on inp init s t) (a s) :=
    fun s => represents h s (ha s) ht
  refine ⟨fun s hren => ?_, fun hequal => concrete_eq_of_match hrep fun s hup => ?_⟩
  · rw [rdata, reg_on, hren, if_pos rfl, (hrep s).apply]
    cases hhit : ((reg avoidIssue st inp t).m s).hit ((inp t).port s).raddr with
    | true => rfl
    | false => exact hsup t s ht hren hhit
  · rw [equal, Bool.and_eq_true, Bool.and_eq_true] at hequal
    have hmatch : (reg avoidIssue st inp t).matched s = true := by
      cases s with
      | vlg => exact hequal.2
      | ila => exact hequal.1.2
    rw [matched, if_pos hup] at hmatch
    split at hmatch
    · rename_i hhit
      rw [if_pos hhit]
      exact beq_iff_eq.mp hmatch
    · rename_i hhit
      rw [if_neg hhit]
      split at hmatch
      · rename_i hread
        rw [MemEntry.hit, Bool.and_eq_true, beq_iff_eq] at hread
        rw [← beq_iff_eq.mp hmatch, ← hread.2]
        exact (readOk h hsup s.other ht hread.1).resolve_left fun hm => hhit (hread.2 ▸ hm)
      · cases hmatch

end AbsMemRa

/-- The promise in every cycle of a run, of `absmem` and of `absmem_ra`. -/
def AbsMem.SoundRun (avoidIssue : Bool) (st : AbsMem aw dw) (inp : Nat → MemInp aw dw) (k : Nat) : Prop :=
  ∀ t, k ≤ t → MemSound (inp t) (renReal (onAt avoidIssue st.on inp t) (inp t)) ((reg avoidIssue st inp t).rdata (inp t))
    ((reg avoidIssue st inp t).equal (inp t)) fun s => concreteAt avoidIssue st.on inp st.mem s t

def AbsMemRa.SoundRun (avoidIssue : Bool) (st : AbsMemRa aw dw) (inp : Nat → MemInp aw dw) (k : Nat)
    (init : BitVec aw → BitVec dw) : Prop :=
  ∀ t, k ≤ t → MemSound (inp t) (renReal (onAt avoidIssue st.on inp t) (inp t)) ((reg avoidIssue st inp t).rdata (inp t))
    ((reg avoidIssue st inp t).equal (inp t)) fun s => concreteAt avoidIssue st.on inp init s t

/-- Both modules stand for memories with one written address: `absmem_ra` for any writes to it, and `absmem` for writes of
the same data. -/
theorem abstract_memories_sound (avoidIssue : Bool) (inp : Nat → MemInp aw dw) (k : Nat) (h : MemResetFirst inp k) :
    (∀ st : AbsMem aw dw, (∀ s, OneAddress avoidIssue st.on inp k s) → AbsMem.SameData avoidIssue st.on inp k →
      st.SoundRun avoidIssue inp k) ∧
    ∀ st : AbsMemRa aw dw, (∀ s, OneAddress avoidIssue st.on inp k s) → ∀ init, st.Supplied avoidIssue inp k init →
      st.SoundRun avoidIssue inp k init :=
  ⟨fun _ hone hdata _ ht => AbsMem.sound h hone hdata ht, fun _ hone _ hsup _ ht => AbsMemRa.sound h hone hsup ht⟩

end Runs

/-! ### Two writes -/

/-- A reset, two writes of the design to address 0 with the data 1 and 0, then reads of it. -/
def twoWrites (t : Nat) : MemInp 1 1 where
  rst := t == 0
  compare := false
  issue := false
  port
    | .vlg => ⟨0, true, 0, if t == 1 then 1 else 0, t == 1 || t == 2, 0⟩
    | .ila => ⟨0, false, 0, 0, false, 0⟩

/-- A reset, then two writes of the same data. -/
def twoEqualWrites (t : Nat) : MemInp 1 1 where
  rst := t == 0
  compare := false
  issue := false
  port
    | .vlg => ⟨0, true, 0, 1, t == 1 || t == 2, 0⟩
    | .ila => ⟨0, false, 0, 0, false, 0⟩

def emptyAbsMem : AbsMem 1 1 := ⟨false, fun _ => 0, fun _ => ⟨false, 0, 0⟩⟩

def emptyAbsMemRa : AbsMemRa 1 1 := ⟨false, fun _ => ⟨false, 0, 0⟩, fun _ => ⟨false, 0, 0⟩⟩

theorem twoWrites_resetFirst : MemResetFirst twoWrites 1 := ⟨Nat.one_pos, fun t => by simp [twoWrites]⟩

theorem twoEqualWrites_resetFirst : MemResetFirst twoEqualWrites 1 := ⟨Nat.one_pos, fun t => by simp [twoEqualWrites]⟩

theorem twoWrites_oneAddress (s : Side) : OneAddress true false twoWrites 1 s :=
  ⟨0, fun _ _ _ => by cases s <;> rfl⟩

theorem twoEqualWrites_oneAddress (s : Side) : OneAddress true false twoEqualWrites 1 s :=
  ⟨0, fun _ _ _ => by cases s <;> rfl⟩

theorem twoEqualWrites_sameData : AbsMem.SameData true false twoEqualWrites 1 := by
  intro t t' s _ _ _ _
  cases s <;> rfl

theorem twoEqualWrites_supplied : emptyAbsMemRa.Supplied true twoEqualWrites 1 fun _ => 0 := by
  intro t s _ _ _
  cases s <;> rfl

/-- Two equal writes are within both modules, and reads see them. -/
theorem abstract_memories_sound_equal_writes :
    (emptyAbsMem.SoundRun true twoEqualWrites 1 ∧
      (AbsMem.reg true emptyAbsMem twoEqualWrites 3).rdata (twoEqualWrites 3) .vlg = 1) ∧
    emptyAbsMemRa.SoundRun true twoEqualWrites 1 (fun _ => 0) ∧
      (AbsMemRa.reg true emptyAbsMemRa twoEqualWrites 3).rdata (twoEqualWrites 3) .vlg = 1 := by
  have hsound := abstract_memories_sound true twoEqualWrites 1 twoEqualWrites_resetFirst
  refine ⟨⟨hsound.1 emptyAbsMem (fun s => twoEqualWrites_oneAddress s) twoEqualWrites_sameData, by decide⟩, ?_, by decide⟩
  exact hsound.2 emptyAbsMemRa (fun s => twoEqualWrites_oneAddress s) _ twoEqualWrites_supplied

/-- `absmem` reads the data of the first write after the second one, and `absmem_ra` reads that of the second. -/
theorem absmem_drops_second_write : MemResetFirst twoWrites 1 ∧ (∀ s, OneAddress true emptyAbsMem.on twoWrites 1 s) ∧
    ¬ emptyAbsMem.SoundRun true twoWrites 1 ∧
    (AbsMemRa.reg true emptyAbsMemRa twoWrites 3).rdata (twoWrites 3) .vlg = 0 := by
  refine ⟨twoWrites_resetFirst, fun s => twoWrites_oneAddress s, fun hsound => ?_, by decide⟩
  have hread := (hsound 3 (by decide)).read .vlg (by decide)
  revert hread
  decide

end Ilang
