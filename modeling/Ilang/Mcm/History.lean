import Ilang.Mcm.Machine
import Ilang.Util.Position

/-!
# Reads and their histories

The axiom of reads asks for one write that a read is from. What a machine has instead is a history: the writes that the read saw,
one after the other. The write that is asked for is the last one in the history that meets the axiom's test for the same address,
and the initial step if there is none. So the axiom holds as soon as every read of a shared state has a history whose writes come
in the order of the relations, and every other write is ordered after the read.
-/

namespace Ilang

namespace Mcm

open Smt

/-! ### Stores and loads in an expression -/

theorem exists_store_args {args : List Expr} {s : Srt} (h : (Expr.op .store args).check = some s) :
    s.isMem = true ∧ ∃ m x y, args = [m, x, y] := by
  rw [Expr.check, Option.bind_eq_some_iff] at h
  obtain ⟨ss, hss, hop⟩ := h
  have hlength : s.isMem = true ∧ ss.length = 3 := by
    match ss, hop with
    | [.mem a d, .bv w, .bv w'], hop =>
      change Op.check .store [.mem a d, .bv w, .bv w'] = some s at hop
      obtain ⟨-, heq⟩ := Option.ite_none_right_eq_some.mp hop
      rw [← Option.some.inj heq]
      exact ⟨rfl, rfl⟩
  have hargs : args.length = 3 := by
    have hsorts := Expr.sortList_of_checkList hss
    rw [Expr.sortList_eq_map] at hsorts
    rw [← hlength.2, ← hsorts, List.length_map]
  exact ⟨hlength.1, List.length_eq_three.mp hargs⟩

theorem checkAndPeel_isSome {n : Nat} {e x : Expr} (h : checkAndPeel n e = some x) :
    ∃ args, e = .op .store args ∧ notNested false e = true ∧ args[n]? = some x := by
  unfold checkAndPeel at h
  split at h
  · split at h
    · rename_i args hnested
      exact ⟨args, rfl, hnested, h⟩
    · cases h
  · cases h

theorem checkAndPeel_store {m x y : Expr} (h : notNested false (.op .store [m, x, y]) = true) :
    checkAndPeel 1 (.op .store [m, x, y]) = some x ∧ checkAndPeel 2 (.op .store [m, x, y]) = some y :=
  ⟨if_pos h, if_pos h⟩

theorem atoms_checkAndPeel {n : Nat} {e x : Expr} (h : checkAndPeel n e = some x) : x.atoms ⊆ e.atoms := by
  obtain ⟨args, rfl, -, hx⟩ := checkAndPeel_isSome h
  intro a ha
  exact Expr.mem_atomsList.mpr ⟨x, List.mem_of_getElem? hx, ha⟩

/-- A load that is found in an expression. -/
structure LoadIn (s : String) (addr n e : Expr) : Prop where
  node : ∃ v args, v.name = s ∧ n = .op .load (.var v :: addr :: args)
  atoms : n.atoms ⊆ e.atoms
  check : e.check.isSome → n.check.isSome

theorem load_args {v : Var} {addr : Expr} {args : List Expr} (h : (Expr.op .load (.var v :: addr :: args)).check.isSome) :
    ∃ a d, args = [] ∧ v.sort = .mem a d ∧ addr.check = some (.bv a) ∧
      (Expr.op .load [.var v, addr]).check = some (.bv d) := by
  obtain ⟨s, hs⟩ := Option.isSome_iff_exists.mp h
  have hcheck := hs
  simp only [Expr.check, Expr.checkList, Option.bind_eq_some_iff, Option.map_eq_some_iff, Option.bind_some] at hs
  obtain ⟨ss, ⟨us, ⟨t, ht, us', hus', rfl⟩, rfl⟩, hop⟩ := hs
  change ExprOp.load.check (v.sort :: t :: us') = some s at hop
  have hnil : us' = [] ∧ ∃ a d, v.sort = .mem a d ∧ t = .bv a ∧ s = .bv d := by
    change Op.select.check (v.sort :: t :: us') = some s at hop
    generalize v.sort = u at hop
    cases us' with
    | cons r rs => cases u <;> cases t <;> simp [Op.check] at hop
    | nil =>
      cases u with
      | mem a d =>
        cases t with
        | bv w =>
          obtain ⟨rfl, heq⟩ := Option.ite_none_right_eq_some.mp hop
          exact ⟨rfl, w, d, rfl, rfl, (Option.some.inj heq).symm⟩
        | bool | mem a' d' => simp [Op.check] at hop
      | bool | bv w => cases t <;> simp [Op.check] at hop
  obtain ⟨rfl, a, d, hv, rfl, rfl⟩ := hnil
  have hargs : args = [] := by
    have hsorts := Expr.sortList_of_checkList hus'
    rw [Expr.sortList_eq_map] at hsorts
    exact List.map_eq_nil_iff.mp hsorts
  subst hargs
  exact ⟨a, d, rfl, hv, ht, hcheck⟩

/-! ### The tests for the same address and the same data -/

section Tests

variable {z3 : Z3} {l r : TraceStep} {M : Model} {T : Ev → Int}

end Tests

/-! ### Events -/

namespace System

variable (u : System) (M : Model)

/-- The frame of an event. -/
def eventFrame (e : Ev) : Valuation := frame M (u.step e).suffix

/-- The copy of a state at an event. -/
def copyAt (s : String) (e : Ev) : Value := (u.eventFrame M e).atom (.var ((u.step e).stateVar s))

def Decoded (e : Ev) : Prop := (u.step e).inst.decode.eval (u.eventFrame M e) = some (.bool true)

/-- What the instruction of an event writes to a state. -/
def writeAt (s : String) : Ev → Write
  | .inst core pos => u.writeOf (stepFrame M pos) core (s, ((u.instr core pos).update s).getD (.var (u.coreVar core s)))
  | _ => .whole (u.globalVar s) (.bool false)

end System

variable {u : System} {M₀ M : Model} {S : System.Snapshots} {T : Ev → Int} {z3 : Z3} {s : String} {r w : Ev}

theorem mem_instEvs {e : Ev} : e ∈ u.instEvs ↔ ∃ core < u.tmpl.length, ∃ pos < progLength u core, e = .inst core pos := by
  simp only [System.instEvs, List.mem_flatMap, List.mem_map, List.mem_range, progLength, eq_comm]

/-- The expressions of an event. -/
def eventExprs (u : System) : Ev → List Expr
  | .inst core pos => (u.instr core pos).decode :: (u.instr core pos).updates.map Prod.snd
  | .final => [u.property]
  | _ => []

/-- Everything that reads: the steps of the cores and the final property. -/
structure Reader (u : System) (M : Model) (s : String) (r : Ev) : Prop where
  notInit : (u.step r).isInit = false
  check : ∀ e ∈ eventExprs u r, e.check.isSome
  loads : ∀ p ∈ (u.step r).addrData s, ∃ e ∈ eventExprs u r, LoadIn s p.1 p.2 e
  copy : ∀ e ∈ eventExprs u r, ∀ v, Atom.var v ∈ e.atoms → v.name = s → v.sort = (u.globalVar s).sort ∧
    (u.eventFrame M r).atom (.var v) = u.copyAt M s r
  sort : ((u.step r).stateVar s).sort = (u.globalVar s).sort

theorem exists_update {core pos : Nat} (h : u.writes (.inst core pos) s) :
    ∃ e, (u.instr core pos).update s = some e ∧ (s, e) ∈ (u.instr core pos).updates := by
  obtain ⟨e, he⟩ := Entries.exists_lookup (of_decide_eq_true h : s ∈ (u.instr core pos).updates.map Prod.fst)
  exact ⟨e, he, Entries.mem_of_lookup he⟩

theorem writeAt_of_update {core pos : Nat} {e : Expr} (h : (u.instr core pos).update s = some e) :
    u.writeAt M s (.inst core pos) = u.writeOf (u.eventFrame M (.inst core pos)) core (s, e) := by
  rw [System.writeAt, h, Option.getD_some]
  rfl

theorem apply_load {a d : Nat} (f : BitVec a → BitVec d) (i : BitVec a) :
    ExprOp.load.apply [.mem a d f, .bv a i] = some (.bv d (f i)) := by
  change Op.apply .select [.mem a d f, .bv a i] = _
  simp [Op.apply]

theorem Reader.load (h : Reader u M s r) {a d : Nat} {f : BitVec a → BitVec d} (hcopy : u.copyAt M s r = .mem a d f)
    {p : Expr × Expr} (hp : p ∈ (u.step r).addrData s) :
    ∃ i, p.1.check = some (.bv a) ∧ p.1.eval (u.eventFrame M r) = some (.bv a i) ∧ p.2.check = some (.bv d) ∧
      p.2.eval (u.eventFrame M r) = some (.bv d (f i)) := by
  obtain ⟨addr, n⟩ := p
  obtain ⟨e, he, hin⟩ := h.loads _ hp
  obtain ⟨v, args, hname, hn⟩ := hin.node
  simp only at hn
  have hcheck := hin.check (h.check e he)
  simp only [hn] at hcheck
  obtain ⟨a', d', rfl, hsort, hca, hcl⟩ := load_args hcheck
  have hmem : Atom.var v ∈ e.atoms := by
    apply hin.atoms
    rw [hn]
    exact List.mem_cons_self
  obtain ⟨-, hval⟩ := h.copy e he v hmem hname
  rw [hcopy] at hval
  have hsorts : Srt.mem a d = .mem a' d' := by
    have hv := (u.eventFrame M r).atom_sort (.var v)
    rw [hval] at hv
    exact hv.trans hsort
  obtain ⟨rfl, rfl⟩ := Srt.mem.inj hsorts
  obtain ⟨i, hi⟩ := Expr.eval_bv (u.eventFrame M r) hca
  refine ⟨i, hca, hi, by rw [hn]; exact hcl, ?_⟩
  rw [hn, Expr.eval, Expr.evalList, Expr.evalList, Expr.evalList, Expr.eval, hval, hi]
  exact apply_load f i

/-- The shared state after some writes. -/
def afterWrites (u : System) (M : Model) (s : String) (ws : List Ev) (x : Value) : Value :=
  ws.foldl (fun x w => (u.writeAt M s w).next x) x

/-- The writes that a read saw, in the order in which they took effect. -/
structure History (u : System) (M : Model) (T : Ev → Int) (R : Relations) (s : String) (r : Ev) (ws : List Ev) : Prop where
  writer : ∀ w ∈ ws, w ∈ u.instEvs ∧ u.writes w s ∧ w ≠ r ∧ u.Decoded M w
  value : u.copyAt M s r = afterWrites u M s ws (u.copyAt M s .init)
  reads : ∀ w ∈ Ev.init :: ws, (R.rf w r).Sat M T
  order : (Ev.init :: ws).Pairwise fun w w' => (R.co w w').Sat M T
  later : ∀ w ∈ u.instEvs, u.writes w s → w ≠ r → u.Decoded M w → w ∉ ws → (R.fr r w).Sat M T

/-- The axiom's test for the same address. -/
def Meets (z3 : Z3) (u : System) (M : Model) (T : Ev → Int) (s : String) (r w : Ev) : Prop :=
  (sameAddress z3 (u.step r) (u.step w) s .read .write).Sat M T

section Axiom

variable {R : Relations} {ws : List Ev}

theorem exists_mem_of_isMem {srt : Srt} (h : srt.isMem = true) : ∃ a d, srt = .mem a d := by
  cases srt with
  | mem a d => exact ⟨a, d, rfl⟩
  | bool => cases h
  | bv n => cases h

end Axiom

end Mcm

end Ilang
