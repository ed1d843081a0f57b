import Ilang.Mcm.LocalState
import Ilang.Mcm.SysInit
import Ilang.Util.Name

/-!
# Running a program of several cores

A memory model is a list of constraints over the copies of the states at the steps. What the constraints are about is a machine: a
store with one place for every private state of a core and for every shared state, in which the cores take their steps. What is
common to the machines is here. A step sees the store through the states of its core, and it writes one word of a shared memory
where its update is a store, and a whole state otherwise.

A run leaves a record: the store at the beginning, the one at the end, and the one that each step saw. A model of the solver that
has the record in its copies is what the constraints are asked about.
-/

namespace Ilang

namespace Mcm

open Smt

/-! ### Stores -/

/-- A value for every state. -/
structure Store where
  val : Var → Value
  val_sort : ∀ v, (val v).sort = v.sort

/-- A word of a memory, or all of a state. -/
inductive Write where
  | word (v : Var) (addr data : Value)
  | whole (v : Var) (x : Value)

namespace Write

def var : Write → Var
  | .word v _ _ => v
  | .whole v _ => v

def value : Write → Value → Value
  | .word _ addr data, old => (ExprOp.store.apply [old, addr, data]).getD old
  | .whole _ x, _ => x

/-- A state after the write. A value of another sort is not written. -/
def next (w : Write) (old : Value) : Value := if (w.value old).sort = old.sort then w.value old else old

@[simp] theorem next_sort (w : Write) (old : Value) : (w.next old).sort = old.sort := by
  unfold next
  split
  · assumption
  · rfl

theorem next_whole {v : Var} {x old : Value} (h : x.sort = old.sort) : (Write.whole v x).next old = x := if_pos h

theorem next_word {v : Var} {a d : Nat} (f : BitVec a → BitVec d) (i : BitVec a) (x : BitVec d) :
    (Write.word v (.bv a i) (.bv d x)).next (.mem a d f) = .mem a d (Function.update f i x) := by
  have hvalue : (Write.word v (.bv a i) (.bv d x)).value (.mem a d f) = .mem a d (Function.update f i x) := by
    rw [value, ExprOp.apply_store, Option.getD_some]
  rw [next, hvalue]
  exact if_pos rfl

end Write

namespace Store

def write (σ : Store) (w : Write) : Store where
  val v := if v = w.var then w.next (σ.val v) else σ.val v
  val_sort v := by
    split
    · rw [w.next_sort, σ.val_sort]
    · exact σ.val_sort v

def writeAll (σ : Store) (ws : List Write) : Store := ws.foldl write σ

theorem val_writeAll (σ : Store) (ws : List Write) (v : Var) :
    (σ.writeAll ws).val v = (ws.filter fun w => w.var = v).foldl (fun x w => w.next x) (σ.val v) := by
  induction ws generalizing σ with
  | nil => rfl
  | cons w ws ih =>
    change ((σ.write w).writeAll ws).val v = _
    rw [ih, List.filter_cons]
    by_cases h : v = w.var
    · have hval : (σ.write w).val v = w.next (σ.val v) := if_pos h
      rw [if_pos (decide_eq_true h.symm), List.foldl_cons, hval]
    · have hval : (σ.write w).val v = σ.val v := if_neg h
      rw [if_neg (by simpa using fun heq => h heq.symm), hval]

theorem writeAll_append (σ : Store) (ws ws' : List Write) : σ.writeAll (ws ++ ws') = (σ.writeAll ws).writeAll ws' :=
  List.foldl_append

theorem val_writeAll_of_ne {σ : Store} {ws : List Write} {v : Var} (h : ∀ w ∈ ws, w.var ≠ v) :
    (σ.writeAll ws).val v = σ.val v := by
  rw [val_writeAll, List.filter_eq_nil_iff.mpr fun w hw => by simpa using h w hw]
  rfl

end Store

namespace System

variable (u : System)

/-! ### What a step sees and writes -/

def coreStates (core : Nat) : List Var := ((u.ilas[core]?).map IlaData.states).getD []

/-- Where a state is kept: the cores have one place for a shared state. -/
def loc (v : Var) : Var := if v.name ∈ u.shared then u.globalVar v.name else v

/-- What is seen of a store through some states. Everything else is as in a frame. -/
def see (vs : List Var) (σ : Store) (ν : Valuation) : Valuation where
  atom
    | .var v => if v ∈ vs ∧ (u.loc v).sort = v.sort then σ.val (u.loc v) else ν.atom (.var v)
    | .nondet f => ν.atom (.nondet f)
  atom_sort
    | .var v => by
      dsimp only
      split
      · rename_i h
        exact (σ.val_sort _).trans h.2
      · exact ν.atom_sort (.var v)
    | .nondet f => ν.atom_sort (.nondet f)
  func := ν.func
  func_sort := ν.func_sort

/-- What a core sees of a store. -/
def view (core : Nat) (σ : Store) (ν : Valuation) : Valuation := u.see (u.coreStates core) σ ν

/-- The write of an update. -/
def writeOf (ν : Valuation) (core : Nat) (p : String × Expr) : Write :=
  if p.1 ∈ u.shared then
    match checkAndPeel 1 p.2, checkAndPeel 2 p.2 with
    | some addr, some data =>
      .word (u.loc (u.coreVar core p.1)) ((addr.eval ν).getD (.bool false)) ((data.eval ν).getD (.bool false))
    | _, _ => .whole (u.loc (u.coreVar core p.1)) ((p.2.eval ν).getD (.bool false))
  else .whole (u.loc (u.coreVar core p.1)) ((p.2.eval ν).getD (.bool false))

/-- The writes of a step. A step that is not decoded writes nothing. -/
def stepWrites (ν : Valuation) (core pos : Nat) : List Write :=
  if Value.isTrue ((u.instr core pos).decode.eval ν) then (u.instr core pos).updates.map (u.writeOf ν core) else []

/-- The frame of a step, from which it takes everything that is not a state. -/
def stepFrame (M : Model) (pos : Nat) : Valuation := frame M (toString (pos + 1))

/-! ### Programs that the machines can run -/

/-- The variables that have copies. -/
def stateVars : List Var := u.states ++ u.shared.map u.globalVar

def suffixes : List String :=
  "0" :: "final" :: (List.range ((u.tmpl.map List.length).foldr max 0)).map fun pos => toString (pos + 1)

/-- The copies of the states. -/
def copies : List (Var × String) := u.stateVars.flatMap fun v => u.suffixes.map fun suffix => (v, suffix)

/-- An atom that is no copy of a state and does not have the name of a shared one. -/
def Free (a : Atom) : Prop :=
  (∀ suffix ∈ u.suffixes, ∀ c ∈ u.copies, a.sym suffix ≠ c.1.sym c.2) ∧
    match a with
    | .var v => v.name ∉ u.shared
    | .nondet _ => True

instance (a : Atom) : Decidable (u.Free a) := by
  unfold Free
  cases a <;> exact instDecidableAnd

/-- An expression over the states of a core. -/
def Local (core : Nat) (e : Expr) : Prop := ∀ a ∈ e.atoms, (∃ v ∈ u.coreStates core, a = .var v) ∨ u.Free a

instance (core : Nat) (e : Expr) : Decidable (u.Local core e) := inferInstanceAs (Decidable (∀ a ∈ e.atoms, _))

def coreInits (core : Nat) : List Expr := ((u.ilas[core]?).map IlaData.inits).getD []

/-- A store to a variable. -/
def storesTo (v : Var) : Expr → Bool
  | .op .store (.var w :: _) => decide (w = v)
  | _ => false

/-- A word that is stored to a shared memory goes to the memory that is updated. -/
def OwnStore (core : Nat) (p : String × Expr) : Prop :=
  p.1 ∈ u.shared → (checkAndPeel 1 p.2).isSome → storesTo (u.coreVar core p.1) p.2

instance (core : Nat) (p : String × Expr) : Decidable (u.OwnStore core p) := inferInstanceAs (Decidable (_ → _ → _))

/-- The cores have names of their own and agree on the sorts of the shared states, no two copies of states are one constant of the
solver, the instructions are those of their core and store to a shared memory only what updates it, and a step that reads a
shared state and one that writes it access nothing together but states of both of their ILAs. -/
structure Proper : Prop where
  cores : u.tmpl.length = u.ilas.length
  names : (globalName :: u.ilas.map IlaData.name).Nodup
  stateNames : ∀ d ∈ u.ilas, (d.states.map Var.name).Nodup
  states : u.states.Nodup
  sorts : ∀ v ∈ u.states, ∀ w ∈ u.states, v.name = w.name → v.sort = w.sort
  apart : ∀ c ∈ u.copies, ∀ c' ∈ u.copies, c.1.sym c.2 = c'.1.sym c'.2 → c = c'
  decode : ∀ core < u.tmpl.length, ∀ pos < progLength u core,
    (u.instr core pos).decode.check = some .bool ∧ u.Local core (u.instr core pos).decode
  updateNames : ∀ core < u.tmpl.length, ∀ pos < progLength u core, ((u.instr core pos).updates.map Prod.fst).Nodup
  update : ∀ core < u.tmpl.length, ∀ pos < progLength u core, ∀ p ∈ (u.instr core pos).updates,
    p.1 ∈ (u.coreStates core).map Var.name ∧ p.2.check = some (u.coreVar core p.1).sort ∧ u.Local core p.2
  ownStores : ∀ core < u.tmpl.length, ∀ pos < progLength u core, ∀ p ∈ (u.instr core pos).updates, u.OwnStore core p
  inits : ∀ core < u.ilas.length, ∀ e ∈ u.coreInits core, e.check = some .bool ∧ u.Local core e
  property : u.property.check = some .bool ∧ ∀ a ∈ u.property.atoms, (∃ v ∈ u.stateVars, a = .var v) ∨ u.Free a
  checked : ∀ s ∈ u.shared, ∀ r ∈ u.readList, u.reads r s → ∀ w ∈ u.writeList, w ≠ r → u.writes w s →
    u.sanityCheck (u.step w) (u.step r) s ∧ u.sanityCheck (u.step r) (u.step w) s

/-! ### Finding states -/

section States

variable {u} {core core' pos : Nat} {v w : Var}

theorem mem_coreStates : v ∈ u.coreStates core ↔ ∃ d, u.ilas[core]? = some d ∧ v ∈ d.states := by
  unfold coreStates
  cases u.ilas[core]? with
  | none => simp
  | some d => simp

theorem mem_states_of_core (h : v ∈ u.coreStates core) : v ∈ u.states := by
  obtain ⟨d, hd, hv⟩ := mem_coreStates.mp h
  exact List.mem_flatMap.mpr ⟨d, List.mem_of_getElem? hd, hv⟩

theorem mem_stateVars_of_core (h : v ∈ u.coreStates core) : v ∈ u.stateVars := List.mem_append_left _ (mem_states_of_core h)

theorem Proper.coreVar_name (hu : u.Proper) (h : v ∈ u.coreStates core) : u.coreVar core v.name = v := by
  obtain ⟨d, hd, hv⟩ := mem_coreStates.mp h
  have hnames := hu.stateNames d (List.mem_of_getElem? hd)
  have hfind : d.states.find? (fun w => w.name == v.name) = some v := by
    rw [List.find?_eq_some_iff_append]
    refine ⟨beq_self_eq_true _, ?_⟩
    obtain ⟨as, bs, happ⟩ := List.append_of_mem hv
    refine ⟨as, bs, happ, fun a ha => ?_⟩
    rw [happ, List.map_append, List.map_cons, List.nodup_append] at hnames
    have hne := hnames.2.2 a.name (List.mem_map_of_mem ha) v.name List.mem_cons_self
    simpa using hne
  rw [coreVar, hd, Option.bind_some, hfind, Option.getD_some]

theorem Proper.coreVar_mem (hu : u.Proper) {s : String} (h : s ∈ (u.coreStates core).map Var.name) :
    u.coreVar core s ∈ u.coreStates core ∧ (u.coreVar core s).name = s := by
  obtain ⟨v, hv, rfl⟩ := List.mem_map.mp h
  rw [hu.coreVar_name hv]
  exact ⟨hv, rfl⟩

theorem Proper.core_eq (hu : u.Proper) (h : v ∈ u.coreStates core) (h' : v ∈ u.coreStates core') : core = core' := by
  obtain ⟨d, hd, hv⟩ := mem_coreStates.mp h
  obtain ⟨d', hd', hv'⟩ := mem_coreStates.mp h'
  obtain ⟨hlt, hget⟩ := List.getElem?_eq_some_iff.mp hd
  obtain ⟨hlt', hget'⟩ := List.getElem?_eq_some_iff.mp hd'
  have hdisj := (List.nodup_flatMap.mp hu.states).2
  rw [List.pairwise_iff_getElem] at hdisj
  rcases Nat.lt_trichotomy core core' with hcc | hcc | hcc
  · exact (hdisj core core' hlt hlt' hcc (hget ▸ hv) (hget' ▸ hv')).elim
  · exact hcc
  · exact (hdisj core' core hlt' hlt hcc (hget' ▸ hv') (hget ▸ hv)).elim

theorem Proper.globalVar_sort (hu : u.Proper) (h : v ∈ u.states) : (u.globalVar v.name).sort = v.sort := by
  have hsym := sym_global h (fun w hw hname => hu.sorts w hw v h hname) ""
  exact (congrArg Sym.sort hsym).symm

theorem loc_shared (h : v.name ∈ u.shared) : u.loc v = u.globalVar v.name := if_pos h

theorem loc_private (h : v.name ∉ u.shared) : u.loc v = v := if_neg h

theorem Proper.loc_sort (hu : u.Proper) (h : v ∈ u.stateVars) : (u.loc v).sort = v.sort := by
  rcases List.mem_append.mp h with hv | hv
  · by_cases hshared : v.name ∈ u.shared
    · rw [loc_shared hshared, hu.globalVar_sort hv]
    · rw [loc_private hshared]
  · obtain ⟨s, hs, rfl⟩ := List.mem_map.mp hv
    rw [loc_shared (v := u.globalVar s) hs]
    rfl

theorem Proper.loc_inj (hu : u.Proper) (hv : v ∈ u.coreStates core) (hw : w ∈ u.coreStates core) (h : u.loc v = u.loc w) : v = w := by
  have hname : (u.loc v).name = v.name ∧ (u.loc w).name = w.name := by
    constructor
    · unfold loc
      split <;> rfl
    · unfold loc
      split <;> rfl
  rw [← hu.coreVar_name hv, ← hu.coreVar_name hw, ← hname.1, h, hname.2]

theorem not_free (h : v ∈ u.stateVars) : ¬u.Free (.var v) := by
  intro hfree
  have hcopy : (v, "0") ∈ u.copies := List.mem_flatMap.mpr ⟨v, h, List.mem_map.mpr ⟨"0", List.mem_cons_self, rfl⟩⟩
  exact hfree.1 "0" List.mem_cons_self _ hcopy rfl

theorem eval_see (hu : u.Proper) {vs : List Var} (hvs : ∀ v ∈ vs, v ∈ u.stateVars) {e : Expr} {σ : Store} {ν μ : Valuation}
    (hlocal : ∀ a ∈ e.atoms, (∃ v ∈ vs, a = .var v) ∨ u.Free a) (hfunc : μ.func = ν.func)
    (hstate : ∀ v ∈ vs, μ.atom (.var v) = σ.val (u.loc v)) (hfree : ∀ a, u.Free a → μ.atom a = ν.atom a) :
    e.eval μ = e.eval (u.see vs σ ν) := by
  refine Expr.eval_congr (fun f _ => congrFun hfunc f) fun a ha => ?_
  rcases hlocal a ha with ⟨v, hv, rfl⟩ | hfr
  · rw [hstate v hv]
    exact (if_pos ⟨hv, hu.loc_sort (hvs v hv)⟩).symm
  · rw [hfree a hfr]
    cases a with
    | nondet f => rfl
    | var v => exact (if_neg fun h => not_free (hvs v h.1) hfr).symm

end States

/-! ### The record of a run -/

/-- The store at the beginning and at the end, and what each step of a core saw. -/
structure Snapshots where
  first : Store
  last : Store
  before : Nat → Nat → Store

/-- The states at the steps are those of the record, and everything else is as in a given model. -/
structure Recorded (M₀ : Model) (S : Snapshots) (M : Model) : Prop where
  func : M.func = M₀.func
  first : ∀ v ∈ u.stateVars, (frame M "0").atom (.var v) = S.first.val (u.loc v)
  last : ∀ v ∈ u.stateVars, (frame M "final").atom (.var v) = S.last.val (u.loc v)
  before : ∀ core < u.tmpl.length, ∀ pos < progLength u core, ∀ v ∈ u.coreStates core,
    (stepFrame M pos).atom (.var v) = (S.before core pos).val (u.loc v)
  free : ∀ a, u.Free a → ∀ suffix ∈ u.suffixes, (frame M suffix).atom a = (frame M₀ suffix).atom a

/-- Where a copy of a state stands. -/
inductive Slot where
  | first (v : Var) (h : v ∈ u.stateVars)
  | last (v : Var) (h : v ∈ u.stateVars)
  | step (core pos : Nat) (v : Var) (hcore : core < u.tmpl.length) (hpos : pos < progLength u core) (h : v ∈ u.coreStates core)

namespace Slot

variable {u}

def copy : u.Slot → Var × String
  | first v _ => (v, "0")
  | last v _ => (v, "final")
  | step _ pos v _ _ _ => (v, toString (pos + 1))

def value (S : Snapshots) : u.Slot → Value
  | first v _ => S.first.val (u.loc v)
  | last v _ => S.last.val (u.loc v)
  | step core pos v _ _ _ => (S.before core pos).val (u.loc v)

end Slot

section Record

variable {u} {core pos : Nat}

theorem mem_suffixes (hcore : core < u.tmpl.length) (hpos : pos < progLength u core) : toString (pos + 1) ∈ u.suffixes := by
  refine List.mem_cons_of_mem _ (List.mem_cons_of_mem _ (List.mem_map.mpr ⟨pos, List.mem_range.mpr ?_, rfl⟩))
  rw [progLength, List.getElem?_eq_getElem hcore, Option.getD_some] at hpos
  have hmax : ∀ {l : List Nat} {n : Nat}, n ∈ l → n ≤ l.foldr max 0 := by
    intro l n hn
    induction l with
    | nil => exact absurd hn List.not_mem_nil
    | cons m l ih =>
      rw [List.foldr_cons]
      rcases List.mem_cons.mp hn with rfl | hn
      · exact Nat.le_max_left _ _
      · exact (ih hn).trans (Nat.le_max_right _ _)
  exact Nat.lt_of_lt_of_le hpos (hmax (List.mem_map_of_mem (List.getElem_mem hcore)))

theorem mem_copies {v : Var} {suffix : String} (hv : v ∈ u.stateVars) (hs : suffix ∈ u.suffixes) : (v, suffix) ∈ u.copies :=
  List.mem_flatMap.mpr ⟨v, hv, List.mem_map.mpr ⟨suffix, hs, rfl⟩⟩

theorem Slot.copy_mem (i : u.Slot) : i.copy ∈ u.copies := by
  cases i with
  | first v h => exact mem_copies h List.mem_cons_self
  | last v h => exact mem_copies h (List.mem_cons_of_mem _ List.mem_cons_self)
  | step core pos v hcore hpos h => exact mem_copies (mem_stateVars_of_core h) (mem_suffixes hcore hpos)

theorem final_ne_toString (n : Nat) : "final" ≠ toString n := by
  intro h
  have hmem : 'f' ∈ (toString n).toList := by
    rw [← h]
    decide
  rw [show toString n = n.repr from rfl, Nat.toList_repr] at hmem
  have hdigit := Nat.isDigit_of_mem_toDigits (by decide) (by decide) hmem
  exact absurd hdigit (by decide)

theorem zero_ne_toString (n : Nat) : "0" ≠ toString (n + 1) := by
  intro h
  have hzero : toString 0 = toString (n + 1) := h
  exact absurd (Name.toString_nat_inj hzero) (by omega)

theorem Slot.value_eq (hu : u.Proper) (S : Snapshots) {i j : u.Slot} (h : i.copy = j.copy) : i.value S = j.value S := by
  cases i with
  | first v hv =>
    cases j with
    | first w hw => exact congrArg (fun x => S.first.val (u.loc x)) (Prod.ext_iff.mp h).1
    | last w hw => exact absurd (Prod.ext_iff.mp h).2 (by decide : "0" ≠ "final")
    | step core pos w _ _ _ => exact absurd (Prod.ext_iff.mp h).2 (zero_ne_toString pos)
  | last v hv =>
    cases j with
    | first w hw => exact absurd (Prod.ext_iff.mp h).2 (by decide : "final" ≠ "0")
    | last w hw => exact congrArg (fun x => S.last.val (u.loc x)) (Prod.ext_iff.mp h).1
    | step core pos w _ _ _ => exact absurd (Prod.ext_iff.mp h).2 (final_ne_toString _)
  | step core pos v hcore hpos hv =>
    cases j with
    | first w hw => exact absurd (Prod.ext_iff.mp h).2.symm (zero_ne_toString pos)
    | last w hw => exact absurd (Prod.ext_iff.mp h).2.symm (final_ne_toString _)
    | step core' pos' w hcore' hpos' hw =>
      obtain ⟨rfl, hsuffix⟩ := Prod.ext_iff.mp h
      obtain rfl := hu.core_eq hv hw
      obtain rfl : pos = pos' := by
        have := Name.toString_nat_inj hsuffix
        omega
      rfl

theorem exists_recorded (hu : u.Proper) (M₀ : Model) (S : Snapshots) : ∃ M, u.Recorded M₀ S M := by
  have hsort : ∀ i : u.Slot, (i.value S).sort = (i.copy.1.sym i.copy.2).sort := by
    intro i
    cases i with
    | first v h => exact (S.first.val_sort _).trans (hu.loc_sort h)
    | last v h => exact (S.last.val_sort _).trans (hu.loc_sort h)
    | step core pos v hcore hpos h => exact ((S.before core pos).val_sort _).trans (hu.loc_sort (mem_stateVars_of_core h))
  obtain ⟨M, hfunc, hM, hrest⟩ := M₀.exists_assign (fun i : u.Slot => i.copy.1.sym i.copy.2) (fun i => i.value S) hsort
    fun i j hij => Slot.value_eq hu S (hu.apart _ i.copy_mem _ j.copy_mem hij)
  exact ⟨M, hfunc, fun v hv => hM (.first v hv), fun v hv => hM (.last v hv),
    fun core hcore pos hpos v hv => hM (.step core pos v hcore hpos hv),
    fun a ha suffix hsuffix => hrest _ fun i heq => ha.1 suffix hsuffix _ i.copy_mem heq.symm⟩

theorem Recorded.eval_step (hu : u.Proper) {M₀ M : Model} {S : Snapshots} (h : u.Recorded M₀ S M) (hcore : core < u.tmpl.length)
    (hpos : pos < progLength u core) {e : Expr} (hlocal : u.Local core e) :
    e.eval (stepFrame M pos) = e.eval (u.view core (S.before core pos) (stepFrame M₀ pos)) := by
  refine eval_see hu (fun v => mem_stateVars_of_core) hlocal ?_ (h.before core hcore pos hpos) fun a ha =>
    h.free a ha _ (mem_suffixes hcore hpos)
  funext f
  exact congrFun h.func f.z3FuncDecl

end Record

end System

end Mcm

end Ilang
