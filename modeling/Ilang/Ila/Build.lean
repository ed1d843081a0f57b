import Mathlib.Data.List.Perm.Lattice
import Ilang.Ila.Hierarchy
import Ilang.Util.Container

/-!
# Building a hierarchy

The calls of `InstrLvlAbs` and `Instr` with which a hierarchy is built, in any order and on any of its
ILAs. A child gets the variables that its parent has at that moment, a name that is taken keeps its first
owner, and a decode or an update that is set stays. Every hierarchy that is built so is well-formed
(`wellFormed_run`).
-/

namespace Ilang

open Smt

inductive Call where
  | newVar (k : Kind) (name : String) (sort : Srt)
  | newChild (name : String)
  | newInstr (name : String)
  | addInit (e : Expr)
  | setFetch (e : Expr)
  | setValid (e : Expr)
  | setDecode (i : Nat) (e : Expr)
  | setUpdate (i : Nat) (state : String) (e : Expr)
  | setProgram (i : Nat) (prog : Nat)
  | addSeqTran (tran : SeqTran)

namespace IlaData

/-- `AddInput` and `AddState` on a new variable. -/
def addVar (d : IlaData) (k : Kind) (v : Var) : IlaData :=
  match k with
  | .input => { d with inputs := KeyVec.pushBack Var.name d.inputs v }
  | .state => { d with states := KeyVec.pushBack Var.name d.states v }

/-- A new ILA below another one, with the variables of its parent. -/
def newChild (d : IlaData) (id : Nat) (name : String) : IlaData :=
  { IlaData.new id name with
    rootName := d.rootName ++ "." ++ name
    inputs := d.inputs
    states := d.states }

def addInstr (d : IlaData) (i : Instr) : IlaData := { d with instrs := KeyVec.pushBack Instr.name d.instrs i }

end IlaData

namespace Instr

/-- `NewInstr` makes up a name for an instruction without one. -/
def newName (num : Nat) (name : String) : String := if name = "" then "I." ++ toString num else name

/-- `set_decode`. -/
def setDecode (e : Expr) (i : Instr) : Instr := if i.decode = none then { i with decode := some e } else i

/-- `set_update`. The updates are kept in the order of the names. -/
def setUpdate (state : String) (e : Expr) (i : Instr) : Instr :=
  if (i.updates.lookup state).isSome then i
  else { i with updates := i.updates.takeWhile (fun u => u.1 < state) ++
    (state, some e) :: i.updates.dropWhile fun u => u.1 < state }

end Instr

namespace Call

/-- What the calls check, and the constructors of expressions before them. -/
def checked : Call → Bool
  | .addInit e | .setValid e | .setDecode _ e => e.check = some .bool
  | .setFetch e =>
    match e.check with
    | some (.bv _) => true
    | _ => false
  | .setUpdate _ _ e => e.check.isSome
  | _ => true

/-- The call on one ILA. Everything it makes has the given identity. -/
def apply (id : Nat) : Call → Ila → Ila
  | .newVar k name sort, .mk d cs => .mk (d.addVar k ⟨id, name, some d.rootName, sort⟩) cs
  | .newChild name, .mk d cs =>
    .mk d (KeyVec.pushBack (fun c => c.data.name) cs (.mk (d.newChild id name) []))
  | .newInstr name, .mk d cs => .mk (d.addInstr ⟨id, Instr.newName d.instrs.length name, none, [], none⟩) cs
  | .addInit e, .mk d cs => .mk { d with inits := d.inits ++ [e] } cs
  | .setFetch e, .mk d cs => .mk { d with fetch := some e } cs
  | .setValid e, .mk d cs => .mk { d with valid := some e } cs
  | .setDecode i e, .mk d cs => .mk { d with instrs := d.instrs.modify i (Instr.setDecode e) } cs
  | .setUpdate i s e, .mk d cs => .mk { d with instrs := d.instrs.modify i (Instr.setUpdate s e) } cs
  | .setProgram i p, .mk d cs => .mk { d with instrs := d.instrs.modify i fun j => { j with program := some p } } cs
  | .addSeqTran tran, .mk d cs => .mk { d with instrSeq := d.instrSeq ++ [tran] } cs

end Call

/-- The ILA at the end of a path of child indices is changed. -/
def Ila.modifyAt : List Nat → (Ila → Ila) → Ila → Ila
  | [], f, t => f t
  | i :: path, f, .mk d cs => .mk d (cs.modify i (modifyAt path f))

/-- A hierarchy, and the next identity. -/
structure Hierarchy where
  top : Ila
  next : Nat

namespace Hierarchy

def new (name : String) : Hierarchy := ⟨.mk (IlaData.new 0 name) [], 1⟩

/-- A call on the ILA at the end of a path. -/
def step (h : Hierarchy) (c : List Nat × Call) : Option Hierarchy :=
  if c.2.checked then some ⟨h.top.modifyAt c.1 (c.2.apply h.next), h.next + 1⟩ else none

def run (h : Hierarchy) (calls : List (List Nat × Call)) : Option Hierarchy := calls.foldlM step h

end Hierarchy

/-! ### Every hierarchy is well-formed -/

namespace Ila

/-- What a call does to a tree: it adds at most one variable or one ILA, with the new identity. -/
structure Grows (next : Nat) (s t : Ila) : Prop where
  has : ∀ k v, t.Has k v → s.Has k v ∨ v.id = next
  kinds : ∀ v, v.id = next → t.Has .input v → ¬t.Has .state v
  vars : ∀ k, ∀ v ∈ s.data.vars k, v ∈ t.data.vars k
  name : t.data.name = s.data.name
  ids : ∃ new, (new = [] ∨ new = [next]) ∧
    (t.preOrder.map fun n => n.data.id).Perm ((s.preOrder.map fun n => n.data.id) ++ new)
  shares : ∀ n ∈ t.preOrder, n.Shares
  proper : ∀ n ∈ t.preOrder, n.Proper

/-- What a call can rely on. -/
structure Ready (next : Nat) (t : Ila) : Prop where
  shares : ∀ n ∈ t.preOrder, n.Shares
  proper : ∀ n ∈ t.preOrder, n.Proper
  varId : ∀ k v, t.Has k v → v.id < next

variable {next : Nat} {d d' : IlaData} {cs : List Ila}

theorem Ready.child (h : Ready next (.mk d cs)) {c : Ila} (hc : c ∈ cs) : Ready next c where
  shares := (forall_mem_preOrder_mk.mp h.shares).2 c hc
  proper := (forall_mem_preOrder_mk.mp h.proper).2 c hc
  varId k v hv := h.varId k v (has_mk.mpr (.inr ⟨c, hc, hv⟩))

theorem Ready.not_has {t : Ila} (h : Ready next t) {k : Kind} {v : Var} (hv : v.id = next) : ¬t.Has k v := by
  intro hhas
  have := h.varId k v hhas
  omega

theorem Grows.refl {t : Ila} (h : Ready next t) : Grows next t t where
  has _ _ := .inl
  kinds v hv hin _ := h.not_has hv hin
  vars _ _ hv := hv
  name := rfl
  ids := ⟨[], .inl rfl, by rw [List.append_nil]⟩
  shares := h.shares
  proper := h.proper

theorem grows_of_data (h : Ready next (.mk d cs)) (hvars : d'.vars = d.vars) (hname : d'.name = d.name)
    (hid : d'.id = d.id) (hproper : Proper (.mk d' cs)) : Grows next (.mk d cs) (.mk d' cs) := by
  have hhas : ∀ k v, (Ila.mk d' cs).Has k v ↔ (Ila.mk d cs).Has k v := by
    intro k v
    rw [has_mk, has_mk, hvars]
  have hshares := forall_mem_preOrder_mk.mp h.shares
  have hprop := forall_mem_preOrder_mk.mp h.proper
  refine ⟨fun k v hv => .inl ((hhas k v).mp hv), fun v hv hin _ => h.not_has hv ((hhas _ v).mp hin),
    fun k v hv => ?_, hname, ⟨[], .inl rfl, ?_⟩, forall_mem_preOrder_mk.mpr ⟨?_, hshares.2⟩,
    forall_mem_preOrder_mk.mpr ⟨hproper, hprop.2⟩⟩
  · simpa [hvars] using hv
  · rw [List.append_nil, preOrder, preOrder, List.map_cons, List.map_cons]
    simp only [data_mk, hid]
    exact .refl _
  · obtain ⟨hnames, hdown, hapart⟩ := hshares.1
    simp only [data_mk, childs_mk] at hnames hdown hapart
    exact ⟨by simpa [hvars] using hnames, by simpa [hvars] using hdown,
      by simpa [hvars] using hapart⟩

theorem addVar_vars (d : IlaData) (k : Kind) (v : Var) (k' : Kind) :
    (d.addVar k v).vars k' = if k' = k then KeyVec.pushBack Var.name (d.vars k) v else d.vars k' := by
  cases k <;> cases k' <;> rfl

theorem addVar_exprs (d : IlaData) (k : Kind) (v : Var) :
    (d.addVar k v).exprs = d.exprs ∧ (d.addVar k v).instrs = d.instrs ∧ (d.addVar k v).name = d.name ∧
      (d.addVar k v).id = d.id := by
  cases k <;> exact ⟨rfl, rfl, rfl, rfl⟩

theorem grows_addVar (h : Ready next (.mk d cs)) (k : Kind) {v : Var} (hv : v.id = next) :
    Grows next (.mk d cs) (.mk (d.addVar k v) cs) := by
  have hvars := addVar_vars d k v
  obtain ⟨hexprs, hinstrs, hname, hid⟩ := addVar_exprs d k v
  by_cases htaken : v.name ∈ (d.vars k).map Var.name
  · have hsame : (d.addVar k v).vars = d.vars := by
      funext k'
      rw [hvars, KeyVec.pushBack_of_mem htaken]
      split
      · rename_i hk
        rw [hk]
      · rfl
    obtain ⟨hsorted, hinstr, hinames, hcnames⟩ := (forall_mem_preOrder_mk.mp h.proper).1
    simp only [data_mk, childs_mk] at hsorted hinstr hinames hcnames
    exact grows_of_data h hsame hname hid ⟨by simpa [hexprs] using hsorted, by simpa [hinstrs] using hinstr,
      by simpa [hinstrs] using hinames, hcnames⟩
  have hmem : ∀ k' w, w ∈ (d.addVar k v).vars k' ↔ w ∈ d.vars k' ∨ (k' = k ∧ w = v) := by
    intro k' w
    rw [hvars, KeyVec.pushBack_of_notMem htaken]
    split
    · rename_i hk
      simp [hk]
    · rename_i hk
      simp [hk]
  have hhas : ∀ k' w, (Ila.mk (d.addVar k v) cs).Has k' w ↔ (Ila.mk d cs).Has k' w ∨ (k' = k ∧ w = v) := by
    intro k' w
    rw [has_mk, has_mk, hmem, or_assoc, or_assoc, or_comm (a := k' = k ∧ w = v)]
  have hshares := forall_mem_preOrder_mk.mp h.shares
  have hprop := forall_mem_preOrder_mk.mp h.proper
  refine ⟨fun k' w hw => ?_, fun w hw hin hst => ?_, fun k' w hw => (hmem k' w).mpr (.inl hw), hname, ⟨[], .inl rfl, ?_⟩,
    forall_mem_preOrder_mk.mpr ⟨⟨fun k' => ?_, fun k' c hc w hw hcw => ?_, fun k' => ?_⟩, hshares.2⟩,
    forall_mem_preOrder_mk.mpr ⟨?_, hprop.2⟩⟩
  · rcases (hhas k' w).mp hw with hw | ⟨-, rfl⟩
    · exact .inl hw
    · exact .inr hv
  · rcases (hhas _ w).mp hin with hin | ⟨hk, -⟩
    · exact h.not_has hw hin
    · rcases (hhas _ w).mp hst with hst | ⟨hk', -⟩
      · exact h.not_has hw hst
      · rw [← hk] at hk'
        cases hk'
  · rw [List.append_nil, preOrder, preOrder, List.map_cons, List.map_cons]
    simp only [data_mk, hid]
    exact .refl _
  · have hold := hshares.1.names k'
    simp only [data_mk] at hold ⊢
    rw [hvars]
    split
    · rename_i hk
      subst hk
      exact KeyVec.nodup_pushBack hold
    · exact hold
  · rcases (hmem k' w).mp hw with hw | ⟨-, rfl⟩
    · exact hshares.1.down k' c hc w hw hcw
    · exact absurd hcw ((h.child hc).not_has hv)
  · refine (hshares.1.apart k').imp fun hab w hc hc' => (hmem k' w).mpr (.inl (hab w hc hc'))
  · obtain ⟨hsorted, hinstr, hinames, hcnames⟩ := hprop.1
    simp only [data_mk, childs_mk] at hsorted hinstr hinames hcnames
    exact ⟨by simpa [hexprs] using hsorted, by simpa [hinstrs] using hinstr, by simpa [hinstrs] using hinames,
      hcnames⟩

theorem grows_newChild (h : Ready next (.mk d cs)) (name : String) :
    Grows next (.mk d cs) (Call.apply next (.newChild name) (.mk d cs)) := by
  by_cases htaken : name ∈ cs.map fun c => c.data.name
  · rw [Call.apply, KeyVec.pushBack_of_mem (k := fun c : Ila => c.data.name) htaken]
    exact .refl h
  rw [Call.apply, KeyVec.pushBack_of_notMem (k := fun c : Ila => c.data.name) htaken]
  let c : Ila := .mk (d.newChild next name) []
  have hcvars : ∀ k, c.data.vars k = d.vars k := by
    intro k
    cases k <;> rfl
  have hchas : ∀ k v, c.Has k v ↔ v ∈ d.vars k := by
    intro k v
    rw [has_mk]
    change v ∈ c.data.vars k ∨ _ ↔ _
    simp [hcvars]
  have hhas : ∀ k v, (Ila.mk d (cs ++ [c])).Has k v ↔ (Ila.mk d cs).Has k v := by
    intro k v
    simp only [has_mk, List.mem_append, List.mem_singleton, or_and_right, exists_or, exists_eq_left, hchas]
    exact ⟨fun h => h.elim .inl fun h => h.elim .inr .inl, fun h => h.imp_right .inl⟩
  obtain ⟨hshares, hsharesCs⟩ := forall_mem_preOrder_mk.mp h.shares
  obtain ⟨hprop, hpropCs⟩ := forall_mem_preOrder_mk.mp h.proper
  refine ⟨fun k v hv => .inl ((hhas k v).mp hv), fun v hv hin _ => h.not_has hv ((hhas _ v).mp hin), fun k v hv => hv,
    rfl, ⟨[next], .inr rfl, ?_⟩, forall_mem_preOrder_mk.mpr ⟨⟨hshares.names, fun k x hx v hv hxv => ?_, fun k => ?_⟩, ?_⟩,
    forall_mem_preOrder_mk.mpr ⟨⟨hprop.sorted, hprop.instr, hprop.instrNames, ?_⟩, ?_⟩⟩
  · rw [preOrder, preOrderList_append, preOrder]
    simp [preOrderList, preOrder, IlaData.newChild, IlaData.new]
  · rcases List.mem_append.mp hx with hx | hx
    · exact hshares.down k x hx v hv hxv
    · obtain rfl := List.mem_singleton.mp hx
      rw [hcvars]
      exact hv
  · refine List.pairwise_append.mpr ⟨hshares.apart k, List.pairwise_singleton _ _, fun x _ y hy v _ hyv => ?_⟩
    obtain rfl := List.mem_singleton.mp hy
    exact (hchas k v).mp hyv
  · rw [List.forall_mem_append, List.forall_mem_singleton]
    refine ⟨hsharesCs, forall_mem_preOrder_mk.mpr ⟨⟨fun k => ?_, by simp, by simp⟩, by simp⟩⟩
    change ((c.data.vars k).map Var.name).Nodup
    rw [hcvars]
    exact hshares.names k
  · rw [← KeyVec.pushBack_of_notMem (k := fun c : Ila => c.data.name) htaken]
    exact KeyVec.nodup_pushBack hprop.childNames
  · rw [List.forall_mem_append, List.forall_mem_singleton]
    refine ⟨hpropCs, forall_mem_preOrder_mk.mpr ⟨⟨?_, ?_, ?_, by simp⟩, by simp⟩⟩
    · simp [IlaData.newChild, IlaData.new, IlaData.exprs]
    · simp [IlaData.newChild, IlaData.new]
    · simp [IlaData.newChild, IlaData.new]

theorem grows_modifyInstr (h : Ready next (.mk d cs)) (i : Nat) {f : Instr → Instr} (hname : ∀ j, (f j).name = j.name)
    (hf : ∀ j : Instr, j.Proper → (f j).Proper) :
    Grows next (.mk d cs) (.mk { d with instrs := d.instrs.modify i f } cs) := by
  obtain ⟨hsorted, hinstr, hnames, hchilds⟩ := (forall_mem_preOrder_mk.mp h.proper).1
  refine grows_of_data h rfl rfl rfl ⟨hsorted, ?_, ?_, hchilds⟩
  · simp only [data_mk] at hinstr ⊢
    rcases Nat.lt_or_ge i d.instrs.length with hi | hi
    · obtain ⟨l, a, r, hl, -, hmod⟩ := List.exists_of_modify f hi
      rw [hl] at hinstr
      rw [hmod]
      rw [List.forall_mem_append, List.forall_mem_cons] at hinstr ⊢
      exact ⟨hinstr.1, hf a hinstr.2.1, hinstr.2.2⟩
    · rw [List.modify_eq_self hi]
      exact hinstr
  · simp only [data_mk] at hnames ⊢
    rcases Nat.lt_or_ge i d.instrs.length with hi | hi
    · obtain ⟨l, a, r, hl, -, hmod⟩ := List.exists_of_modify f hi
      rw [hl] at hnames
      rw [hmod]
      simpa [hname] using hnames
    · rw [List.modify_eq_self hi]
      exact hnames

theorem proper_setDecode {e : Expr} (he : e.check = some .bool) {j : Instr} (h : j.Proper) :
    (j.setDecode e).Proper := by
  rw [Instr.setDecode]
  split
  · rename_i hnone
    refine ⟨fun x hx => ?_, fun x hx => ?_, h.update, h.name⟩
    · rcases List.mem_append.mp hx with hx | hx
      · obtain rfl : x = e := by simpa using hx
        rw [he]
        simp
      · exact h.sorted x (List.mem_append_right _ hx)
    · obtain rfl := Option.some.inj hx
      exact he
  · exact h

theorem proper_setUpdate {state : String} {e : Expr} (he : e.check.isSome) {j : Instr} (h : j.Proper) :
    (j.setUpdate state e).Proper := by
  rw [Instr.setUpdate]
  split
  · exact h
  · have hmem : ∀ u, u ∈ j.updates.takeWhile (fun u => u.1 < state) ++
        (state, some e) :: j.updates.dropWhile (fun u => u.1 < state) → u ∈ j.updates ∨ u = (state, some e) := by
      intro u hu
      rcases List.mem_append.mp hu with hu | hu
      · exact .inl (List.takeWhile_subset _ hu)
      · rcases List.mem_cons.mp hu with rfl | hu
        · exact .inr rfl
        · exact .inl (List.dropWhile_subset _ hu)
    refine ⟨fun x hx => ?_, h.decode, fun u hu => ?_, h.name⟩
    · rcases List.mem_append.mp hx with hx | hx
      · exact h.sorted x (List.mem_append_left _ hx)
      · obtain ⟨u, hu, hux⟩ := List.mem_filterMap.mp hx
        rcases hmem u hu with hu | rfl
        · exact h.sorted x (List.mem_append_right _ (List.mem_filterMap.mpr ⟨u, hu, hux⟩))
        · obtain rfl := Option.some.inj hux
          exact Option.isSome_iff_ne_none.mp he
    · rcases hmem u hu with hu | rfl
      · exact h.update u hu
      · simp

theorem newName_ne (num : Nat) (name : String) : Instr.newName num name ≠ "" := by
  rw [Instr.newName]
  split
  · intro h
    have hlen := congrArg String.length h
    simp [String.length_append] at hlen
  · assumption

theorem grows_addInstr (h : Ready next (.mk d cs)) {i : Instr} (hi : i.Proper) :
    Grows next (.mk d cs) (.mk (d.addInstr i) cs) := by
  obtain ⟨hsorted, hinstr, hnames, hchilds⟩ := (forall_mem_preOrder_mk.mp h.proper).1
  refine grows_of_data h rfl rfl rfl ⟨hsorted, ?_, KeyVec.nodup_pushBack hnames, hchilds⟩
  intro j hj
  simp only [IlaData.addInstr, data_mk] at hj
  by_cases htaken : i.name ∈ d.instrs.map Instr.name
  · rw [KeyVec.pushBack_of_mem htaken] at hj
    exact hinstr j hj
  · rw [KeyVec.pushBack_of_notMem htaken] at hj
    rcases List.mem_append.mp hj with hj | hj
    · exact hinstr j hj
    · rw [List.mem_singleton.mp hj]
      exact hi

theorem grows_exprs (h : Ready next (.mk d cs)) (hvars : d'.vars = d.vars) (hname : d'.name = d.name) (hid : d'.id = d.id)
    (hinstrs : d'.instrs = d.instrs) {e : Expr} (he : e.check ≠ none) (hexprs : ∀ x ∈ d'.exprs, x ∈ d.exprs ∨ x = e) :
    Grows next (.mk d cs) (.mk d' cs) := by
  obtain ⟨hsorted, hinstr, hnames, hchilds⟩ := (forall_mem_preOrder_mk.mp h.proper).1
  simp only [data_mk] at hinstr hnames
  refine grows_of_data h hvars hname hid ⟨fun x hx => ?_, by simpa [hinstrs] using hinstr, by simpa [hinstrs] using hnames,
    hchilds⟩
  rcases hexprs x hx with hx | rfl
  · exact hsorted x hx
  · exact he

theorem grows_apply {t : Ila} (h : Ready next t) {c : Call} (hc : c.checked = true) : Grows next t (c.apply next t) := by
  cases t with
  | mk d cs =>
    cases c with
    | newVar k name sort => exact grows_addVar h k rfl
    | newChild name => exact grows_newChild h name
    | newInstr name => exact grows_addInstr h ⟨by simp [Instr.exprs], by simp, by simp, newName_ne _ name⟩
    | addInit e =>
      have he : e.check = some .bool := by simpa [Call.checked] using hc
      refine grows_exprs h rfl rfl rfl rfl (e := e) (by simp [he]) fun x hx => ?_
      simp only [IlaData.exprs, List.mem_append, List.mem_singleton] at hx ⊢
      tauto
    | setFetch e =>
      have he : e.check ≠ none := by
        intro hnone
        simp [Call.checked, hnone] at hc
      refine grows_exprs h rfl rfl rfl rfl (e := e) he fun x hx => ?_
      simp only [IlaData.exprs, List.mem_append, Option.toList_some, List.mem_singleton] at hx ⊢
      tauto
    | setValid e =>
      have he : e.check = some .bool := by simpa [Call.checked] using hc
      refine grows_exprs h rfl rfl rfl rfl (e := e) (by simp [he]) fun x hx => ?_
      simp only [IlaData.exprs, List.mem_append, Option.toList_some, List.mem_singleton] at hx ⊢
      tauto
    | setDecode i e =>
      have he : e.check = some .bool := by simpa [Call.checked] using hc
      refine grows_modifyInstr h i (fun j => ?_) fun j => proper_setDecode he
      rw [Instr.setDecode]
      split <;> rfl
    | setUpdate i s e =>
      refine grows_modifyInstr h i (fun j => ?_) fun j => proper_setUpdate hc
      rw [Instr.setUpdate]
      split <;> rfl
    | setProgram i p => exact grows_modifyInstr h i (fun _ => rfl) fun j hj => ⟨hj.sorted, hj.decode, hj.update, hj.name⟩
    | addSeqTran tran =>
      obtain ⟨hsorted, hinstr, hnames, hchilds⟩ := (forall_mem_preOrder_mk.mp h.proper).1
      exact grows_of_data h rfl rfl rfl ⟨hsorted, hinstr, hnames, hchilds⟩

theorem Grows.inChild {l r : List Ila} {c c' : Ila} (h : Ready next (.mk d (l ++ c :: r))) (hc : Grows next c c') :
    Grows next (.mk d (l ++ c :: r)) (.mk d (l ++ c' :: r)) := by
  obtain ⟨hshares, hsharesCs⟩ := forall_mem_preOrder_mk.mp h.shares
  obtain ⟨hprop, hpropCs⟩ := forall_mem_preOrder_mk.mp h.proper
  -- a variable that is not new is in the child exactly if it was
  have hold : ∀ k v, v.id ≠ next → c'.Has k v → c.Has k v := fun k v hv hhas => (hc.has k v hhas).resolve_right hv
  have hne : ∀ k v, (Ila.mk d (l ++ c :: r)).Has k v → v.id ≠ next := fun k v hv heq => h.not_has heq hv
  have hhas : ∀ k v, (Ila.mk d (l ++ c' :: r)).Has k v → (Ila.mk d (l ++ c :: r)).Has k v ∨ (v.id = next ∧ c'.Has k v) := by
    intro k v hv
    rcases has_mk.mp hv with hv | ⟨x, hx, hxv⟩
    · exact .inl (has_mk.mpr (.inl hv))
    · rcases List.mem_append.mp hx with hx | hx
      · exact .inl (has_mk.mpr (.inr ⟨x, List.mem_append_left _ hx, hxv⟩))
      · rcases List.mem_cons.mp hx with rfl | hx
        · rcases hc.has k v hxv with hcv | heq
          · exact .inl (has_mk.mpr (.inr ⟨c, by simp, hcv⟩))
          · exact .inr ⟨heq, hxv⟩
        · exact .inl (has_mk.mpr (.inr ⟨x, by simp [hx], hxv⟩))
  refine ⟨fun k v hv => (hhas k v hv).imp_right And.left, fun v hv hin hst => ?_, fun k v hv => hv, rfl, ?_,
    forall_mem_preOrder_mk.mpr ⟨⟨hshares.names, fun k x hx v hv hxv => ?_, fun k => ?_⟩, fun x hx => ?_⟩,
    forall_mem_preOrder_mk.mpr ⟨⟨hprop.sorted, hprop.instr, hprop.instrNames, ?_⟩, fun x hx => ?_⟩⟩
  · rcases hhas _ v hin with hin | ⟨-, hin⟩
    · exact h.not_has hv hin
    · rcases hhas _ v hst with hst | ⟨-, hst⟩
      · exact h.not_has hv hst
      · exact hc.kinds v hv hin hst
  · obtain ⟨new, hnew, hperm⟩ := hc.ids
    refine ⟨new, hnew, ?_⟩
    simp only [preOrder, preOrderList_append, preOrderList, List.map_cons, List.map_append, List.cons_append]
    refine List.Perm.cons _ ?_
    rw [List.append_assoc]
    refine List.Perm.append_left _ ((hperm.append_right _).trans ?_)
    rw [List.append_assoc, List.append_assoc]
    exact List.Perm.append_left _ List.perm_append_comm
  · have hvne : v.id ≠ next := hne k v (has_mk.mpr (.inl hv))
    rcases List.mem_append.mp hx with hx | hx
    · exact hshares.down k x (List.mem_append_left _ hx) v hv hxv
    · rcases List.mem_cons.mp hx with rfl | hx
      · exact hc.vars k v (hshares.down k c (by simp) v hv (hold k v hvne hxv))
      · exact hshares.down k x (by simp [hx]) v hv hxv
  · have hpair := hshares.apart k
    simp only [childs_mk, data_mk, List.pairwise_append, List.pairwise_cons, List.forall_mem_cons] at hpair ⊢
    obtain ⟨hl, ⟨hcr, hr⟩, hlr⟩ := hpair
    refine ⟨hl, ⟨fun x hx v hcv hxv => ?_, hr⟩, fun x hx => ⟨fun v hxv hcv => ?_, (hlr x hx).2⟩⟩
    · exact hcr x hx v (hold k v (hne k v (has_mk.mpr (.inr ⟨x, by simp [hx], hxv⟩))) hcv) hxv
    · exact (hlr x hx).1 v hxv (hold k v (hne k v (has_mk.mpr (.inr ⟨x, by simp [hx], hxv⟩))) hcv)
  · rcases List.mem_append.mp hx with hx | hx
    · exact hsharesCs x (List.mem_append_left _ hx)
    · rcases List.mem_cons.mp hx with rfl | hx
      · exact hc.shares
      · exact hsharesCs x (by simp [hx])
  · have hnames := hprop.childNames
    simp only [childs_mk, List.map_append, List.map_cons, hc.name] at hnames ⊢
    exact hnames
  · rcases List.mem_append.mp hx with hx | hx
    · exact hpropCs x (List.mem_append_left _ hx)
    · rcases List.mem_cons.mp hx with rfl | hx
      · exact hc.proper
      · exact hpropCs x (by simp [hx])

theorem grows_modifyAt {f : Ila → Ila} (hf : ∀ s, Ready next s → Grows next s (f s)) (path : List Nat) {t : Ila}
    (h : Ready next t) : Grows next t (t.modifyAt path f) := by
  induction path generalizing t with
  | nil => exact hf t h
  | cons i path ih =>
    cases t with
    | mk d cs =>
      rw [modifyAt]
      rcases Nat.lt_or_ge i cs.length with hi | hi
      · obtain ⟨l, c, r, rfl, -, hmod⟩ := List.exists_of_modify (modifyAt path f) hi
        rw [hmod]
        exact Grows.inChild h (ih (h.child (by simp)))
      · rw [List.modify_eq_self hi]
        exact .refl h

end Ila

namespace Hierarchy

theorem wellFormed_new (name : String) : (Hierarchy.new name).top.WellFormed (Hierarchy.new name).next := by
  have hone : ∀ n ∈ (Hierarchy.new name).top.preOrder, n = .mk (IlaData.new 0 name) [] := by
    intro n hn
    simpa [Hierarchy.new, Ila.preOrder, Ila.preOrderList] using hn
  have hhas : ∀ k v, ¬(Hierarchy.new name).top.Has k v := by
    rintro k v ⟨n, hn, hv⟩
    rw [hone n hn] at hv
    cases k <;> simp [IlaData.vars, IlaData.new] at hv
  refine ⟨fun n hn => ?_, fun n hn => ?_, fun k v hv => absurd hv (hhas k v), fun v hv => absurd hv (hhas _ v),
    fun n hn => ?_, by simp [Hierarchy.new, Ila.preOrder, Ila.preOrderList]⟩
  · rw [hone n hn]
    refine ⟨fun k => ?_, by simp, by simp⟩
    cases k <;> simp [IlaData.vars, IlaData.new]
  · rw [hone n hn]
    exact ⟨by simp [IlaData.exprs, IlaData.new], by simp [IlaData.new], by simp [IlaData.new], by simp⟩
  · rw [hone n hn]
    exact Nat.zero_lt_one

theorem wellFormed_step {h h' : Hierarchy} {c : List Nat × Call} (hstep : h.step c = some h')
    (hwf : h.top.WellFormed h.next) : h'.top.WellFormed h'.next := by
  rw [step, Option.ite_none_right_eq_some] at hstep
  obtain ⟨hc, hstep⟩ := hstep
  obtain rfl := Option.some.inj hstep
  have hgrows : Ila.Grows h.next h.top (h.top.modifyAt c.1 (c.2.apply h.next)) :=
    Ila.grows_modifyAt (fun s hs => Ila.grows_apply hs hc) c.1 ⟨hwf.shares, hwf.proper, hwf.varId⟩
  obtain ⟨new, hnew, hperm⟩ := hgrows.ids
  refine ⟨hgrows.shares, hgrows.proper, fun k v hv => ?_, fun v hin hst => ?_, fun n hn => ?_, ?_⟩
  · rcases hgrows.has k v hv with hold | heq
    · exact Nat.lt_succ_of_lt (hwf.varId k v hold)
    · exact Nat.lt_succ_of_le heq.le
  · by_cases hv : v.id = h.next
    · exact hgrows.kinds v hv hin hst
    · exact hwf.kinds v ((hgrows.has _ v hin).resolve_right hv) ((hgrows.has _ v hst).resolve_right hv)
  · have hmem := hperm.subset (List.mem_map_of_mem (f := fun n => n.data.id) hn)
    rcases List.mem_append.mp hmem with hold | hfresh
    · obtain ⟨m, hm, hid⟩ := List.mem_map.mp hold
      have := hwf.ilaId m hm
      simp only at hid ⊢
      omega
    · rcases hnew with rfl | rfl
      · simp at hfresh
      · simp only [List.mem_singleton] at hfresh
        simp only
        omega
  · rw [hperm.nodup_iff, List.nodup_append]
    refine ⟨hwf.ilaIds, ?_, ?_⟩
    · rcases hnew with rfl | rfl <;> simp
    · intro x hx y hy
      obtain ⟨m, hm, rfl⟩ := List.mem_map.mp hx
      have hlt := hwf.ilaId m hm
      rcases hnew with rfl | rfl
      · simp at hy
      · simp only [List.mem_singleton] at hy
        omega

theorem wellFormed_run {h h' : Hierarchy} {calls : List (List Nat × Call)} (hrun : h.run calls = some h')
    (hwf : h.top.WellFormed h.next) : h'.top.WellFormed h'.next := by
  induction calls generalizing h with
  | nil =>
    obtain rfl := Option.some.inj hrun
    exact hwf
  | cons c calls ih =>
    rw [run, List.foldlM_cons, Option.bind_eq_bind, Option.bind_eq_some_iff] at hrun
    obtain ⟨h₁, hstep, hrest⟩ := hrun
    exact ih hrest (wellFormed_step hstep hwf)

end Hierarchy

end Ilang
