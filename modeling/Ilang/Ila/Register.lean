import Ilang.Ila.Abs
import Ilang.Ila.Build
import Ilang.Ila.VarContainer
import Mathlib.Logic.Function.Basic

/-!
# What an ILA registers

The calls that create variables, instructions and children return an object and register it by its name. A vector with
keys keeps the first object of a name, so a call with a taken name returns an object that no one finds again. A variable
knows its host if the call that made it told it; the leaves of input and state objects are never told.

The objects are kept in a heap here and known by their numbers. The assertions of `AddInput` and `AddState` are only
there in a debug build.
-/

namespace Ilang

open Smt

/-! ### Objects -/

/-- An `ExprVar`, with the ILA that `set_host` gave it. -/
structure VarObj where
  name : String
  sort : Srt
  host : Option Nat
  deriving DecidableEq, Repr

/-- The vectors with keys that an object is found in. -/
inductive Slot where
  | input
  | state
  | instr
  | child
  deriving DecidableEq, Repr

def Slot.ofKind : Kind → Slot
  | .input => .input
  | .state => .state

/-- An `InstrLvlAbs` with what is registered. -/
structure IlaObj where
  name : String
  parent : Option Nat
  reg : Slot → List (String × Nat) := fun _ => []
  objects : Kind → List (String × VarContainer) := fun _ => []

/-- The objects of all hierarchies, in the order of their creation. -/
structure Heap where
  ilas : List IlaObj := []
  vars : List VarObj := []
  instrs : List String := []

/-- What a call returned, and the vector it is in. Free variables are in none. -/
structure Ret where
  ila : Nat
  slot : Option Slot
  id : Nat
  deriving DecidableEq, Repr

namespace VarContainer

mutual

/-- The variables that `visit_with` comes to. A null container in its way is dereferenced. -/
def visit : VarContainer → Option (List LeafExpr)
  | .null => none
  | .primitive e => some [e]
  | .vector _ cs => visitAll cs
  | .struct _ ms => visitMembers ms

def visitAll : List VarContainer → Option (List LeafExpr)
  | [] => some []
  | c :: cs => (visit c).bind fun es => (visitAll cs).map fun es' => es ++ es'

def visitMembers : List (String × VarContainer) → Option (List LeafExpr)
  | [] => some []
  | (_, c) :: ms => (visit c).bind fun es => (visitMembers ms).map fun es' => es ++ es'

end

end VarContainer

namespace Heap

/-! ### What is in the heap -/

/-- What an ILA has registered in one of its vectors. -/
def reg (h : Heap) (i : Nat) (k : Slot) : List (String × Nat) := (h.ilas[i]?.map fun d => d.reg k).getD []

/-- The names that are taken. -/
def names (h : Heap) (i : Nat) (k : Slot) : List String := (h.reg i k).map Prod.fst

/-- The name of an object itself. -/
def objName (h : Heap) : Slot → Nat → Option String
  | .input, v | .state, v => h.vars[v]?.map VarObj.name
  | .instr, j => h.instrs[j]?
  | .child, c => h.ilas[c]?.map IlaObj.name

/-- An object is found in an ILA by an index and by its name. -/
def Found (h : Heap) (i : Nat) (k : Slot) (id : Nat) : Prop :=
  (∃ n : Nat, (h.reg i k)[n]?.map Prod.snd = some id) ∧ ∃ name, h.objName k id = some name ∧ (h.reg i k).lookup name = some id

/-- `KeyVec::push_back` on one of the vectors of an ILA. -/
def push (h : Heap) (i : Nat) (k : Slot) (name : String) (id : Nat) : Heap :=
  { h with ilas := h.ilas.modify i fun d =>
    { d with reg := Function.update d.reg k (KeyVec.pushBack Prod.fst (d.reg k) (name, id)) } }

/-- The name of an object of variables is taken. -/
def pushObject (h : Heap) (i : Nat) (k : Kind) (name : String) (obj : VarContainer) : Heap :=
  { h with ilas := h.ilas.modify i fun d =>
    { d with objects := Function.update d.objects k (KeyVec.pushBack Prod.fst (d.objects k) (name, obj)) } }

/-- The name of an object of variables is one of an input object or of a state object. -/
def objectTaken (h : Heap) (i : Nat) (name : String) : Bool :=
  (h.ilas[i]?.map fun d =>
    decide (name ∈ (d.objects .input).map Prod.fst ∨ name ∈ (d.objects .state).map Prod.fst)).getD false

/-! ### The calls -/

variable (debug : Bool)

/-- `AddInput` and `AddState`. -/
def addVar (h : Heap) (i : Nat) (k : Kind) (name : String) (v : Nat) : Option Heap :=
  if debug ∧ (name ∈ h.names i .input ∨ name ∈ h.names i .state) then none else some (h.push i (.ofKind k) name v)

def addVars (h : Heap) (i : Nat) (k : Kind) (vs : List (String × Nat)) : Option Heap :=
  vs.foldlM (fun h v => h.addVar debug i k v.1 v.2) h

/-- `AddInputObject` and `AddStateObject`. -/
def addObject (h : Heap) (i : Nat) (k : Kind) (name : String) (obj : VarContainer) : Option Heap :=
  if debug ∧ h.objectTaken i name then none
  else obj.visit.bind fun es => (h.addVars debug i k (es.map fun e => (e.name, e.id))).map fun h =>
    h.pushObject i k name obj

/-- The variables of `VarContainer::Make`, with one host for all or none. -/
def makeObject (h : Heap) (name : String) (sort : VarSort) (host : Option Nat) :
    Option (Heap × VarContainer × List LeafExpr) :=
  (VarContainer.make sort name h.vars.length).bind fun (obj, _) => obj.visit.map fun es =>
    ({ h with vars := h.vars ++ es.map fun e => ⟨e.name, e.sort, host⟩ }, obj, es)

end Heap

inductive RegCall where
  /-- `InstrLvlAbs::New` without a parent. -/
  | newIla (name : String)
  /-- `asthub::NewBoolVar`, `NewBvVar` and `NewMemVar`. -/
  | newBareVar (name : String) (sort : Srt)
  /-- `NewBoolInput`, `NewBvState`, `NewMemFreeVar` and so on. -/
  | newVar (i : Nat) (use : Option Kind) (name : String) (sort : Srt)
  /-- `NewInputObject`, `NewStateObject` and `NewFreeVarObject`. -/
  | newObject (i : Nat) (use : Option Kind) (name : String) (sort : VarSort)
  | addVar (i : Nat) (k : Kind) (v : Nat)
  | addObject (i : Nat) (k : Kind) (name : String) (obj : VarContainer)
  | newInstr (i : Nat) (name : String)
  | newChild (i : Nat) (name : String)

namespace Heap

variable (debug : Bool)

/-- The call, where the ILA is one. -/
def apply (h : Heap) : RegCall → Option (Heap × List Ret)
  | .newIla name => some ({ h with ilas := h.ilas ++ [{ name := name, parent := none }] }, [])
  | .newBareVar name sort => some ({ h with vars := h.vars ++ [⟨name, sort, none⟩] }, [])
  | .newVar i use name sort =>
    let v := h.vars.length
    let h : Heap := { h with vars := h.vars ++ [⟨name, sort, some i⟩] }
    match use with
    | none => some (h, [⟨i, none, v⟩])
    | some k => (h.addVar debug i k name v).map fun h => (h, [⟨i, some (.ofKind k), v⟩])
  | .newObject i use name sort =>
    match use with
    | none => (h.makeObject name sort (some i)).map fun (h, _, es) => (h, es.map fun e => ⟨i, none, e.id⟩)
    | some k => (h.makeObject name sort none).bind fun (h, obj, _) => (h.addObject debug i k name obj).map fun h => (h, [])
  | .addVar i k v => h.vars[v]?.bind fun var => (h.addVar debug i k var.name v).map fun h => (h, [])
  | .addObject i k name obj => (h.addObject debug i k name obj).map fun h => (h, [])
  | .newInstr i name =>
    let name := Instr.newName (h.reg i .instr).length name
    let j := h.instrs.length
    some (push { h with instrs := h.instrs ++ [name] } i .instr name j, [⟨i, some .instr, j⟩])
  | .newChild i name =>
    let c := h.ilas.length
    let h' : Heap := { h with ilas := h.ilas ++ [{ name := name, parent := some i }] }
    (h'.addVars debug c .state (h.reg i .state)).bind fun h' => (h'.addVars debug c .input (h.reg i .input)).map fun h' =>
      (h'.push i .child name c, [⟨i, some .child, c⟩])

end Heap

/-- The ILA a call is on. -/
def RegCall.target : RegCall → Option Nat
  | .newIla _ | .newBareVar .. => none
  | .newVar i .. | .newObject i .. | .addVar i .. | .addObject i .. | .newInstr i _ | .newChild i _ => some i

namespace Heap

/-- One call. -/
def step (debug : Bool) (h : Heap) (c : RegCall) : Option (Heap × List Ret) :=
  if ∀ i ∈ c.target, i < h.ilas.length then h.apply debug c else none

/-- Calls one after another, with everything they return. -/
def run (debug : Bool) : Heap → List RegCall → Option (Heap × List Ret)
  | h, [] => some (h, [])
  | h, c :: cs => (h.step debug c).bind fun (h', rs) => (run debug h' cs).map fun (h'', rs') => (h'', rs ++ rs')

/-- A condition on every call of a run and the heap before it. -/
def Every (debug : Bool) (P : Heap → RegCall → Prop) : Heap → List RegCall → Prop
  | _, [] => True
  | h, c :: cs => P h c ∧ ∀ h' rs, h.step debug c = some (h', rs) → Every debug P h' cs

theorem Every.cons {debug : Bool} {P : Heap → RegCall → Prop} {h h' : Heap} {c : RegCall} {cs : List RegCall} {rs : List Ret}
    (hc : P h c) (hstep : h.step debug c = some (h', rs)) (hrest : Every debug P h' cs) : Every debug P h (c :: cs) := by
  refine ⟨hc, fun h'' rs' hstep' => ?_⟩
  obtain ⟨rfl, -⟩ : h' = h'' ∧ rs = rs' := by simpa [hstep] using hstep'
  exact hrest

instance Every.decide (debug : Bool) (P : Heap → RegCall → Prop) [∀ h c, Decidable (P h c)] :
    ∀ h cs, Decidable (Every debug P h cs)
  | _, [] => .isTrue trivial
  | h, c :: cs =>
    match hc : h.step debug c with
    | none => decidable_of_iff (P h c) ⟨fun hp => ⟨hp, by simp [hc]⟩, And.left⟩
    | some (h', rs) =>
      haveI := Every.decide debug P h' cs
      decidable_of_iff (P h c ∧ Every debug P h' cs)
        ⟨fun hp => ⟨hp.1, by simpa [hc] using hp.2⟩, fun hp => ⟨hp.1, hp.2 h' rs hc⟩⟩

/-! ### What a call leaves alone -/

/-- A later heap: objects keep their names and their hosts, and what is registered stays where it is. -/
structure Grows (h h' : Heap) : Prop where
  ila : ∀ (i : Nat) (d : IlaObj), h.ilas[i]? = some d →
    ∃ d' : IlaObj, h'.ilas[i]? = some d' ∧ d'.name = d.name ∧ d'.parent = d.parent
  reg : ∀ i k, h.reg i k <+: h'.reg i k
  vars : h.vars <+: h'.vars
  instrs : h.instrs <+: h'.instrs

variable {debug : Bool} {h h' h'' : Heap} {i : Nat}

theorem Grows.refl (h : Heap) : Grows h h where
  ila _ d hd := ⟨d, hd, rfl, rfl⟩
  reg _ _ := List.prefix_rfl
  vars := List.prefix_rfl
  instrs := List.prefix_rfl

theorem Grows.trans (hl : Grows h h') (hr : Grows h' h'') : Grows h h'' := by
  refine ⟨fun i d hd => ?_, fun i k => (hl.reg i k).trans (hr.reg i k), hl.vars.trans hr.vars, hl.instrs.trans hr.instrs⟩
  obtain ⟨d', hd', hname, hparent⟩ := hl.ila i d hd
  obtain ⟨d'', hd'', hname', hparent'⟩ := hr.ila i d' hd'
  exact ⟨d'', hd'', hname'.trans hname, hparent'.trans hparent⟩

theorem getElem?_of_initial {α : Type} {l l' : List α} (hpre : l <+: l') {n : Nat} {a : α} (ha : l[n]? = some a) :
    l'[n]? = some a := by
  obtain ⟨m, rfl⟩ := hpre
  rw [List.getElem?_append_left (List.getElem?_eq_some_iff.mp ha).1]
  exact ha

theorem Grows.objName (hg : Grows h h') {k : Slot} {id : Nat} {name : String} (hname : h.objName k id = some name) :
    h'.objName k id = some name := by
  have hvar : ∀ v : Nat, h.vars[v]?.map VarObj.name = some name → h'.vars[v]?.map VarObj.name = some name := by
    intro v hv
    obtain ⟨var, hvar, hn⟩ := Option.map_eq_some_iff.mp hv
    rw [getElem?_of_initial hg.vars hvar]
    exact congrArg some hn
  cases k with
  | input => exact hvar id hname
  | state => exact hvar id hname
  | instr => exact getElem?_of_initial hg.instrs hname
  | child =>
    obtain ⟨d, hd, hn⟩ := Option.map_eq_some_iff.mp hname
    obtain ⟨d', hd', hname', -⟩ := hg.ila id d hd
    rw [Heap.objName, hd']
    exact congrArg some (hname'.trans hn)

theorem Found.grows (hg : Grows h h') {k : Slot} {id : Nat} (hfound : h.Found i k id) : h'.Found i k id := by
  obtain ⟨⟨n, hn⟩, name, hname, hlookup⟩ := hfound
  refine ⟨⟨n, ?_⟩, name, hg.objName hname, ?_⟩
  · obtain ⟨p, hp, hid⟩ := Option.map_eq_some_iff.mp hn
    rw [getElem?_of_initial (hg.reg i k) hp]
    exact congrArg some hid
  · obtain ⟨m, hm⟩ := hg.reg i k
    rw [← hm, Entries.lookup_append, hlookup, Option.some_or]

/-! ### New objects -/

theorem reg_of_lt {d : IlaObj} (hd : h.ilas[i]? = some d) (k : Slot) : h.reg i k = d.reg k := by
  rw [reg, hd]
  rfl

theorem reg_of_ge (hi : h.ilas.length ≤ i) (k : Slot) : h.reg i k = [] := by
  rw [reg, List.getElem?_eq_none hi]
  rfl

theorem grows_alloc (vs : List VarObj) (is : List String) :
    Grows h { h with vars := h.vars ++ vs, instrs := h.instrs ++ is } where
  ila _ d hd := ⟨d, hd, rfl, rfl⟩
  reg _ _ := List.prefix_rfl
  vars := List.prefix_append _ _
  instrs := List.prefix_append _ _

theorem reg_newIla (name : String) (parent : Option Nat) (k : Slot) :
    reg { h with ilas := h.ilas ++ [{ name := name, parent := parent }] } i k = h.reg i k := by
  rcases Nat.lt_or_ge i h.ilas.length with hi | hi
  · rw [reg, List.getElem?_append_left hi]
    rfl
  · rw [reg_of_ge hi, reg, List.getElem?_append_right hi]
    cases i - h.ilas.length <;> rfl

theorem grows_newIla (name : String) (parent : Option Nat) :
    Grows h { h with ilas := h.ilas ++ [{ name := name, parent := parent }] } where
  ila i d hd := ⟨d, getElem?_of_initial (List.prefix_append _ _) hd, rfl, rfl⟩
  reg i k := by rw [reg_newIla]
  vars := List.prefix_rfl
  instrs := List.prefix_rfl

/-! ### Registering -/

variable {k k' : Slot} {name : String} {id j : Nat}

theorem reg_push_self (hi : i < h.ilas.length) :
    (h.push i k name id).reg i k = KeyVec.pushBack Prod.fst (h.reg i k) (name, id) := by
  have hd := List.getElem?_eq_getElem hi
  rw [reg_of_lt hd, reg, push, List.getElem?_modify_eq, hd]
  simp

theorem reg_push_of_ne (hne : ¬(j = i ∧ k' = k)) : (h.push i k name id).reg j k' = h.reg j k' := by
  rw [reg, reg, push, List.getElem?_modify]
  split
  · rename_i hij
    have hk : k' ≠ k := fun heq => hne ⟨hij.symm, heq⟩
    cases h.ilas[j]? with
    | none => rfl
    | some d => simp [Function.update_of_ne hk]
  · cases h.ilas[j]? <;> rfl

theorem initial_pushBack (l : List (String × Nat)) (p : String × Nat) : l <+: KeyVec.pushBack Prod.fst l p := by
  rw [KeyVec.pushBack]
  split
  · exact List.prefix_rfl
  · exact List.prefix_append _ _

theorem grows_push : Grows h (h.push i k name id) := by
  refine ⟨fun j d hd => ?_, fun j k' => ?_, List.prefix_rfl, List.prefix_rfl⟩
  · rw [push, List.getElem?_modify, hd]
    exact ⟨_, rfl, by dsimp only; split <;> rfl, by dsimp only; split <;> rfl⟩
  · by_cases heq : j = i ∧ k' = k
    · obtain ⟨rfl, rfl⟩ := heq
      rcases Nat.lt_or_ge j h.ilas.length with hj | hj
      · rw [reg_push_self hj]
        exact initial_pushBack _ _
      · rw [reg_of_ge hj]
        exact List.nil_prefix
    · rw [reg_push_of_ne heq]

theorem mem_reg_push {p : String × Nat} (hp : p ∈ (h.push i k name id).reg j k') :
    p ∈ h.reg j k' ∨ (j = i ∧ k' = k ∧ p = (name, id) ∧ name ∉ h.names i k) := by
  by_cases heq : j = i ∧ k' = k
  · obtain ⟨rfl, rfl⟩ := heq
    rcases Nat.lt_or_ge j h.ilas.length with hj | hj
    · rw [reg_push_self hj] at hp
      by_cases hfree : name ∈ h.names j k'
      · rw [KeyVec.pushBack_of_mem hfree] at hp
        exact .inl hp
      · rw [KeyVec.pushBack_of_notMem hfree] at hp
        rcases List.mem_append.mp hp with hp | hp
        · exact .inl hp
        · exact .inr ⟨rfl, rfl, List.mem_singleton.mp hp, hfree⟩
    · have hlen : (h.push j k' name id).ilas.length ≤ j := by rwa [push, List.length_modify]
      rw [reg_of_ge hlen] at hp
      cases hp
  · rw [reg_push_of_ne heq] at hp
    exact .inl hp

theorem found_push (hi : i < h.ilas.length) (hfree : name ∉ h.names i k) (hname : h.objName k id = some name) :
    (h.push i k name id).Found i k id := by
  have hreg : (h.push i k name id).reg i k = h.reg i k ++ [(name, id)] := by
    rw [reg_push_self hi, KeyVec.pushBack_of_notMem hfree]
  refine ⟨⟨(h.reg i k).length, ?_⟩, name, grows_push.objName hname, ?_⟩
  · rw [hreg, List.getElem?_concat_length]
    rfl
  · rw [hreg, Entries.lookup_append, Entries.lookup_eq_none_iff.mpr hfree, Option.none_or]
    exact List.lookup_cons_self

end Heap

/-! ### The variables of a new object -/

namespace VarContainer

/-- Variables with consecutive numbers. -/
def Numbered (i i' : Nat) (es : List LeafExpr) : Prop := es.map LeafExpr.id = List.range' i es.length ∧ i' = i + es.length

theorem Numbered.append {i j i' : Nat} {es es' : List LeafExpr} (h : Numbered i j es) (h' : Numbered j i' es') :
    Numbered i i' (es ++ es') := by
  obtain ⟨hids, rfl⟩ := h
  obtain ⟨hids', rfl⟩ := h'
  refine ⟨?_, by rw [List.length_append, Nat.add_assoc]⟩
  rw [List.map_append, hids, hids', List.length_append, List.range'_append_1]

theorem mapCount_visit {α : Type} {f : α → Nat → Option (VarContainer × Nat)} {as : List α} {i i' : Nat}
    {cs : List VarContainer} (hf : ∀ a j c j', f a j = some (c, j') → ∃ es, c.visit = some es ∧ Numbered j j' es)
    (h : mapCount f as i = some (cs, i')) : ∃ es, visitAll cs = some es ∧ Numbered i i' es := by
  induction as generalizing i cs with
  | nil =>
    obtain ⟨rfl, rfl⟩ : [] = cs ∧ i = i' := by simpa [mapCount] using h
    exact ⟨[], by rw [visitAll], rfl, rfl⟩
  | cons a as ih =>
    rw [mapCount, Option.bind_eq_some_iff] at h
    obtain ⟨⟨c, j⟩, hc, hrest⟩ := h
    obtain ⟨⟨cs', j'⟩, hcs, heq⟩ := Option.map_eq_some_iff.mp hrest
    obtain ⟨rfl, rfl⟩ : c :: cs' = cs ∧ j' = i' := by simpa using heq
    obtain ⟨es, hes, hnum⟩ := hf a i c j hc
    obtain ⟨es', hes', hnum'⟩ := ih hcs
    exact ⟨es ++ es', by rw [visitAll, hes, Option.bind_some, hes', Option.map_some], hnum.append hnum'⟩

mutual

theorem make_visit : ∀ (t : VarSort) {name : String} {i i' : Nat} {c : VarContainer}, make t name i = some (c, i') →
    ∃ es, c.visit = some es ∧ Numbered i i' es
  | .null, _, _, _, _, h => by simp [make] at h
  | .bool, _, _, _, _, h | .bv w, _, _, _, _, h | .mem a d, _, _, _, _, h => by
    simp only [make, Option.some.injEq, Prod.mk.injEq] at h
    obtain ⟨rfl, rfl⟩ := h
    exact ⟨_, by rw [visit], rfl, rfl⟩
  | .vec da n, name, i, i', c, h => by
    rw [make] at h
    obtain ⟨⟨cs, j⟩, hcs, heq⟩ := Option.map_eq_some_iff.mp h
    obtain ⟨rfl, rfl⟩ : vector (.vec da n) cs = c ∧ j = i' := by simpa using heq
    rw [visit]
    exact mapCount_visit (fun k j c j' hc => make_visit da hc) hcs
  | .struct ms, name, i, i', c, h => by
    rw [make] at h
    obtain ⟨⟨l, j⟩, hl, heq⟩ := Option.map_eq_some_iff.mp h
    obtain ⟨rfl, rfl⟩ : struct (.struct ms) l = c ∧ j = i' := by simpa using heq
    rw [visit]
    exact makeMembers_visit ms hl

theorem makeMembers_visit : ∀ (ms : List (String × VarSort)) {name : String} {i i' : Nat}
    {l : List (String × VarContainer)}, makeMembers ms name i = some (l, i') →
    ∃ es, visitMembers l = some es ∧ Numbered i i' es
  | [], _, i, i', l, h => by
    obtain ⟨rfl, rfl⟩ : [] = l ∧ i = i' := by simpa [makeMembers] using h
    exact ⟨[], by rw [visitMembers], rfl, rfl⟩
  | (m, s) :: ms, name, i, i', l, h => by
    rw [makeMembers, Option.bind_eq_some_iff] at h
    obtain ⟨⟨c, j⟩, hc, hrest⟩ := h
    obtain ⟨⟨l', j'⟩, hl, heq⟩ := Option.map_eq_some_iff.mp hrest
    obtain ⟨rfl, rfl⟩ : (m, c) :: l' = l ∧ j' = i' := by simpa using heq
    obtain ⟨es, hes, hnum⟩ := make_visit s hc
    obtain ⟨es', hes', hnum'⟩ := makeMembers_visit ms hl
    exact ⟨es ++ es', by rw [visitMembers, hes, Option.bind_some, hes', Option.map_some], hnum.append hnum'⟩

end

theorem Numbered.getElem? {es : List LeafExpr} {vs : List VarObj} {i' : Nat} (h : Numbered vs.length i' es)
    (f : LeafExpr → VarObj) {e : LeafExpr} (he : e ∈ es) : (vs ++ es.map f)[e.id]? = some (f e) := by
  obtain ⟨n, hn⟩ := List.mem_iff_getElem?.mp he
  have hlt : n < es.length := (List.getElem?_eq_some_iff.mp hn).1
  have hid : e.id = vs.length + n := by
    have hget := congrArg (fun l : List Nat => l[n]?) h.1
    simp only [List.getElem?_map, hn, Option.map_some] at hget
    rw [List.getElem?_eq_getElem (by rwa [List.length_range']), List.getElem_range'_1] at hget
    exact Option.some.inj hget
  rw [hid, List.getElem?_append_right (Nat.le_add_right _ _), Nat.add_sub_cancel_left, List.getElem?_map, hn]
  rfl

end VarContainer

namespace Heap

variable {debug : Bool} {h h' h'' : Heap} {i j id : Nat} {k k' : Slot} {name : String}

/-! ### Every call -/

theorem length_push : (h.push i k name id).ilas.length = h.ilas.length := by
  rw [push, List.length_modify]

theorem addVar_eq_some {kind : Kind} (hadd : h.addVar debug i kind name id = some h') :
    h' = h.push i (.ofKind kind) name id := by
  rw [addVar] at hadd
  split at hadd
  · cases hadd
  · exact (Option.some.inj hadd).symm

theorem addVars_spec {kind : Kind} {vs : List (String × Nat)} (hadd : h.addVars debug i kind vs = some h') :
    Grows h h' ∧ h'.ilas.length = h.ilas.length ∧ h'.vars = h.vars ∧ h'.instrs = h.instrs ∧
      ∀ j k p, p ∈ h'.reg j k → p ∈ h.reg j k ∨ (j = i ∧ k = .ofKind kind ∧ p ∈ vs ∧ p.1 ∉ h.names i k) := by
  induction vs generalizing h with
  | nil =>
    obtain rfl := Option.some.inj hadd
    exact ⟨.refl h, rfl, rfl, rfl, fun j k p hp => .inl hp⟩
  | cons v vs ih =>
    rw [addVars, List.foldlM_cons, Option.bind_eq_bind, Option.bind_eq_some_iff] at hadd
    obtain ⟨h₁, hv, hrest⟩ := hadd
    obtain rfl := addVar_eq_some hv
    obtain ⟨hgrows, hlen, hvars, hinstrs, hmem⟩ := ih hrest
    refine ⟨grows_push.trans hgrows, hlen.trans length_push, hvars, hinstrs, fun j k p hp => ?_⟩
    rcases hmem j k p hp with hp | ⟨hj, hk, hp, hfree⟩
    · rcases mem_reg_push hp with hp | ⟨hj, hk, hp, hfree⟩
      · exact .inl hp
      · exact .inr ⟨hj, hk, by rw [hp]; exact List.mem_cons_self, by rw [hp, hk]; exact hfree⟩
    · refine .inr ⟨hj, hk, List.mem_cons_of_mem v hp, fun hmem => hfree ?_⟩
      exact ((grows_push.reg i k).map Prod.fst).subset hmem

theorem grows_pushObject {kind : Kind} {obj : VarContainer} :
    Grows h (h.pushObject i kind name obj) ∧ ∀ j k, (h.pushObject i kind name obj).reg j k = h.reg j k := by
  have hreg : ∀ j k, (h.pushObject i kind name obj).reg j k = h.reg j k := by
    intro j k
    rw [reg, reg, pushObject, List.getElem?_modify]
    cases h.ilas[j]? with
    | none => rfl
    | some d =>
      by_cases hij : i = j
      · simp [hij]
      · simp [hij]
  refine ⟨⟨fun j d hd => ?_, fun j k => by rw [hreg], List.prefix_rfl, List.prefix_rfl⟩, hreg⟩
  rw [pushObject, List.getElem?_modify, hd]
  exact ⟨_, rfl, by dsimp only; split <;> rfl, by dsimp only; split <;> rfl⟩

/-- A heap in which an object of variables is registered: what is new are its variables, under names that were free. -/
structure Registers (h : Heap) (i : Nat) (kind : Kind) (es : List LeafExpr) (h' : Heap) : Prop where
  grows : Grows h h'
  length : h'.ilas.length = h.ilas.length
  vars : h'.vars = h.vars
  reg : ∀ j k p, p ∈ h'.reg j k → p ∈ h.reg j k ∨
    (j = i ∧ k = .ofKind kind ∧ p ∈ es.map (fun e => (e.name, e.id)) ∧ p.1 ∉ h.names i k)

theorem addObject_spec {kind : Kind} {obj : VarContainer} (hadd : h.addObject debug i kind name obj = some h') :
    ∃ es, obj.visit = some es ∧ Registers h i kind es h' := by
  rw [addObject] at hadd
  split at hadd
  · cases hadd
  · obtain ⟨es, hvisit, hadd⟩ := Option.bind_eq_some_iff.mp hadd
    obtain ⟨h₁, hvars, rfl⟩ := Option.map_eq_some_iff.mp hadd
    obtain ⟨hgrows, hlen, hvs, -, hmem⟩ := addVars_spec hvars
    obtain ⟨hobj, hreg⟩ := @grows_pushObject h₁ i name kind obj
    refine ⟨es, hvisit, hgrows.trans hobj, by rw [pushObject, List.length_modify, hlen], hvs, fun j k p hp => ?_⟩
    rw [hreg] at hp
    exact hmem j k p hp

theorem makeObject_spec {sort : VarSort} {host : Option Nat} {obj : VarContainer} {es : List LeafExpr}
    (hmake : h.makeObject name sort host = some (h', obj, es)) :
    (∃ n, VarContainer.make sort name h.vars.length = some (obj, n)) ∧ obj.visit = some es ∧
      h' = { h with vars := h.vars ++ es.map fun e => ⟨e.name, e.sort, host⟩ } ∧
      ∀ e ∈ es, (h.vars ++ es.map fun e => ⟨e.name, e.sort, host⟩)[e.id]? = some ⟨e.name, e.sort, host⟩ := by
  rw [makeObject] at hmake
  obtain ⟨⟨c, n⟩, hc, hmake⟩ := Option.bind_eq_some_iff.mp hmake
  obtain ⟨es', hes', heq⟩ := Option.map_eq_some_iff.mp hmake
  obtain ⟨rfl, rfl, rfl⟩ : _ = h' ∧ c = obj ∧ es' = es := by simpa using heq
  obtain ⟨es'', hes'', hnum⟩ := VarContainer.make_visit sort hc
  obtain rfl : es' = es'' := Option.some.inj (hes'.symm.trans hes'')
  exact ⟨⟨n, hc⟩, hes', rfl, fun e he => hnum.getElem? (fun e => ⟨e.name, e.sort, host⟩) he⟩

theorem newChild_spec {rs : List Ret} (hnew : h.apply debug (.newChild i name) = some (h', rs)) :
    ∃ h₁ : Heap, Grows { h with ilas := h.ilas ++ [{ name := name, parent := some i }] } h₁ ∧
      h₁.ilas.length = h.ilas.length + 1 ∧ h₁.vars = h.vars ∧
      (∀ j k p, p ∈ h₁.reg j k →
        p ∈ h.reg j k ∨ (j = h.ilas.length ∧ p ∈ h.reg i k ∧ (k = .state ∨ k = .input))) ∧
      h' = h₁.push i .child name h.ilas.length ∧ rs = [⟨i, some .child, h.ilas.length⟩] := by
  simp only [apply] at hnew
  obtain ⟨h₁, hstates, hnew⟩ := Option.bind_eq_some_iff.mp hnew
  obtain ⟨h₂, hinputs, heq⟩ := Option.map_eq_some_iff.mp hnew
  obtain ⟨rfl, rfl⟩ : h₂.push i .child name h.ilas.length = h' ∧ _ = rs := by simpa using heq
  obtain ⟨hgrows, hlen, hvars, -, hmem⟩ := addVars_spec hstates
  obtain ⟨hgrows', hlen', hvars', -, hmem'⟩ := addVars_spec hinputs
  refine ⟨h₂, hgrows.trans hgrows', by rw [hlen', hlen, List.length_append, List.length_singleton],
    hvars'.trans hvars, fun j k p hp => ?_, rfl, rfl⟩
  rcases hmem' j k p hp with hp | ⟨hj, hk, hp, -⟩
  · rcases hmem j k p hp with hp | ⟨hj, hk, hp, -⟩
    · rw [reg_newIla] at hp
      exact .inl hp
    · exact .inr ⟨hj, hk ▸ hp, .inl hk⟩
  · exact .inr ⟨hj, hk ▸ hp, .inr hk⟩

/-- What each call does. -/
inductive StepTo (h : Heap) : RegCall → Heap → List Ret → Prop where
  | newIla (name : String) :
      StepTo h (.newIla name) { h with ilas := h.ilas ++ [{ name := name, parent := none }] } []
  | newBareVar (name : String) (sort : Srt) :
      StepTo h (.newBareVar name sort) { h with vars := h.vars ++ [⟨name, sort, none⟩] } []
  | freeVar (i : Nat) (name : String) (sort : Srt) (hi : i < h.ilas.length) :
      StepTo h (.newVar i none name sort) { h with vars := h.vars ++ [⟨name, sort, some i⟩] } [⟨i, none, h.vars.length⟩]
  | newVar (i : Nat) (kind : Kind) (name : String) (sort : Srt) (hi : i < h.ilas.length) :
      StepTo h (.newVar i (some kind) name sort)
        (push { h with vars := h.vars ++ [⟨name, sort, some i⟩] } i (.ofKind kind) name h.vars.length)
        [⟨i, some (.ofKind kind), h.vars.length⟩]
  | freeObject (i : Nat) (name : String) (sort : VarSort) (es : List LeafExpr) (hi : i < h.ilas.length)
      (hvars : ∀ e ∈ es, (h.vars ++ es.map fun e => ⟨e.name, e.sort, some i⟩)[e.id]? = some ⟨e.name, e.sort, some i⟩) :
      StepTo h (.newObject i none name sort) { h with vars := h.vars ++ es.map fun e => ⟨e.name, e.sort, some i⟩ }
        (es.map fun e => ⟨i, none, e.id⟩)
  | newObject (i : Nat) (kind : Kind) (name : String) (sort : VarSort) (obj : VarContainer) (n : Nat) (es : List LeafExpr)
      (h' : Heap) (hi : i < h.ilas.length) (hmake : VarContainer.make sort name h.vars.length = some (obj, n))
      (hvisit : obj.visit = some es)
      (hreg : Registers { h with vars := h.vars ++ es.map fun e => ⟨e.name, e.sort, none⟩ } i kind es h') :
      StepTo h (.newObject i (some kind) name sort) h' []
  | addVar (i : Nat) (kind : Kind) (v : Nat) (var : VarObj) (hi : i < h.ilas.length) (hvar : h.vars[v]? = some var) :
      StepTo h (.addVar i kind v) (h.push i (.ofKind kind) var.name v) []
  | addObject (i : Nat) (kind : Kind) (name : String) (obj : VarContainer) (es : List LeafExpr) (h' : Heap)
      (hi : i < h.ilas.length) (hvisit : obj.visit = some es) (hreg : Registers h i kind es h') :
      StepTo h (.addObject i kind name obj) h' []
  | newInstr (i : Nat) (name : String) (hi : i < h.ilas.length) :
      StepTo h (.newInstr i name)
        (push { h with instrs := h.instrs ++ [Instr.newName (h.reg i .instr).length name] } i .instr
          (Instr.newName (h.reg i .instr).length name) h.instrs.length)
        [⟨i, some .instr, h.instrs.length⟩]
  | newChild (i : Nat) (name : String) (h₁ : Heap) (hi : i < h.ilas.length)
      (hgrows : Grows { h with ilas := h.ilas ++ [{ name := name, parent := some i }] } h₁)
      (hlen : h₁.ilas.length = h.ilas.length + 1) (hvars : h₁.vars = h.vars)
      (hreg : ∀ j k p, p ∈ h₁.reg j k →
        p ∈ h.reg j k ∨ (j = h.ilas.length ∧ p ∈ h.reg i k ∧ (k = .state ∨ k = .input))) :
      StepTo h (.newChild i name) (h₁.push i .child name h.ilas.length) [⟨i, some .child, h.ilas.length⟩]

theorem step_to {c : RegCall} {rs : List Ret} (hstep : h.step debug c = some (h', rs)) : StepTo h c h' rs := by
  rw [step, Option.ite_none_right_eq_some] at hstep
  obtain ⟨htarget, happly⟩ := hstep
  cases c with
  | newIla name =>
    obtain ⟨rfl, rfl⟩ : _ = h' ∧ [] = rs := by simpa [apply] using happly
    exact .newIla name
  | newBareVar name sort =>
    obtain ⟨rfl, rfl⟩ : _ = h' ∧ [] = rs := by simpa [apply] using happly
    exact .newBareVar name sort
  | newVar i use name sort =>
    cases use with
    | none =>
      obtain ⟨rfl, rfl⟩ : _ = h' ∧ [⟨i, none, h.vars.length⟩] = rs := by simpa [apply] using happly
      exact .freeVar i name sort (htarget i rfl)
    | some kind =>
      obtain ⟨h₁, hadd, heq⟩ := Option.map_eq_some_iff.mp happly
      obtain ⟨rfl, rfl⟩ : h₁ = h' ∧ [⟨i, some (.ofKind kind), h.vars.length⟩] = rs := by simpa using heq
      rw [addVar_eq_some hadd]
      exact .newVar i kind name sort (htarget i rfl)
  | newObject i use name sort =>
    cases use with
    | none =>
      obtain ⟨⟨h₁, obj, es⟩, hmake, heq⟩ := Option.map_eq_some_iff.mp happly
      obtain ⟨rfl, rfl⟩ : h₁ = h' ∧ (es.map fun e => ⟨i, none, e.id⟩) = rs := by simpa using heq
      obtain ⟨-, -, rfl, hvars⟩ := makeObject_spec hmake
      exact .freeObject i name sort es (htarget i rfl) hvars
    | some kind =>
      obtain ⟨⟨h₁, obj, es⟩, hmake, happly⟩ := Option.bind_eq_some_iff.mp happly
      obtain ⟨h₂, hadd, heq⟩ := Option.map_eq_some_iff.mp happly
      obtain ⟨rfl, rfl⟩ : h₂ = h' ∧ [] = rs := by simpa using heq
      obtain ⟨⟨n, hn⟩, hvisit, rfl, -⟩ := makeObject_spec hmake
      obtain ⟨es', hvisit', hreg⟩ := addObject_spec hadd
      obtain rfl : es' = es := Option.some.inj (hvisit'.symm.trans hvisit)
      exact .newObject i kind name sort obj n es' h₂ (htarget i rfl) hn hvisit hreg
  | addVar i kind v =>
    obtain ⟨var, hvar, happly⟩ := Option.bind_eq_some_iff.mp happly
    obtain ⟨h₁, hadd, heq⟩ := Option.map_eq_some_iff.mp happly
    obtain ⟨rfl, rfl⟩ : h₁ = h' ∧ [] = rs := by simpa using heq
    rw [addVar_eq_some hadd]
    exact .addVar i kind v var (htarget i rfl) hvar
  | addObject i kind name obj =>
    obtain ⟨h₁, hadd, heq⟩ := Option.map_eq_some_iff.mp happly
    obtain ⟨rfl, rfl⟩ : h₁ = h' ∧ [] = rs := by simpa using heq
    obtain ⟨es, hvisit, hreg⟩ := addObject_spec hadd
    exact .addObject i kind name obj es h₁ (htarget i rfl) hvisit hreg
  | newInstr i name =>
    obtain ⟨rfl, rfl⟩ : _ = h' ∧ [⟨i, some .instr, h.instrs.length⟩] = rs := by simpa [apply] using happly
    exact .newInstr i name (htarget i rfl)
  | newChild i name =>
    obtain ⟨h₁, hgrows, hlen, hvars, hreg, rfl, rfl⟩ := newChild_spec happly
    exact .newChild i name h₁ (htarget i rfl) hgrows hlen hvars hreg

theorem StepTo.grows {c : RegCall} {rs : List Ret} (hstep : StepTo h c h' rs) : Grows h h' := by
  have hvar : ∀ vs : List VarObj, Grows h { h with vars := h.vars ++ vs } := by
    intro vs
    simpa using @grows_alloc h vs []
  cases hstep with
  | newIla name => exact grows_newIla name none
  | newBareVar name sort => exact hvar _
  | freeVar i name sort => exact hvar _
  | newVar i kind name sort => exact (hvar _).trans grows_push
  | freeObject i name sort es => exact hvar _
  | newObject i kind name sort obj n es _ _ _ _ hreg => exact (hvar _).trans hreg.grows
  | addVar i kind v var => exact grows_push
  | addObject i kind name obj es _ _ _ hreg => exact hreg.grows
  | newInstr i name =>
    refine Grows.trans ?_ grows_push
    simpa using @grows_alloc h [] [Instr.newName (h.reg i .instr).length name]
  | newChild i name h₁ _ hgrows => exact ((grows_newIla name (some i)).trans hgrows).trans grows_push

theorem run_induction {P : Heap → RegCall → Prop} {I : Heap → List Ret → Prop}
    (hstep : ∀ h log c h' rs, I h log → P h c → h.step debug c = some (h', rs) → I h' (log ++ rs))
    (log : List Ret) {cs : List RegCall} {rs : List Ret} (hinit : I h log) (hevery : Every debug P h cs)
    (hrun : run debug h cs = some (h', rs)) : I h' (log ++ rs) := by
  induction cs generalizing h log rs with
  | nil =>
    obtain ⟨rfl, rfl⟩ : h = h' ∧ [] = rs := by simpa [run] using hrun
    rwa [List.append_nil]
  | cons c cs ih =>
    rw [run] at hrun
    obtain ⟨⟨h₁, rs₁⟩, hc, hrun⟩ := Option.bind_eq_some_iff.mp hrun
    obtain ⟨⟨h₂, rs₂⟩, hrest, heq⟩ := Option.map_eq_some_iff.mp hrun
    obtain ⟨rfl, rfl⟩ : h₂ = h' ∧ rs₁ ++ rs₂ = rs := by simpa using heq
    rw [← List.append_assoc]
    exact ih (log ++ rs₁) (hstep h log c h₁ rs₁ hinit hevery.1 hc) (hevery.2 h₁ rs₁ hc) hrest

/-! ### Returned objects are found -/

/-- The name that a call registers is not taken where the call registers it. -/
def NameFree (h : Heap) : RegCall → Prop
  | .newVar i (some k) name _ => name ∉ h.names i (.ofKind k)
  | .newInstr i name => Instr.newName (h.reg i .instr).length name ∉ h.names i .instr
  | .newChild i name => name ∉ h.names i .child
  | _ => True

instance (h : Heap) : (c : RegCall) → Decidable (h.NameFree c)
  | .newVar _ (some _) _ _ | .newInstr _ _ | .newChild _ _ => inferInstanceAs (Decidable (_ ∉ _))
  | .newVar _ none _ _ | .newIla _ | .newBareVar _ _ | .newObject .. | .addVar .. | .addObject .. => .isTrue trivial

theorem found_step {c : RegCall} {rs : List Ret} (hfree : h.NameFree c) (hstep : StepTo h c h' rs) :
    ∀ r ∈ rs, ∀ k, r.slot = some k → h'.Found r.ila k r.id := by
  intro r hr k hk
  cases hstep with
  | newVar i kind name sort hi =>
    obtain rfl := List.mem_singleton.mp hr
    obtain rfl := Option.some.inj hk
    refine found_push hi hfree ?_
    cases kind <;> exact congrArg (Option.map VarObj.name) List.getElem?_concat_length
  | newInstr i name hi =>
    obtain rfl := List.mem_singleton.mp hr
    obtain rfl := Option.some.inj hk
    exact found_push hi hfree List.getElem?_concat_length
  | newChild i name h₁ hi hgrows hlen _ hreg =>
    obtain rfl := List.mem_singleton.mp hr
    obtain rfl := Option.some.inj hk
    refine found_push (by omega) (fun htaken => hfree ?_) (hgrows.objName (k := .child) ?_)
    · -- a child is no variable, so the parent's children are as before
      obtain ⟨p, hp, hname⟩ := List.mem_map.mp htaken
      rcases hreg i .child p hp with hp | ⟨-, -, hk⟩
      · exact List.mem_map.mpr ⟨p, hp, hname⟩
      · simp at hk
    · exact congrArg (Option.map IlaObj.name) List.getElem?_concat_length
  | freeVar i name sort hi =>
    obtain rfl := List.mem_singleton.mp hr
    cases hk
  | freeObject i name sort es =>
    obtain ⟨e, -, rfl⟩ := List.mem_map.mp hr
    cases hk
  | newIla | newBareVar | newObject | addVar | addObject => cases hr

/-- What the calls on a hierarchy return is part of it to the end, whenever each of them registers a name that is not
taken. -/
theorem run_found {cs : List RegCall} {log : List Ret} (hrun : run debug {} cs = some (h, log))
    (hfree : Every debug NameFree {} cs) : ∀ r ∈ log, ∀ k, r.slot = some k → h.Found r.ila k r.id := by
  refine run_induction (I := fun h log => ∀ r ∈ log, ∀ k, r.slot = some k → h.Found r.ila k r.id)
    (fun h log c h' rs hinv hfree hstep r hr k hk => ?_) [] (by simp) hfree hrun
  rcases List.mem_append.mp hr with hr | hr
  · exact (hinv r hr k hk).grows (step_to hstep).grows
  · exact found_step hfree (step_to hstep) r hr k hk

/-- One instruction under a name that was made up for it, and one without a name. -/
def instrTwins : List RegCall := [.newIla "m", .newInstr 0 "I.1", .newInstr 0 ""]

theorem run_found_instrTwins : ∃ h log, run true {} instrTwins = some (h, log) ∧
    ∃ r ∈ log, ∃ k, r.slot = some k ∧ ¬h.Found r.ila k r.id := by
  refine ⟨_, _, rfl, ⟨0, some .instr, 1⟩, by decide, .instr, rfl, fun hfound => ?_⟩
  obtain ⟨-, name, hname, hlookup⟩ := hfound
  obtain rfl := Option.some.inj hname
  have hfirst : some 0 = some 1 := hlookup
  simp at hfirst

/-- An instruction, a child with a state, and an instruction of the child. -/
def childCalls : List RegCall :=
  [.newIla "m", .newVar 0 (some .state) "x" (.bv 8), .newInstr 0 "", .newChild 0 "c", .newInstr 1 ""]

theorem run_found_childCalls : ∃ h log, run true {} childCalls = some (h, log) ∧ log.length = 4 ∧
    ∀ r ∈ log, ∀ k, r.slot = some k → h.Found r.ila k r.id := by
  obtain ⟨h, log, hrun, hlen⟩ : ∃ h log, run true {} childCalls = some (h, log) ∧ log.length = 4 := ⟨_, _, rfl, rfl⟩
  exact ⟨h, log, hrun, hlen, run_found hrun (by decide)⟩

end Heap

end Ilang
