import Ilang.Mngr.CopyNode

/-!
# Flattening a hierarchy

`FlattenIla` changes the ILA at the top. It visits the ILAs below it twice. The first time it looks up their variables by name
in the top, makes the missing ones, and adds the initial conditions; the second time it makes their instructions again in the
top. The valid conditions of the children are left behind: the code that would have added them to the decodes is disabled.
-/

namespace Ilang

open Smt

namespace Flatten

open CopyTree

/-- The ILA at the top, and the maps. -/
abbrev State := IlaData × Copier

/-- `DuplInp` and `DuplStt` into the top, and the entry of the ILA. -/
def recordVars (s : State) (src : IlaData) : State :=
  let inps := duplVars s.1.rootName src.inputs s.1.inputs s.2
  let stts := duplVars s.1.rootName src.states s.1.states inps.2
  ({ s.1 with inputs := inps.1, states := stts.1 }, { stts.2 with ilaMap := emplace stts.2.ilaMap src.id s.1.id })

/-- `recordInpStates`, for an ILA below the top. -/
def record (s : State) (src : IlaData) : Option State :=
  let r := recordVars s src
  (src.inits.mapM (copyExpr r.2)).map fun inits => ({ r.1 with inits := r.1.inits ++ inits }, r.2)

/-- `DuplInstr` into the top. -/
def flatInstr (s : State) (i : Instr) : Option State :=
  (copyInstr s.2 s.2.next s.1.instrs.length i).map fun j => (s.1.addInstr j, { s.2 with next := s.2.next + 1 })

/-- The instructions of the ILAs below the top, in the order in which `FuncObjFlatIla` meets them. -/
def instrsBelow (t : Ila) : List Instr := (Ila.preOrderList t.childs).flatMap fun n => n.data.instrs

/-- `FlattenIla`. The children stay where they are. -/
def flattenIla (h : Hierarchy) : Option Ila :=
  ((Ila.postOrderList h.top.childs).foldlM record (h.top.data, ⟨h.next, fun _ => none, fun _ => none⟩)).bind fun s =>
    ((instrsBelow h.top).foldlM flatInstr s).map fun r => .mk r.1 h.top.childs

/-! ### What a flattened ILA is -/

/-- A map takes the variables of the hierarchy to the variables of the top, each once. -/
structure VarsFlat (t : Ila) (d : IlaData) (f : Var → Var) : Prop where
  inj : ∀ v w, HasVar t v → HasVar t w → f v = f w → v = w
  kept : ∀ v, HasVar t v → (f v).name = v.name ∧ (f v).sort = v.sort
  top : ∀ k, ∀ v ∈ t.data.vars k, f v = v
  outside : ∀ v, ¬HasVar t v → f v = v
  vars : ∀ k w, w ∈ d.vars k ↔ ∃ v, t.Has k v ∧ w = f v
  once : ∀ k, (d.vars k).Nodup

/-- The top has every variable and every instruction of the hierarchy once. An instruction from below is the image of the
original, and its child-program has become the top. -/
structure IsFlat (t : Ila) (d : IlaData) (f : Var → Var) : Prop extends VarsFlat t d f where
  instrs : ∃ is, d.instrs = t.data.instrs ++ is ∧ List.Forall₂ (InstrImage f fun _ => t.data.id) (instrsBelow t) is

/-- Different variables of a kind have different names, and so have different instructions. Below the top, instructions have decodes,
nothing has a signed remainder or modulus, and child-programs are below the top too. -/
structure Flattenable (t : Ila) : Prop where
  varNames : ∀ k v w, t.Has k v → t.Has k w → v.name = w.name → v = w
  instrNames : ((t.data.instrs ++ instrsBelow t).map Instr.name).Nodup
  decode : ∀ i ∈ instrsBelow t, i.decode ≠ none
  noSignedRem : ∀ n ∈ Ila.preOrderList t.childs, ∀ e ∈ n.data.inits ++ n.data.instrs.flatMap Instr.exprs, e.noSignedRem = true
  linked : ∀ i ∈ instrsBelow t, ∀ p, i.program = some p → ∃ n ∈ Ila.preOrderList t.childs, n.data.id = p

/-! ### Looking up variables -/

section Vars

variable {t : Ila}

/-- What a variable of the hierarchy becomes. The top keeps its own. -/
structure Kept (t : Ila) (v w : Var) : Prop where
  name : w.name = v.name
  sort : w.sort = v.sort
  top : ∀ k, v ∈ t.data.vars k → w = v

/-- What `DuplInp` and `DuplStt` leave behind in the top. -/
structure Looked (t : Ila) (k : Kind) (vs ds : List Var) (st : Copier) (r : List Var × Copier) : Prop where
  names : (r.1.map Var.name).Nodup
  origin : ∀ w ∈ r.1, ∃ v, t.Has k v ∧ Kept t v w
  mem : ∀ w, w ∈ r.1 ↔ w ∈ ds ∨ ∃ v ∈ vs, r.2.exprMap v = some w
  map : ∀ v w, r.2.exprMap v = some w → st.exprMap v = some w ∨ v ∈ vs ∧ Kept t v w
  grows : Extends st.exprMap r.2.exprMap
  dom : ∀ v ∈ vs, (r.2.exprMap v).isSome
  ilaMap : r.2.ilaMap = st.ilaMap

/-- One more variable is looked up first. It goes to one of the list, where the others leave it. -/
theorem Looked.cons {k : Kind} {v w : Var} {vs ds ds' : List Var} {st : Copier} {next : Nat} {r : List Var × Copier}
    (h : Looked t k vs ds' { st with next := next, exprMap := emplace st.exprMap v w } r) (hkept : Kept t v w)
    (hmem : ∀ x, x ∈ ds' ↔ x ∈ ds ∨ x = w) (hsame : ∀ x, st.exprMap v = some x → x = w) : Looked t k (v :: vs) ds st r := by
  have hw : emplace st.exprMap v w v = some w := emplace_self hsame
  have hvw := h.grows v w hw
  refine ⟨h.names, h.origin, fun x => ?_, fun u x hx => ?_, ?_, fun u hu => ?_, h.ilaMap⟩
  · rw [h.mem, hmem]
    constructor
    · rintro ((hx | rfl) | ⟨u, hu, hux⟩)
      · exact .inl hx
      · exact .inr ⟨v, List.mem_cons_self, hvw⟩
      · exact .inr ⟨u, List.mem_cons_of_mem v hu, hux⟩
    · rintro (hx | ⟨u, hu, hux⟩)
      · exact .inl (.inl hx)
      · rcases List.mem_cons.mp hu with rfl | hu
        · exact .inl (.inr (Option.some.inj (hux.symm.trans hvw)))
        · exact .inr ⟨u, hu, hux⟩
  · rcases h.map u x hx with hx | ⟨hu, hkeep⟩
    · rcases eq_some_of_emplace hsame hx with hx | ⟨rfl, rfl⟩
      · exact .inl hx
      · exact .inr ⟨List.mem_cons_self, hkept⟩
    · exact .inr ⟨List.mem_cons_of_mem v hu, hkeep⟩
  · exact Extends.trans (fun a b hab => emplace_of_eq_some hab) h.grows
  · rcases List.mem_cons.mp hu with rfl | hu
    · rw [hvw]
      rfl
    · exact h.dom u hu

theorem duplVars_looked (hnames : ∀ k v w, t.Has k v → t.Has k w → v.name = w.name → v = w)
    (hkinds : ∀ v k k', t.Has k v → t.Has k' v → k = k') {k : Kind} {host : String} {vs ds : List Var} {st : Copier}
    (hds : (ds.map Var.name).Nodup) (horigin : ∀ w ∈ ds, ∃ v, t.Has k v ∧ Kept t v w) (htop : ∀ v ∈ t.data.vars k, v ∈ ds)
    (hvs : ∀ v ∈ vs, t.Has k v) (hmap : ∀ v ∈ vs, ∀ w, st.exprMap v = some w → w ∈ ds ∧ w.name = v.name) :
    Looked t k vs ds st (duplVars host vs ds st) := by
  induction vs generalizing ds st with
  | nil => exact ⟨hds, horigin, by simp [duplVars], fun v w h => .inl h, fun _ _ h => h, by simp, rfl⟩
  | cons v vs ih =>
    have hv := hvs v List.mem_cons_self
    -- the variable goes to one of the list, and the rest of the visit keeps it there
    have hstep : ∀ (w : Var) (ds' : List Var) (next : Nat), duplVars host (v :: vs) ds st =
          duplVars host vs ds' { st with next := next, exprMap := emplace st.exprMap v w } → Kept t v w →
        (∀ x, x ∈ ds' ↔ x ∈ ds ∨ x = w) → (ds'.map Var.name).Nodup → (∀ x, st.exprMap v = some x → x = w) →
        Looked t k (v :: vs) ds st (duplVars host (v :: vs) ds st) := by
      intro w ds' next heq hkept hmem hnodup hsame
      have hrest := @ih ds' { st with next := next, exprMap := emplace st.exprMap v w } hnodup ?_ ?_
        (fun u hu => hvs u (List.mem_cons_of_mem v hu)) ?_
      · rw [heq]
        exact hrest.cons hkept hmem hsame
      · intro x hx
        rcases (hmem x).mp hx with hx | rfl
        · exact horigin x hx
        · exact ⟨v, hv, hkept⟩
      · exact fun u hu => (hmem u).mpr (.inl (htop u hu))
      · intro u hu x hx
        rcases eq_some_of_emplace hsame hx with hx | ⟨rfl, rfl⟩
        · obtain ⟨hmemx, hname⟩ := hmap u (List.mem_cons_of_mem v hu) x hx
          exact ⟨(hmem x).mpr (.inl hmemx), hname⟩
        · exact ⟨(hmem x).mpr (.inr rfl), hkept.name⟩
    cases hfind : ds.find? (fun w => w.name = v.name) with
    | some w =>
      have hw : w ∈ ds := List.mem_of_find?_eq_some hfind
      have hname : w.name = v.name := by simpa using List.find?_some hfind
      obtain ⟨u, hu, hkept⟩ := horigin w hw
      obtain rfl : u = v := hnames k u v hu hv (hkept.name.symm.trans hname)
      refine hstep w ds st.next ?_ hkept (fun x => ?_) hds fun x hx => ?_
      · rw [duplVars, hfind]
      · exact ⟨.inl, fun hx => hx.elim id fun h => h ▸ hw⟩
      · obtain ⟨hxds, hxname⟩ := hmap u List.mem_cons_self x hx
        exact List.inj_on_of_nodup_map hds hxds hw (hxname.trans hname.symm)
    | none =>
      have hfree : ∀ w ∈ ds, w.name ≠ v.name := fun w hw => by simpa using List.find?_eq_none.mp hfind w hw
      refine hstep ⟨st.next, v.name, some host, v.sort⟩ (ds ++ [⟨st.next, v.name, some host, v.sort⟩]) (st.next + 1) ?_
        ⟨rfl, rfl, fun k' hk' => ?_⟩ (fun x => ?_) ?_ fun x hx => ?_
      · rw [duplVars, hfind]
      · obtain rfl := hkinds v k k' hv (Ila.has_of_mem hk')
        exact absurd rfl (hfree v (htop v hk'))
      · rw [List.mem_append, List.mem_singleton]
      · rw [List.map_append, List.map_cons, List.map_nil, List.nodup_append]
        refine ⟨hds, by simp, ?_⟩
        intro a ha b hb hab
        obtain ⟨w, hw, rfl⟩ := List.mem_map.mp ha
        exact hfree w hw (hab.trans (List.mem_singleton.mp hb))
      · obtain ⟨hxds, hxname⟩ := hmap v List.mem_cons_self x hx
        exact absurd hxname (hfree x hxds)

end Vars

/-! ### The first visit -/

section Record

variable {t : Ila}

/-- The top, and the maps, after some of the ILAs below have been visited. -/
structure Recorded (t : Ila) (seen : List IlaData) (s : State) : Prop where
  names : ∀ k, ((s.1.vars k).map Var.name).Nodup
  origin : ∀ k, ∀ w ∈ s.1.vars k, ∃ v, t.Has k v ∧ Kept t v w
  vars : ∀ k w, w ∈ s.1.vars k ↔ w ∈ t.data.vars k ∨ ∃ n ∈ seen, ∃ v ∈ n.vars k, s.2.exprMap v = some w
  map : ∀ v w, s.2.exprMap v = some w → Kept t v w
  dom : ∀ v, (s.2.exprMap v).isSome ↔ ∃ n ∈ seen, ∃ k, v ∈ n.vars k
  ilas : ∀ n ∈ seen, s.2.ilaMap n.id = some t.data.id
  onlyTop : ∀ p q, s.2.ilaMap p = some q → q = t.data.id ∧ ∃ n ∈ seen, n.id = p
  id : s.1.id = t.data.id
  instrs : s.1.instrs = t.data.instrs

/-- What the visit of one ILA adds. -/
structure Met (t : Ila) (src : IlaData) (s r : State) : Prop where
  names : ∀ k, ((r.1.vars k).map Var.name).Nodup
  origin : ∀ k, ∀ w ∈ r.1.vars k, ∃ v, t.Has k v ∧ Kept t v w
  vars : ∀ k w, w ∈ r.1.vars k ↔ w ∈ s.1.vars k ∨ ∃ v ∈ src.vars k, r.2.exprMap v = some w
  grows : Extends s.2.exprMap r.2.exprMap
  map : ∀ v w, r.2.exprMap v = some w → s.2.exprMap v = some w ∨ (∃ k, v ∈ src.vars k) ∧ Kept t v w
  dom : ∀ k, ∀ v ∈ src.vars k, (r.2.exprMap v).isSome
  ilaMap : r.2.ilaMap = emplace s.2.ilaMap src.id s.1.id

theorem Met.congr {src : IlaData} {s r r' : State} (h : Met t src s r) (hvars : ∀ k, r'.1.vars k = r.1.vars k)
    (hmaps : r'.2 = r.2) : Met t src s r' := by
  obtain ⟨d, st⟩ := r'
  obtain rfl : st = r.2 := hmaps
  simp only at hvars
  refine ⟨fun k => ?_, fun k => ?_, fun k => ?_, h.grows, h.map, h.dom, h.ilaMap⟩
  · rw [hvars]
    exact h.names k
  · rw [hvars]
    exact h.origin k
  · rw [hvars]
    exact h.vars k

theorem recordVars_met (hnames : ∀ k v w, t.Has k v → t.Has k w → v.name = w.name → v = w)
    (hkinds : ∀ v k k', t.Has k v → t.Has k' v → k = k') {seen : List IlaData} {s : State} (h : Recorded t seen s)
    {src : IlaData} (hsrc : ∀ k, ∀ v ∈ src.vars k, t.Has k v) (hseen : ∀ n ∈ seen, ∀ k, ∀ v ∈ n.vars k, t.Has k v) :
    Met t src s (recordVars s src) := by
  have htop : ∀ k, ∀ v ∈ t.data.vars k, v ∈ s.1.vars k := fun k v hv => (h.vars k v).mpr (.inl hv)
  -- a variable that was met before is one of its own kind, and the top has its image
  have hmap : ∀ k, ∀ v ∈ src.vars k, ∀ w, s.2.exprMap v = some w → w ∈ s.1.vars k ∧ w.name = v.name := by
    intro k v hv w hw
    obtain ⟨n, hn, k', hv'⟩ := (h.dom v).mp (Option.isSome_iff_exists.mpr ⟨w, hw⟩)
    obtain rfl := hkinds v k k' (hsrc k v hv) (hseen n hn k' v hv')
    exact ⟨(h.vars k w).mpr (.inr ⟨n, hn, v, hv', hw⟩), (h.map v w hw).name⟩
  have hinp : Looked t .input src.inputs s.1.inputs s.2 (duplVars s.1.rootName src.inputs s.1.inputs s.2) :=
    duplVars_looked hnames hkinds (h.names .input) (h.origin .input) (htop .input) (hsrc .input) (hmap .input)
  -- no state of the ILA is one of its inputs, so `DuplInp` maps none
  have hmapStt : ∀ v ∈ src.states, ∀ w, (duplVars s.1.rootName src.inputs s.1.inputs s.2).2.exprMap v = some w →
      w ∈ s.1.states ∧ w.name = v.name := by
    intro v hv w hw
    rcases hinp.map v w hw with hw | ⟨hvin, -⟩
    · exact hmap .state v hv w hw
    · exact absurd (hkinds v _ _ (hsrc .input v hvin) (hsrc .state v hv)) (by decide)
  have hstt : Looked t .state src.states s.1.states (duplVars s.1.rootName src.inputs s.1.inputs s.2).2
      (duplVars s.1.rootName src.states s.1.states (duplVars s.1.rootName src.inputs s.1.inputs s.2).2) :=
    duplVars_looked hnames hkinds (h.names .state) (h.origin .state) (htop .state) (hsrc .state) hmapStt
  refine ⟨fun k => ?_, fun k => ?_, fun k w => ?_, hinp.grows.trans hstt.grows, fun v w hw => ?_, fun k v hv => ?_, ?_⟩
  · cases k with
    | input => exact hinp.names
    | state => exact hstt.names
  · cases k with
    | input => exact hinp.origin
    | state => exact hstt.origin
  · cases k with
    | input =>
      refine (hinp.mem w).trans (or_congr_right (exists_congr fun v => and_congr_right fun hv => ⟨hstt.grows v w, fun hw => ?_⟩))
      obtain ⟨x, hx⟩ := Option.isSome_iff_exists.mp (hinp.dom v hv)
      rw [← Option.some.inj ((hstt.grows v x hx).symm.trans hw)]
      exact hx
    | state => exact hstt.mem w
  · rcases hstt.map v w hw with hw | ⟨hv, hkept⟩
    · exact (hinp.map v w hw).imp_right fun h => ⟨⟨.input, h.1⟩, h.2⟩
    · exact .inr ⟨⟨.state, hv⟩, hkept⟩
  · cases k with
    | input =>
      obtain ⟨w, hw⟩ := Option.isSome_iff_exists.mp (hinp.dom v hv)
      exact Option.isSome_iff_exists.mpr ⟨w, hstt.grows v w hw⟩
    | state => exact hstt.dom v hv
  · exact congrArg (fun m => emplace m src.id s.1.id) (hstt.ilaMap.trans hinp.ilaMap)

theorem Recorded.met {seen : List IlaData} {s r : State} (h : Recorded t seen s) {src : IlaData} (hr : Met t src s r)
    (hid : r.1.id = s.1.id) (hinstrs : r.1.instrs = s.1.instrs) : Recorded t (seen ++ [src]) r := by
  refine ⟨hr.names, hr.origin, fun k w => ?_, fun v w hw => ?_, fun v => ⟨fun hv => ?_, ?_⟩, fun n hn => ?_, fun p q hq => ?_,
    hid.trans h.id, hinstrs.trans h.instrs⟩
  · rw [hr.vars, h.vars, or_assoc]
    refine or_congr_right ⟨?_, ?_⟩
    · rintro (⟨n, hn, v, hv, hw⟩ | ⟨v, hv, hw⟩)
      · exact ⟨n, List.mem_append_left _ hn, v, hv, hr.grows v w hw⟩
      · exact ⟨src, List.mem_append_right _ (List.mem_singleton_self _), v, hv, hw⟩
    · rintro ⟨n, hn, v, hv, hw⟩
      rcases List.mem_append.mp hn with hn | hn
      · obtain ⟨x, hx⟩ := Option.isSome_iff_exists.mp ((h.dom v).mpr ⟨n, hn, k, hv⟩)
        obtain rfl := Option.some.inj ((hr.grows v x hx).symm.trans hw)
        exact .inl ⟨n, hn, v, hv, hx⟩
      · rw [List.mem_singleton.mp hn] at hv
        exact .inr ⟨v, hv, hw⟩
  · exact (hr.map v w hw).elim (h.map v w) And.right
  · obtain ⟨w, hw⟩ := Option.isSome_iff_exists.mp hv
    rcases hr.map v w hw with hw | ⟨hk, -⟩
    · obtain ⟨n, hn, hk⟩ := (h.dom v).mp (Option.isSome_iff_exists.mpr ⟨w, hw⟩)
      exact ⟨n, List.mem_append_left _ hn, hk⟩
    · exact ⟨src, List.mem_append_right _ (List.mem_singleton_self _), hk⟩
  · rintro ⟨n, hn, k, hv⟩
    rcases List.mem_append.mp hn with hn | hn
    · obtain ⟨w, hw⟩ := Option.isSome_iff_exists.mp ((h.dom v).mpr ⟨n, hn, k, hv⟩)
      exact Option.isSome_iff_exists.mpr ⟨w, hr.grows v w hw⟩
    · rw [List.mem_singleton.mp hn] at hv
      exact hr.dom k v hv
  · rw [hr.ilaMap, h.id]
    rcases List.mem_append.mp hn with hn | hn
    · exact emplace_of_eq_some (h.ilas n hn)
    · rw [List.mem_singleton.mp hn]
      cases hq : s.2.ilaMap src.id with
      | some q => rw [emplace_of_some hq, hq, (h.onlyTop _ _ hq).1]
      | none => rw [emplace_of_none hq, Function.update_self]
  · rw [hr.ilaMap, h.id] at hq
    have hseen : s.2.ilaMap p = some q → q = t.data.id ∧ ∃ n ∈ seen ++ [src], n.id = p := by
      intro hold
      obtain ⟨hq, n, hn, hp⟩ := h.onlyTop p q hold
      exact ⟨hq, n, List.mem_append_left _ hn, hp⟩
    cases hsrc : s.2.ilaMap src.id with
    | some q' =>
      rw [emplace_of_some hsrc] at hq
      exact hseen hq
    | none =>
      rw [emplace_of_none hsrc] at hq
      by_cases hp : p = src.id
      · rw [hp, Function.update_self] at hq
        exact ⟨(Option.some.inj hq).symm, src, List.mem_append_right _ (List.mem_singleton_self _), hp.symm⟩
      · rw [Function.update_of_ne hp] at hq
        exact hseen hq

theorem Recorded.keepsSorts {seen : List IlaData} {s : State} (h : Recorded t seen s) : KeepsSorts s.2 :=
  fun v w hw => (h.map v w hw).sort

/-- The variables and the initial conditions that an ILA of the hierarchy brings. -/
structure Brings (t : Ila) (src : IlaData) : Prop where
  vars : ∀ k, ∀ v ∈ src.vars k, t.Has k v
  inits : ∀ e ∈ src.inits, e.check ≠ none

theorem noSignedRem_of_copyExpr {st : Copier} {e e' : Expr} (h : copyExpr st e = some e') : e.noSignedRem = true :=
  noSignedRem_of_rewrite (Option.join_eq_some_iff.mp h)

theorem record_isSome_iff {s : State} {src : IlaData} (hs : KeepsSorts (recordVars s src).2)
    (hsorted : ∀ e ∈ src.inits, e.check ≠ none) : (record s src).isSome ↔ ∀ e ∈ src.inits, e.noSignedRem = true := by
  rw [record, Option.isSome_map]
  constructor
  · intro h e he
    obtain ⟨es, hes⟩ := Option.isSome_iff_exists.mp h
    obtain ⟨e', he'⟩ := Option.isSome_iff_exists.mp (MapM.isSome_of_mem hes he)
    exact noSignedRem_of_copyExpr he'
  · intro h
    have hcopy : src.inits.mapM (copyExpr (recordVars s src).2) = some (src.inits.map (rename (recordVars s src).2.fn)) :=
      mapM_eq_map_iff.mpr fun e he => (copyExpr_iff hs (hsorted e he)).mpr ⟨h e he, fun _ _ => rfl⟩
    rw [hcopy]
    rfl

theorem record_eq {s r : State} {src : IlaData} (h : record s src = some r) :
    ∃ inits, r = ({ (recordVars s src).1 with inits := inits }, (recordVars s src).2) := by
  obtain ⟨es, -, rfl⟩ := Option.map_eq_some_iff.mp h
  exact ⟨_, rfl⟩

theorem vars_withInits (d : IlaData) (inits : List Expr) (k : Kind) : { d with inits := inits }.vars k = d.vars k := by
  cases k <;> rfl

theorem record_recorded (hnames : ∀ k v w, t.Has k v → t.Has k w → v.name = w.name → v = w)
    (hkinds : ∀ v k k', t.Has k v → t.Has k' v → k = k') {seen : List IlaData} {s r : State} (h : Recorded t seen s)
    {src : IlaData} (hsrc : Brings t src) (hseen : ∀ n ∈ seen, Brings t n) (hr : record s src = some r) :
    Recorded t (seen ++ [src]) r := by
  have hmet := recordVars_met hnames hkinds h hsrc.vars fun n hn => (hseen n hn).vars
  obtain ⟨inits, rfl⟩ := record_eq hr
  exact h.met (hmet.congr (vars_withInits _ inits) rfl) rfl rfl

theorem foldlM_record (hnames : ∀ k v w, t.Has k v → t.Has k w → v.name = w.name → v = w)
    (hkinds : ∀ v k k', t.Has k v → t.Has k' v → k = k') {ns seen : List IlaData} {s r : State} (h : Recorded t seen s)
    (hns : ∀ n ∈ ns, Brings t n) (hseen : ∀ n ∈ seen, Brings t n) (hr : ns.foldlM record s = some r) :
    Recorded t (seen ++ ns) r := by
  induction ns generalizing seen s with
  | nil =>
    rw [List.append_nil, ← Option.some.inj hr]
    exact h
  | cons n ns ih =>
    obtain ⟨hn, hns⟩ := List.forall_mem_cons.mp hns
    obtain ⟨s', hs', hr⟩ := Option.bind_eq_some_iff.mp hr
    have hrec := record_recorded hnames hkinds h hn hseen hs'
    have hseen' : ∀ m ∈ seen ++ [n], Brings t m := by
      rw [List.forall_mem_append, List.forall_mem_singleton]
      exact ⟨hseen, hn⟩
    have hdone := ih hrec hns hseen' hr
    rwa [List.append_assoc] at hdone

theorem foldlM_record_isSome_iff (hnames : ∀ k v w, t.Has k v → t.Has k w → v.name = w.name → v = w)
    (hkinds : ∀ v k k', t.Has k v → t.Has k' v → k = k') {ns seen : List IlaData} {s : State} (h : Recorded t seen s)
    (hns : ∀ n ∈ ns, Brings t n) (hseen : ∀ n ∈ seen, Brings t n) :
    (ns.foldlM record s).isSome ↔ ∀ n ∈ ns, ∀ e ∈ n.inits, e.noSignedRem = true := by
  induction ns generalizing seen s with
  | nil => exact ⟨fun _ _ hn => (List.not_mem_nil hn).elim, fun _ => rfl⟩
  | cons n ns ih =>
    obtain ⟨hn, hns⟩ := List.forall_mem_cons.mp hns
    have hmet := recordVars_met hnames hkinds h hn.vars fun n hn => (hseen n hn).vars
    have hstep := record_isSome_iff (h.met hmet rfl rfl).keepsSorts hn.inits
    rw [List.forall_mem_cons, ← hstep, List.foldlM_cons]
    cases hs' : record s n with
    | none => simp
    | some s' =>
      have hseen' : ∀ m ∈ seen ++ [n], Brings t m := by
        rw [List.forall_mem_append, List.forall_mem_singleton]
        exact ⟨hseen, hn⟩
      have hrest := ih (record_recorded hnames hkinds h hn hseen hs') hns hseen'
      exact hrest.trans ⟨fun h => ⟨rfl, h⟩, And.right⟩

theorem recorded_top {next : Nat} (hnames : ∀ k, ((t.data.vars k).map Var.name).Nodup) :
    Recorded t [] (t.data, ⟨next, fun _ => none, fun _ => none⟩) where
  names := hnames
  origin _ w hw := ⟨w, Ila.has_of_mem hw, rfl, rfl, fun _ _ => rfl⟩
  vars _ _ := by simp
  map _ _ h := by cases h
  dom _ := by simp
  ilas _ hn := by cases hn
  onlyTop _ _ h := by cases h
  id := rfl
  instrs := rfl

end Record

/-! ### The variables of the top -/

section Grown

variable {t : Ila} {base : Nat}

/-- The variables of the top are its own and new ones, with one name each. No input is a state. -/
structure Grown (t : Ila) (base : Nat) (s : State) : Prop where
  names : ∀ k, ((s.1.vars k).map Var.name).Nodup
  next : base ≤ s.2.next
  below : ∀ k, ∀ w ∈ s.1.vars k, w.id < s.2.next
  origin : ∀ k, ∀ w ∈ s.1.vars k, w ∈ t.data.vars k ∨ base ≤ w.id
  apart : ∀ w ∈ s.1.inputs, w ∉ s.1.states

theorem duplVars_new (host : String) (vs ds : List Var) (st : Copier) :
    ∃ new, (duplVars host vs ds st).1 = ds ++ new ∧ st.next ≤ (duplVars host vs ds st).2.next ∧
      (∀ w ∈ new, st.next ≤ w.id ∧ w.id < (duplVars host vs ds st).2.next) ∧
      ((ds.map Var.name).Nodup → ((ds ++ new).map Var.name).Nodup) := by
  induction vs generalizing ds st with
  | nil => exact ⟨[], by rw [List.append_nil, duplVars], le_rfl, List.forall_mem_nil _, fun h => by rwa [List.append_nil]⟩
  | cons v vs ih =>
    rw [duplVars]
    cases hfind : ds.find? fun w => w.name = v.name with
    | some w => exact ih ds { st with exprMap := emplace st.exprMap v w }
    | none =>
      obtain ⟨new, heq, hnext, hids, hnames⟩ := ih (ds ++ [⟨st.next, v.name, some host, v.sort⟩])
        { st with next := st.next + 1, exprMap := emplace st.exprMap v ⟨st.next, v.name, some host, v.sort⟩ }
      refine ⟨⟨st.next, v.name, some host, v.sort⟩ :: new, ?_, Nat.le_of_succ_le hnext, ?_, fun hds => ?_⟩
      · rw [heq, List.append_assoc, List.singleton_append]
      · rw [List.forall_mem_cons]
        exact ⟨⟨le_rfl, hnext⟩, fun w hw => ⟨Nat.le_of_succ_le (hids w hw).1, (hids w hw).2⟩⟩
      · rw [← List.singleton_append, ← List.append_assoc]
        refine hnames ?_
        rw [List.map_append, List.nodup_append]
        refine ⟨hds, List.nodup_singleton _, fun a ha b hb hab => ?_⟩
        obtain ⟨w, hw, rfl⟩ := List.mem_map.mp ha
        have hfree : w.name ≠ v.name := by simpa using List.find?_eq_none.mp hfind w hw
        exact hfree (hab.trans (List.mem_singleton.mp hb))

theorem grown_recordVars {s : State} (h : Grown t base s) (src : IlaData) : Grown t base (recordVars s src) := by
  obtain ⟨inps, hinps, hnext, hids, hnames⟩ := duplVars_new s.1.rootName src.inputs s.1.inputs s.2
  obtain ⟨stts, hstts, hnext', hids', hnames'⟩ := duplVars_new s.1.rootName src.states s.1.states
    (duplVars s.1.rootName src.inputs s.1.inputs s.2).2
  have hbelow : ∀ w ∈ s.1.inputs ++ inps, w.id < (duplVars s.1.rootName src.inputs s.1.inputs s.2).2.next := by
    rw [List.forall_mem_append]
    exact ⟨fun w hw => (h.below .input w hw).trans_le hnext, fun w hw => (hids w hw).2⟩
  have hbase := h.next.trans hnext
  have hin : (recordVars s src).1.inputs = s.1.inputs ++ inps := hinps
  have hstt : (recordVars s src).1.states = s.1.states ++ stts := hstts
  refine ⟨fun k => ?_, hbase.trans hnext', fun k w hw => ?_, fun k w hw => ?_, fun w hw hs => ?_⟩
  · cases k with
    | input =>
      rw [IlaData.vars, hin]
      exact hnames (h.names .input)
    | state =>
      rw [IlaData.vars, hstt]
      exact hnames' (h.names .state)
  · cases k with
    | input =>
      rw [IlaData.vars, hin] at hw
      exact (hbelow w hw).trans_le hnext'
    | state =>
      rw [IlaData.vars, hstt] at hw
      rcases List.mem_append.mp hw with hw | hw
      · exact ((h.below .state w hw).trans_le hnext).trans_le hnext'
      · exact (hids' w hw).2
  · cases k with
    | input =>
      rw [IlaData.vars, hin] at hw
      rcases List.mem_append.mp hw with hw | hw
      · exact h.origin .input w hw
      · exact .inr (h.next.trans (hids w hw).1)
    | state =>
      rw [IlaData.vars, hstt] at hw
      rcases List.mem_append.mp hw with hw | hw
      · exact h.origin .state w hw
      · exact .inr (hbase.trans (hids' w hw).1)
  -- a new input has an identity that no older state has, and a new state one that no input has
  · rw [hin] at hw
    rw [hstt] at hs
    rcases List.mem_append.mp hs with hs | hs
    · rcases List.mem_append.mp hw with hw | hw
      · exact h.apart w hw hs
      · exact absurd (h.below .state w hs) (Nat.not_lt.mpr (hids w hw).1)
    · exact absurd (hbelow w hw) (Nat.not_lt.mpr (hids' w hs).1)

theorem grown_record {s r : State} (h : Grown t base s) {src : IlaData} (hr : record s src = some r) : Grown t base r := by
  obtain ⟨inits, rfl⟩ := record_eq hr
  obtain ⟨hnames, hnext, hbelow, horigin, hapart⟩ := grown_recordVars h src
  refine ⟨fun k => ?_, hnext, fun k => ?_, fun k => ?_, hapart⟩
  · rw [vars_withInits]
    exact hnames k
  · rw [vars_withInits]
    exact hbelow k
  · rw [vars_withInits]
    exact horigin k

theorem grown_foldlM {ns : List IlaData} {s r : State} (h : Grown t base s) (hr : ns.foldlM record s = some r) :
    Grown t base r := by
  induction ns generalizing s with
  | nil => exact Option.some.inj hr ▸ h
  | cons n ns ih =>
    obtain ⟨s', hs', hr⟩ := Option.bind_eq_some_iff.mp hr
    exact ih (grown_record h hs') hr

end Grown

/-! ### The second visit -/

theorem foldlM_flatInstr {f : Var → Var} {g : Nat → Nat} {is : List Instr} {s : State} (hs : KeepsSorts s.2)
    (hproper : ∀ i ∈ is, i.Proper) (hok : ∀ i ∈ is, InstrOk s.2 f g i)
    (hnames : ((s.1.instrs ++ is).map Instr.name).Nodup) :
    ∃ r js, is.foldlM flatInstr s = some r ∧ r.1 = { s.1 with instrs := s.1.instrs ++ js } ∧
      List.Forall₂ (InstrImage f g) is js := by
  induction is generalizing s with
  | nil => exact ⟨s, [], rfl, by rw [List.append_nil], .nil⟩
  | cons i is ih =>
    obtain ⟨hi, hproper⟩ := List.forall_mem_cons.mp hproper
    obtain ⟨hiok, hok⟩ := List.forall_mem_cons.mp hok
    obtain ⟨j, hj, himage⟩ := (copyInstr_iff hs hi s.2.next s.1.instrs.length).mpr hiok
    have hfree : j.name ∉ s.1.instrs.map Instr.name := by
      rw [List.map_append, List.nodup_append] at hnames
      intro hmem
      exact hnames.2.2 _ hmem _ (List.mem_map_of_mem List.mem_cons_self) himage.name
    have hadd : s.1.addInstr j = { s.1 with instrs := s.1.instrs ++ [j] } := by
      rw [IlaData.addInstr, KeyVec.pushBack_of_notMem hfree]
    have hnext : (((s.1.addInstr j).instrs ++ is).map Instr.name).Nodup := by
      rw [hadd]
      simpa [himage.name] using hnames
    -- making an instruction leaves the maps alone
    obtain ⟨r, js, hr, heq, hjs⟩ := @ih (s.1.addInstr j, { s.2 with next := s.2.next + 1 }) hs hproper
      (fun x hx => ⟨(hok x hx).decode, (hok x hx).renames, (hok x hx).program⟩) hnext
    refine ⟨r, j :: js, ?_, ?_, .cons himage hjs⟩
    · rw [List.foldlM_cons, flatInstr, hj]
      exact hr
    · rw [heq, hadd]
      simp

/-! ### Flattening -/

section Hierarchy

variable {h : Hierarchy} {s : State}

theorem has_kind (hwf : h.top.WellFormed h.next) {v : Var} {k k' : Kind} (hk : h.top.Has k v) (hk' : h.top.Has k' v) : k = k' := by
  cases k with
  | input =>
    cases k' with
    | input => rfl
    | state => exact absurd hk' (hwf.kinds v hk)
  | state =>
    cases k' with
    | input => exact absurd hk (hwf.kinds v hk')
    | state => rfl

theorem brings_of_below (hwf : h.top.WellFormed h.next) : ∀ d ∈ Ila.postOrderList h.top.childs, Brings h.top d := by
  intro d hd
  obtain ⟨n, hn, rfl⟩ := Ila.mem_postOrderList.mp hd
  have hbelow := Ila.mem_preOrder_of_below hn
  refine ⟨fun k v hv => ⟨n, hbelow, hv⟩, fun e he => ?_⟩
  exact (hwf.proper n hbelow).sorted e (List.mem_append_left _ (List.mem_append_left _ he))

theorem mem_instrsBelow {t : Ila} {i : Instr} : i ∈ instrsBelow t ↔ ∃ n ∈ Ila.preOrderList t.childs, i ∈ n.data.instrs :=
  List.mem_flatMap

theorem proper_of_below (hwf : h.top.WellFormed h.next) : ∀ i ∈ instrsBelow h.top, i.Proper := by
  intro i hi
  obtain ⟨n, hn, hin⟩ := mem_instrsBelow.mp hi
  exact (hwf.proper n (Ila.mem_preOrder_of_below hn)).instr i hin

/-- What the first visit leaves. -/
abbrev FirstVisit (h : Hierarchy) (s : State) : Prop :=
  (Ila.postOrderList h.top.childs).foldlM record (h.top.data, ⟨h.next, fun _ => none, fun _ => none⟩) = some s

theorem FirstVisit.recorded (hwf : h.top.WellFormed h.next)
    (hnames : ∀ k v w, h.top.Has k v → h.top.Has k w → v.name = w.name → v = w) (hs : FirstVisit h s) :
    Recorded h.top (Ila.postOrderList h.top.childs) s := by
  have hrec := foldlM_record hnames (fun v k k' => has_kind hwf)
    (@recorded_top h.top h.next (hwf.shares _ h.top.mem_preOrder_self).names) (brings_of_below hwf) (List.forall_mem_nil _) hs
  rwa [List.nil_append] at hrec

theorem FirstVisit.grown (hwf : h.top.WellFormed h.next) (hs : FirstVisit h s) : Grown h.top h.next s := by
  refine grown_foldlM ⟨(hwf.shares _ h.top.mem_preOrder_self).names, le_rfl, fun k w hw => ?_, fun k w hw => .inl hw,
    fun w hw hs => ?_⟩ hs
  · exact hwf.varId k w (Ila.has_of_mem hw)
  · exact hwf.kinds w (@Ila.has_of_mem h.top .input w hw) (@Ila.has_of_mem h.top .state w hs)

theorem FirstVisit.isSome_iff (hwf : h.top.WellFormed h.next)
    (hnames : ∀ k v w, h.top.Has k v → h.top.Has k w → v.name = w.name → v = w) :
    (∃ s, FirstVisit h s) ↔ ∀ n ∈ Ila.preOrderList h.top.childs, ∀ e ∈ n.data.inits, e.noSignedRem = true := by
  have hiff := foldlM_record_isSome_iff hnames (fun v k k' => has_kind hwf)
    (@recorded_top h.top h.next (hwf.shares _ h.top.mem_preOrder_self).names) (brings_of_below hwf) (List.forall_mem_nil _)
  refine Option.isSome_iff_exists.symm.trans (hiff.trans ⟨fun hall n hn => ?_, fun hall d hd => ?_⟩)
  · exact hall n.data (Ila.mem_postOrderList.mpr ⟨n, hn, rfl⟩)
  · obtain ⟨n, hn, rfl⟩ := Ila.mem_postOrderList.mp hd
    exact hall n hn

theorem Recorded.varsFlat (hwf : h.top.WellFormed h.next)
    (hnames : ∀ k v w, h.top.Has k v → h.top.Has k w → v.name = w.name → v = w)
    (hrec : Recorded h.top (Ila.postOrderList h.top.childs) s) (hgrown : Grown h.top h.next s) : VarsFlat h.top s.1 s.2.fn := by
  have hkept : ∀ v, Kept h.top v (s.2.fn v) := by
    intro v
    rw [Copier.fn]
    cases hv : s.2.exprMap v with
    | none => exact ⟨rfl, rfl, fun _ _ => rfl⟩
    | some w => exact hrec.map v w hv
  have hvars : ∀ k w, w ∈ s.1.vars k ↔ ∃ v, h.top.Has k v ∧ w = s.2.fn v := by
    intro k w
    rw [hrec.vars]
    constructor
    · rintro (hw | ⟨d, hd, v, hv, hvw⟩)
      · exact ⟨w, Ila.has_of_mem hw, ((hkept w).top k hw).symm⟩
      · exact ⟨v, (brings_of_below hwf d hd).vars k v hv, by rw [Copier.fn, hvw, Option.getD_some]⟩
    · rintro ⟨v, ⟨n, hn, hv⟩, rfl⟩
      rcases Ila.mem_preOrder_iff.mp hn with rfl | hn
      · rw [(hkept v).top k hv]
        exact .inl hv
      · have hd : n.data ∈ Ila.postOrderList h.top.childs := Ila.mem_postOrderList.mpr ⟨n, hn, rfl⟩
        obtain ⟨w, hw⟩ := Option.isSome_iff_exists.mp ((hrec.dom v).mpr ⟨n.data, hd, k, hv⟩)
        exact .inr ⟨n.data, hd, v, hv, by rw [Copier.fn, hw, Option.getD_some]⟩
  have hmem : ∀ {k v}, h.top.Has k v → s.2.fn v ∈ s.1.vars k := fun hv => (hvars _ _).mpr ⟨_, hv, rfl⟩
  refine ⟨?_, fun v _ => ⟨(hkept v).name, (hkept v).sort⟩, fun k v hv => (hkept v).top k hv, fun v hv => ?_, hvars,
    fun k => .of_map _ (hrec.names k)⟩
  · rintro v w ⟨k, hv⟩ ⟨k', hw⟩ hvw
    have hname : v.name = w.name := (hkept v).name.symm.trans ((congrArg Var.name hvw).trans (hkept w).name)
    have hvk := hmem hv
    have hwk := hmem hw
    rw [hvw] at hvk
    -- no input of the top is a state of the top
    obtain rfl : k = k' := by
      cases k with
      | input =>
        cases k' with
        | input => rfl
        | state => exact absurd hwk (hgrown.apart _ hvk)
      | state =>
        cases k' with
        | input => exact absurd hvk (hgrown.apart _ hwk)
        | state => rfl
    exact hnames k v w hv hw hname
  · have hnone : s.2.exprMap v = none := by
      by_contra hsome
      obtain ⟨d, hd, k, hk⟩ := (hrec.dom v).mp (Option.isSome_iff_ne_none.mpr hsome)
      exact hv ⟨k, (brings_of_below hwf d hd).vars k v hk⟩
    rw [Copier.fn, hnone, Option.getD_none]

theorem VarsFlat.congr {t : Ila} {d d' : IlaData} {f : Var → Var} (h : VarsFlat t d f) (hvars : ∀ k, d'.vars k = d.vars k) :
    VarsFlat t d' f := by
  refine ⟨h.inj, h.kept, h.top, h.outside, fun k => ?_, fun k => ?_⟩
  · rw [hvars]
    exact h.vars k
  · rw [hvars]
    exact h.once k

variable {name : String} {calls : List (List Nat × Call)}

/-- A hierarchy that was built by calls, with names that tell its variables and its instructions apart, is flattened: the top
gets each variable and each instruction once. The decode of an instruction is the image of its own decode, and so are its
updates. -/
theorem flattenIla_isFlat (hrun : (Hierarchy.new name).run calls = some h) (hflat : Flattenable h.top) :
    ∃ d, flattenIla h = some (.mk d h.top.childs) ∧ ∃ f, IsFlat h.top d f := by
  have hwf : h.top.WellFormed h.next := Hierarchy.wellFormed_run hrun (Hierarchy.wellFormed_new name)
  obtain ⟨s, hs⟩ := (FirstVisit.isSome_iff hwf hflat.varNames).mpr fun n hn e he =>
    hflat.noSignedRem n hn e (List.mem_append_left _ he)
  have hrec := FirstVisit.recorded hwf hflat.varNames hs
  have hok : ∀ i ∈ instrsBelow h.top, InstrOk s.2 s.2.fn (fun _ => h.top.data.id) i := by
    intro i hi
    obtain ⟨n, hn, hin⟩ := mem_instrsBelow.mp hi
    refine ⟨hflat.decode i hi, fun e he => ⟨?_, fun _ _ => rfl⟩, fun p hp => ?_⟩
    · exact hflat.noSignedRem n hn e (List.mem_append_right _ (List.mem_flatMap.mpr ⟨i, hin, he⟩))
    · obtain ⟨m, hm, rfl⟩ := hflat.linked i hi p hp
      exact hrec.ilas _ (Ila.mem_postOrderList.mpr ⟨m, hm, rfl⟩)
  obtain ⟨r, js, hr, heq, hjs⟩ := foldlM_flatInstr hrec.keepsSorts (proper_of_below hwf) hok
    (by rw [hrec.instrs]; exact hflat.instrNames)
  have hvars : ∀ k, r.1.vars k = s.1.vars k := by
    intro k
    rw [heq]
    cases k <;> rfl
  refine ⟨r.1, ?_, s.2.fn, (hrec.varsFlat hwf hflat.varNames (FirstVisit.grown hwf hs)).congr hvars, js, ?_, hjs⟩
  · rw [flattenIla, hs, Option.bind_some, hr, Option.map_some]
  · rw [heq, hrec.instrs]

end Hierarchy

end Flatten

end Ilang
