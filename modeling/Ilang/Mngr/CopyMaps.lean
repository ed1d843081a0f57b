import Ilang.Mngr.CopyTree

/-!
# The maps of the copier

When every child has the variables of its parent, the copier finds in the new ILA exactly the copies of the
variables that were met before, and makes new ones for the others. `Tracks` says which variables and ILAs
are mapped after some of the ILAs have been visited, and `Awaits` what the next one finds.
-/

namespace Ilang

namespace CopyTree

section Emplace

variable {α β : Type} [DecidableEq α] {m : α → Option β} {a : α} {b : β}

theorem emplace_of_some {c : β} (h : m a = some c) : emplace m a b = m := by
  simp only [emplace, h]

theorem emplace_of_none (h : m a = none) : emplace m a b = Function.update m a (some b) := by
  simp only [emplace, h]

theorem emplace_isSome (x : α) : (emplace m a b x).isSome ↔ (m x).isSome ∨ x = a := by
  cases h : m a with
  | some c =>
    rw [emplace_of_some h]
    refine ⟨.inl, ?_⟩
    rintro (hx | rfl)
    · exact hx
    · rw [h]
      rfl
  | none =>
    rw [emplace_of_none h]
    by_cases hx : x = a
    · simp [hx]
    · simp [hx]

theorem emplace_of_eq_some {x : α} {c : β} (h : m x = some c) : emplace m a b x = some c := by
  cases ha : m a with
  | some d => rwa [emplace_of_some ha]
  | none =>
    have hx : x ≠ a := by
      rintro rfl
      rw [ha] at h
      cases h
    rwa [emplace_of_none ha, Function.update_of_ne hx]

theorem emplace_self (h : ∀ c, m a = some c → c = b) : emplace m a b a = some b := by
  cases ha : m a with
  | some c => rw [emplace_of_some ha, ha, h c ha]
  | none => rw [emplace_of_none ha, Function.update_self]

theorem eq_some_of_emplace (h : ∀ c, m a = some c → c = b) {x : α} {c : β} (hx : emplace m a b x = some c) :
    m x = some c ∨ x = a ∧ c = b := by
  by_cases hxa : x = a
  · rw [hxa, emplace_self h] at hx
    exact .inr ⟨hxa, (Option.some.inj hx).symm⟩
  · refine .inl ?_
    cases ha : m a with
    | some d => rwa [emplace_of_some ha] at hx
    | none => rwa [emplace_of_none ha, Function.update_of_ne hxa] at hx

end Emplace

/-- One map has the entries of another. -/
def Extends {α β : Type} (m m' : α → Option β) : Prop := ∀ a b, m a = some b → m' a = some b

theorem Extends.trans {α β : Type} {m m' m'' : α → Option β} (h : Extends m m') (h' : Extends m' m'') :
    Extends m m'' := fun a b hab => h' a b (h a b hab)

/-- The variables of the map go to new variables of their name and sort, and not two to one. -/
structure Fresh (base : Nat) (st : Copier) : Prop where
  image : ∀ v w, st.exprMap v = some w → w.name = v.name ∧ w.sort = v.sort ∧ base ≤ w.id ∧ w.id < st.next
  inj : ∀ v v' w, st.exprMap v = some w → st.exprMap v' = some w → v = v'
  ila : ∀ p q, st.ilaMap p = some q → q < st.next
  ilaInj : ∀ p p' q, st.ilaMap p = some q → st.ilaMap p' = some q → p = p'
  base_le : base ≤ st.next

/-- What `DuplInp` and `DuplStt` leave behind. -/
structure Duplicated (base : Nat) (vs ds : List Var) (st : Copier) (r : List Var × Copier) : Prop where
  fresh : Fresh base r.2
  extends_ : Extends st.exprMap r.2.exprMap
  dom : ∀ v, (r.2.exprMap v).isSome ↔ (st.exprMap v).isSome ∨ v ∈ vs
  names : (r.1.map Var.name).Nodup
  vars : ∀ w, w ∈ r.1 ↔ w ∈ ds ∨ ∃ v ∈ vs, r.2.exprMap v = some w
  ilaMap : r.2.ilaMap = st.ilaMap

section Duplicated

variable {base : Nat} {st : Copier} {v w : Var} {vs ds : List Var} {r : List Var × Copier}

/-- A variable that is not mapped gets a new one. -/
theorem Fresh.made (hst : Fresh base st) (hname : w.name = v.name) (hsort : w.sort = v.sort) (hid : w.id = st.next) :
    Fresh base { st with next := st.next + 1, exprMap := Function.update st.exprMap v (some w) } := by
  have hget : ∀ u x, Function.update st.exprMap v (some w) u = some x → st.exprMap u = some x ∨ (u = v ∧ x = w) := by
    intro u x hux
    by_cases hu : u = v
    · subst hu
      rw [Function.update_self, Option.some.injEq] at hux
      exact .inr ⟨rfl, hux.symm⟩
    · rw [Function.update_of_ne hu] at hux
      exact .inl hux
  have hold : ∀ u, st.exprMap u ≠ some w := by
    intro u hu
    have hlt := (hst.image u w hu).2.2.2
    omega
  refine ⟨fun u x hux => ?_, fun u u' x hux hux' => ?_, fun p q hpq => Nat.lt_succ_of_lt (hst.ila p q hpq), hst.ilaInj,
    Nat.le_succ_of_le hst.base_le⟩
  · rcases hget u x hux with hux | ⟨rfl, rfl⟩
    · obtain ⟨h1, h2, h3, h4⟩ := hst.image u x hux
      exact ⟨h1, h2, h3, Nat.lt_succ_of_lt h4⟩
    · exact ⟨hname, hsort, hid ▸ hst.base_le, hid ▸ Nat.lt_succ_self _⟩
  · rcases hget u x hux with hu | ⟨rfl, rfl⟩
    · rcases hget u' x hux' with hu' | ⟨-, rfl⟩
      · exact hst.inj u u' x hu hu'
      · exact absurd hu (hold u)
    · rcases hget u' x hux' with hu' | ⟨rfl, -⟩
      · exact absurd hu' (hold u')
      · rfl

/-- The copy of a variable that was met before stands in the list. -/
theorem Duplicated.met (h : Duplicated base vs ds st r) (hv : st.exprMap v = some w) (hw : w ∈ ds) :
    Duplicated base (v :: vs) ds st r := by
  have hmap : r.2.exprMap v = some w := h.extends_ v w hv
  refine ⟨h.fresh, h.extends_, fun u => ?_, h.names, fun x => ?_, h.ilaMap⟩
  · rw [h.dom, List.mem_cons]
    constructor
    · rintro (hu | hu)
      · exact .inl hu
      · exact .inr (.inr hu)
    · rintro (hu | rfl | hu)
      · exact .inl hu
      · exact .inl (by simp [hv])
      · exact .inr hu
  · rw [h.vars]
    constructor
    · rintro (hx | ⟨u, hu, hux⟩)
      · exact .inl hx
      · exact .inr ⟨u, List.mem_cons_of_mem v hu, hux⟩
    · rintro (hx | ⟨u, hu, hux⟩)
      · exact .inl hx
      · rcases List.mem_cons.mp hu with rfl | hu
        · rw [hmap] at hux
          rw [← Option.some.inj hux]
          exact .inl hw
        · exact .inr ⟨u, hu, hux⟩

/-- The copy of a variable that was not met is put behind the list. -/
theorem Duplicated.made (h : Duplicated base vs (ds ++ [w])
    { st with next := st.next + 1, exprMap := Function.update st.exprMap v (some w) } r) (hv : st.exprMap v = none) :
    Duplicated base (v :: vs) ds st r := by
  have hmap : r.2.exprMap v = some w := h.extends_ v w (Function.update_self ..)
  refine ⟨h.fresh, fun u x hux => h.extends_ u x ?_, fun u => ?_, h.names, fun x => ?_, h.ilaMap⟩
  · have hu : u ≠ v := by
      rintro rfl
      rw [hv] at hux
      cases hux
    exact (Function.update_of_ne hu ..).trans hux
  · rw [h.dom, List.mem_cons]
    by_cases hu : u = v
    · simp [hu]
    · simp [hu]
  · rw [h.vars, List.mem_append, List.mem_singleton, or_assoc]
    refine or_congr_right ⟨?_, ?_⟩
    · rintro (rfl | ⟨u, hu, hux⟩)
      · exact ⟨v, List.mem_cons_self, hmap⟩
      · exact ⟨u, List.mem_cons_of_mem v hu, hux⟩
    · rintro ⟨u, hu, hux⟩
      rcases List.mem_cons.mp hu with rfl | hu
      · exact .inl (Option.some.inj (hux.symm.trans hmap))
      · exact .inr ⟨u, hu, hux⟩

end Duplicated

theorem duplVars_spec {base : Nat} {host : String} {vs ds : List Var} {st : Copier} (hst : Fresh base st)
    (hvs : (vs.map Var.name).Nodup) (hds : (ds.map Var.name).Nodup)
    (hold : ∀ v ∈ vs, ∀ w, st.exprMap v = some w → w ∈ ds)
    (hnew : ∀ v ∈ vs, st.exprMap v = none → v.name ∉ ds.map Var.name) :
    Duplicated base vs ds st (duplVars host vs ds st) := by
  induction vs generalizing ds st with
  | nil => exact ⟨hst, fun _ _ h => h, by simp [duplVars], hds, by simp [duplVars], rfl⟩
  | cons v vs ih =>
    rw [List.map_cons, List.nodup_cons] at hvs
    cases hv : st.exprMap v with
    | some w =>
      have hw : w ∈ ds := hold v List.mem_cons_self w hv
      have hname : w.name = v.name := (hst.image v w hv).1
      obtain ⟨w', hw'⟩ : ∃ w', ds.find? (fun w => w.name = v.name) = some w' :=
        Option.isSome_iff_exists.mp (List.find?_isSome.mpr ⟨w, hw, decide_eq_true hname⟩)
      have hdup : duplVars host (v :: vs) ds st = duplVars host vs ds st := by
        rw [duplVars, hw']
        simp only [emplace_of_some hv]
      rw [hdup]
      exact (ih hst hvs.2 hds (fun u hu => hold u (List.mem_cons_of_mem v hu))
        fun u hu => hnew u (List.mem_cons_of_mem v hu)).met hv hw
    | none =>
      have hfree := hnew v List.mem_cons_self hv
      have hfind : ds.find? (fun w => w.name = v.name) = none := by
        rw [List.find?_eq_none]
        intro w hw hname
        exact hfree (List.mem_map.mpr ⟨w, hw, by simpa using hname⟩)
      let w : Var := ⟨st.next, v.name, some host, v.sort⟩
      let st' : Copier := { st with next := st.next + 1, exprMap := Function.update st.exprMap v (some w) }
      have hdup : duplVars host (v :: vs) ds st = duplVars host vs (ds ++ [w]) st' := by
        rw [duplVars, hfind]
        simp only [emplace_of_none hv]
        rfl
      have hother : ∀ u ∈ vs, st'.exprMap u = st.exprMap u := by
        intro u hu
        refine Function.update_of_ne ?_ ..
        rintro rfl
        exact hvs.1 (List.mem_map_of_mem hu)
      have hfresh : Fresh base st' := Fresh.made (w := w) hst rfl rfl rfl
      rw [hdup]
      refine (ih hfresh hvs.2 ?_ (fun u hu x hux => ?_) fun u hu hnone => ?_).made hv
      · rw [List.map_append, List.nodup_append]
        refine ⟨hds, by simp, ?_⟩
        simp only [List.map_cons, List.map_nil, List.mem_singleton]
        rintro x hx y rfl rfl
        exact hfree hx
      · rw [hother u hu] at hux
        exact List.mem_append_left _ (hold u (List.mem_cons_of_mem v hu) x hux)
      · rw [hother u hu] at hnone
        rw [List.map_append, List.mem_append, not_or]
        refine ⟨hnew u (List.mem_cons_of_mem v hu) hnone, ?_⟩
        simp only [List.map_cons, List.map_nil, List.mem_singleton]
        intro hname
        exact hvs.1 (hname ▸ List.mem_map_of_mem hu)

/-- What the calls of `NewChild` leave behind. -/
structure NewChilds (base : Nat) (dst : IlaData) (cs : List Ila) (st : Copier) (r : List IlaData × Copier) : Prop where
  fresh : Fresh base r.2
  exprMap : r.2.exprMap = st.exprMap
  extends_ : Extends st.ilaMap r.2.ilaMap
  dom : ∀ p, (r.2.ilaMap p).isSome ↔ (st.ilaMap p).isSome ∨ ∃ c ∈ cs, c.data.id = p
  kids : List.Forall₂ (fun c kid => kid = dst.newChild kid.id c.data.name ∧ r.2.ilaMap c.data.id = some kid.id) cs r.1

theorem newChilds_spec {base : Nat} {dst : IlaData} {cs : List Ila} {st : Copier} (hst : Fresh base st)
    (hids : (cs.map fun c => c.data.id).Nodup) (hnew : ∀ c ∈ cs, st.ilaMap c.data.id = none) :
    NewChilds base dst cs st (newChilds dst cs st) := by
  induction cs generalizing st with
  | nil => exact ⟨hst, rfl, fun _ _ h => h, by simp [newChilds], .nil⟩
  | cons c cs ih =>
    rw [List.map_cons, List.nodup_cons] at hids
    have hc : st.ilaMap c.data.id = none := hnew c List.mem_cons_self
    let st' : Copier := { st with next := st.next + 1, ilaMap := emplace st.ilaMap c.data.id st.next }
    have hget : ∀ p q, st'.ilaMap p = some q → st.ilaMap p = some q ∨ (p = c.data.id ∧ q = st.next) := by
      intro p q hpq
      simp only [st', emplace_of_none hc] at hpq
      by_cases hp : p = c.data.id
      · right
        rw [hp, Function.update_self, Option.some.injEq] at hpq
        exact ⟨hp, hpq.symm⟩
      · left
        rwa [Function.update_of_ne hp] at hpq
    have hfresh : Fresh base st' := by
      refine ⟨fun v w hvw => ?_, hst.inj, fun p q hpq => ?_, fun p p' q hpq hpq' => ?_, Nat.le_succ_of_le hst.base_le⟩
      · obtain ⟨h1, h2, h3, h4⟩ := hst.image v w hvw
        exact ⟨h1, h2, h3, Nat.lt_succ_of_lt h4⟩
      · rcases hget p q hpq with hold | ⟨-, rfl⟩
        · exact Nat.lt_succ_of_lt (hst.ila p q hold)
        · exact Nat.lt_succ_self _
      · rcases hget p q hpq with hold | ⟨hp, hq⟩
        · rcases hget p' q hpq' with hold' | ⟨-, hq⟩
          · exact hst.ilaInj p p' q hold hold'
          · have := hst.ila p q hold
            omega
        · rcases hget p' q hpq' with hold' | ⟨hp', -⟩
          · have := hst.ila p' q hold'
            omega
          · rw [hp, hp']
    have hrest := ih hfresh hids.2 fun x hx => by
      cases hxq : st'.ilaMap x.data.id with
      | none => rfl
      | some q =>
        rcases hget _ q hxq with hold | ⟨heq, -⟩
        · rw [hnew x (List.mem_cons_of_mem c hx)] at hold
          cases hold
        · exact absurd (heq ▸ List.mem_map_of_mem (f := fun c : Ila => c.data.id) hx) hids.1
    have hself : st'.ilaMap c.data.id = some st.next := by simp [st', emplace_of_none hc]
    refine ⟨hrest.fresh, hrest.exprMap, fun p q hpq => hrest.extends_ p q (emplace_of_eq_some hpq), fun p => ?_,
      .cons ⟨rfl, hrest.extends_ _ _ hself⟩ hrest.kids⟩
    have hdom : (st'.ilaMap p).isSome ↔ (st.ilaMap p).isSome ∨ c.data.id = p :=
      (emplace_isSome p).trans (or_congr_right eq_comm)
    rw [newChilds, hrest.dom, hdom]
    simp only [List.mem_cons, or_and_right, exists_or, exists_eq_left, or_assoc]

/-- The maps after some ILAs of a tree have been visited. -/
structure Tracks (base root : Nat) (seen : List Ila) (st : Copier) : Prop where
  fresh : Fresh base st
  dom : ∀ v, (st.exprMap v).isSome ↔ ∃ n ∈ seen, ∃ k, v ∈ n.data.vars k
  ilas : ∀ p, (st.ilaMap p).isSome ↔ p = root ∨ ∃ n ∈ seen, ∃ c ∈ n.childs, c.data.id = p

/-- What is used of a well-formed tree, down to each of its subtrees. -/
structure Sound (t : Ila) : Prop where
  shares : ∀ n ∈ t.preOrder, n.Shares
  proper : ∀ n ∈ t.preOrder, n.Proper
  kinds : ∀ v, t.Has .input v → ¬t.Has .state v
  ids : (t.preOrder.map fun n => n.data.id).Nodup

/-- An ILA that is to be visited next: its new ILA has the copies of the variables of its parent, no other
variable of its subtree has been met, and no ILA below it has a copy. -/
structure Awaits (P : Kind → List Var) (src : Ila) (dst : IlaData) (st : Copier) : Prop where
  inherited : ∀ k, ∀ v ∈ P k, v ∈ src.data.vars k
  mapped : ∀ k, ∀ v ∈ P k, (st.exprMap v).isSome
  old : ∀ k v, src.Has k v → (st.exprMap v).isSome → v ∈ P k
  names : ∀ k, ((dst.vars k).map Var.name).Nodup
  vars : ∀ k w, w ∈ dst.vars k ↔ ∃ v ∈ P k, st.exprMap v = some w
  ilas : ∀ n ∈ Ila.preOrderList src.childs, st.ilaMap n.data.id = none
  self : st.ilaMap src.data.id = some dst.id
  instrSeq : dst.instrSeq = []

/-- What an ILA looks like when its variables and its children are there. -/
structure Entered (base root : Nat) (seen : List Ila) (src : Ila) (dst : IlaData) (st : Copier)
    (r : IlaData × List IlaData × Copier) : Prop where
  tracks : Tracks base root (seen ++ [src]) r.2.2
  exprMap : Extends st.exprMap r.2.2.exprMap
  ilaMap : Extends st.ilaMap r.2.2.ilaMap
  data : r.1 = { dst with inputs := r.1.inputs, states := r.1.states }
  names : ∀ k, ((r.1.vars k).map Var.name).Nodup
  vars : ∀ k w, w ∈ r.1.vars k ↔ ∃ v ∈ src.data.vars k, r.2.2.exprMap v = some w
  kids : List.Forall₂ (fun c kid => kid = r.1.newChild kid.id c.data.name ∧ r.2.2.ilaMap c.data.id = some kid.id)
    src.childs r.2.1

theorem exists_kind {P : Kind → Prop} : (∃ k, P k) ↔ P .input ∨ P .state := by
  constructor
  · rintro ⟨k, hk⟩
    cases k with
    | input => exact .inl hk
    | state => exact .inr hk
  · rintro (hk | hk)
    · exact ⟨_, hk⟩
    · exact ⟨_, hk⟩

section Enter

variable {base root : Nat} {seen : List Ila} {P : Kind → List Var} {src : Ila} {dst : IlaData} {st : Copier}

theorem Awaits.duplicated (h : Awaits P src dst st) (hsrc : src.Shares) {st₁ : Copier} (hst : Fresh base st₁)
    (hext : Extends st.exprMap st₁.exprMap) (k : Kind)
    (hsame : ∀ v ∈ src.data.vars k, (st₁.exprMap v).isSome → (st.exprMap v).isSome) :
    Duplicated base (src.data.vars k) (dst.vars k) st₁ (duplVars dst.rootName (src.data.vars k) (dst.vars k) st₁) := by
  refine duplVars_spec hst (hsrc.names k) (h.names k) (fun v hv w hvw => ?_) fun v hv hnone hmem => ?_
  · have hsome := hsame v hv (by simp [hvw])
    obtain ⟨w', hw'⟩ := Option.isSome_iff_exists.mp hsome
    have heq : some w = some w' := by rw [← hvw, hext v w' hw']
    rw [Option.some.inj heq]
    exact (h.vars k w').mpr ⟨v, h.old k v (Ila.has_of_mem hv) hsome, hw'⟩
  · obtain ⟨w, hw, hname⟩ := List.mem_map.mp hmem
    obtain ⟨u, hu, huw⟩ := (h.vars k w).mp hw
    have hun : u.name = v.name := by rw [← hname, (hst.image u w (hext u w huw)).1]
    have huv : u = v := List.inj_on_of_nodup_map (hsrc.names k) (h.inherited k u hu) hv hun
    rw [← huv, hext u w huw] at hnone
    cases hnone

theorem enter_spec (htracks : Tracks base root seen st) (h : Awaits P src dst st) (hsound : Sound src) :
    Entered base root seen src dst st (enter src.data src.childs dst st) := by
  have hsrc : src.Shares := hsound.shares src src.mem_preOrder_self
  have hinp := h.duplicated hsrc htracks.fresh (fun _ _ h => h) .input fun _ _ h => h
  have hstt := h.duplicated hsrc hinp.fresh hinp.extends_ .state fun v hv hsome => by
    rcases (hinp.dom v).mp hsome with hold | hin
    · exact hold
    · exact absurd (Ila.has_of_mem hv) (hsound.kinds v (Ila.has_of_mem hin))
  have hids : (src.childs.map fun c => c.data.id).Nodup ∧ ∀ c ∈ src.childs, c ∈ Ila.preOrderList src.childs := by
    refine ⟨?_, fun c hc => Ila.mem_preOrderList.mpr ⟨c, hc, c.mem_preOrder_self⟩⟩
    exact Ila.nodup_childs_of_preOrder hsound.ids
  let st₁ := (duplVars dst.rootName src.data.inputs dst.inputs st).2
  let st₂ := (duplVars dst.rootName src.data.states dst.states st₁).2
  let dst' : IlaData :=
    { dst with inputs := (duplVars dst.rootName src.data.inputs dst.inputs st).1,
               states := (duplVars dst.rootName src.data.states dst.states st₁).1 }
  have hilas : st₂.ilaMap = st.ilaMap := hstt.ilaMap.trans hinp.ilaMap
  have hdom : ∀ v, (st₂.exprMap v).isSome ↔
      ((st.exprMap v).isSome ∨ v ∈ src.data.vars .input) ∨ v ∈ src.data.vars .state :=
    fun v => (hstt.dom v).trans (or_congr_left (hinp.dom v))
  have hkids : NewChilds base dst' src.childs st₂ (newChilds dst' src.childs st₂) :=
    newChilds_spec hstt.fresh hids.1 fun c hc => by
      rw [hilas]
      exact h.ilas c (hids.2 c hc)
  -- the new children do not touch the variables, and the variables do not touch the ILAs
  have hmap : (enter src.data src.childs dst st).2.2.exprMap = st₂.exprMap := hkids.exprMap
  have hila : Extends st.ilaMap (enter src.data src.childs dst st).2.2.ilaMap := by
    intro p q hpq
    refine hkids.extends_ p q ?_
    rw [hilas]
    exact hpq
  refine ⟨⟨hkids.fresh, fun v => ?_, fun p => ?_⟩, ?_, hila, rfl, fun k => ?_, fun k w => ?_, hkids.kids⟩
  · rw [hmap, hdom, htracks.dom]
    simp only [List.mem_append, List.mem_singleton, or_and_right, exists_or, exists_eq_left, exists_kind, or_assoc]
  · refine (hkids.dom p).trans ?_
    rw [hilas, htracks.ilas]
    simp only [List.mem_append, List.mem_singleton, or_and_right, exists_or, exists_eq_left, or_assoc]
  · rw [hmap]
    exact hinp.extends_.trans hstt.extends_
  · cases k with
    | input => exact hinp.names
    | state => exact hstt.names
  · rw [hmap]
    cases k with
    | input =>
      refine (hinp.vars w).trans ⟨?_, ?_⟩
      · rintro (hw | ⟨v, hv, hvw⟩)
        · obtain ⟨v, hv, hvw⟩ := (h.vars .input w).mp hw
          exact ⟨v, h.inherited .input v hv, hstt.extends_ v w (hinp.extends_ v w hvw)⟩
        · exact ⟨v, hv, hstt.extends_ v w hvw⟩
      · rintro ⟨v, hv, hvw⟩
        obtain ⟨w', hw'⟩ := Option.isSome_iff_exists.mp ((hinp.dom v).mpr (.inr hv))
        have heq : some w = some w' := hvw.symm.trans (hstt.extends_ v w' hw')
        rw [Option.some.inj heq]
        exact .inr ⟨v, hv, hw'⟩
    | state =>
      refine (hstt.vars w).trans ⟨?_, .inr⟩
      rintro (hw | hw)
      · obtain ⟨v, hv, hvw⟩ := (h.vars .state w).mp hw
        exact ⟨v, h.inherited .state v hv, hstt.extends_ v w (hinp.extends_ v w hvw)⟩
      · exact hw

end Enter

theorem Sound.child {d : IlaData} {cs : List Ila} (h : Sound (.mk d cs)) {c : Ila} (hc : c ∈ cs) : Sound c where
  shares := (Ila.forall_mem_preOrder_mk.mp h.shares).2 c hc
  proper := (Ila.forall_mem_preOrder_mk.mp h.proper).2 c hc
  kinds v hin hst := h.kinds v (Ila.has_mk.mpr (.inr ⟨c, hc, hin⟩)) (Ila.has_mk.mpr (.inr ⟨c, hc, hst⟩))
  ids := by
    obtain ⟨l, r, rfl⟩ := List.append_of_mem hc
    have hids := h.ids
    rw [Ila.preOrder, Ila.preOrderList_append, Ila.preOrderList] at hids
    refine hids.sublist (List.Sublist.map _ ?_)
    exact ((List.sublist_append_left _ _).trans (List.sublist_append_right _ _)).cons _

theorem Sound.kind_eq {t : Ila} (h : Sound t) {k k' : Kind} {v : Var} (hv : t.Has k v) (hv' : t.Has k' v) : k = k' := by
  cases k with
  | input =>
    cases k' with
    | input => rfl
    | state => exact absurd hv' (h.kinds v hv)
  | state =>
    cases k' with
    | input => exact absurd hv (h.kinds v hv')
    | state => rfl

theorem Sound.ids_ne_of_below {d : IlaData} {l rest : List Ila} {c n : Ila} (h : Sound (.mk d (l ++ c :: rest)))
    (hn : n ∈ Ila.preOrderList c.childs) :
    ∀ x ∈ c.data.id :: (Ila.preOrderList l ++ Ila.preOrderList rest).map (fun m => m.data.id), x ≠ n.data.id := by
  have hids := h.ids
  have hmem : n.data.id ∈ (Ila.preOrderList c.childs).map fun m => m.data.id := List.mem_map_of_mem hn
  cases c with
  | mk e es =>
    simp only [Ila.preOrder, Ila.preOrderList_append, Ila.preOrderList, List.map_cons, List.map_append, List.nodup_cons,
      List.nodup_append, List.cons_append, List.mem_append, Ila.data_mk] at hids
    obtain ⟨-, -, ⟨hself, -, -, hright⟩, hleft⟩ := hids
    rw [Ila.childs_mk] at hmem
    intro x hx hxn
    rw [List.mem_cons, List.map_append, List.mem_append] at hx
    subst hxn
    rcases hx with hx | hx | hx
    · exact hself (.inl (hx ▸ hmem))
    · exact hleft _ hx _ (List.mem_cons_of_mem _ (List.mem_append_left _ hmem)) rfl
    · exact hright _ hmem _ hx rfl

theorem Tracks.bump {base root : Nat} {seen : List Ila} {st : Copier} (h : Tracks base root seen st) (n : Nat) :
    Tracks base root seen { st with next := st.next + n } := by
  obtain ⟨⟨himage, hinj, hila, hilaInj, hbase⟩, hdom, hilas⟩ := h
  refine ⟨⟨fun v w hvw => ?_, hinj, fun p q hpq => ?_, hilaInj, ?_⟩, hdom, hilas⟩
  · obtain ⟨h1, h2, h3, h4⟩ := himage v w hvw
    exact ⟨h1, h2, h3, Nat.lt_add_right n h4⟩
  · exact Nat.lt_add_right n (hila p q hpq)
  · exact Nat.le_add_right_of_le hbase

theorem newChild_vars (d : IlaData) (id : Nat) (name : String) (k : Kind) : (d.newChild id name).vars k = d.vars k := by
  cases k <;> rfl

theorem Awaits.child {base root : Nat} {seen : List Ila} {P : Kind → List Var} {d : IlaData} {l rest : List Ila} {c : Ila}
    {dst kid : IlaData} {st st' : Copier} {r : IlaData × List IlaData × Copier}
    (h : Awaits P (.mk d (l ++ c :: rest)) dst st) (htracks : Tracks base root seen st)
    (hsound : Sound (.mk d (l ++ c :: rest))) (hinh : ∀ k, ∀ v ∈ d.vars k, v ∈ c.data.vars k)
    (hent : Entered base root seen (.mk d (l ++ c :: rest)) dst st r)
    (hkid : kid = r.1.newChild kid.id c.data.name ∧ r.2.2.ilaMap c.data.id = some kid.id)
    (htracks' : Tracks base root (seen ++ .mk d (l ++ c :: rest) :: Ila.preOrderList l) st')
    (hexpr : Extends r.2.2.exprMap st'.exprMap) (hila : Extends r.2.2.ilaMap st'.ilaMap) :
    Awaits d.vars c kid st' := by
  have hmem : c ∈ l ++ c :: rest := by simp
  have hhas : ∀ {k v}, c.Has k v → (Ila.mk d (l ++ c :: rest)).Has k v :=
    fun hv => Ila.has_mk.mpr (.inr ⟨c, hmem, hv⟩)
  have hmapped : ∀ k, ∀ v ∈ d.vars k, (r.2.2.exprMap v).isSome := fun k v hv =>
    (hent.tracks.dom v).mpr ⟨_, List.mem_append_right _ (List.mem_singleton_self _), k, hv⟩
  have hkidVars : ∀ k, kid.vars k = r.1.vars k := fun k => by rw [hkid.1, newChild_vars]
  refine ⟨hinh, fun k v hv => ?_, fun k v hv hsome => ?_, fun k => ?_, fun k w => ?_, fun n hn => ?_,
    hila _ _ hkid.2, ?_⟩
  · obtain ⟨w, hw⟩ := Option.isSome_iff_exists.mp (hmapped k v hv)
    rw [hexpr v w hw]
    rfl
  · obtain ⟨n, hn, k', hv'⟩ := (htracks'.dom v).mp hsome
    rcases List.mem_append.mp hn with hn | hn
    · -- met before the parent, so the parent has it from its own parent
      have hold : (st.exprMap v).isSome := (htracks.dom v).mpr ⟨n, hn, k', hv'⟩
      exact h.inherited k v (h.old k v (hhas hv) hold)
    · rcases List.mem_cons.mp hn with rfl | hn
      · obtain rfl := hsound.kind_eq (hhas hv) (Ila.has_of_mem hv')
        exact hv'
      · -- met in an earlier child
        obtain ⟨x, hx, hnx⟩ := Ila.mem_preOrderList.mp hn
        have hxv : x.Has k' v := ⟨n, hnx, hv'⟩
        obtain rfl := hsound.kind_eq (hhas hv) (Ila.has_mk.mpr (.inr ⟨x, List.mem_append_left _ hx, hxv⟩))
        have hpair := (hsound.shares _ (Ila.mem_preOrder_self _)).apart k
        rw [Ila.childs_mk, List.pairwise_append] at hpair
        exact hpair.2.2 x hx c List.mem_cons_self v hxv hv
  · rw [hkidVars]
    exact hent.names k
  · rw [hkidVars, hent.vars]
    refine exists_congr fun v => and_congr_right fun hv => ?_
    obtain ⟨w', hw'⟩ := Option.isSome_iff_exists.mp (hmapped k v hv)
    rw [hw', hexpr v w' hw']
  · rw [← Option.not_isSome_iff_eq_none]
    intro hsome
    have hbelow : n ∈ Ila.preOrderList (Ila.mk d (l ++ c :: rest)).childs :=
      Ila.mem_preOrderList.mpr ⟨c, hmem, Ila.mem_preOrder_of_below hn⟩
    have hnone : ¬(st.ilaMap n.data.id).isSome := by simp [h.ilas n hbelow]
    have hids : ∀ x ∈ c.data.id :: (Ila.preOrderList l ++ Ila.preOrderList rest).map (fun m => m.data.id), x ≠ n.data.id :=
      hsound.ids_ne_of_below hn
    rcases (htracks'.ilas _).mp hsome with hroot | ⟨m, hm, x, hx, hxn⟩
    · exact hnone ((htracks.ilas _).mpr (.inl hroot))
    rcases List.mem_append.mp hm with hm | hm
    · exact hnone ((htracks.ilas _).mpr (.inr ⟨m, hm, x, hx, hxn⟩))
    refine hids _ ?_ hxn
    rcases List.mem_cons.mp hm with rfl | hm
    · -- a child of the parent
      rw [Ila.childs_mk, List.mem_append, List.mem_cons] at hx
      rcases hx with hx | rfl | hx
      · exact List.mem_cons_of_mem _ (List.mem_map_of_mem (List.mem_append_left _
          (Ila.mem_preOrderList.mpr ⟨x, hx, x.mem_preOrder_self⟩)))
      · exact List.mem_cons_self
      · exact List.mem_cons_of_mem _ (List.mem_map_of_mem (List.mem_append_right _
          (Ila.mem_preOrderList.mpr ⟨x, hx, x.mem_preOrder_self⟩)))
    · -- a child of an ILA below an earlier child
      obtain ⟨y, hy, hmy⟩ := Ila.mem_preOrderList.mp hm
      have hxy : x ∈ y.preOrder := Ila.mem_preOrder_of_below (Ila.exists_parent.mp ⟨m, hmy, hx⟩)
      exact List.mem_cons_of_mem _ (List.mem_map_of_mem (List.mem_append_left _ (Ila.mem_preOrderList.mpr ⟨y, hy, hxy⟩)))
  · rw [hkid.1]
    rfl

end CopyTree

end Ilang
