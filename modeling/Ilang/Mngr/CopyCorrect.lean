import Ilang.Mngr.CopyNode

/-!
# When a copy is a copy

The copier makes a copy of a hierarchy exactly when every child has the variables of its parent, and every
ILA can be copied with the variables and the ILAs that were met up to it. The hierarchies are those that
the calls of `Ilang.Ila.Build` make.
-/

namespace Ilang

open Smt

namespace CopyTree

/-! ### What the copier builds -/

theorem duplVars_grows {host : String} {vs ds : List Var} {st : Copier} :
    (∀ w ∈ ds, w ∈ (duplVars host vs ds st).1) ∧
      (∀ w ∈ (duplVars host vs ds st).1, w ∈ ds ∨ st.next ≤ w.id) ∧ st.next ≤ (duplVars host vs ds st).2.next := by
  induction vs generalizing ds st with
  | nil => exact ⟨fun _ hw => hw, fun _ hw => .inl hw, Nat.le_refl _⟩
  | cons v vs ih =>
    rw [duplVars]
    split
    · exact ih
    · obtain ⟨hold, hnew, hnext⟩ := @ih (ds ++ [⟨st.next, v.name, some host, v.sort⟩])
        { st with next := st.next + 1, exprMap := emplace st.exprMap v ⟨st.next, v.name, some host, v.sort⟩ }
      refine ⟨fun w hw => hold w (List.mem_append_left _ hw), fun w hw => ?_, Nat.le_of_succ_le hnext⟩
      rcases hnew w hw with hw | hw
      · rcases List.mem_append.mp hw with hw | hw
        · exact .inl hw
        · rw [List.mem_singleton] at hw
          exact .inr (by rw [hw])
      · exact .inr (Nat.le_of_succ_le hw)

theorem newChilds_grows {dst : IlaData} {cs : List Ila} {st : Copier} :
    (∀ kid ∈ (newChilds dst cs st).1, kid.vars = dst.vars) ∧ st.next ≤ (newChilds dst cs st).2.next := by
  induction cs generalizing st with
  | nil => simp [newChilds]
  | cons c cs ih =>
    obtain ⟨hkids, hnext⟩ := @ih { st with next := st.next + 1, ilaMap := emplace st.ilaMap c.data.id st.next }
    refine ⟨fun kid hkid => ?_, Nat.le_of_succ_le hnext⟩
    rcases List.mem_cons.mp hkid with rfl | hkid
    · funext k
      exact newChild_vars dst _ _ k
    · exact hkids kid hkid

theorem enter_grows (src : IlaData) (cs : List Ila) (dst : IlaData) (st : Copier) :
    (∀ k, ∀ w ∈ dst.vars k, w ∈ (enter src cs dst st).1.vars k) ∧
      (∀ k, ∀ w ∈ (enter src cs dst st).1.vars k, w ∈ dst.vars k ∨ st.next ≤ w.id) ∧
      (∀ kid ∈ (enter src cs dst st).2.1, kid.vars = (enter src cs dst st).1.vars) ∧
      st.next ≤ (enter src cs dst st).2.2.next := by
  have hinp := @duplVars_grows dst.rootName src.inputs dst.inputs st
  have hstt := @duplVars_grows dst.rootName src.states dst.states
    (duplVars dst.rootName src.inputs dst.inputs st).2
  refine ⟨fun k => ?_, fun k => ?_, newChilds_grows.1, (hinp.2.2.trans hstt.2.2).trans newChilds_grows.2⟩
  · cases k with
    | input => exact hinp.1
    | state => exact hstt.1
  · cases k with
    | input => exact hinp.2.1
    | state => exact fun w hw => (hstt.2.1 w hw).imp_right hinp.2.2.trans

theorem copyTree_eq_some {src : IlaData} {cs : List Ila} {dst : IlaData} {st st' : Copier} {t' : Ila} :
    copyTree (.mk src cs) dst st = some (t', st') ↔ ∃ d rs,
      copyData src (enter src cs dst st).1 (enter src cs dst st).2.2 = some d ∧
      copyList cs (enter src cs dst st).2.1
        { (enter src cs dst st).2.2 with next := (enter src cs dst st).2.2.next + src.instrs.length } = some (rs, st') ∧
      t' = .mk d (KeyVec.ofList (fun c => c.data.name) rs) := by
  simp only [copyTree, Option.bind_eq_some_iff, Option.map_eq_some_iff, Prod.mk.injEq, Prod.exists]
  constructor
  · rintro ⟨d, hd, rs, st', hrs, rfl, rfl⟩
    exact ⟨d, rs, hd, hrs, rfl⟩
  · rintro ⟨d, rs, hd, hrs, rfl⟩
    exact ⟨d, hd, rs, st', hrs, rfl, rfl⟩

theorem copyList_cons_eq_some {c : Ila} {cs : List Ila} {kid : IlaData} {kids : List IlaData} {st st' : Copier}
    {rs : List Ila} : copyList (c :: cs) (kid :: kids) st = some (rs, st') ↔ ∃ r st₁ rs',
      copyTree c kid st = some (r, st₁) ∧ copyList cs kids st₁ = some (rs', st') ∧ rs = r :: rs' := by
  simp only [copyList, Option.bind_eq_some_iff, Option.map_eq_some_iff, Prod.mk.injEq, Prod.exists]
  constructor
  · rintro ⟨r, st₁, hr, rs', _, hrs, rfl, rfl⟩
    exact ⟨r, st₁, rs', hr, hrs, rfl⟩
  · rintro ⟨r, st₁, rs', hr, hrs, rfl⟩
    exact ⟨r, st₁, hr, rs', st', hrs, rfl, rfl⟩

/-- A tree that was filled in from a new ILA: variables are passed down, and all others are new. -/
structure Built (base : Nat) (dst : IlaData) (t : Ila) : Prop where
  inherits : Inherits t
  vars : ∀ k, ∀ w ∈ dst.vars k, w ∈ t.data.vars k
  fresh : ∀ k w, t.Has k w → w ∈ dst.vars k ∨ base ≤ w.id

theorem copyList_built {base : Nat} {cs : List Ila} {kids : List IlaData} {st st' : Copier} {rs : List Ila}
    (ih : ∀ c ∈ cs, ∀ kid st t' st', base ≤ st.next → copyTree c kid st = some (t', st') →
      Built base kid t' ∧ base ≤ st'.next)
    (hbase : base ≤ st.next) (h : copyList cs kids st = some (rs, st')) :
    (∀ r ∈ rs, ∃ kid ∈ kids, Built base kid r) ∧ base ≤ st'.next := by
  induction cs generalizing kids st rs with
  | nil =>
    simp only [copyList, Option.some.injEq, Prod.mk.injEq] at h
    obtain ⟨rfl, rfl⟩ := h
    exact ⟨by simp, hbase⟩
  | cons c cs ihc =>
    cases kids with
    | nil => simp [copyList] at h
    | cons kid kids =>
      obtain ⟨r, st₁, rs', hr, hrs, rfl⟩ := copyList_cons_eq_some.mp h
      obtain ⟨hbuilt, hbase₁⟩ := ih c List.mem_cons_self kid st r st₁ hbase hr
      obtain ⟨hrest, hbase'⟩ := ihc (fun x hx => ih x (List.mem_cons_of_mem c hx)) hbase₁ hrs
      refine ⟨fun x hx => ?_, hbase'⟩
      rcases List.mem_cons.mp hx with rfl | hx
      · exact ⟨kid, List.mem_cons_self, hbuilt⟩
      · obtain ⟨kid', hkid', hb⟩ := hrest x hx
        exact ⟨kid', List.mem_cons_of_mem kid hkid', hb⟩

theorem copyTree_built {base : Nat} {src : Ila} {dst : IlaData} {st st' : Copier} {t' : Ila}
    (hbase : base ≤ st.next) (h : copyTree src dst st = some (t', st')) : Built base dst t' ∧ base ≤ st'.next := by
  induction src using Ila.ind generalizing dst st st' t' with
  | mk src cs ih =>
    obtain ⟨d, rs, hd, hrs, rfl⟩ := copyTree_eq_some.mp h
    obtain ⟨hold, hnew, hkids, hnext⟩ := enter_grows src cs dst st
    have hvars : d.vars = (enter src cs dst st).1.vars := by
      funext k
      rw [copyData_eq hd]
      cases k <;> rfl
    obtain ⟨hbuilt, hbase'⟩ := copyList_built
      (fun c hc kid st t' st' hb h => ih c hc hb h)
      ((hbase.trans hnext).trans (Nat.le_add_right _ _)) hrs
    have hchild : ∀ r ∈ KeyVec.ofList (fun c => c.data.name) rs, ∃ kid, kid.vars = d.vars ∧ Built base kid r := by
      intro r hr
      obtain ⟨kid, hkid, hb⟩ := hbuilt r (KeyVec.mem_of_mem_ofList hr)
      exact ⟨kid, by rw [hkids kid hkid, hvars], hb⟩
    have hfresh : ∀ k, ∀ w ∈ d.vars k, w ∈ dst.vars k ∨ base ≤ w.id := by
      intro k w hw
      rw [hvars] at hw
      exact (hnew k w hw).imp_right hbase.trans
    refine ⟨⟨Ila.forall_mem_preOrder_mk.mpr ⟨fun r hr k v hv => ?_, fun r hr => ?_⟩, fun k w hw => ?_, fun k w hw => ?_⟩,
      hbase'⟩
    · obtain ⟨kid, hkid, hb⟩ := hchild r hr
      exact hb.vars k v (by rwa [hkid])
    · obtain ⟨kid, -, hb⟩ := hchild r hr
      exact hb.inherits
    · rw [Ila.data_mk, hvars]
      exact hold k w hw
    · rcases Ila.has_mk.mp hw with hw | ⟨r, hr, hw⟩
      · exact hfresh k w hw
      · obtain ⟨kid, hkid, hb⟩ := hchild r hr
        rcases hb.fresh k w hw with hw | hw
        · rw [hkid] at hw
          exact hfresh k w hw
        · exact .inr hw

/-! ### What an image says about the tree -/

section Image

variable {f : Var → Var} {g : Nat → Nat}

theorem IsImageList.exists_mem {cs es : List Ila} (h : IsImageList f g cs es) :
    ∀ c ∈ cs, ∃ e ∈ es, IsImage f g c e := by
  induction cs generalizing es with
  | nil => simp
  | cons c cs ih =>
    cases es with
    | nil => exact h.elim
    | cons e es =>
      obtain ⟨-, himage, hrest⟩ := h
      intro x hx
      rcases List.mem_cons.mp hx with rfl | hx
      · exact ⟨e, List.mem_cons_self, himage⟩
      · obtain ⟨e', he', hx'⟩ := ih hrest x hx
        exact ⟨e', List.mem_cons_of_mem e he', hx'⟩

theorem IsImage.has {t t' : Ila} (h : IsImage f g t t') {k : Kind} {v : Var} (hv : t.Has k v) : t'.Has k (f v) := by
  induction t using Ila.ind generalizing t' with
  | mk d cs ih =>
    cases t' with
    | mk e es =>
      obtain ⟨hdata, hchilds⟩ := h
      rcases Ila.has_mk.mp hv with hv | ⟨c, hc, hv⟩
      · exact Ila.has_mk.mpr (.inl ((hdata.vars k (f v)).mpr ⟨v, hv, rfl⟩))
      · obtain ⟨e', he', hc'⟩ := hchilds.exists_mem c hc
        exact Ila.has_mk.mpr (.inr ⟨e', he', ih c hc hc' hv⟩)

theorem IsImage.inherits {t t' : Ila} (h : IsImage f g t t')
    (hinj : ∀ v w, HasVar t v → HasVar t w → f v = f w → v = w) (ht' : Inherits t') : Inherits t := by
  induction t using Ila.ind generalizing t' with
  | mk d cs ih =>
    cases t' with
    | mk e es =>
      obtain ⟨hdata, hchilds⟩ := h
      obtain ⟨htop, hbelow⟩ := Ila.forall_mem_preOrder_mk.mp ht'
      refine Ila.forall_mem_preOrder_mk.mpr ⟨fun c hc k v hv => ?_, fun c hc => ?_⟩
      · obtain ⟨e', he', hc'⟩ := hchilds.exists_mem c hc
        have hfv : f v ∈ e'.data.vars k := htop e' he' k (f v) ((hdata.vars k (f v)).mpr ⟨v, hv, rfl⟩)
        cases c with
        | mk x xs =>
          cases e' with
          | mk y ys =>
            obtain ⟨v', hv', heq⟩ := (hc'.1.vars k (f v)).mp hfv
            have hsame : v = v' := hinj v v' ⟨k, Ila.has_of_mem hv⟩
              ⟨k, Ila.has_mk.mpr (.inr ⟨_, hc, Ila.has_of_mem hv'⟩)⟩ heq
            rwa [hsame]
      · obtain ⟨e', he', hc'⟩ := hchilds.exists_mem c hc
        have hup : ∀ v, HasVar c v → HasVar (.mk d cs) v := fun v ⟨k, hv⟩ => ⟨k, Ila.has_mk.mpr (.inr ⟨c, hc, hv⟩)⟩
        exact ih c hc hc' (fun v w hv hw => hinj v w (hup v hv) (hup w hw)) (hbelow e' he')

end Image

/-! ### The whole tree -/

theorem along_append {α : Type} {P : List α → α → Prop} {pre l m : List α} :
    Along P pre (l ++ m) ↔ Along P pre l ∧ Along P (pre ++ l) m := by
  induction l generalizing pre with
  | nil => simp [Along]
  | cons x l ih => rw [List.cons_append, Along, Along, ih, and_assoc, List.append_assoc, List.singleton_append]

section Tree

variable {base : Nat} {t : Ila} {seen : List Ila} {P : Kind → List Var} {st st' : Copier}

/-- An ILA of a tree is about to be visited. -/
structure Poised (base : Nat) (t : Ila) (seen : List Ila) (P : Kind → List Var) (src : Ila) (dst : IlaData)
    (st : Copier) : Prop where
  tracks : Tracks base t.data.id seen st
  awaits : Awaits P src dst st
  sound : Sound src
  inherits : Inherits src

/-- Some ILAs have been visited since. -/
structure Visited (base : Nat) (t : Ila) (seen : List Ila) (st st' : Copier) : Prop where
  tracks : Tracks base t.data.id seen st'
  exprMap : Extends st.exprMap st'.exprMap
  ilaMap : Extends st.ilaMap st'.ilaMap

theorem Visited.trans {seen' : List Ila} {st₁ : Copier} (h : Visited base t seen st st₁)
    (h' : Visited base t seen' st₁ st') : Visited base t seen' st st' :=
  ⟨h'.tracks, h.exprMap.trans h'.exprMap, h.ilaMap.trans h'.ilaMap⟩

theorem Poised.entered {src : Ila} {dst : IlaData} (h : Poised base t seen P src dst st) :
    Entered base t.data.id seen src dst st (enter src.data src.childs dst st) :=
  enter_spec h.tracks h.awaits h.sound

theorem Poised.child {d : IlaData} {l rest : List Ila} {c : Ila} {dst kid : IlaData} {st₁ : Copier}
    (h : Poised base t seen P (.mk d (l ++ c :: rest)) dst st)
    (hkid : kid = (enter d (l ++ c :: rest) dst st).1.newChild kid.id c.data.name ∧
      (enter d (l ++ c :: rest) dst st).2.2.ilaMap c.data.id = some kid.id)
    (hnow : Visited base t (seen ++ .mk d (l ++ c :: rest) :: Ila.preOrderList l)
      (enter d (l ++ c :: rest) dst st).2.2 st₁) :
    Poised base t (seen ++ .mk d (l ++ c :: rest) :: Ila.preOrderList l) d.vars c kid st₁ where
  tracks := hnow.tracks
  awaits := h.awaits.child h.tracks h.sound
    ((Ila.forall_mem_preOrder_mk.mp h.inherits).1 c (by simp)) h.entered hkid hnow.tracks hnow.exprMap hnow.ilaMap
  sound := h.sound.child (by simp)
  inherits := (Ila.forall_mem_preOrder_mk.mp h.inherits).2 c (by simp)

/-- Every variable of the tree goes to another variable. -/
def Moves (t : Ila) (f : Var → Var) : Prop := ∀ v, HasVar t v → f v ≠ v

theorem copyable_of_dataOk {f : Var → Var} {g : Nat → Nat} {n : Ila} (htracks : Tracks base t.data.id seen st)
    (hf : Moves t f) (h : DataOk st f g n.data) (hseq : n.data.instrSeq = []) : Copyable t seen n := by
  have hren : ∀ e ∈ n.data.exprs ++ n.data.instrs.flatMap Instr.exprs, Renames st f e := by
    intro e he
    rcases List.mem_append.mp he with he | he
    · exact h.exprs e he
    · obtain ⟨i, hi, he⟩ := List.mem_flatMap.mp he
      exact (h.instrs i hi).renames e he
  refine ⟨hseq, fun i hi => (h.instrs i hi).decode, fun e he => (hren e he).1, fun e he v hv hhas => ?_, fun i hi p hp => ?_⟩
  · -- an unmapped variable would stay
    rw [← htracks.dom, ← Option.ne_none_iff_isSome]
    intro hnone
    have hfn := (hren e he).2 v hv
    rw [Copier.fn, hnone, Option.getD_none] at hfn
    exact hf v hhas hfn.symm
  · rw [← htracks.ilas, (h.instrs i hi).program p hp]
    rfl

/-- Maps that agree with those of the copier, on the variables of a tree. -/
structure Agrees (t : Ila) (f : Var → Var) (g : Nat → Nat) (st : Copier) : Prop where
  vars : ∀ v w, st.exprMap v = some w → f v = w
  ilas : ∀ p q, st.ilaMap p = some q → g p = q
  other : ∀ v, ¬HasVar t v → f v = v

theorem Agrees.of_visited {f : Var → Var} {g : Nat → Nat} (h : Agrees t f g st') (hv : Visited base t seen st st') :
    Agrees t f g st :=
  ⟨fun v w hvw => h.vars v w (hv.exprMap v w hvw), fun p q hpq => h.ilas p q (hv.ilaMap p q hpq), h.other⟩

theorem dataOk_of_copyable {f : Var → Var} {g : Nat → Nat} {n : Ila} (htracks : Tracks base t.data.id seen st)
    (hvars : ∀ v w, st.exprMap v = some w → f v = w) (hilas : ∀ p q, st.ilaMap p = some q → g p = q)
    (hother : ∀ v, st.exprMap v = none → ¬HasVar t v → f v = v) (h : Copyable t seen n) : DataOk st f g n.data := by
  have hren : ∀ e ∈ n.data.exprs ++ n.data.instrs.flatMap Instr.exprs, Renames st f e := by
    refine fun e he => ⟨h.noSignedRem e he, fun v hv => ?_⟩
    rw [Copier.fn]
    cases hmap : st.exprMap v with
    | some w => rw [Option.getD_some, hvars v w hmap]
    | none =>
      refine (hother v hmap fun hhas => ?_).symm
      have hsome := (htracks.dom v).mpr (h.declared e he v hv hhas)
      rw [hmap] at hsome
      cases hsome
  refine ⟨fun e he => hren e (List.mem_append_left _ he), fun i hi =>
    ⟨h.decode i hi, fun e he => hren e (List.mem_append_right _ (List.mem_flatMap.mpr ⟨i, hi, he⟩)), fun p hp => ?_⟩⟩
  obtain ⟨q, hq⟩ := Option.isSome_iff_exists.mp ((htracks.ilas p).mpr (h.linked i hi p hp))
  rw [hq, hilas p q hq]

/-- What a successful visit of an ILA, or of some children of one, leaves behind. -/
structure Done (base : Nat) (t : Ila) (seen srcs : List Ila) (image : (Var → Var) → (Nat → Nat) → Prop)
    (st st' : Copier) : Prop where
  visited : Visited base t (seen ++ srcs) st st'
  along : ∀ f g, Moves t f → image f g → Along (Copyable t) seen srcs

theorem bumped {r : Copier} (h : Tracks base t.data.id seen r) (n : Nat) :
    Visited base t seen r { r with next := r.next + n } :=
  ⟨h.bump n, fun _ _ hvw => hvw, fun _ _ hpq => hpq⟩

/-- The relation between a child and its new ILA. -/
def IsKid (r : IlaData × List IlaData × Copier) (c : Ila) (kid : IlaData) : Prop :=
  kid = r.1.newChild kid.id c.data.name ∧ r.2.2.ilaMap c.data.id = some kid.id

theorem copyTree_name {src : Ila} {dst : IlaData} {t' : Ila} (h : copyTree src dst st = some (t', st')) :
    t'.data.name = dst.name := by
  cases src with
  | mk d cs =>
    obtain ⟨e, rs, he, -, rfl⟩ := copyTree_eq_some.mp h
    rw [Ila.data_mk, copyData_eq he]
    rfl

theorem copyList_names {r : IlaData × List IlaData × Copier} {cs : List Ila} {kids : List IlaData} {rs : List Ila}
    (hkids : List.Forall₂ (IsKid r) cs kids) (h : copyList cs kids st = some (rs, st')) :
    (rs.map fun c => c.data.name) = cs.map fun c => c.data.name := by
  induction hkids generalizing st rs with
  | nil =>
    simp only [copyList, Option.some.injEq, Prod.mk.injEq] at h
    rw [← h.1]
  | cons hkid _ ih =>
    obtain ⟨r, st₁, rs', hr, hrs, rfl⟩ := copyList_cons_eq_some.mp h
    rw [List.map_cons, List.map_cons, ih hrs, copyTree_name hr, hkid.1]
    rfl

theorem copyList_done {d : IlaData} {cs l rest : List Ila} {dst : IlaData} {kids : List IlaData} {st₁ : Copier}
    {rs : List Ila} (h : Poised base t seen P (.mk d cs) dst st) (hcs : cs = l ++ rest)
    (ih : ∀ c ∈ cs, ∀ {seen P kid st r st'}, Poised base t seen P c kid st → copyTree c kid st = some (r, st') →
      Done base t seen c.preOrder (fun f g => IsImage f g c r) st st')
    (hkids : List.Forall₂ (IsKid (enter d cs dst st)) rest kids)
    (hnow : Visited base t (seen ++ .mk d cs :: Ila.preOrderList l) (enter d cs dst st).2.2 st₁)
    (hcopy : copyList rest kids st₁ = some (rs, st')) :
    Done base t (seen ++ .mk d cs :: Ila.preOrderList l) (Ila.preOrderList rest)
      (fun f g => IsImageList f g rest rs) st₁ st' := by
  induction hkids generalizing l st₁ rs with
  | nil =>
    simp only [copyList, Option.some.injEq, Prod.mk.injEq] at hcopy
    obtain ⟨rfl, rfl⟩ := hcopy
    rw [Ila.preOrderList]
    refine ⟨⟨?_, fun _ _ hvw => hvw, fun _ _ hpq => hpq⟩, fun _ _ _ _ => trivial⟩
    rw [List.append_nil]
    exact hnow.tracks
  | @cons c kid rest kids hkid hkids ihrest =>
    subst hcs
    obtain ⟨r, st₂, rs', hr, hrs, rfl⟩ := copyList_cons_eq_some.mp hcopy
    have hdone := ih c (by simp) (h.child hkid hnow) hr
    have hseen : seen ++ .mk d (l ++ c :: rest) :: Ila.preOrderList (l ++ [c]) =
        seen ++ .mk d (l ++ c :: rest) :: Ila.preOrderList l ++ c.preOrder := by
      simp [Ila.preOrderList_append, Ila.preOrderList]
    have hrest := ihrest (l := l ++ [c]) (by simp) (hseen ▸ hnow.trans hdone.visited) hrs
    rw [hseen] at hrest
    refine ⟨?_, fun f g hf himage => ?_⟩
    · rw [Ila.preOrderList, ← List.append_assoc]
      exact hdone.visited.trans hrest.visited
    · rw [Ila.preOrderList, along_append]
      exact ⟨hdone.along f g hf himage.2.1, hrest.along f g hf himage.2.2⟩

theorem copyTree_done {src : Ila} {dst : IlaData} {t' : Ila} (h : Poised base t seen P src dst st)
    (hcopy : copyTree src dst st = some (t', st')) :
    Done base t seen src.preOrder (fun f g => IsImage f g src t') st st' := by
  induction src using Ila.ind generalizing seen P dst st st' t' with
  | mk d cs ih =>
    obtain ⟨e, rs, he, hrs, rfl⟩ := copyTree_eq_some.mp hcopy
    have hent := h.entered
    have hnow := bumped hent.tracks d.instrs.length
    have hlist := copyList_done h (l := []) rfl (fun c hc => ih c hc) hent.kids hnow hrs
    have hproper := h.sound.proper _ (Ila.mem_preOrder_self _)
    have hkeep : KeyVec.ofList (fun c => c.data.name) rs = rs :=
      KeyVec.ofList_of_nodup (by rw [copyList_names hent.kids hrs]; exact hproper.childNames)
    have hseen : seen ++ .mk d cs :: Ila.preOrderList [] = seen ++ [.mk d cs] := rfl
    rw [hseen] at hlist
    refine ⟨?_, fun f g hf himage => ?_⟩
    · have hentered : Visited base t (seen ++ [.mk d cs]) st (enter d cs dst st).2.2 :=
        ⟨hent.tracks, hent.exprMap, hent.ilaMap⟩
      rw [Ila.preOrder, List.append_cons]
      exact (hentered.trans hnow).trans hlist.visited
    · obtain ⟨hdata, hchilds⟩ := himage
      rw [hkeep] at hchilds
      have hseq : List.Forall₂ (TranImage f d e) d.instrSeq [] := by
        have hnil : e.instrSeq = [] := by
          rw [copyData_eq he]
          exact h.awaits.instrSeq
        rw [← hnil]
        exact hdata.instrSeq
      have hok : DataOk (enter d cs dst st).2.2 f g d := (copyData_iff hent.tracks.fresh.keepsSorts hproper).mp
        ⟨e, he, hdata.inits, hdata.fetch, hdata.valid, hdata.instrs⟩
      rw [Ila.preOrder, Along]
      exact ⟨copyable_of_dataOk hent.tracks hf hok (List.forall₂_nil_right_iff.mp hseq), hlist.along f g hf hchilds⟩

theorem dataImage_of_filled {f : Var → Var} {g : Nat → Nat} {d e dst : IlaData} {cs : List Ila}
    (h : Poised base t seen P (.mk d cs) dst st) (hfg : Agrees t f g (enter d cs dst st).2.2)
    (he : copyData d (enter d cs dst st).1 (enter d cs dst st).2.2 = some e) (hfill : Filled f g d e)
    (hseq : d.instrSeq = []) : DataImage f g d e := by
  have hent := h.entered
  have heq := copyData_eq he
  have hvars : ∀ k, e.vars k = (enter d cs dst st).1.vars k := by
    intro k
    rw [heq]
    cases k <;> rfl
  refine ⟨?_, fun k w => ?_, hfill.inits, hfill.fetch, hfill.valid, hfill.instrs, ?_⟩
  · rw [show g d.id = dst.id from hfg.ilas _ _ (hent.ilaMap _ _ h.awaits.self), heq]
    rfl
  · rw [hvars]
    refine (hent.vars k w).trans (exists_congr fun v => and_congr_right fun hv => ?_)
    have hsome := (hent.tracks.dom v).mpr ⟨_, List.mem_append_right _ (List.mem_singleton_self _), k, hv⟩
    obtain ⟨w', hw'⟩ := Option.isSome_iff_exists.mp hsome
    rw [hw', hfg.vars v w' hw', Option.some.injEq, eq_comm]
  · have hnil : e.instrSeq = [] := by
      rw [heq]
      exact h.awaits.instrSeq
    rw [hseq, hnil]
    exact .nil

theorem copyList_exists {d : IlaData} {cs l rest : List Ila} {dst : IlaData} {kids : List IlaData} {st₁ : Copier}
    (h : Poised base t seen P (.mk d cs) dst st) (hcs : cs = l ++ rest)
    (ih : ∀ c ∈ cs, ∀ {seen P kid st}, Poised base t seen P c kid st → Along (Copyable t) seen c.preOrder →
      ∃ r st', copyTree c kid st = some (r, st') ∧ ∀ f g, Agrees t f g st' → IsImage f g c r)
    (hkids : List.Forall₂ (IsKid (enter d cs dst st)) rest kids)
    (hnow : Visited base t (seen ++ .mk d cs :: Ila.preOrderList l) (enter d cs dst st).2.2 st₁)
    (halong : Along (Copyable t) (seen ++ .mk d cs :: Ila.preOrderList l) (Ila.preOrderList rest)) :
    ∃ rs st', copyList rest kids st₁ = some (rs, st') ∧ ∀ f g, Agrees t f g st' → IsImageList f g rest rs := by
  induction hkids generalizing l st₁ with
  | nil => exact ⟨[], st₁, rfl, fun _ _ _ => trivial⟩
  | @cons c kid rest kids hkid hkids ihrest =>
    subst hcs
    rw [Ila.preOrderList, along_append] at halong
    have hpoised := h.child hkid hnow
    obtain ⟨r, st₂, hr, himage⟩ := ih c (by simp) hpoised halong.1
    have hdone := copyTree_done hpoised hr
    have hseen : seen ++ .mk d (l ++ c :: rest) :: Ila.preOrderList (l ++ [c]) =
        seen ++ .mk d (l ++ c :: rest) :: Ila.preOrderList l ++ c.preOrder := by
      simp [Ila.preOrderList_append, Ila.preOrderList]
    have hnow₂ := hnow.trans hdone.visited
    rw [← hseen] at hnow₂
    obtain ⟨rs, st', hrs, himages⟩ := ihrest (l := l ++ [c]) (by simp) hnow₂ (hseen ▸ halong.2)
    have hrest := copyList_done h (l := l ++ [c]) (by simp)
      (fun x _ {_ _ _ _ _ _} hx hcopy => copyTree_done hx hcopy) hkids hnow₂ hrs
    refine ⟨r :: rs, st', copyList_cons_eq_some.mpr ⟨r, st₂, rs, hr, hrs, rfl⟩, fun f g hfg => ⟨?_, ?_, ?_⟩⟩
    · rw [copyTree_name hr, hkid.1]
      rfl
    · exact himage f g (hfg.of_visited hrest.visited)
    · exact himages f g hfg

theorem copyTree_exists {src : Ila} {dst : IlaData} (h : Poised base t seen P src dst st)
    (halong : Along (Copyable t) seen src.preOrder) :
    ∃ t' st', copyTree src dst st = some (t', st') ∧ ∀ f g, Agrees t f g st' → IsImage f g src t' := by
  induction src using Ila.ind generalizing seen P dst st with
  | mk d cs ih =>
    rw [Ila.preOrder, Along] at halong
    have hent := h.entered
    have hproper := h.sound.proper _ (Ila.mem_preOrder_self _)
    have hnow := bumped hent.tracks d.instrs.length
    obtain ⟨rs, st', hrs, himages⟩ := copyList_exists h (l := []) rfl (fun c hc => ih c hc) hent.kids hnow halong.2
    have hlist := copyList_done h (l := []) rfl (fun x _ {_ _ _ _ _ _} hx hcopy => copyTree_done hx hcopy) hent.kids hnow hrs
    have hkeep : KeyVec.ofList (fun c => c.data.name) rs = rs :=
      KeyVec.ofList_of_nodup (by rw [copyList_names hent.kids hrs]; exact hproper.childNames)
    -- with the maps as they are, the ILA itself is copied
    have hlocal : DataOk (enter d cs dst st).2.2 (enter d cs dst st).2.2.fn
        (fun p => ((enter d cs dst st).2.2.ilaMap p).getD p) d := dataOk_of_copyable hent.tracks
      (fun v w hvw => by simp [Copier.fn, show (enter d cs dst st).2.2.exprMap v = some w from hvw])
      (fun p q hpq => by simp [show (enter d cs dst st).2.2.ilaMap p = some q from hpq])
      (fun v hv _ => by simp [Copier.fn, show (enter d cs dst st).2.2.exprMap v = none from hv]) halong.1
    obtain ⟨e, he, -⟩ := (copyData_iff hent.tracks.fresh.keepsSorts hproper).mpr hlocal
    refine ⟨.mk e rs, st', copyTree_eq_some.mpr ⟨e, rs, he, hrs, by rw [hkeep]⟩, fun f g hfg => ⟨?_, himages f g hfg⟩⟩
    have hagree : Agrees t f g (enter d cs dst st).2.2 := (hfg.of_visited hlist.visited).of_visited hnow
    have hok : DataOk (enter d cs dst st).2.2 f g d :=
      dataOk_of_copyable hent.tracks hagree.vars hagree.ilas (fun v _ => hagree.other v) halong.1
    obtain ⟨e', he', hfill⟩ := (copyData_iff hent.tracks.fresh.keepsSorts hproper).mpr hok
    obtain rfl : e' = e := Option.some.inj (he'.symm.trans he)
    exact dataImage_of_filled h hagree he hfill halong.1.instrSeq

end Tree

/-! ### Copying a hierarchy -/

section Hierarchy

variable {h : Hierarchy}

theorem poised_top (hwf : h.top.WellFormed h.next) (hinh : Inherits h.top) (name : String) :
    Poised h.next h.top [] (fun _ => []) h.top (IlaData.new h.next name)
      ⟨h.next + 1, fun _ => none, emplace (fun _ => none) h.top.data.id h.next⟩ := by
  have hmap : ∀ p q, emplace (fun _ => none) h.top.data.id h.next p = some q ↔ p = h.top.data.id ∧ q = h.next := by
    intro p q
    rw [emplace_of_none rfl]
    by_cases hp : p = h.top.data.id
    · simp [hp, eq_comm]
    · simp [hp]
  refine ⟨⟨⟨by simp, by simp, fun p q hpq => ?_, fun p p' q hpq hpq' => ?_, Nat.le_succ _⟩, by simp, fun p => ?_⟩,
    ⟨by simp, by simp, by simp, fun k => ?_, fun k w => ?_, fun n hn => ?_, (hmap _ _).mpr ⟨rfl, rfl⟩, rfl⟩,
    ⟨hwf.shares, hwf.proper, hwf.kinds, hwf.ilaIds⟩, hinh⟩
  · rw [((hmap p q).mp hpq).2]
    exact Nat.lt_succ_self _
  · rw [((hmap p q).mp hpq).1, ((hmap p' q).mp hpq').1]
  · rw [emplace_isSome]
    simp
  · cases k <;> exact List.nodup_nil
  · cases k <;> simp [IlaData.new, IlaData.vars]
  · rw [← Option.not_isSome_iff_eq_none, emplace_isSome]
    rintro (hsome | heq)
    · cases hsome
    · have hids := hwf.ilaIds
      cases htop : h.top with
      | mk d cs =>
        rw [htop] at hids hn heq
        rw [Ila.preOrder, List.map_cons, List.nodup_cons] at hids
        exact hids.1 (List.mem_map.mpr ⟨n, hn, heq⟩)

theorem copyIlaTree_eq_some {name : String} {t' : Ila} :
    copyIlaTree h name = some t' ↔ ∃ st', copyTree h.top (IlaData.new h.next name)
      ⟨h.next + 1, fun _ => none, emplace (fun _ => none) h.top.data.id h.next⟩ = some (t', st') := by
  simp [copyIlaTree]

theorem isMap_of_tracks {base : Nat} {t : Ila} {st : Copier} (htracks : Tracks base t.data.id t.preOrder st) :
    IsMap t st.fn (fun p => (st.ilaMap p).getD p) ∧ Agrees t st.fn (fun p => (st.ilaMap p).getD p) st := by
  have hget : ∀ v, HasVar t v → ∃ w, st.exprMap v = some w ∧ st.fn v = w := by
    rintro v ⟨k, n, hn, hv⟩
    obtain ⟨w, hw⟩ := Option.isSome_iff_exists.mp ((htracks.dom v).mpr ⟨n, hn, k, hv⟩)
    exact ⟨w, hw, by rw [Copier.fn, hw, Option.getD_some]⟩
  have hother : ∀ v, ¬HasVar t v → st.fn v = v := by
    intro v hv
    cases hmap : st.exprMap v with
    | none => rw [Copier.fn, hmap, Option.getD_none]
    | some w =>
      obtain ⟨n, hn, k, hvn⟩ := (htracks.dom v).mp (by simp [hmap])
      exact absurd ⟨k, n, hn, hvn⟩ hv
  have hila : ∀ n ∈ t.preOrder, ∃ q, st.ilaMap n.data.id = some q := by
    intro n hn
    refine Option.isSome_iff_exists.mp ((htracks.ilas _).mpr ?_)
    cases t with
    | mk d cs =>
      rcases List.mem_cons.mp hn with rfl | hn
      · exact .inl rfl
      · obtain ⟨m, hm, hnm⟩ := (Ila.exists_parent (t := .mk d cs)).mpr hn
        exact .inr ⟨m, hm, n, hnm, rfl⟩
  refine ⟨⟨fun v w hv hw hvw => ?_, fun v hv => ?_, hother, fun n hn m hm hnm => ?_⟩, fun v w hvw => ?_, fun p q hpq => ?_,
    hother⟩
  · obtain ⟨x, hx, hfx⟩ := hget v hv
    obtain ⟨y, hy, hfy⟩ := hget w hw
    rw [hfx, hfy] at hvw
    exact htracks.fresh.inj v w y (hvw ▸ hx) hy
  · obtain ⟨x, hx, hfx⟩ := hget v hv
    obtain ⟨hname, hsort, -⟩ := htracks.fresh.image v x hx
    rw [hfx]
    exact ⟨hname, hsort⟩
  · obtain ⟨p, hp⟩ := hila n hn
    obtain ⟨q, hq⟩ := hila m hm
    simp only [hp, hq, Option.getD_some] at hnm
    exact htracks.fresh.ilaInj _ _ q (hnm ▸ hp) hq
  · rw [Copier.fn, hvw, Option.getD_some]
  · simp only [hpq, Option.getD_some]

/-- A hierarchy that was built by calls is copied exactly when every child has all the variables of its
parent, and no ILA has child-program transitions, an instruction without a decode, a signed remainder or
modulus, a variable of an ILA that is visited later, or a program that is no child of an ILA visited so
far and not the top. -/
theorem copyIlaTree_isCopy_iff {name : String} {calls : List (List Nat × Call)}
    (hrun : (Hierarchy.new name).run calls = some h) (dstName : String) :
    (∃ t', copyIlaTree h dstName = some t' ∧ IsCopy h.top t') ↔
      Inherits h.top ∧ Along (Copyable h.top) [] h.top.preOrder := by
  have hwf : h.top.WellFormed h.next := Hierarchy.wellFormed_run hrun (Hierarchy.wellFormed_new name)
  constructor
  · rintro ⟨t', ht', f, g, hmap, himage⟩
    obtain ⟨st', hcopy⟩ := copyIlaTree_eq_some.mp ht'
    obtain ⟨hbuilt, -⟩ := copyTree_built (Nat.le_succ h.next) hcopy
    have hinh : Inherits h.top := himage.inherits hmap.inj hbuilt.inherits
    have hmoves : Moves h.top f := by
      rintro v ⟨k, hv⟩ heq
      have hid := hwf.varId k v hv
      rcases hbuilt.fresh k (f v) (himage.has hv) with hnew | hnew
      · cases k <;> simp [IlaData.new, IlaData.vars] at hnew
      · rw [heq] at hnew
        omega
    exact ⟨hinh, (copyTree_done (poised_top hwf hinh dstName) hcopy).along f g hmoves himage⟩
  · rintro ⟨hinh, halong⟩
    have hpoised := poised_top hwf hinh dstName
    obtain ⟨t', st', hcopy, himage⟩ := copyTree_exists hpoised halong
    have htracks := (copyTree_done hpoised hcopy).visited.tracks
    rw [List.nil_append] at htracks
    obtain ⟨hmap, hagrees⟩ := isMap_of_tracks htracks
    exact ⟨t', copyIlaTree_eq_some.mpr ⟨st', hcopy⟩, _, _, hmap, himage _ _ hagrees⟩

/-- A counter with a child that runs while it is not zero. -/
def counterCalls : List (List Nat × Call) :=
  [([], .newVar .state "x" (.bv 8)),
   ([], .newChild "c"),
   ([], .newInstr "inc"),
   ([], .setDecode 0 (.op .eq [.var ⟨1, "x", some "m", .bv 8⟩, .const (.bv 0 8)])),
   ([], .setUpdate 0 "x" (.op .add [.var ⟨1, "x", some "m", .bv 8⟩, .const (.bv 1 8)])),
   ([], .setProgram 0 2),
   ([0], .newVar .state "y" .bool),
   ([0], .newInstr "run"),
   ([0], .setDecode 0 (.var ⟨7, "y", some ("m" ++ "." ++ "c"), .bool⟩)),
   ([0], .setUpdate 0 "x" (.var ⟨1, "x", some "m", .bv 8⟩))]

def counterX : Var := ⟨1, "x", some "m", .bv 8⟩

def counterY : Var := ⟨7, "y", some ("m" ++ "." ++ "c"), .bool⟩

def counterChild : Ila :=
  .mk { IlaData.new 2 "c" with
        rootName := "m" ++ "." ++ "c"
        states := [counterX, counterY]
        instrs := [⟨8, "run", some (.var counterY), [("x", some (.var counterX))], none⟩] } []

def counter : Hierarchy where
  top := .mk { IlaData.new 0 "m" with
    states := [counterX]
    instrs := [⟨3, "inc", some (.op .eq [.var counterX, .const (.bv 0 8)]),
      [("x", some (.op .add [.var counterX, .const (.bv 1 8)]))], some 2⟩] } [counterChild]
  next := 11

theorem run_counter : (Hierarchy.new "m").run counterCalls = some counter := by rfl

theorem copyIlaTree_counter : ∃ t', copyIlaTree counter "copy" = some t' ∧ IsCopy counter.top t' := by
  refine (copyIlaTree_isCopy_iff run_counter "copy").mpr ⟨?_, ?_, ?_, trivial⟩
  · refine Ila.forall_mem_preOrder_mk.mpr ⟨fun c hc k v hv => ?_, fun c hc n hn c' hc' => ?_⟩
    · rw [List.mem_singleton.mp hc]
      cases k with
      | input => cases hv
      | state => exact List.mem_cons.mpr (.inl (List.mem_singleton.mp hv))
    · rw [List.mem_singleton.mp hc] at hn
      rw [List.mem_singleton.mp hn] at hc'
      cases hc'
  · refine ⟨rfl, ?_, ?_, fun e he v hv _ => ⟨_, List.mem_singleton_self _, .state, ?_⟩, fun i hi p hp => .inr ?_⟩
    · simp
    · simp [IlaData.exprs, IlaData.new, Instr.exprs, Expr.noSignedRem, Expr.noSignedRemList]
    · have hx : v = counterX := by
        simp only [Ila.data_mk, IlaData.exprs, IlaData.new, Instr.exprs, List.flatMap_cons, List.flatMap_nil,
          Option.toList_some, List.filterMap_cons, List.filterMap_nil, Option.toList_none, List.append_nil, List.nil_append,
          List.mem_append, List.mem_singleton] at he
        rcases he with rfl | rfl
        · simpa [Expr.atoms, Expr.atomsList] using hv
        · simpa [Expr.atoms, Expr.atomsList] using hv
      exact List.mem_singleton.mpr hx
    · rw [List.mem_singleton.mp hi] at hp
      exact ⟨_, List.mem_singleton_self _, counterChild, List.mem_singleton_self _, Option.some.inj hp⟩
  · refine ⟨rfl, ?_, ?_, fun e he v hv _ => ⟨counterChild, List.mem_cons_of_mem _ (List.mem_singleton_self _), .state, ?_⟩,
      fun i hi p hp => ?_⟩
    · simp
    · simp [IlaData.exprs, IlaData.new, Instr.exprs, Expr.noSignedRem]
    · have hxy : v = counterY ∨ v = counterX := by
        simp only [Ila.data_mk, IlaData.exprs, IlaData.new, Instr.exprs, List.flatMap_cons, List.flatMap_nil,
          Option.toList_some, List.filterMap_cons, List.filterMap_nil, Option.toList_none, List.append_nil, List.nil_append,
          List.mem_append, List.mem_singleton] at he
        rcases he with rfl | rfl
        · left
          simpa [Expr.atoms] using hv
        · right
          simpa [Expr.atoms] using hv
      rcases hxy with rfl | rfl
      · exact List.mem_cons_of_mem _ (List.mem_singleton_self _)
      · exact List.mem_cons_self
    · rw [List.mem_singleton.mp hi] at hp
      cases hp

/-- A state that the top gets after its child goes to the child of the copy, and a transition between two
instructions is lost. -/
theorem copyIlaTree_not_copy :
    (∃ h, (Hierarchy.new "m").run [([], .newChild "c"), ([], .newVar .state "x" .bool)] = some h ∧
      ¬∃ t', copyIlaTree h "copy" = some t' ∧ IsCopy h.top t') ∧
    ∃ h, (Hierarchy.new "m").run [([], .newInstr "i"), ([], .setDecode 0 (.const (.bool true))),
        ([], .addSeqTran ⟨1, 1, .const (.bool true)⟩)] = some h ∧
      ¬∃ t', copyIlaTree h "copy" = some t' ∧ IsCopy h.top t' := by
  refine ⟨⟨_, rfl, ?_⟩, _, rfl, ?_⟩
  · rintro ⟨t', ht', f, g, -, himage⟩
    obtain rfl := Option.some.inj ht'
    obtain ⟨-, -, hchild, -⟩ := himage
    have hvar := (hchild.1.vars .state ⟨4, "x", some "copy", .bool⟩).mp (List.mem_singleton_self _)
    obtain ⟨v, hv, -⟩ := hvar
    cases hv
  · rintro ⟨t', ht', f, g, -, himage⟩
    obtain rfl := Option.some.inj ht'
    cases himage.1.instrSeq

end Hierarchy

end CopyTree

end Ilang
