import Ilang.Mngr.Flatten

/-!
# Valid conditions in a flattened hierarchy

`FlattenIla` is documented to add the valid conditions on the way to an instruction to its decode. The code that would do so is
disabled, so the decode stays as it is. That makes no difference exactly where the decode of every instruction below the top
implies the valid conditions on its way.
-/

namespace Ilang

open Smt

namespace Flatten

open CopyTree

mutual

/-- The instructions in the order of the visit, each with the valid conditions of the ILAs on its way. -/
def guardedInstrs (valids : List Expr) : Ila → List (List Expr × Instr)
  | .mk d cs => (d.instrs.map fun i => (valids ++ d.valid.toList, i)) ++ guardedInstrsList (valids ++ d.valid.toList) cs

def guardedInstrsList (valids : List Expr) : List Ila → List (List Expr × Instr)
  | [] => []
  | c :: cs => guardedInstrs valids c ++ guardedInstrsList valids cs

end

/-- The top keeps its valid condition, so its instructions and those below it need not repeat it. -/
def guardedBelow (t : Ila) : List (List Expr × Instr) := guardedInstrsList [] t.childs

/-- The image of an instruction that is ready when the original is and all ILAs on its way are valid. -/
structure GuardedImage (f : Var → Var) (p : List Expr × Instr) (j : Instr) : Prop where
  name : j.name = p.2.name
  decode : ∀ ν : Valuation,
    (∃ e ∈ j.decode, ν.Holds e) ↔ (∃ e ∈ p.2.decode, ν.Holds (rename f e)) ∧ ∀ e ∈ p.1, ν.Holds (rename f e)
  updates : j.updates = p.2.updates.map fun u => (u.1, u.2.map (rename f))

/-- What the documentation of `FlattenIla` asks of the top. -/
structure Stacked (t : Ila) (d : IlaData) (f : Var → Var) : Prop extends VarsFlat t d f where
  instrs : ∃ is, d.instrs = t.data.instrs ++ is ∧ List.Forall₂ (GuardedImage f) (guardedBelow t) is

/-- The decode of an instruction below the top implies the valid conditions on its way. -/
def DecodesGuarded (t : Ila) : Prop :=
  ∀ p ∈ guardedBelow t, ∀ ν : Valuation, (∃ e ∈ p.2.decode, ν.Holds e) → ∀ e ∈ p.1, ν.Holds e

/-- Decodes and valid conditions are over variables that have been made. -/
def OverMade (h : Hierarchy) : Prop :=
  ∀ p ∈ guardedBelow h.top, ∀ e ∈ p.2.decode.toList ++ p.1, ∀ v, .var v ∈ e.atoms → v.id < h.next

theorem guardedBelow_snd (t : Ila) : (guardedBelow t).map Prod.snd = instrsBelow t := by
  have hlist : ∀ (cs : List Ila) (valids : List Expr),
      (∀ c ∈ cs, ∀ vs, (guardedInstrs vs c).map Prod.snd = c.preOrder.flatMap fun n => n.data.instrs) →
      (guardedInstrsList valids cs).map Prod.snd = (Ila.preOrderList cs).flatMap fun n => n.data.instrs := by
    intro cs valids hcs
    induction cs with
    | nil => rfl
    | cons c cs ih =>
      obtain ⟨hc, hcs⟩ := List.forall_mem_cons.mp hcs
      rw [guardedInstrsList, Ila.preOrderList, List.map_append, List.flatMap_append, hc, ih hcs]
  have htree : ∀ (c : Ila) (vs : List Expr), (guardedInstrs vs c).map Prod.snd = c.preOrder.flatMap fun n => n.data.instrs := by
    intro c
    induction c using Ila.ind with
    | mk d cs ih =>
      intro vs
      rw [guardedInstrs, Ila.preOrder, List.map_append, List.flatMap_cons, hlist cs _ ih, List.map_map]
      exact congrArg (· ++ _) (List.map_id _)
  exact hlist t.childs [] fun c _ => htree c

/-! ### Renaming -/

section Rename

variable {f : Var → Var}

/-- A renaming that keeps sorts. -/
def renameMap (f : Var → Var) (hsort : ∀ v, (f v).sort = v.sort) : VarMap where
  image v := some (.var (f v))
  image_check v e he := by
    obtain rfl := Option.some.inj he
    exact congrArg some (hsort v)

theorem holds_rename (hsort : ∀ v, (f v).sort = v.sort) {ν : Valuation} {e : Expr} :
    ν.Holds (rename f e) ↔ (ν.subst (renameMap f hsort)).Holds e := by
  rw [Valuation.Holds, Valuation.Holds, ← Expr.eval_subst]
  rfl

/-- The value of a variable that some variables become: the value of one that becomes it. -/
noncomputable def movedValue (f : Var → Var) (P : Var → Prop) (μ : Valuation) : Var → Value :=
  Function.extend (fun v : {v // P v} => f v) (fun v => μ.atom (.var v)) fun w => w.sort.default

theorem movedValue_sort (hsort : ∀ v, (f v).sort = v.sort) (P : Var → Prop) (μ : Valuation) (w : Var) :
    (movedValue f P μ w).sort = w.sort := by
  by_cases hw : ∃ v : {v // P v}, f v = w
  · classical
    rw [movedValue, Function.extend_def, dif_pos hw, μ.atom_sort]
    exact (hsort _).symm.trans (congrArg Var.sort hw.choose_spec)
  · rw [movedValue, Function.extend_apply' _ _ _ hw]
    exact Srt.sort_default _

/-- The valuation that gives some variables, renamed, the values that they have. -/
noncomputable def moved (f : Var → Var) (hsort : ∀ v, (f v).sort = v.sort) (P : Var → Prop) (μ : Valuation) : Valuation where
  atom
    | .var w => movedValue f P μ w
    | .nondet g => μ.atom (.nondet g)
  atom_sort
    | .var w => movedValue_sort hsort P μ w
    | .nondet g => μ.atom_sort (.nondet g)
  func := μ.func
  func_sort := μ.func_sort

theorem holds_rename_moved (hsort : ∀ v, (f v).sort = v.sort) {P : Var → Prop} (hinj : ∀ v w, P v → P w → f v = f w → v = w)
    {μ : Valuation} {e : Expr} (he : ∀ v, .var v ∈ e.atoms → P v) : (moved f hsort P μ).Holds (rename f e) ↔ μ.Holds e := by
  have heval : e.eval ((moved f hsort P μ).subst (renameMap f hsort)) = e.eval μ := by
    refine Expr.eval_congr (fun _ _ => rfl) fun x hx => ?_
    cases x with
    | var v =>
      have hinj' : Function.Injective fun v : {v // P v} => f v := fun v w hvw => Subtype.ext (hinj v w v.2 w.2 hvw)
      have hval : movedValue f P μ (f v) = μ.atom (.var v) := hinj'.extend_apply (fun v => μ.atom (.var v)) _ ⟨v, he v hx⟩
      exact hval
    | nondet g => rfl
  rw [holds_rename hsort, Valuation.Holds, Valuation.Holds, heval]

end Rename

/-! ### Flattened ILAs -/

section Runs

variable {s : State}

theorem foldlM_flatInstr_eq {is : List Instr} {r : State} (hr : is.foldlM flatInstr s = some r) :
    ∃ js, r.1 = { s.1 with instrs := js.foldl (KeyVec.pushBack Instr.name) s.1.instrs } ∧
      List.Forall₂ (fun i j => ∃ id num, copyInstr s.2 id num i = some j) is js := by
  induction is generalizing s with
  | nil =>
    obtain rfl := Option.some.inj hr
    exact ⟨[], rfl, .nil⟩
  | cons i is ih =>
    obtain ⟨s', hs', hr⟩ := Option.bind_eq_some_iff.mp hr
    obtain ⟨j, hj, rfl⟩ := Option.map_eq_some_iff.mp hs'
    -- making an instruction leaves the maps alone
    obtain ⟨js, heq, hjs⟩ := ih hr
    exact ⟨j :: js, heq, .cons ⟨_, _, hj⟩ hjs⟩

theorem decode_of_copyInstr {st : Copier} (hst : KeepsSorts st) {i j : Instr} (hi : i.Proper) {id num : Nat}
    (hj : copyInstr st id num i = some j) : ∃ e, i.decode = some e ∧ j.decode = some (rename st.fn e) := by
  obtain ⟨d, hd, hj⟩ := Option.bind_eq_some_iff.mp hj
  obtain ⟨e, he, hd⟩ := Option.bind_eq_some_iff.mp hd
  have hcopy : copyExpr st e = some (rename st.fn e) :=
    (copyExpr_iff hst (hi.sorted e (mem_exprs.mpr (.inl he)))).mpr ⟨noSignedRem_of_copyExpr hd, fun _ _ => rfl⟩
  rw [Option.ite_none_right_eq_some, Option.bind_eq_some_iff] at hj
  obtain ⟨-, us, -, hj⟩ := hj
  obtain ⟨p, -, rfl⟩ := Option.map_eq_some_iff.mp hj
  exact ⟨e, he, hd.symm.trans hcopy⟩

theorem program_of_copyInstr {st : Copier} {i j : Instr} {id num : Nat} (hj : copyInstr st id num i = some j) :
    ∀ p, i.program = some p → ∃ q, st.ilaMap p = some q := by
  intro p hp
  obtain ⟨d, -, hj⟩ := Option.bind_eq_some_iff.mp hj
  rw [Option.ite_none_right_eq_some, Option.bind_eq_some_iff] at hj
  obtain ⟨-, us, -, hj⟩ := hj
  obtain ⟨o, ho, -⟩ := Option.map_eq_some_iff.mp hj
  rw [hp] at ho
  obtain ⟨q, hq, -⟩ := Option.map_eq_some_iff.mp ho
  exact ⟨q, hq⟩

theorem noSignedRem_of_copyInstr {st : Copier} {i j : Instr} {id num : Nat}
    (hj : copyInstr st id num i = some j) {f : Var → Var}
    (hupd : j.updates = i.updates.map fun u => (u.1, u.2.map (rename f))) : ∀ e ∈ i.exprs, e.noSignedRem = true := by
  obtain ⟨d, hd, hj⟩ := Option.bind_eq_some_iff.mp hj
  rw [Option.ite_none_right_eq_some, Option.bind_eq_some_iff] at hj
  obtain ⟨-, us, hus, hj⟩ := hj
  obtain ⟨p, -, rfl⟩ := Option.map_eq_some_iff.mp hj
  intro e he
  rcases mem_exprs.mp he with he | ⟨u, hu, he⟩
  · rw [he] at hd
    exact noSignedRem_of_copyExpr hd
  · rw [show us = _ from hupd, mapM_eq_map_iff] at hus
    have hu' := hus u hu
    rw [copyUpdate, he, Option.bind_some] at hu'
    obtain ⟨o, ho, heq⟩ := Option.map_eq_some_iff.mp hu'
    obtain rfl : o = some (rename f e) := congrArg Prod.snd heq
    exact noSignedRem_of_rewrite ho

theorem pushBack_all {l m kept : List Instr} (h : m.foldl (KeyVec.pushBack Instr.name) l = l ++ kept)
    (hlength : kept.length = m.length) : kept = m := by
  obtain ⟨kept', heq, hsub⟩ := KeyVec.foldl_pushBack_eq_append (k := Instr.name) l m
  obtain rfl : kept' = kept := List.append_cancel_left (heq.symm.trans h)
  exact hsub.eq_of_length hlength

end Runs

section Hierarchy

variable {h : Hierarchy} {d : IlaData} {f : Var → Var}

theorem VarsFlat.sort {t : Ila} (hf : VarsFlat t d f) (v : Var) : (f v).sort = v.sort := by
  by_cases hv : HasVar t v
  · exact (hf.kept v hv).2
  · rw [hf.outside v hv]

theorem IsFlat.stacked {t : Ila} (hflat : IsFlat t d f) (hguard : DecodesGuarded t) : Stacked t d f := by
  obtain ⟨hvars, is, his, himages⟩ := hflat
  rw [← guardedBelow_snd, List.forall₂_map_left_iff] at himages
  refine ⟨hvars, is, his, Pointwise.imp_of_mem (fun p hp j hj => ?_) himages⟩
  refine ⟨hj.name, fun ν => ?_, hj.updates⟩
  have hready : (∃ e ∈ j.decode, ν.Holds e) ↔ ∃ e ∈ p.2.decode, ν.Holds (rename f e) := by
    rw [hj.decode]
    cases p.2.decode <;> simp
  rw [hready]
  refine ⟨fun hdec => ⟨hdec, fun e he => ?_⟩, And.left⟩
  obtain ⟨e', he', hν⟩ := hdec
  rw [holds_rename hvars.sort] at hν ⊢
  exact hguard p hp _ ⟨e', he', hν⟩ e he

theorem VarsFlat.eq {t : Ila} {g : Var → Var} (hf : VarsFlat t d f) (hg : VarsFlat t d g)
    (hnames : ∀ k, ((d.vars k).map Var.name).Nodup) : f = g := by
  funext v
  by_cases hv : HasVar t v
  · obtain ⟨k, hk⟩ := hv
    have hfk : f v ∈ d.vars k := (hf.vars k _).mpr ⟨v, hk, rfl⟩
    have hgk : g v ∈ d.vars k := (hg.vars k _).mpr ⟨v, hk, rfl⟩
    exact List.inj_on_of_nodup_map (hnames k) hfk hgk ((hf.kept v ⟨k, hk⟩).1.trans (hg.kept v ⟨k, hk⟩).1.symm)
  · rw [hf.outside v hv, hg.outside v hv]

theorem VarsFlat.inj_made (hf : VarsFlat h.top d f) {s : State} (hgrown : Grown h.top h.next s)
    (hvars : ∀ k, d.vars k = s.1.vars k) {v w : Var} (hv : v.id < h.next) (hw : w.id < h.next) (hvw : f v = f w) : v = w := by
  have hnew : ∀ {a b : Var}, HasVar h.top a → ¬HasVar h.top b → b.id < h.next → f a ≠ f b := by
    rintro a b ⟨k, hk⟩ hb hid hab
    rw [hf.outside b hb] at hab
    have hmem : f a ∈ s.1.vars k := hvars k ▸ (hf.vars k _).mpr ⟨a, hk, rfl⟩
    rw [hab] at hmem
    rcases hgrown.origin k b hmem with htop | hbase
    · exact hb ⟨k, Ila.has_of_mem htop⟩
    · exact absurd hid (Nat.not_lt.mpr hbase)
  by_cases hav : HasVar h.top v
  · by_cases haw : HasVar h.top w
    · exact hf.inj v w hav haw hvw
    · exact absurd hvw (hnew hav haw hw)
  · by_cases haw : HasVar h.top w
    · exact absurd hvw.symm (hnew haw hav hv)
    · rwa [hf.outside v hav, hf.outside w haw] at hvw

/-- What the passes did to a hierarchy whose variables came out flat. -/
structure Went (h : Hierarchy) (d : IlaData) (f : Var → Var) (s : State) (js : List Instr) : Prop where
  recorded : Recorded h.top (Ila.postOrderList h.top.childs) s
  grown : Grown h.top h.next s
  vars : ∀ k, d.vars k = s.1.vars k
  fn : f = s.2.fn
  instrs : d.instrs = js.foldl (KeyVec.pushBack Instr.name) h.top.data.instrs
  copies : List.Forall₂ (fun i j => ∃ id num, copyInstr s.2 id num i = some j) (instrsBelow h.top) js

theorem went_of_flat (hwf : h.top.WellFormed h.next) (hd : flattenIla h = some (.mk d h.top.childs)) (hf : VarsFlat h.top d f) :
    (∀ k v w, h.top.Has k v → h.top.Has k w → v.name = w.name → v = w) ∧ (∃ s, FirstVisit h s) ∧ ∃ s js, Went h d f s js := by
  obtain ⟨s, hs, hd⟩ := Option.bind_eq_some_iff.mp hd
  obtain ⟨r, hr, hrd⟩ := Option.map_eq_some_iff.mp hd
  obtain rfl : r.1 = d := congrArg Ila.data hrd
  obtain ⟨js, heq, hjs⟩ := foldlM_flatInstr_eq hr
  have hgrown := FirstVisit.grown hwf hs
  have hvars : ∀ k, r.1.vars k = s.1.vars k := by
    intro k
    rw [heq]
    cases k <;> rfl
  have hnodup : ∀ k, ((r.1.vars k).map Var.name).Nodup := fun k => (hvars k).symm ▸ hgrown.names k
  have hnames : ∀ k v w, h.top.Has k v → h.top.Has k w → v.name = w.name → v = w := by
    intro k v w hv hw hvw
    have hfv : f v ∈ r.1.vars k := (hf.vars k _).mpr ⟨v, hv, rfl⟩
    have hfw : f w ∈ r.1.vars k := (hf.vars k _).mpr ⟨w, hw, rfl⟩
    have hsame : (f v).name = (f w).name := (hf.kept v ⟨k, hv⟩).1.trans (hvw.trans (hf.kept w ⟨k, hw⟩).1.symm)
    exact hf.inj v w ⟨k, hv⟩ ⟨k, hw⟩ (List.inj_on_of_nodup_map (hnodup k) hfv hfw hsame)
  have hrec := FirstVisit.recorded hwf hnames hs
  refine ⟨hnames, ⟨s, hs⟩, s, js, hrec, hgrown, hvars, ?_, ?_, hjs⟩
  · exact hf.eq ((hrec.varsFlat hwf hnames hgrown).congr hvars) hnodup
  · rw [heq, ← hrec.instrs]

theorem Went.image {js kept : List Instr} {s : State} (hw : Went h d f s js) (hd : d.instrs = h.top.data.instrs ++ kept)
    (hkept : List.Forall₂ (GuardedImage f) (guardedBelow h.top) kept) :
    kept = js ∧ List.Forall₂ (fun p j => GuardedImage f p j ∧ ∃ id num, copyInstr s.2 id num p.2 = some j) (guardedBelow h.top) js := by
  have hcopies := hw.copies
  rw [← guardedBelow_snd, List.forall₂_map_left_iff] at hcopies
  obtain rfl := pushBack_all (hw.instrs.symm.trans hd) (hkept.length_eq.symm.trans hcopies.length_eq)
  exact ⟨rfl, Pointwise.and hkept hcopies⟩

/-- A hierarchy that was flattened as documented can be flattened, and its decodes imply the valid conditions. -/
theorem flattenable_of_stacked (hwf : h.top.WellFormed h.next) (hmade : OverMade h)
    (hd : flattenIla h = some (.mk d h.top.childs)) (hst : Stacked h.top d f) : Flattenable h.top ∧ DecodesGuarded h.top := by
  obtain ⟨hf, is, his, himages⟩ := hst
  obtain ⟨hnames, hfirst, s, js, hw⟩ := went_of_flat hwf hd hf
  have hinits := (FirstVisit.isSome_iff hwf hnames).mp hfirst
  obtain ⟨rfl, hboth⟩ := hw.image his himages
  have hproper := proper_of_below hwf
  have hpair : ∀ p ∈ guardedBelow h.top, ∃ j, GuardedImage f p j ∧ p.2.Proper ∧ ∃ id num, copyInstr s.2 id num p.2 = some j := by
    intro p hp
    obtain ⟨j, -, hj, hcopy⟩ := Pointwise.exists_right hboth hp
    exact ⟨j, hj, hproper p.2 (guardedBelow_snd h.top ▸ List.mem_map_of_mem hp), hcopy⟩
  have hbelow : ∀ i ∈ instrsBelow h.top, ∃ p ∈ guardedBelow h.top, p.2 = i := by
    intro i hi
    rw [← guardedBelow_snd] at hi
    exact List.mem_map.mp hi
  refine ⟨⟨hnames, ?_, fun i hi => ?_, fun n hn e he => ?_, fun i hi p hp => ?_⟩, fun p hp μ hdec e he => ?_⟩
  · have hnodup := KeyVec.nodup_foldl_pushBack (m := is) (hwf.proper _ h.top.mem_preOrder_self).instrNames
    rw [← hw.instrs, his, List.map_append] at hnodup
    have hsame : (instrsBelow h.top).map Instr.name = is.map Instr.name := by
      rw [← guardedBelow_snd, List.map_map]
      refine List.forall₂_eq_eq_eq ▸ ?_
      rw [List.forall₂_map_left_iff, List.forall₂_map_right_iff]
      exact himages.imp fun p j hj => hj.name.symm
    rwa [List.map_append, hsame]
  · obtain ⟨p, hp, rfl⟩ := hbelow i hi
    obtain ⟨j, -, hi, id, num, hj⟩ := hpair p hp
    obtain ⟨e, he, -⟩ := decode_of_copyInstr hw.recorded.keepsSorts hi hj
    exact he ▸ Option.some_ne_none e
  · rcases List.mem_append.mp he with he | he
    · exact hinits n hn e he
    · obtain ⟨i, hi, he⟩ := List.mem_flatMap.mp he
      obtain ⟨p, hp, rfl⟩ := hbelow i (mem_instrsBelow.mpr ⟨n, hn, hi⟩)
      obtain ⟨j, himage, -, id, num, hj⟩ := hpair p hp
      exact noSignedRem_of_copyInstr hj himage.updates e he
  · obtain ⟨q, hq, rfl⟩ := hbelow i hi
    obtain ⟨j, -, -, id, num, hj⟩ := hpair q hq
    obtain ⟨top, htop⟩ := program_of_copyInstr hj p hp
    obtain ⟨-, m, hm, hmp⟩ := hw.recorded.onlyTop p top htop
    obtain ⟨n, hn, rfl⟩ := Ila.mem_postOrderList.mp hm
    exact ⟨n, hn, hmp⟩
  -- a valuation in which the decode holds and a valid condition does not would tell the decode of the top from the documented one
  · obtain ⟨j, himage, hi, id, num, hj⟩ := hpair p hp
    obtain ⟨dec, hdeq, hjdec⟩ := decode_of_copyInstr hw.recorded.keepsSorts hi hj
    obtain ⟨dec', hdec', hμ⟩ := hdec
    obtain rfl : dec = dec' := Option.some.inj (hdeq.symm.trans hdec')
    rw [← hw.fn] at hjdec
    have hinj : ∀ v w : Var, v.id < h.next → w.id < h.next → f v = f w → v = w := fun v w hv hw' =>
      hf.inj_made hw.grown hw.vars hv hw'
    have hmoved : ∀ a ∈ p.2.decode.toList ++ p.1, (moved f hf.sort (fun v => v.id < h.next) μ).Holds (rename f a) ↔ μ.Holds a :=
      fun a ha => holds_rename_moved hf.sort hinj (hmade p hp a ha)
    have hready := (hmoved dec (List.mem_append_left _ (Option.mem_toList.mpr hdeq))).mpr hμ
    have hall := ((himage.decode _).mp ⟨rename f dec, hjdec, hready⟩).2
    exact (hmoved e (List.mem_append_right _ he)).mp (hall e he)

variable {name : String} {calls : List (List Nat × Call)}

/-- The top gets each variable and each instruction of the hierarchy once, with the valid conditions in the decodes, exactly
when the hierarchy can be flattened and the decodes imply these conditions already. -/
theorem flattenIla_stacked_iff (hrun : (Hierarchy.new name).run calls = some h) (hmade : OverMade h) :
    (∃ d, flattenIla h = some (.mk d h.top.childs) ∧ ∃ f, Stacked h.top d f) ↔ Flattenable h.top ∧ DecodesGuarded h.top := by
  have hwf : h.top.WellFormed h.next := Hierarchy.wellFormed_run hrun (Hierarchy.wellFormed_new name)
  constructor
  · rintro ⟨d, hd, f, hst⟩
    exact flattenable_of_stacked hwf hmade hd hst
  · rintro ⟨hflat, hguard⟩
    obtain ⟨d, hd, f, hf⟩ := flattenIla_isFlat hrun hflat
    exact ⟨d, hd, f, hf.stacked hguard⟩

end Hierarchy

/-! ### A guarded child -/

def guardedX : Var := ⟨1, "x", some "m", .bv 8⟩

def guardedV : Var := ⟨3, "v", some ("m" ++ "." ++ "c"), .bool⟩

/-- A child whose valid condition is a state of its own, with one instruction. -/
def guardedCalls (decode : Expr) : List (List Nat × Call) :=
  [([], .newVar .state "x" (.bv 8)),
   ([], .newChild "c"),
   ([0], .newVar .state "v" .bool),
   ([0], .setValid (.var guardedV)),
   ([0], .newInstr "run"),
   ([0], .setDecode 0 decode),
   ([0], .setUpdate 0 "x" (.const (.bv 1 8)))]

def guardedRun (decode : Expr) : Instr := ⟨5, "run", some decode, [("x", some (.const (.bv 1 8)))], none⟩

def guardedChild (decode : Expr) : Ila :=
  .mk { IlaData.new 2 "c" with
        rootName := "m" ++ "." ++ "c"
        states := [guardedX, guardedV]
        valid := some (.var guardedV)
        instrs := [guardedRun decode] } []

def guarded (decode : Expr) : Hierarchy where
  top := .mk { IlaData.new 0 "m" with states := [guardedX] } [guardedChild decode]
  next := 8

theorem hasVar_guarded {decode : Expr} {v : Var} (h : HasVar (guarded decode).top v) : v = guardedX ∨ v = guardedV := by
  obtain ⟨k, n, hn, hv⟩ := h
  have hn' : n = (guarded decode).top ∨ n = guardedChild decode := by
    simpa [guarded, guardedChild, Ila.preOrder, Ila.preOrderList] using hn
  rcases hn' with rfl | rfl
  · cases k with
    | input => cases hv
    | state => exact .inl (List.mem_singleton.mp hv)
  · cases k with
    | input => cases hv
    | state =>
      rcases List.mem_cons.mp hv with rfl | hv
      · exact .inl rfl
      · exact .inr (List.mem_singleton.mp hv)

theorem guarded_flattenable {decode : Expr} (hdecode : decode.noSignedRem = true) : Flattenable (guarded decode).top where
  varNames k v w hv hw hname := by
    rcases hasVar_guarded ⟨k, hv⟩ with rfl | rfl
    · rcases hasVar_guarded ⟨k, hw⟩ with rfl | rfl
      · rfl
      · exact absurd hname (by decide)
    · rcases hasVar_guarded ⟨k, hw⟩ with rfl | rfl
      · exact absurd hname (by decide)
      · rfl
  instrNames := List.nodup_singleton _
  decode i hi := by
    rw [List.mem_singleton.mp hi]
    exact Option.some_ne_none _
  noSignedRem n hn e he := by
    rw [List.mem_singleton.mp hn] at he
    have hcases : e = decode ∨ e = .const (.bv 1 8) := by
      simpa [guardedChild, guardedRun, IlaData.new, Instr.exprs] using he
    rcases hcases with rfl | rfl
    · exact hdecode
    · rfl
  linked i hi p hp := by
    rw [List.mem_singleton.mp hi] at hp
    cases hp

theorem mem_guardedBelow {decode : Expr} {p : List Expr × Instr} (h : p ∈ guardedBelow (guarded decode).top) :
    p = ([.var guardedV], guardedRun decode) := List.mem_singleton.mp h

/-- The decode is the valid condition. -/
theorem flattenIla_stacked_guarded :
    ∃ d, flattenIla (guarded (.var guardedV)) = some (.mk d (guarded (.var guardedV)).top.childs) ∧
      ∃ f, Stacked (guarded (.var guardedV)).top d f := by
  have hrun : (Hierarchy.new "m").run (guardedCalls (.var guardedV)) = some (guarded (.var guardedV)) := rfl
  refine (flattenIla_stacked_iff hrun fun p hp e he v hv => ?_).mpr ⟨guarded_flattenable rfl, fun p hp ν hdec e he => ?_⟩
  · rw [mem_guardedBelow hp] at he
    have heq : e = .var guardedV := by simpa [guardedRun] using he
    rw [heq, Expr.atoms, List.mem_singleton] at hv
    cases hv
    decide
  · rw [mem_guardedBelow hp] at hdec he
    obtain ⟨e', he', hν⟩ := hdec
    obtain rfl : (.var guardedV : Expr) = e' := Option.some.inj he'
    rwa [List.mem_singleton.mp he]

/-- The top once a child whose decode is always true is flattened into it. -/
def guardedFlat : IlaData :=
  { IlaData.new 0 "m" with
    states := [guardedX, ⟨8, "v", some "m", .bool⟩]
    instrs := [⟨9, "run", some (.const (.bool true)), [("x", some (.const (.bv 1 8)))], none⟩] }

theorem guardedFlat_not_stacked (f : Var → Var) : ¬Stacked (guarded (.const (.bool true))).top guardedFlat f := by
  rintro ⟨hf, is, his, himages⟩
  obtain ⟨j, hj, himage⟩ := Pointwise.exists_right himages (List.mem_singleton_self _)
  obtain rfl : guardedFlat.instrs = is := his
  rw [List.mem_singleton.mp hj] at himage
  obtain ⟨-, hvalid⟩ := (himage.decode default).mp ⟨_, rfl, rfl⟩
  have hholds := hvalid (.var guardedV) (List.mem_singleton_self _)
  -- the state of the child is Boolean, and false in the default valuation
  change some (f guardedV).sort.default = some (Value.bool true) at hholds
  rw [hf.sort] at hholds
  cases hholds

/-- A decode that is always true stays so, whatever the valid condition of the child says. -/
theorem flattenIla_drops_valid :
    (Hierarchy.new "m").run (guardedCalls (.const (.bool true))) = some (guarded (.const (.bool true))) ∧
      ¬∃ d, flattenIla (guarded (.const (.bool true))) = some (.mk d (guarded (.const (.bool true))).top.childs) ∧
        ∃ f, Stacked (guarded (.const (.bool true))).top d f := by
  refine ⟨rfl, ?_⟩
  rintro ⟨d, hd, f, hst⟩
  have hflat : flattenIla (guarded (.const (.bool true))) = some (.mk guardedFlat (guarded (.const (.bool true))).top.childs) := rfl
  obtain rfl : guardedFlat = d := congrArg Ila.data (Option.some.inj (hflat.symm.trans hd))
  exact guardedFlat_not_stacked f hst

end Flatten

end Ilang
