import Ilang.Mngr.CopyMaps

/-!
# Copying one ILA

Given the maps of the copier, exactly the ILAs whose expressions the rewriter can rename, and whose
instructions have a decode and a program that is mapped, are filled in with the images of what they hold.
-/

namespace Ilang

open Smt

namespace CopyTree

section Node

variable {st : Copier} {f : Var → Var} {g : Nat → Nat}

/-- What the rewriter makes of a variable. -/
def Copier.fn (st : Copier) (v : Var) : Var := (st.exprMap v).getD v

theorem Copier.rule_getD (st : Copier) (v : Var) : (st.rule v).getD (.var v) = .var (st.fn v) := by
  rw [rule, fn]
  cases st.exprMap v with
  | none => rfl
  | some w => rfl

/-- The variables of the map keep their sorts. -/
def KeepsSorts (st : Copier) : Prop := ∀ v w, st.exprMap v = some w → w.sort = v.sort

theorem Fresh.keepsSorts {base : Nat} (h : Fresh base st) : KeepsSorts st := fun v w hw => (h.image v w hw).2.1

def KeepsSorts.varMap (h : KeepsSorts st) : VarMap where
  image := st.rule
  image_check v e he := by
    rw [Copier.rule, Option.map_eq_some_iff] at he
    obtain ⟨w, hw, rfl⟩ := he
    rw [Expr.check, h v w hw]

/-- The rewriter renames the expression. -/
def Renames (st : Copier) (f : Var → Var) (e : Expr) : Prop :=
  e.noSignedRem = true ∧ ∀ v, .var v ∈ e.atoms → st.fn v = f v

theorem rewrite_eq_rename_iff (h : KeepsSorts st) {e : Expr} (he : e.check ≠ none) :
    rewrite st.rule e = some (some (rename f e)) ↔ Renames st f e := by
  obtain ⟨s, hs⟩ := Option.ne_none_iff_exists'.mp he
  have hsubst : e.subst st.rule = rename f e ↔ ∀ v, .var v ∈ e.atoms → st.fn v = f v := by
    rw [rename, Expr.subst_eq_iff]
    simp only [Copier.rule_getD, Option.getD_some, Expr.var.injEq]
  constructor
  · intro hrw
    have hrem := noSignedRem_of_rewrite hrw
    have heq : rewrite st.rule e = some (some (e.subst st.rule)) := rewrite_eq_subst h.varMap hs hrem
    rw [hrw, Option.some.injEq, Option.some.injEq] at heq
    exact ⟨hrem, hsubst.mp heq.symm⟩
  · rintro ⟨hrem, hvars⟩
    have heq : rewrite st.rule e = some (some (e.subst st.rule)) := rewrite_eq_subst h.varMap hs hrem
    rw [heq, hsubst.mpr hvars]

theorem copyExpr_iff (h : KeepsSorts st) {e : Expr} (he : e.check ≠ none) :
    copyExpr st e = some (rename f e) ↔ Renames st f e := by
  rw [copyExpr, Option.join_eq_some_iff, rewrite_eq_rename_iff h he]

theorem copyOpt_iff (h : KeepsSorts st) {o : Option Expr} (ho : ∀ e ∈ o.toList, e.check ≠ none) :
    copyOpt st o = some (o.map (rename f)) ↔ ∀ e ∈ o.toList, Renames st f e := by
  cases o with
  | none => simp [copyOpt]
  | some e =>
    simp only [Option.toList_some, List.mem_singleton, forall_eq] at ho ⊢
    rw [copyOpt, Option.map_some, Option.map_eq_some_iff]
    simp only [Option.some.injEq, exists_eq_right, copyExpr_iff h ho]

theorem mapM_eq_map_iff {α β : Type} {k : α → Option β} {m : α → β} {l : List α} :
    l.mapM k = some (l.map m) ↔ ∀ a ∈ l, k a = some (m a) := by
  induction l with
  | nil => simp
  | cons a l ih =>
    simp only [List.mapM_cons, List.map_cons, List.mem_cons, forall_eq_or_imp, ← ih]
    cases k a with
    | none => simp
    | some b =>
      cases l.mapM k with
      | none => simp
      | some bs => simp

theorem copyUpdate_iff (h : KeepsSorts st) {u : String × Option Expr} {e : Expr} (hu : u.2 = some e)
    (he : e.check ≠ none) : copyUpdate st u = some (u.1, u.2.map (rename f)) ↔ Renames st f e := by
  rw [copyUpdate, hu, Option.bind_some, Option.map_some, Option.map_eq_some_iff, ← rewrite_eq_rename_iff h he]
  simp

/-- What an instruction needs. -/
structure InstrOk (st : Copier) (f : Var → Var) (g : Nat → Nat) (i : Instr) : Prop where
  decode : i.decode ≠ none
  renames : ∀ e ∈ i.exprs, Renames st f e
  program : ∀ p, i.program = some p → st.ilaMap p = some (g p)

theorem copyProgram_iff {o : Option Nat} :
    copyProgram st o = some (o.map g) ↔ ∀ p, o = some p → st.ilaMap p = some (g p) := by
  cases o with
  | none => simp [copyProgram]
  | some p => simp [copyProgram]

theorem mem_exprs {i : Instr} {e : Expr} : e ∈ i.exprs ↔ i.decode = some e ∨ ∃ u ∈ i.updates, u.2 = some e := by
  rw [Instr.exprs, List.mem_append, List.mem_filterMap, Option.mem_toList]

theorem copyUpdates_iff (h : KeepsSorts st) {i : Instr} (hi : i.Proper) :
    i.updates.mapM (copyUpdate st) = some (i.updates.map fun u => (u.1, u.2.map (rename f))) ↔
      ∀ u ∈ i.updates, ∀ e, u.2 = some e → Renames st f e := by
  rw [mapM_eq_map_iff]
  refine forall₂_congr fun u hu => ?_
  obtain ⟨e, he⟩ := Option.ne_none_iff_exists'.mp (hi.update u hu)
  rw [copyUpdate_iff h he (hi.sorted e (mem_exprs.mpr (.inr ⟨u, hu, he⟩)))]
  simp [he]

theorem Renames.check (h : KeepsSorts st) {e : Expr} (he : Renames st f e) : (rename f e).check = e.check := by
  have heq : rename f e = e.subst st.rule := by
    rw [rename, Expr.subst_eq_iff]
    intro v hv
    rw [Option.getD_some, Copier.rule_getD, he.2 v hv]
  rw [heq]
  exact Expr.check_subst h.varMap e

theorem copyInstr_iff (h : KeepsSorts st) {i : Instr} (hi : i.Proper) (id num : Nat) :
    (∃ j, copyInstr st id num i = some j ∧ InstrImage f g i j) ↔ InstrOk st f g i := by
  constructor
  · rintro ⟨j, hj, himage⟩
    simp only [copyInstr, Option.bind_eq_some_iff, Option.ite_none_right_eq_some, Option.map_eq_some_iff] at hj
    obtain ⟨d, ⟨e, he, hd⟩, -, us, hus, p, hp, rfl⟩ := hj
    obtain ⟨-, hdecode, hupdates, hprogram⟩ := himage
    rw [he, Option.map_some, Option.some.injEq] at hdecode
    rw [hdecode, copyExpr_iff h (hi.sorted e (mem_exprs.mpr (.inl he)))] at hd
    rw [show us = _ from hupdates, copyUpdates_iff h hi] at hus
    rw [show p = _ from hprogram, copyProgram_iff] at hp
    refine ⟨by simp [he], fun x hx => ?_, hp⟩
    rcases mem_exprs.mp hx with hx | ⟨u, hu, hx⟩
    · rw [he, Option.some.injEq] at hx
      rwa [← hx]
    · exact hus u hu x hx
  · rintro ⟨hdecode, hren, hprogram⟩
    obtain ⟨e, he⟩ := Option.ne_none_iff_exists'.mp hdecode
    have hee := hren e (mem_exprs.mpr (.inl he))
    have hsort : (rename f e).sort = .bool := Expr.sort_of_check ((hee.check h).trans (hi.decode e he))
    have hcopy := (copyExpr_iff (f := f) h (hi.sorted e (mem_exprs.mpr (.inl he)))).mpr hee
    have hupd := (copyUpdates_iff (f := f) h hi).mpr fun u hu x hx => hren x (mem_exprs.mpr (.inr ⟨u, hu, hx⟩))
    refine ⟨⟨id, i.name, some (rename f e), i.updates.map fun u => (u.1, u.2.map (rename f)), i.program.map g⟩, ?_,
      rfl, by rw [he, Option.map_some], rfl, rfl⟩
    rw [copyInstr, he, Option.bind_some, hcopy, Option.bind_some, if_pos hsort, hupd, Option.bind_some,
      copyProgram_iff.mpr hprogram, Option.map_some, Instr.newName, if_neg hi.name]

theorem copyInstr_name {i j : Instr} (hi : i.Proper) {id num : Nat} (hj : copyInstr st id num i = some j) :
    j.name = i.name := by
  simp only [copyInstr, Option.bind_eq_some_iff, Option.ite_none_right_eq_some, Option.map_eq_some_iff] at hj
  obtain ⟨d, -, -, us, -, p, -, rfl⟩ := hj
  exact if_neg hi.name

theorem copyInstrs_names {is js : List Instr} (his : ∀ i ∈ is, i.Proper) {num : Nat}
    (hjs : copyInstrs st num is = some js) : js.map Instr.name = is.map Instr.name := by
  induction is generalizing num js with
  | nil =>
    rw [copyInstrs, Option.some.injEq] at hjs
    rw [← hjs]
  | cons i is ih =>
    simp only [copyInstrs, Option.bind_eq_some_iff, Option.map_eq_some_iff] at hjs
    obtain ⟨j, hj, js, hjs, rfl⟩ := hjs
    rw [List.map_cons, List.map_cons, copyInstr_name (his i List.mem_cons_self) hj,
      ih (fun x hx => his x (List.mem_cons_of_mem i hx)) hjs]

theorem copyInstrs_iff (h : KeepsSorts st) {is : List Instr} (his : ∀ i ∈ is, i.Proper) (num : Nat) :
    (∃ js, copyInstrs st num is = some js ∧ List.Forall₂ (InstrImage f g) is js) ↔ ∀ i ∈ is, InstrOk st f g i := by
  induction is generalizing num with
  | nil => simp [copyInstrs]
  | cons i is ih =>
    have hhead := copyInstr_iff (f := f) (g := g) h (his i List.mem_cons_self) (st.next + num) num
    have htail := ih (fun x hx => his x (List.mem_cons_of_mem i hx)) (num + 1)
    rw [List.forall_mem_cons, ← hhead, ← htail]
    simp only [copyInstrs, Option.bind_eq_some_iff, Option.map_eq_some_iff]
    constructor
    · rintro ⟨_, ⟨j, hj, js, hjs, rfl⟩, himage⟩
      rw [List.forall₂_cons] at himage
      exact ⟨⟨j, hj, himage.1⟩, js, hjs, himage.2⟩
    · rintro ⟨⟨j, hj, himage⟩, js, hjs, himages⟩
      exact ⟨_, ⟨j, hj, js, hjs, rfl⟩, .cons himage himages⟩

/-- What an ILA needs, apart from its variables and its children. -/
structure DataOk (st : Copier) (f : Var → Var) (g : Nat → Nat) (d : IlaData) : Prop where
  exprs : ∀ e ∈ d.exprs, Renames st f e
  instrs : ∀ i ∈ d.instrs, InstrOk st f g i

/-- What the copy of an ILA shares with the ILA that it was made in. -/
structure Filled (f : Var → Var) (g : Nat → Nat) (src d : IlaData) : Prop where
  inits : d.inits = src.inits.map (rename f)
  fetch : d.fetch = src.fetch.map (rename f)
  valid : d.valid = src.valid.map (rename f)
  instrs : List.Forall₂ (InstrImage f g) src.instrs d.instrs

theorem copyData_iff (h : KeepsSorts st) {src dst : IlaData} {cs : List Ila} (hsrc : (Ila.mk src cs).Proper) :
    (∃ d, copyData src dst st = some d ∧ Filled f g src d) ↔ DataOk st f g src := by
  obtain ⟨hsorted, hinstr, hnames, -⟩ := hsrc
  simp only [Ila.data_mk] at hsorted hinstr hnames
  have hmem : ∀ e, e ∈ src.exprs ↔ e ∈ src.inits ∨ e ∈ src.fetch.toList ∨ e ∈ src.valid.toList := by
    simp [IlaData.exprs]
  have hfetch := copyOpt_iff (f := f) h (o := src.fetch) fun e he => hsorted e ((hmem e).mpr (.inr (.inl he)))
  have hvalid := copyOpt_iff (f := f) h (o := src.valid) fun e he => hsorted e ((hmem e).mpr (.inr (.inr he)))
  have hinits : src.inits.mapM (copyExpr st) = some (src.inits.map (rename f)) ↔ ∀ e ∈ src.inits, Renames st f e :=
    mapM_eq_map_iff.trans (forall₂_congr fun e he => copyExpr_iff h (hsorted e ((hmem e).mpr (.inl he))))
  have hinstrs := copyInstrs_iff (f := f) (g := g) h hinstr 0
  have hkeep : ∀ js, copyInstrs st 0 src.instrs = some js → KeyVec.ofList Instr.name js = js := fun js hjs =>
    KeyVec.ofList_of_nodup (by rwa [copyInstrs_names hinstr hjs])
  simp only [copyData, Option.bind_eq_some_iff, Option.map_eq_some_iff]
  constructor
  · rintro ⟨_, ⟨fetch, hf, valid, hv, inits, hi, js, hjs, rfl⟩, himage⟩
    obtain ⟨rfl, rfl, rfl, himage⟩ := himage
    simp only [hkeep js hjs] at himage
    refine ⟨fun e he => ?_, hinstrs.mp ⟨js, hjs, himage⟩⟩
    rcases (hmem e).mp he with he | he | he
    · exact hinits.mp hi e he
    · exact hfetch.mp hf e he
    · exact hvalid.mp hv e he
  · rintro ⟨hexprs, hok⟩
    obtain ⟨js, hjs, himage⟩ := hinstrs.mpr hok
    refine ⟨_, ⟨_, hfetch.mpr fun e he => hexprs e ((hmem e).mpr (.inr (.inl he))),
      _, hvalid.mpr fun e he => hexprs e ((hmem e).mpr (.inr (.inr he))),
      _, hinits.mpr fun e he => hexprs e ((hmem e).mpr (.inl he)), js, hjs, rfl⟩, rfl, rfl, rfl, ?_⟩
    simpa only [hkeep js hjs] using himage

theorem copyData_eq {src dst d : IlaData} (h : copyData src dst st = some d) :
    d = { dst with fetch := d.fetch, valid := d.valid, inits := d.inits, instrs := d.instrs } := by
  simp only [copyData, Option.bind_eq_some_iff, Option.map_eq_some_iff] at h
  obtain ⟨fetch, -, valid, -, inits, -, js, -, rfl⟩ := h
  rfl

end Node

end CopyTree

end Ilang
