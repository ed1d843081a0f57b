import Ilang.Target.HubSound

/-!
# The expressions that are translated well

A translation is right when both libraries accept it with the recorded sort, and both terms have one value wherever the symbols
of the two stand for the same functions. The functions have other names with smt-switch.
-/

namespace Ilang

open Smt

namespace AstExpr

/-- The functions of an expression have one meaning in two models, under the names of either translation. -/
def Agree (suffix : String) (e : AstExpr) (M N : Model) : Prop :=
  N.const = M.const ∧ ∀ f args s, .appFunc f args s ∈ e.subs → ∀ g h, f.z3FuncDecl = some g → f.func2Term suffix = some h →
    M.func g = N.func h

/-- The translations of an expression are well-formed, they have its recorded sort, and they have the same value. -/
def Sound (z3 : Z3) (suffix : String) (e : AstExpr) : Prop :=
  ∃ t u s, e.z3Term z3 suffix = some t ∧ e.smtTerm suffix = some u ∧ e.sort.srt? = some s ∧ t.check = some s ∧
    u.check = some s ∧ ∀ M N, Agree suffix e M N → t.eval M = u.eval N

/-- The sorts of a node are those that its operation is for, and its numbers read alike. -/
def Accepts : AstExpr → Prop
  | .var _ _ s => ∃ t, s.srt? = some t
  | .const c s => ∃ t, s.srt? = some t ∧ c.ReadsAlike t
  | .op o args _ => ∃ ss : List Srt, args.map sort = ss.map .ofSrt ∧ o.Accepts ss
  | .appFunc f args s => args ≠ [] ∧ args.map sort = f.args ∧ ∃ t, s.srt? = some t

/-! ### Arguments -/

theorem self_mem_subs (e : AstExpr) : e ∈ e.subs := by
  cases e <;> simp [subs]

theorem forall_mem_op {P : AstExpr → Prop} {o : AstOp} {args : List AstExpr} {s : AstSort} :
    (∀ m ∈ (AstExpr.op o args s).subs, P m) ↔ P (.op o args s) ∧ ∀ a ∈ args, ∀ m ∈ a.subs, P m := by
  simp only [subs, List.forall_mem_cons, mem_subsList, forall_exists_index, and_imp]
  exact and_congr_right fun _ => ⟨fun h a ha m hm => h m a ha hm, fun h m a ha hm => h a ha m hm⟩

theorem forall_mem_appFunc {P : AstExpr → Prop} {f : AstFunc} {args : List AstExpr} {s : AstSort} :
    (∀ m ∈ (AstExpr.appFunc f args s).subs, P m) ↔ P (.appFunc f args s) ∧ ∀ a ∈ args, ∀ m ∈ a.subs, P m := by
  simp only [subs, List.forall_mem_cons, mem_subsList, forall_exists_index, and_imp]
  exact and_congr_right fun _ => ⟨fun h a ha m hm => h m a ha hm, fun h m a ha hm => h a ha m hm⟩

theorem Agree.op {suffix : String} {o : AstOp} {args : List AstExpr} {s : AstSort} {M N : Model}
    (h : Agree suffix (.op o args s) M N) {a : AstExpr} (ha : a ∈ args) : Agree suffix a M N :=
  ⟨h.1, fun f as s hm => h.2 f as s (List.mem_cons_of_mem _ (mem_subsList.mpr ⟨a, ha, hm⟩))⟩

theorem Agree.appFunc {suffix : String} {f : AstFunc} {args : List AstExpr} {s : AstSort} {M N : Model}
    (h : Agree suffix (.appFunc f args s) M N) {a : AstExpr} (ha : a ∈ args) : Agree suffix a M N :=
  ⟨h.1, fun f as s hm => h.2 f as s (List.mem_cons_of_mem _ (mem_subsList.mpr ⟨a, ha, hm⟩))⟩

/-- The translations of arguments that are translated well. -/
structure SoundArgs (z3 : Z3) (suffix : String) (args : List AstExpr) (ts us : List Term) (ss : List Srt) : Prop where
  z3 : z3TermList z3 suffix args = some ts
  smt : smtTermList suffix args = some us
  sorts : args.map sort = ss.map .ofSrt
  pos : ∀ s ∈ ss, s.Pos
  z3_check : Term.checkList ts = some ss
  smt_check : Term.checkList us = some ss
  eval : ∀ M N, (∀ a ∈ args, Agree suffix a M N) → Term.evalList M ts = Term.evalList N us

theorem exists_soundArgs {z3 : Z3} {suffix : String} {args : List AstExpr} (h : ∀ a ∈ args, a.Sound z3 suffix) :
    ∃ ts us ss, SoundArgs z3 suffix args ts us ss := by
  induction args with
  | nil => exact ⟨[], [], [], rfl, rfl, rfl, by simp, rfl, rfl, fun _ _ _ => rfl⟩
  | cons a as ih =>
    obtain ⟨t, u, s, ht, hu, hs, htc, huc, heval⟩ := h a List.mem_cons_self
    obtain ⟨ts, us, ss, hargs⟩ := ih fun b hb => h b (List.mem_cons_of_mem a hb)
    obtain ⟨hsort, hpos⟩ := AstSort.srt?_eq_some.mp hs
    refine ⟨t :: ts, u :: us, s :: ss, ?_, ?_, ?_, ?_, ?_, ?_, fun M N hMN => ?_⟩
    · rw [z3TermList, ht, hargs.z3]
      rfl
    · rw [smtTermList, hu, hargs.smt]
      rfl
    · rw [List.map_cons, List.map_cons, hsort, hargs.sorts]
    · exact List.forall_mem_cons.mpr ⟨hpos, hargs.pos⟩
    · rw [Term.checkList, htc, hargs.z3_check]
      rfl
    · rw [Term.checkList, huc, hargs.smt_check]
      rfl
    · rw [Term.evalList, Term.evalList, heval M N (hMN a List.mem_cons_self),
        hargs.eval M N fun b hb => hMN b (List.mem_cons_of_mem a hb)]

theorem check_simplify (z3 : Z3) (t : Term) : (z3.simplify t).check = t.check := Term.check_congr (z3.eval_simplify t)

theorem map_ofSrt_inj {ss ts : List Srt} (h : ss.map AstSort.ofSrt = ts.map AstSort.ofSrt) : ss = ts :=
  List.map_injective_iff.mpr (fun _ _ => AstSort.ofSrt_inj) h

/-! ### Nodes -/

section Nodes

variable {z3 : Z3} {suffix : String}

theorem sound_var {n h : String} {s : AstSort} : (AstExpr.var n h s).Sound z3 suffix ↔ (AstExpr.var n h s).Accepts := by
  constructor
  · rintro ⟨t, u, r, -, -, hs, -⟩
    exact ⟨r, hs⟩
  · rintro ⟨r, hs⟩
    refine ⟨z3.simplify (.const ⟨formatStr n h suffix, r⟩), .const ⟨formatStr n h suffix, r⟩, r, ?_, ?_, hs, ?_, rfl, ?_⟩
    · rw [z3Term, hs, Option.map_some]
    · rw [smtTerm, hs, Option.map_some]
    · rw [check_simplify, Term.check]
    · intro M N hMN
      rw [z3.eval_simplify, Term.eval, Term.eval, hMN.1]

theorem agree_refl_const (c : AstVal) (s : AstSort) (M : Model) : Agree suffix (.const c s) M M :=
  ⟨rfl, fun f args r hm => by simp [subs] at hm⟩

theorem sound_const {c : AstVal} {s : AstSort} (hc : ConstOk c s) :
    (AstExpr.const c s).Sound z3 suffix ↔ (AstExpr.const c s).Accepts := by
  have hterms : ∀ r, s.srt? = some r → ∃ t u v w, c.term (fun x => x.val) s = some t ∧ c.term int64 s = some u ∧
      c.value (fun x => x.val) r = some v ∧ c.value int64 r = some w ∧ v.sort = r ∧ w.sort = r ∧
      (∀ M, t.eval M = some v) ∧ ∀ M, u.eval M = some w := by
    intro r hs
    obtain ⟨rfl, hpos⟩ := AstSort.srt?_eq_some.mp hs
    obtain ⟨t, v, ht, hv, hvs, hte⟩ := AstVal.exists_term (fun x => x.val) hc hpos
    obtain ⟨u, w, hu, hw, hws, hue⟩ := AstVal.exists_term int64 hc hpos
    exact ⟨t, u, v, w, ht, hu, hv, hw, hvs, hws, hte, hue⟩
  have hread : ∀ r, s.srt? = some r → (c.ReadsAlike r ↔ c.value (fun x => x.val) r = c.value int64 r) := by
    intro r hs
    obtain ⟨rfl, -⟩ := AstSort.srt?_eq_some.mp hs
    exact AstVal.readsAlike_iff hc
  constructor
  · rintro ⟨t', u', r, ht', hu', hs, -, -, heval⟩
    obtain ⟨t, u, v, w, ht, hu, hv, hw, -, -, hte, hue⟩ := hterms r hs
    rw [z3Term, ht, Option.map_some, Option.some.injEq] at ht'
    rw [smtTerm, hu, Option.some.injEq] at hu'
    have hvw := heval default default (agree_refl_const c s default)
    rw [← ht', ← hu', z3.eval_simplify, hte, hue] at hvw
    exact ⟨r, hs, (hread r hs).mpr (by rw [hv, hw, hvw])⟩
  · rintro ⟨r, hs, halike⟩
    obtain ⟨t, u, v, w, ht, hu, hv, hw, hvs, hws, hte, hue⟩ := hterms r hs
    have hvw := (hread r hs).mp halike
    rw [hv, hw] at hvw
    refine ⟨z3.simplify t, u, r, ?_, ?_, hs, ?_, ?_, fun M N _ => ?_⟩
    · rw [z3Term, ht, Option.map_some]
    · rw [smtTerm, hu]
    · rw [check_simplify, ← Term.eval_map_sort default t, hte, Option.map_some, hvs]
    · rw [← Term.eval_map_sort default u, hue, Option.map_some, hws]
    · rw [z3.eval_simplify, hte, hue, hvw]

theorem sound_op {o : AstOp} {args : List AstExpr} (hargs : ∀ a ∈ args, a.Sound z3 suffix) :
    (AstExpr.op o args (o.sortOf (args.map sort))).Sound z3 suffix ↔ (AstExpr.op o args (o.sortOf (args.map sort))).Accepts := by
  obtain ⟨ts, us, ss, h⟩ := exists_soundArgs hargs
  constructor
  · rintro ⟨t, u, s, -, hu, -, -, huc, -⟩
    rw [smtTerm, h.smt, Option.bind_some] at hu
    obtain ⟨p, hp, rfl⟩ := Option.map_eq_some_iff.mp hu
    rw [Term.check, h.smt_check, Option.bind_some] at huc
    rw [h.sorts] at hp
    exact ⟨ss, h.sorts, AstOp.accepts_of_check hp huc⟩
  · rintro ⟨rs, hrs, hacc⟩
    obtain rfl := map_ofSrt_inj (hrs.symm.trans h.sorts)
    obtain ⟨p, s, hz3, hsmt, hsort, hcheck⟩ := AstOp.exists_fits hacc h.pos
    rw [← h.sorts] at hz3 hsmt hsort
    refine ⟨z3.simplify (.op p ts), .op p us, s, ?_, ?_, hsort, ?_, ?_, fun M N hMN => ?_⟩
    · rw [z3Term, h.z3, hz3, Option.map_some]
    · rw [smtTerm, h.smt, Option.bind_some, hsmt, Option.map_some]
    · rw [check_simplify, Term.check, h.z3_check, Option.bind_some, hcheck]
    · rw [Term.check, h.smt_check, Option.bind_some, hcheck]
    · rw [z3.eval_simplify, Term.eval, Term.eval, h.eval M N fun a ha => hMN.op ha]

theorem mapM_srt? {ss : List Srt} (h : ∀ s ∈ ss, s.Pos) : (ss.map AstSort.ofSrt).mapM AstSort.srt? = some ss := by
  induction ss with
  | nil => rfl
  | cons s ss ih =>
    rw [List.map_cons, List.mapM_cons, AstOp.srt?_ofSrt (h s List.mem_cons_self),
      ih fun r hr => h r (List.mem_cons_of_mem s hr)]
    rfl

theorem eq_of_mapM_srt? {l : List AstSort} {ss : List Srt} (h : l.mapM AstSort.srt? = some ss) : l = ss.map .ofSrt := by
  induction l generalizing ss with
  | nil =>
    obtain rfl := Option.some.inj h
    rfl
  | cons s l ih =>
    rw [List.mapM_cons] at h
    obtain ⟨r, hr, h⟩ := Option.bind_eq_some_iff.mp h
    obtain ⟨rs, hrs, h⟩ := Option.bind_eq_some_iff.mp h
    obtain rfl := Option.some.inj h
    rw [List.map_cons, (AstSort.srt?_eq_some.mp hr).1, ih hrs]

theorem sound_appFunc {f : AstFunc} {args : List AstExpr} (hargs : ∀ a ∈ args, a.Sound z3 suffix) :
    (AstExpr.appFunc f args f.out).Sound z3 suffix ↔ (AstExpr.appFunc f args f.out).Accepts := by
  obtain ⟨ts, us, ss, h⟩ := exists_soundArgs hargs
  constructor
  · rintro ⟨t, u, s, -, hu, hs, -, huc, -⟩
    obtain ⟨g, hg, hu⟩ := Option.bind_eq_some_iff.mp hu
    rw [h.smt] at hu
    obtain rfl := Option.some.inj hu
    obtain ⟨hne, hg⟩ := Option.ite_none_left_eq_some.mp hg
    obtain ⟨rs, hrs, hg⟩ := Option.bind_eq_some_iff.mp hg
    obtain ⟨r, hr, rfl⟩ := Option.map_eq_some_iff.mp hg
    rw [Term.check, h.smt_check, Option.bind_some] at huc
    obtain ⟨rfl, -⟩ := Option.ite_none_right_eq_some.mp huc
    have hf := eq_of_mapM_srt? hrs
    refine ⟨fun hnil => hne ?_, h.sorts.trans hf.symm, s, hs⟩
    rw [hf, ← h.sorts, hnil, List.map_nil]
  · rintro ⟨hne, hf, s, hs⟩
    have hsym : ∀ pre suf, f.sym pre suf = some ⟨formatStr f.name pre suf, ss, s⟩ := by
      intro pre suf
      rw [AstFunc.sym, ← hf, h.sorts, mapM_srt? h.pos, Option.bind_some, hs, Option.map_some]
    have hargsne : f.args ≠ [] := fun hnil => hne (List.map_eq_nil_iff.mp (hf.trans hnil))
    have hsmt : f.func2Term suffix = some ⟨formatStr f.name f.hostRoot suffix, ss, s⟩ := (if_neg hargsne).trans (hsym _ _)
    have hz3 : f.z3FuncDecl = some ⟨formatStr f.name f.hostName "", ss, s⟩ := hsym _ _
    have hempty : ¬args.isEmpty = true := fun hnil => hne (List.isEmpty_iff.mp hnil)
    refine ⟨z3.simplify (.app ⟨formatStr f.name f.hostName "", ss, s⟩ ts), .app ⟨formatStr f.name f.hostRoot suffix, ss, s⟩ us, s,
      ?_, ?_, hs, ?_, ?_, fun M N hMN => ?_⟩
    · rw [z3Term, if_neg hempty, hz3, Option.bind_some, h.z3, Option.map_some]
    · rw [smtTerm, hsmt, Option.bind_some, h.smt, Option.map_some]
    · rw [check_simplify, Term.check, h.z3_check, Option.bind_some, if_pos rfl]
    · rw [Term.check, h.smt_check, Option.bind_some, if_pos rfl]
    · have hfunc := hMN.2 f args f.out (self_mem_subs _) _ _ hz3 hsmt
      rw [z3.eval_simplify, Term.eval, Term.eval, h.eval M N fun a ha => hMN.appFunc ha]
      congr 1
      funext vs
      simp only [Model.apply, hfunc]

end Nodes

theorem forall_sound_iff {z3 : Z3} {suffix : String} {e : AstExpr} (h : Recorded e) :
    (∀ m ∈ e.subs, m.Sound z3 suffix) ↔ ∀ m ∈ e.subs, m.Accepts := by
  induction h with
  | var n h s => simp only [subs, List.forall_mem_singleton, sound_var]
  | const hc => simp only [subs, List.forall_mem_singleton, sound_const hc]
  | op o _ ih =>
    rw [forall_mem_op, forall_mem_op, ← forall₂_congr ih]
    exact and_congr_left fun hsub => sound_op fun a ha => hsub a ha a (self_mem_subs a)
  | appFunc f _ ih =>
    rw [forall_mem_appFunc, forall_mem_appFunc, ← forall₂_congr ih]
    exact and_congr_left fun hsub => sound_appFunc fun a ha => hsub a ha a (self_mem_subs a)

end AstExpr

namespace AstHub

open AstExpr

/-- An expression made by calls that return, and every expression below it, is translated well by both libraries exactly when
every node has operands that its operation is for. -/
theorem built_sound_iff (z3 : Z3) (suffix : String) {e : AstExpr} (h : Built e) :
    (∀ m ∈ e.subs, m.Sound z3 suffix) ↔ ∀ m ∈ e.subs, m.Accepts :=
  forall_sound_iff h.recorded

/-- The sum of two variables. -/
theorem add_sound : (add (newBvVar "x" 8) (newBvVar "y" 8)).Sound default "" := by
  have hvar : ∀ n, Built (newBvVar n 8) := fun n => .var n "" (.bv 8) fun k => AstSort.noConfusion
  have hadd : Built (add (newBvVar "x" 8) (newBvVar "y" 8)) := .binary (.literal .add) (hvar "x") (hvar "y") rfl
  refine (built_sound_iff default "" hadd).mpr ?_ _ (self_mem_subs _)
  rw [show add (newBvVar "x" 8) (newBvVar "y" 8) = .op .add [newBvVar "x" 8, newBvVar "y" 8] (.bv 8) from rfl, forall_mem_op]
  refine ⟨⟨[.bv 8, .bv 8], rfl, .bvBin 8 rfl⟩, fun a ha => ?_⟩
  have hacc : ∀ n, ∀ m ∈ (newBvVar n 8).subs, m.Accepts := by
    intro n m hm
    rw [List.mem_singleton.mp hm]
    exact ⟨.bv 8, rfl⟩
  rcases List.mem_pair.mp ha with rfl | rfl
  · exact hacc "x"
  · exact hacc "y"

/-- Nothing compares the upper bound of an extraction with the width of the operand. -/
theorem not_sound_extract : ¬∀ (z3 : Z3) (suffix : String) (e : AstExpr), Built e → e.Sound z3 suffix := by
  intro h
  have hvar : Built (newBvVar "x" 8) := .var "x" "" (.bv 8) fun k => AstSort.noConfusion
  obtain ⟨t, u, s, -, hu, -, -, hcheck, -⟩ := h default "" (extract (newBvVar "x" 8) 9 3) (.unary (.extract 9 3) hvar rfl)
  have hterm : (extract (newBvVar "x" 8) 9 3).smtTerm "" = some (.op (.extract 9 3) [.const ⟨"x", .bv 8⟩]) := rfl
  rw [hterm] at hu
  obtain rfl := Option.some.inj hu
  have hnone : (Term.op (.extract 9 3) [.const ⟨"x", .bv 8⟩]).check = none := rfl
  rw [hnone] at hcheck
  cases hcheck

end AstHub

end Ilang
