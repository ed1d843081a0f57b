import Ilang.Target.JsonVars

/-!
# A hierarchy comes back from JSON

After the variables the deserializer makes the functions, then the other nodes in the order of the file, each from nodes that are
there already, and fills in the ILAs last. A node of the file becomes the expression it stood for, with the new variables and
functions. What is not as it was is said by `DataRestored`: an update is set for every state, and a fetch condition is always there.
-/

namespace Ilang

open Smt

/-! ### What comes back -/

section Restored

variable (ρ : Var → Var) (φ : Func → Func)

/-- The new variables and functions are like the old ones. -/
structure Relabels : Prop where
  name : ∀ v, (ρ v).name = v.name
  sort : ∀ v, (ρ v).sort = v.sort
  out : ∀ f, (φ f).out = f.out
  args : ∀ f, (φ f).args = f.args

/-- An instruction with an update for every state. -/
structure InstrRestored (d : IlaData) (i j : Instr) : Prop where
  name : j.name = i.name
  decode : j.decode = i.decode.map (Expr.relabel ρ φ)
  update : ∀ v ∈ d.states, j.update v.name = some ((stateUpdCmpl i v).relabel ρ φ)
  other : ∀ name, name ∉ d.states.map Var.name → j.update name = none

/-- An ILA with a fetch condition, which is one where there was none. -/
structure DataRestored (d e : IlaData) : Prop where
  name : e.name = d.name
  vars : ∀ k w, w ∈ e.vars k ↔ ∃ v ∈ d.vars k, w = ρ v
  inits : e.inits = d.inits.map (Expr.relabel ρ φ)
  fetch : e.fetch = some ((d.fetch.map (Expr.relabel ρ φ)).getD (.const (.bv 1 1)))
  valid : e.valid = d.valid.map (Expr.relabel ρ φ)
  instrs : List.Forall₂ (InstrRestored ρ φ d) d.instrs e.instrs

end Restored

namespace J2IDes

open I2JSer

variable {t : GraphTree} {s s' : J2IDes}

/-! ### Functions -/

/-- The loop over the functions of the file. -/
structure FuncLoop (s : J2IDes) (pre : List Func) (s' : J2IDes) : Prop where
  idExprMap : s'.idExprMap = s.idExprMap
  func : ∀ f ∈ pre, ∃ id, s'.idFuncMap.lookup f.id = some (newFunc id f)
  entry : ∀ q f', s'.idFuncMap.lookup q = some f' → f'.id < s'.next ∧ ∃ f ∈ pre, f.id = q
  inj : ∀ q q' f f', s'.idFuncMap.lookup q = some f → s'.idFuncMap.lookup q' = some f' → f.id = f'.id → q = q'

theorem FuncLoop.step {fs pre : List Func} {f : Func} (hfs : ∀ f ∈ fs, ∀ f' ∈ fs, f.id = f'.id → f = f')
    (hpre : ∀ f' ∈ pre, f' ∈ fs) (hf : f ∈ fs) (hl : FuncLoop s pre s') :
    ∃ s'', s'.desFunc (funcJson f) = some s'' ∧ FuncLoop s (pre ++ [f]) s'' := by
  rw [desFunc_funcJson]
  refine ⟨_, rfl, ?_⟩
  cases hlookup : s'.idFuncMap.lookup f.id with
  | some f' =>
    obtain ⟨-, f₀, hf₀, hid⟩ := hl.entry _ _ hlookup
    obtain rfl := hfs f₀ (hpre f₀ hf₀) f hf hid
    refine ⟨hl.idExprMap, fun g hg => ?_, fun q g hg => ?_, hl.inj⟩
    · rcases List.mem_append.mp hg with hg | hg
      · exact hl.func g hg
      · rw [List.mem_singleton.mp hg]
        exact hl.func f₀ hf₀
    · obtain ⟨hlt, g', hg', heq⟩ := hl.entry q g hg
      exact ⟨hlt, g', List.mem_append_left _ hg', heq⟩
  | none =>
    refine ⟨hl.idExprMap, fun g hg => ?_, fun q g hg => ?_, fun q q' g g' hg hg' heq => ?_⟩
    · rcases List.mem_append.mp hg with hg | hg
      · obtain ⟨id, hid⟩ := hl.func g hg
        exact ⟨id, Entries.lookup_concat.mpr (.inl hid)⟩
      · rw [List.mem_singleton.mp hg]
        exact ⟨s'.next, Entries.lookup_concat.mpr (.inr ⟨hlookup, rfl, rfl⟩)⟩
    · rcases Entries.lookup_concat.mp hg with hg | ⟨-, rfl, rfl⟩
      · obtain ⟨hlt, g', hg', heq⟩ := hl.entry q g hg
        exact ⟨Nat.lt_succ_of_lt hlt, g', List.mem_append_left _ hg', heq⟩
      · exact ⟨Nat.lt_succ_self _, f, List.mem_append_right _ List.mem_cons_self, rfl⟩
    · rcases Entries.lookup_concat.mp hg with hg | ⟨-, rfl, rfl⟩ <;> rcases Entries.lookup_concat.mp hg' with hg' | ⟨-, rfl, rfl⟩
      · exact hl.inj q q' g g' hg hg' heq
      · have hlt := (hl.entry q g hg).1
        rw [heq] at hlt
        exact absurd hlt (Nat.lt_irrefl _)
      · have hlt := (hl.entry q' g' hg').1
        rw [← heq] at hlt
        exact absurd hlt (Nat.lt_irrefl _)
      · rfl

section Nodes

variable {ρ : Var → Var} {φ : Func → Func}

/-- The identities of a part of the file have their expressions. -/
def Reads (ρ : Var → Var) (φ : Func → Func) (s : J2IDes) (ns : List Node) : Prop :=
  ∀ n ∈ ns, s.idExprMap.lookup n.ptr = some (n.expr.relabel ρ φ)

/-- The loop over the nodes of the file. -/
structure NodeLoop (t : GraphTree) (ρ : Var → Var) (φ : Func → Func) (s : J2IDes) (pre : List Node) (s' : J2IDes) : Prop where
  idFuncMap : s'.idFuncMap = s.idFuncMap
  var : ∀ v, (∃ k, t.ila.Has k v) → s'.Knows v (ρ v)
  reads : s'.Reads ρ φ pre
  has : ∀ q, s'.Has q → (∃ v, (∃ k, t.ila.Has k v) ∧ v.id = q) ∨ ∃ m ∈ pre, m.ptr = q

theorem mapM_lookup {ns : List Node} (h : s.Reads ρ φ ns) :
    ((ns.map Node.ptr).mapM fun id => s.idExprMap.lookup id) = some (ns.map fun n => n.expr.relabel ρ φ) := by
  induction ns with
  | nil => rfl
  | cons n ns ih =>
    rw [Reads, List.forall_mem_cons] at h
    rw [List.map_cons, List.mapM_cons, h.1, ih h.2]
    rfl

theorem desArgs_eq {args : List Node} {j : Json} (hj : j.natsAt "a" = some (args.map Node.ptr)) (hargs : s.Reads ρ φ args) :
    s.desArgs j = some (args.map fun a => a.expr.relabel ρ φ) := by
  rw [desArgs, hj, Option.bind_some, mapM_lookup hargs]

theorem check_args (hr : Relabels ρ φ) {p : Nat} {o : ExprOp} {args : List Node} {s : Srt}
    (h : (Node.app p (.op o) args).expr.check = some s) :
    o.check ((args.map fun a => a.expr.relabel ρ φ).map Expr.sort) = some s := by
  rw [Node.expr, Expr.check, Option.bind_eq_some_iff] at h
  obtain ⟨ss, hss, ho⟩ := h
  have hsorts := Expr.sortList_of_checkList hss
  rw [Expr.sortList_eq_map, Node.exprList_eq_map, List.map_map] at hsorts
  have hrelabel : (args.map fun a => a.expr.relabel ρ φ).map Expr.sort = ss := by
    rw [List.map_map, ← hsorts]
    exact List.map_congr_left fun a _ => Expr.sort_relabel hr.sort hr.out a.expr
  rw [hrelabel]
  exact ho

theorem desExprNew_eq (hr : Relabels ρ φ) {m : Node} (hvar : m.isVar = false)
    (hcheck : ∃ srt, m.expr.check = some srt) (hconst : ∀ p c, m = .leaf p (.const c) → c.Made)
    (hfunc : ∀ f, m.func? = some f → s.idFuncMap.lookup f.id = some (φ f)) (hargs : s.Reads ρ φ m.args) :
    s.desExprNew (nodeJson m) = some (m.expr.relabel ρ φ) := by
  cases m with
  | leaf p l =>
    cases l with
    | var v => cases hvar
    | const c =>
      have huid : (nodeJson (.leaf p (.const c))).natAt "u" = some ExprTypeId.kConst := Json.natAt_object rfl
      have hsort : (nodeJson (.leaf p (.const c))).field "s" = some (serSort c.sort) := Json.field_object.trans rfl
      have hval : (nodeJson (.leaf p (.const c))).field "v" = some (I2JSer.serConstVal c) := Json.field_object.trans rfl
      rw [desExprNew, huid, Option.bind_some, if_pos rfl, hsort, Option.bind_some, hval, Option.bind_some]
      exact desExprConst_serConstVal (hconst p c rfl)
  | app p hd args =>
    cases hd with
    | op o =>
      have huid : (nodeJson (.app p (.op o) args)).natAt "u" = some ExprTypeId.kOp := Json.natAt_object rfl
      have hop : (nodeJson (.app p (.op o) args)).natAt "o" = some o.uid := Json.natAt_object rfl
      have hparams : (nodeJson (.app p (.op o) args)).natsAt "p" = some o.params := Json.natsAt_object rfl
      have hlist : (nodeJson (.app p (.op o) args)).natsAt "a" = some (args.map Node.ptr) := Json.natsAt_object rfl
      obtain ⟨srt, hsrt⟩ := hcheck
      rw [desExprNew, huid, Option.bind_some, if_neg (by decide), if_pos rfl, hop, Option.bind_some,
        if_neg o.uid_ne_applyFunc, desArgs_eq hlist hargs, Option.bind_some, hparams, Option.bind_some,
        desExprOp_uid (check_args hr hsrt), Node.expr, Expr.relabel, Expr.relabelList_eq_map, Node.exprList_eq_map, List.map_map]
      rfl
    | appFunc f =>
      have huid : (nodeJson (.app p (.appFunc f) args)).natAt "u" = some ExprTypeId.kOp := Json.natAt_object rfl
      have hop : (nodeJson (.app p (.appFunc f) args)).natAt "o" = some uidApplyFunc := Json.natAt_object rfl
      have hid : (nodeJson (.app p (.appFunc f) args)).natAt "f" = some f.id := Json.natAt_object rfl
      have hlist : (nodeJson (.app p (.appFunc f) args)).natsAt "a" = some (args.map Node.ptr) := Json.natsAt_object rfl
      rw [desExprNew, huid, Option.bind_some, if_neg (by decide), if_pos rfl, hop, Option.bind_some, if_pos rfl, hid,
        Option.bind_some, hfunc f rfl, Option.bind_some, desArgs_eq hlist hargs, Node.expr, Expr.relabel,
        Expr.relabelList_eq_map, Node.exprList_eq_map, List.map_map]
      rfl

theorem exists_of_isVar {m : Node} (h : m.isVar = true) : ∃ p v, m = .leaf p (.var v) := by
  cases m with
  | app p hd args => cases h
  | leaf p l =>
    cases l with
    | const c => cases h
    | var v => exact ⟨p, v, rfl⟩

theorem NodeLoop.step (h : Exportable t) (hr : Relabels ρ φ)
    (hcheck : ∀ m ∈ visits t.roots, ∃ srt, m.expr.check = some srt)
    (hfunc : ∀ f ∈ (written t).filterMap Node.func?, s.idFuncMap.lookup f.id = some (φ f))
    {pre post : List Node} {m : Node} (heq : written t = pre ++ m :: post) (hl : NodeLoop t ρ φ s pre s') :
    ∃ s'', s'.desExpr (nodeJson m) = some s'' ∧ NodeLoop t ρ φ s (pre ++ [m]) s'' := by
  have hm : m ∈ written t := by
    rw [heq]
    exact List.mem_append_right _ List.mem_cons_self
  have hvisit := Exportable.mem_visits_of_written hm
  have hpre {n : Node} (hn : n ∈ pre) : n ∈ visits t.roots := by
    refine Exportable.mem_visits_of_written ?_
    rw [heq]
    exact List.mem_append_left _ hn
  obtain ⟨root, hroot, hsub⟩ := mem_visits.mp hvisit
  rw [desExpr, natAt_nodeJson, Option.bind_some]
  cases hlookup : s'.idExprMap.lookup m.ptr with
  | some x =>
    have hread : s'.idExprMap.lookup m.ptr = some (m.expr.relabel ρ φ) := by
      rcases hl.has m.ptr (Entries.name_mem_of_lookup hlookup) with ⟨v, hv, hid⟩ | ⟨n, hn, hptr⟩
      · obtain rfl : Node.ofVar v = m := h.eq_of_ptr (Exportable.ofVar_mem hv) hvisit hid
        exact hl.var v hv
      · obtain rfl := h.eq_of_ptr (hpre hn) hvisit hptr
        exact hl.reads n hn
    refine ⟨s', rfl, hl.idFuncMap, hl.var, fun n hn => ?_, fun q hq => (hl.has q hq).imp_right fun hex => ?_⟩
    · rcases List.mem_append.mp hn with hn | hn
      · exact hl.reads n hn
      · rw [List.mem_singleton.mp hn]
        exact hread
    · obtain ⟨n, hn, hptr⟩ := hex
      exact ⟨n, List.mem_append_left _ hn, hptr⟩
  | none =>
    have hvar : m.isVar = false := by
      rw [← Bool.not_eq_true]
      intro hvar
      obtain ⟨p, v, rfl⟩ := exists_of_isVar hvar
      obtain ⟨rfl, hv⟩ := h.vars root hroot p v hsub
      have hknow := hl.var v hv
      rw [Knows, show v.id = (Node.leaf v.id (.var v)).ptr from rfl, hlookup] at hknow
      cases hknow
    have hargs : s'.Reads ρ φ m.args := by
      intro a ha
      obtain ⟨n, hn, hptr⟩ := List.mem_map.mp ((ordered_see_visits t.roots (by simp [Ordered])) pre m post heq a ha)
      have hvisita : a ∈ visits t.roots := mem_visits.mpr
        ⟨root, hroot, Node.subs_trans hsub (Node.mem_subs_iff.mpr (.inr ⟨a, ha, a.mem_subs_self⟩))⟩
      obtain rfl := h.eq_of_ptr (hpre hn) hvisita hptr
      exact hl.reads n hn
    have hfunc' (f : Func) (hf : m.func? = some f) : s'.idFuncMap.lookup f.id = some (φ f) := by
      rw [hl.idFuncMap]
      exact hfunc f (List.mem_filterMap.mpr ⟨m, hm, hf⟩)
    have hconst (p : Nat) (c : ConstVal) (hmc : m = .leaf p (.const c)) : c.Made := by
      rw [hmc] at hsub
      exact h.consts root hroot p c hsub
    have hnew := desExprNew_eq hr hvar (hcheck m hvisit) hconst hfunc' hargs
    refine ⟨_, (congrArg (Option.map _) hnew).trans rfl, hl.idFuncMap, fun v hv => ?_, fun n hn => ?_, fun q hq => ?_⟩
    · exact Entries.lookup_concat.mpr (.inl (hl.var v hv))
    · rcases List.mem_append.mp hn with hn | hn
      · exact Entries.lookup_concat.mpr (.inl (hl.reads n hn))
      · rw [List.mem_singleton.mp hn]
        exact Entries.lookup_concat.mpr (.inr ⟨hlookup, rfl, rfl⟩)
    · simp only [Has, List.map_append, List.mem_append, List.map_cons, List.map_nil, List.mem_singleton] at hq
      rcases hq with hq | rfl
      · refine (hl.has q hq).imp_right fun hex => ?_
        obtain ⟨n, hn, hptr⟩ := hex
        exact ⟨n, List.mem_append_left _ hn, hptr⟩
      · exact .inr ⟨m, List.mem_append_right _ List.mem_cons_self, rfl⟩

end Nodes

/-! ### Instructions -/

theorem lookup_setUpdate {i : Instr} {state n : String} {e : Expr} :
    (i.setUpdate state e).updates.lookup n =
      if n = state ∧ i.updates.lookup state = none then some (some e) else i.updates.lookup n := by
  rw [Instr.setUpdate]
  cases hstate : i.updates.lookup state with
  | some x => simp
  | none =>
    rw [if_neg (by simp)]
    simp only [and_true]
    rw [Entries.lookup_append, List.lookup_cons]
    by_cases hn : n = state
    · have hnone : (i.updates.takeWhile fun u => u.1 < state).lookup n = none := by
        rw [Entries.lookup_eq_none_iff] at hstate ⊢
        rw [hn]
        exact fun hmem => hstate (((List.takeWhile_sublist _).map Prod.fst).subset hmem)
      rw [hnone, hn, beq_self_eq_true, if_pos rfl]
      rfl
    · rw [beq_false_of_ne hn, if_neg hn]
      change ((i.updates.takeWhile _).lookup n).or ((i.updates.dropWhile _).lookup n) = _
      rw [← Entries.lookup_append, List.takeWhile_append_dropWhile]

theorem foldlM_desUpdate {update : Json} {states : List Var} {val : String → Expr} {i : Instr} (hi : i.updates = [])
    (hval : ∀ w ∈ states, ∃ id, update.natAt w.name = some id ∧ s.idExprMap.lookup id = some (val w.name)) :
    ∃ j, states.foldlM (s.desUpdate update) i = some j ∧ j.name = i.name ∧ j.decode = i.decode ∧
      ∀ n, j.updates.lookup n = if n ∈ states.map Var.name then some (some (val n)) else none := by
  refine Position.exists_foldlM (P := fun (pre : List Var) (j : Instr) => j.name = i.name ∧ j.decode = i.decode ∧
    ∀ n, j.updates.lookup n = if n ∈ pre.map Var.name then some (some (val n)) else none) ?_ ?_
  · rw [hi]
    exact ⟨rfl, rfl, fun n => rfl⟩
  · rintro pre w post j rfl ⟨hname, hdecode, hupdates⟩
    obtain ⟨id, hid, hexpr⟩ := hval w (List.mem_append_right _ List.mem_cons_self)
    have hset : ∀ n, (j.setUpdate w.name (val w.name)).updates.lookup n =
        if n ∈ (pre ++ [w]).map Var.name then some (some (val n)) else none := by
      intro n
      rw [lookup_setUpdate, hupdates, hupdates, List.map_append, List.map_singleton]
      simp only [List.mem_append, List.mem_singleton, ite_eq_right_iff, reduceCtorEq, imp_false]
      by_cases hn : n = w.name
      · subst hn
        by_cases hpre : w.name ∈ pre.map Var.name <;> simp [hpre]
      · simp [hn]
    refine ⟨j.setUpdate w.name (val w.name), ?_, ?_, ?_, hset⟩
    · rw [desUpdate, hid, Option.bind_some, hexpr]
      rfl
    · rw [← hname, Instr.setUpdate]
      split <;> rfl
    · rw [← hdecode, Instr.setUpdate]
      split <;> rfl

section Fill

variable {ρ : Var → Var} {φ : Func → Func} {g : IlaGraph} {e : IlaData}

theorem expr_next (i : InstrGraph) (v : Var) : (i.next v).expr = stateUpdCmpl i.instr v := by
  rw [InstrGraph.next, stateUpdCmpl, Instr.update, ← i.updates_expr, Entries.lookup_map]
  cases i.updates.lookup v.name with
  | none => rfl
  | some n => cases n <;> rfl

/-- The variables of an ILA are the new ones. -/
def Renamed (ρ : Var → Var) (d e : IlaData) : Prop := ∀ k w, w ∈ e.vars k ↔ ∃ v ∈ d.vars k, w = ρ v

theorem desInstr_eq (hr : Relabels ρ φ) (hread : s.Reads ρ φ (visits t.roots)) (hg : g ∈ t.graphs) {i : InstrGraph}
    (hi : i ∈ g.instrs) (hdecode : i.decode ≠ none) (hproper : i.instr.Proper) (hvars : Renamed ρ g.data e)
    (hnodup : (g.data.states.map Var.name).Nodup) :
    ∃ j, s.desInstr e (instrJson g i) = some j ∧ InstrRestored ρ φ g.data i.instr j := by
  obtain ⟨d, hd⟩ := Option.ne_none_iff_exists'.mp hdecode
  have hroots (n : Node) (hn : n ∈ i.roots g) : n ∈ visits t.roots := by
    refine mem_visits.mpr ⟨n, List.mem_flatMap.mpr ⟨g, hg, ?_⟩, n.mem_subs_self⟩
    have hmem : n ∈ g.instrs.flatMap (InstrGraph.roots g) := List.mem_flatMap.mpr ⟨i, hi, hn⟩
    simp only [IlaGraph.roots, List.mem_append]
    tauto
  have hdroot : d ∈ i.roots g := by
    rw [InstrGraph.roots, hd]
    exact List.mem_append_left _ List.mem_cons_self
  have hdexpr : i.instr.decode = some d.expr := by rw [← i.decode_expr, hd, Option.map_some]
  have hdsort : (d.expr.relabel ρ φ).sort = .bool := by
    rw [Expr.sort_relabel hr.sort hr.out]
    exact Expr.sort_of_check (hproper.decode d.expr hdexpr)
  let update : Json := .object (g.data.states.map fun v => (v.name, .nat (i.next v).ptr))
  let upds : List (String × Expr) := g.data.states.map fun v => (v.name, (i.next v).expr.relabel ρ φ)
  let val (n : String) : Expr := (upds.lookup n).getD (.const (.bool true))
  have hkeys {β : Type} (f : Var → β) : ((g.data.states.map fun v => (v.name, f v)).map Prod.fst).Nodup := by
    rw [List.map_map]
    exact hnodup
  have hupds {v : Var} (hv : v ∈ g.data.states) : val v.name = (i.next v).expr.relabel ρ φ := by
    change (upds.lookup v.name).getD _ = _
    rw [Entries.lookup_of_mem (p := (v.name, (i.next v).expr.relabel ρ φ)) (hkeys _) (List.mem_map_of_mem hv)]
    rfl
  have hstate {w : Var} : w ∈ e.states ↔ ∃ v ∈ g.data.states, w = ρ v := hvars .state w
  have hval : ∀ w ∈ e.states, ∃ id, update.natAt w.name = some id ∧
      s.idExprMap.lookup id = some (val w.name) := by
    intro w hw
    obtain ⟨v, hv, rfl⟩ := hstate.mp hw
    refine ⟨(i.next v).ptr, ?_, ?_⟩
    · rw [hr.name]
      exact Json.natAt_object (Entries.lookup_of_mem (p := (v.name, Json.nat (i.next v).ptr)) (hkeys _) (List.mem_map_of_mem hv))
    · rw [hr.name, hupds hv]
      exact hread _ (hroots _ (List.mem_append_right _ (List.mem_map_of_mem hv)))
  obtain ⟨j, hrun, hjname, hjdecode, hjupdates⟩ := foldlM_desUpdate
    (i := Instr.setDecode (d.expr.relabel ρ φ) ⟨s.next, Instr.newName e.instrs.length i.instr.name, none, [], none⟩) rfl hval
  have hmem (n : String) : n ∈ e.states.map Var.name ↔ n ∈ g.data.states.map Var.name := by
    simp only [List.mem_map, hstate]
    constructor
    · rintro ⟨-, ⟨v, hv, rfl⟩, rfl⟩
      exact ⟨v, hv, (hr.name v).symm⟩
    · rintro ⟨v, hv, rfl⟩
      exact ⟨ρ v, ⟨v, hv, rfl⟩, hr.name v⟩
  refine ⟨j, ?_, ?_, ?_, fun v hv => ?_, fun n hn => ?_⟩
  · have hstr : (instrJson g i).strAt "n" = some i.instr.name := Json.strAt_object rfl
    have hid : (instrJson g i).natAt "d" = some d.ptr := by
      rw [instrJson, hd]
      exact Json.natAt_object rfl
    have hfield : (instrJson g i).field "u" = some update := Json.field_object.trans rfl
    rw [desInstr, hstr, Option.bind_some, hid, Option.bind_some, hread d (hroots d hdroot), Option.bind_some, if_pos hdsort,
      hfield, Option.bind_some]
    exact hrun
  · rw [hjname]
    exact if_neg hproper.name
  · rw [hjdecode, hdexpr]
    rfl
  · rw [Instr.update, hjupdates, if_pos ((hmem _).mpr (List.mem_map_of_mem hv)), hupds hv, expr_next]
    rfl
  · rw [Instr.update, hjupdates, if_neg fun h => hn ((hmem n).mp h)]
    rfl

theorem Renamed.congr {d e' : IlaData} (h : Renamed ρ d e) (hvars : e'.vars = e.vars) : Renamed ρ d e' := by
  intro k w
  rw [hvars]
  exact h k w

theorem names_restored {d : IlaData} {is js : List Instr} (h : List.Forall₂ (InstrRestored ρ φ d) is js) :
    js.map Instr.name = is.map Instr.name := by
  induction h with
  | nil => rfl
  | cons hij _ ih => rw [List.map_cons, List.map_cons, hij.name, ih]

/-- The loop over the instructions of an ILA. -/
structure InstrLoop (ρ : Var → Var) (φ : Func → Func) (s : J2IDes) (g : IlaGraph) (e : IlaData) (pre : List InstrGraph)
    (r : IlaData × J2IDes) : Prop where
  data : r.1 = { e with instrs := r.1.instrs }
  idExprMap : r.2.idExprMap = s.idExprMap
  instrs : List.Forall₂ (InstrRestored ρ φ g.data) (pre.map InstrGraph.instr) r.1.instrs

theorem InstrLoop.step (hr : Relabels ρ φ) (hread : s.Reads ρ φ (visits t.roots)) (hg : g ∈ t.graphs) (hcomplete : g.Complete)
    (hproper : ∀ i ∈ g.data.instrs, i.Proper) (hnames : (g.data.instrs.map Instr.name).Nodup) (hvars : Renamed ρ g.data e)
    (hnodup : (g.data.states.map Var.name).Nodup) {pre post : List InstrGraph} {i : InstrGraph} {r : IlaData × J2IDes}
    (heq : g.instrs = pre ++ i :: post) (hl : InstrLoop ρ φ s g e pre r) :
    ∃ r', desInstrs r (instrJson g i) = some r' ∧ InstrLoop ρ φ s g e (pre ++ [i]) r' := by
  have hi : i ∈ g.instrs := by
    rw [heq]
    exact List.mem_append_right _ List.mem_cons_self
  have hread' : r.2.Reads ρ φ (visits t.roots) := by
    intro n hn
    rw [hl.idExprMap]
    exact hread n hn
  have hvars' : Renamed ρ g.data r.1 := by
    refine hvars.congr (funext fun k => ?_)
    rw [hl.data]
    cases k <;> rfl
  rw [← g.instrs_instr] at hproper hnames
  obtain ⟨j, hj, hrestored⟩ := desInstr_eq hr hread' hg hi (hcomplete.decode i hi)
    (hproper i.instr (List.mem_map_of_mem hi)) hvars' hnodup
  have hfree : j.name ∉ r.1.instrs.map Instr.name := by
    rw [names_restored hl.instrs, hrestored.name]
    rw [heq, List.map_append, List.map_append, List.map_cons, List.map_cons, List.nodup_append] at hnames
    exact fun hmem => hnames.2.2 _ hmem _ List.mem_cons_self rfl
  have hadd : r.1.addInstr j = { e with instrs := r.1.instrs ++ [j] } := by
    rw [IlaData.addInstr, KeyVec.pushBack_of_notMem hfree, hl.data]
  refine ⟨_, congrArg (Option.map _) hj, ?_, hl.idExprMap, ?_⟩
  · change r.1.addInstr j = { e with instrs := (r.1.addInstr j).instrs }
    rw [hadd]
  · change List.Forall₂ _ _ (r.1.addInstr j).instrs
    rw [hadd, List.map_append, List.map_singleton]
    exact List.rel_append hl.instrs (.cons hrestored .nil)

end Fill

end J2IDes

/-! ### The ILA of a name -/

namespace GraphTree

variable {R R' : IlaGraph → IlaData → Prop} {t : GraphTree} {r : Ila} {name : String}

theorem RelList.mapData {f : IlaData → IlaData} {cs : List GraphTree} (ih : ∀ c ∈ cs, ∀ r, c.Rel R r → c.Rel R' (r.mapData f))
    {rs : List Ila} (h : RelList R cs rs) : RelList R' cs (Ila.mapDataList f rs) := by
  induction cs generalizing rs with
  | nil =>
    cases rs with
    | nil => trivial
    | cons r rs => exact h.elim
  | cons c cs ihcs =>
    cases rs with
    | nil => exact h.elim
    | cons r rs => exact ⟨ih c List.mem_cons_self r h.1, ihcs (fun d hd => ih d (List.mem_cons_of_mem c hd)) h.2⟩

theorem Rel.mapData {f : IlaData → IlaData} (h : t.Rel R r) (hf : ∀ g ∈ t.graphs, ∀ e, R g e → R' g (f e)) :
    t.Rel R' (r.mapData f) := by
  induction t using ind generalizing r with
  | mk g cs ih =>
    cases r with
    | mk e es =>
      refine ⟨hf g (mem_graphs_mk.mpr (.inl rfl)) e h.1, RelList.mapData (fun c hc r hr => ih c hc hr ?_) h.2⟩
      exact fun g' hg' => hf g' (mem_graphs_mk.mpr (.inr ⟨c, hc, hg'⟩))

theorem RelList.find?_eq_none {cs : List GraphTree} (ih : ∀ c ∈ cs, ∀ r, c.Rel R r → r.find? name = none) {rs : List Ila}
    (h : RelList R cs rs) : Ila.findList? name rs = none := by
  induction cs generalizing rs with
  | nil =>
    cases rs with
    | nil => rfl
    | cons r rs => exact h.elim
  | cons c cs ihcs =>
    cases rs with
    | nil => exact h.elim
    | cons r rs =>
      rw [Ila.findList?, ih c List.mem_cons_self r h.1, Option.none_or]
      exact ihcs (fun d hd => ih d (List.mem_cons_of_mem c hd)) h.2

theorem Rel.find?_eq_none (h : t.Rel R r) (hname : ∀ g e, R g e → e.name = g.data.name)
    (hfree : name ∉ t.graphs.map fun g => g.data.name) : r.find? name = none := by
  induction t using ind generalizing r with
  | mk g cs ih =>
    cases r with
    | mk e es =>
      have hne : e.name ≠ name := by
        rw [hname g e h.1]
        rintro rfl
        exact hfree (List.mem_map_of_mem (f := fun g : IlaGraph => g.data.name) (mem_graphs_mk.mpr (.inl rfl)))
      rw [Ila.find?, if_neg hne]
      refine RelList.find?_eq_none (fun c hc r hr => ih c hc hr fun hmem => hfree ?_) h.2
      obtain ⟨g', hg', heq⟩ := List.mem_map.mp hmem
      exact List.mem_map.mpr ⟨g', mem_graphs_mk.mpr (.inr ⟨c, hc, hg'⟩), heq⟩

end GraphTree

namespace J2IDes

open I2JSer

variable {t : GraphTree} {s s' : J2IDes} {ρ : Var → Var} {φ : Func → Func}

/-- The ILAs of some names are filled in, and the others are not. -/
def Stage (ρ : Var → Var) (φ : Func → Func) (done : List String) (g : IlaGraph) (e : IlaData) : Prop :=
  if g.data.name ∈ done then DataRestored ρ φ g.data e else Blank g e ∧ Renamed ρ g.data e

theorem Stage.name {done : List String} {g : IlaGraph} {e : IlaData} (h : Stage ρ φ done g e) : e.name = g.data.name := by
  rw [Stage] at h
  split at h
  · exact h.name
  · exact h.1.name

theorem Reads.congr {ns : List Node} (h : s.Reads ρ φ ns) (hexprs : s'.idExprMap = s.idExprMap) : s'.Reads ρ φ ns := by
  intro n hn
  rw [hexprs]
  exact h n hn

end J2IDes

end Ilang
