import Ilang.Target.VerilogGen
import Ilang.Target.Z3Adapter

/-!
# Generated Verilog against the solver

The wires that the generator writes for an expression, and for every expression before it, against the values
that Z3 gives the expression and its sub-expressions. The wires all agree exactly when every application in the
expression is one whose text has the value of its operator (`OpSafe`), on the values of its arguments.
-/

namespace Ilang

open Smt

namespace VerilogGen

variable (κ : MemConfig)

/-- The application at a node is one whose text is right on the values of the arguments. -/
def SafeAt (ν : Valuation) : Node → Prop
  | .app _ (.op o) args => ∀ vs, Expr.evalList ν (Node.exprList args) = some vs → OpSafe κ o args vs
  | _ => True

/-- Every application in an expression is. -/
def Safe (ν : Valuation) (n : Node) : Prop := ∀ m ∈ n.subs, SafeAt κ ν m

/-- The wire of an expression holds the value of the expression. -/
def WireOk (ν : Valuation) (n : Node) : Prop :=
  (meaning κ ν).denote (gen κ) n = some ((n.expr.eval ν).bind (netAs (κ.nodeDecl n)))

/-- The nets of the arguments of an application. -/
def argNets (args : List Node) (vs : List Value) : List (Option Verilog.Net) :=
  List.zipWith (fun a v => netAs (κ.nodeDecl a) v) args vs

variable {κ} {ν : Valuation} {args : List Node}

theorem denoteList_eq {vs : List Value} (hvs : Expr.evalList ν (Node.exprList args) = some vs)
    (hargs : ∀ a ∈ args, WireOk κ ν a) : (meaning κ ν).denoteList (gen κ) args = some (argNets κ args vs) := by
  induction args generalizing vs with
  | nil =>
    obtain rfl : vs = [] := by simpa [Node.exprList, Expr.evalList, eq_comm] using hvs
    rfl
  | cons a as ih =>
    simp only [Node.exprList, Expr.evalList, Option.bind_eq_some_iff, Option.map_eq_some_iff] at hvs
    obtain ⟨v, hv, us, hus, rfl⟩ := hvs
    have ha := hargs a List.mem_cons_self
    rw [WireOk, hv] at ha
    rw [Meaning.denoteList, ha, ih hus fun b hb => hargs b (List.mem_cons_of_mem a hb)]
    rfl

theorem netAs_eq {v : Value} (h : v.sort.isMem = false) (decl : Option MemDecl) : netAs decl v = some (netOf v) := by
  cases v with
  | bool b => rfl
  | bv w x => rfl
  | mem a d f => simp [Value.sort, Srt.isMem] at h

theorem argNets_eq {vs : List Value} (hlen : args.length = vs.length) (hmem : ∀ v ∈ vs, v.sort.isMem = false) :
    argNets κ args vs = vs.map fun v => some (netOf v) := by
  induction args generalizing vs with
  | nil =>
    obtain rfl : vs = [] := by simpa [eq_comm] using hlen
    rfl
  | cons a as ih =>
    cases vs with
    | nil => simp at hlen
    | cons v vs =>
      have htail := ih (by simpa using hlen) fun u hu => hmem u (List.mem_cons_of_mem v hu)
      rw [argNets] at htail ⊢
      rw [List.zipWith_cons_cons, netAs_eq (hmem v List.mem_cons_self), htail, List.map_cons]

theorem getWidth_pos {s : Srt} (h : s.Pos) : 0 < getWidth s := by
  cases s with
  | bool => exact Nat.one_pos
  | bv w => exact h
  | mem a d => exact h.2

theorem valueOf_netOf {v : Value} (h : v.sort.isMem = false) : valueOf v.sort (netOf v) = some v := by
  cases v with
  | bool b => cases b <;> rfl
  | bv w x => simp [Value.sort, netOf, valueOf]
  | mem a d f => simp [Value.sort, Srt.isMem] at h

theorem mapM_valueOf {vs : List Value} (h : ∀ v ∈ vs, v.sort.isMem = false) :
    ((vs.map Value.sort).zip (vs.map netOf)).mapM (fun p => valueOf p.1 p.2) = some vs := by
  induction vs with
  | nil => rfl
  | cons v vs ih =>
    have htail := ih fun u hu => h u (List.mem_cons_of_mem v hu)
    rw [List.map_cons, List.map_cons, List.zip_cons_cons, List.mapM_cons, htail,
      valueOf_netOf (h v List.mem_cons_self)]
    rfl

theorem length_eq_of_evalList {vs : List Value} (hvs : Expr.evalList ν (Node.exprList args) = some vs) :
    args.length = vs.length := by
  induction args generalizing vs with
  | nil =>
    obtain rfl : vs = [] := by simpa [Node.exprList, Expr.evalList, eq_comm] using hvs
    rfl
  | cons a as ih =>
    simp only [Node.exprList, Expr.evalList, Option.bind_eq_some_iff, Option.map_eq_some_iff] at hvs
    obtain ⟨v, -, us, hus, rfl⟩ := hvs
    rw [List.length_cons, List.length_cons, ih hus]

theorem denote_appFunc {p : Nat} {f : Func} {vs : List Value} {v : Value} {ss : List Srt}
    (hss : Expr.checkList (Node.exprList args) = some ss)
    (hvs : Expr.evalList ν (Node.exprList args) = some vs) (hv : ν.app f vs = some v)
    (hargs : ∀ a ∈ args, WireOk κ ν a) (hplan : (plan κ (.app p (.appFunc f) args)).isSome) :
    (meaning κ ν).denote (gen κ) (.app p (.appFunc f) args) = some (some (netOf v)) := by
  have hdom : vs.map Value.sort = f.args := (Option.ite_none_right_eq_some.mp hv).1
  have hall : (args.all fun a => !a.expr.sort.isMem) = true := by
    by_contra hne
    simp [plan, translateApplyFunc, hne] at hplan
  have hpl : plan κ (.app p (.appFunc f) args) = some (.inr (.applyFunc f)) := by
    by_cases hout : f.out.isMem = true
    · simp [plan, hout] at hplan
    · simp [plan, hout, translateApplyFunc, hall]
  have hmem : ∀ u ∈ vs, u.sort.isMem = false := by
    intro u hu
    have hsort : u.sort ∈ args.map fun a => a.expr.sort := by
      rw [Node.map_sort_eq hss hvs]
      exact List.mem_map_of_mem hu
    obtain ⟨a, ha, heq⟩ := List.mem_map.mp hsort
    have hnot := List.all_eq_true.mp hall a ha
    rw [← heq]
    simpa using hnot
  have happ : (meaning κ ν).stmt (.applyFunc f) (vs.map fun u => some (netOf u)) = some (netOf v) := by
    change ((vs.map fun u => some (netOf u)).mapM id).bind _ = _
    rw [MapM.id_map_some, Option.bind_some, ← hdom, mapM_valueOf hmem, Option.bind_some, hv]
    rfl
  rw [Meaning.denote, denoteList_eq hvs hargs, Option.bind_some, gen_plan, hpl, Option.map_some, Sum.elim_inr,
    argNets_eq (length_eq_of_evalList hvs) hmem, happ]

theorem denote_op_eq {p : Nat} {o : ExprOp} {vs : List Value} {r : Rhs}
    (hvs : Expr.evalList ν (Node.exprList args) = some vs) (hargs : ∀ a ∈ args, WireOk κ ν a)
    (hplan : plan κ (.app p (.op o) args) = some (.inr r)) :
    (meaning κ ν).denote (gen κ) (.app p (.op o) args) = some ((meaning κ ν).stmt r (argNets κ args vs)) := by
  rw [Meaning.denote, denoteList_eq hvs hargs, Option.bind_some, gen_plan, hplan, Option.map_some, Sum.elim_inr]

theorem stmt_assign_eq {vs : List Value} {w : Nat} {e : Verilog.Expr} (hlen : args.length = vs.length)
    (hmem : ∀ v ∈ vs, v.sort.isMem = false) :
    (meaning κ ν).stmt (.assign w e) (argNets κ args vs) = textNet w e vs := by
  rw [argNets_eq hlen hmem]
  change ((vs.map fun u => some (netOf u)).mapM id).bind _ = _
  rw [MapM.id_map_some]
  rfl

/-! ### Memories as arguments -/

section Memories

variable {m x : Node} {a d : Nat} {f g : BitVec a → BitVec d} {i : BitVec a}

theorem not_mem_or_exists (vs : List Value) : (∀ v ∈ vs, v.sort.isMem = false) ∨ ∃ a d f, .mem a d f ∈ vs := by
  by_cases h : ∃ a d f, .mem a d f ∈ vs
  · exact .inr h
  · refine .inl fun v hv => ?_
    cases v with
    | bool b => rfl
    | bv w x => rfl
    | mem a d f => exact absurd ⟨a, d, f, hv⟩ h

theorem boolOp_mem {o : ExprOp} {e : Verilog.Expr} {vs : List Value} {v : Value} (hpl : translateBoolOp o = some e)
    (hv : o.apply vs = some v) (hsort : v.sort = .bool) (hmem : .mem a d f ∈ vs) : o = .eq := by
  obtain ⟨-, hv⟩ := ExprOp.apply_eq_smt hv
  cases o with
  | eq => rfl
  | not =>
    obtain ⟨x, rfl, -⟩ := Op.not_eq_some hv
    simp at hmem
  | and | or | xor =>
    simp only [ExprOp.smt] at hv
    split at hv
    · obtain ⟨x, y, rfl, -⟩ := Op.boolBin_eq_some hv
      simp at hmem
    · obtain ⟨w, x, y, rfl, -⟩ := Op.bvBin_eq_some hv
      simp at hmem
  | imply =>
    obtain ⟨x, y, rfl, -⟩ := Op.boolBin_eq_some hv
    simp at hmem
  | lt | ult =>
    obtain ⟨w, x, y, rfl, -⟩ := Op.bvCmp_eq_some hv
    simp at hmem
  | gt =>
    obtain ⟨w, x, y, rfl, -⟩ := Op.bvCmp_eq_some (f := fun _ x y => y.slt x) hv
    simp at hmem
  | ugt =>
    obtain ⟨w, x, y, rfl, -⟩ := Op.bvCmp_eq_some (f := fun _ x y => y.ult x) hv
    simp at hmem
  | ite =>
    obtain ⟨c, t, u, rfl, hs, rfl⟩ := Op.ite_eq_some hv
    have hboth : t.sort = .bool ∧ u.sort = .bool := by
      cases c with
      | true => exact ⟨hsort, hs.symm.trans hsort⟩
      | false => exact ⟨hs.trans hsort, hsort⟩
    rcases List.mem_cons.mp hmem with h | hmem
    · cases h
    · rcases List.mem_cons.mp hmem with rfl | hmem
      · cases hboth.1
      · rw [← List.mem_singleton.mp hmem] at hboth
        cases hboth.2
  | _ => simp [translateBoolOp] at hpl

theorem bvOp_mem {o : ExprOp} {arg : Node} {e : Verilog.Expr} {vs : List Value} {v : Value} {w : Nat}
    (hpl : translateBvOp o arg = some e) (happly : o.apply vs = some v) (hsort : v.sort = .bv w)
    (hmem : .mem a d f ∈ vs) : o = .load := by
  obtain ⟨-, hv⟩ := ExprOp.apply_eq_smt happly
  cases o with
  | load => rfl
  | neg | compl | lRotate n | rRotate n =>
    obtain ⟨w, x, rfl, -⟩ := Op.bvUn_eq_some hv
    simp at hmem
  | extract hi lo =>
    obtain ⟨w, x, rfl, -⟩ := Op.extract_eq_some hv
    simp at hmem
  | zext outw =>
    obtain ⟨w, x, -, rfl, -⟩ := ExprOp.zext_eq_some happly
    simp at hmem
  | sext outw =>
    obtain ⟨w, x, -, rfl, -⟩ := ExprOp.sext_eq_some happly
    simp at hmem
  | and | or | xor =>
    simp only [ExprOp.smt] at hv
    split at hv
    · obtain ⟨x, y, rfl, -⟩ := Op.boolBin_eq_some hv
      simp at hmem
    · obtain ⟨w, x, y, rfl, -⟩ := Op.bvBin_eq_some hv
      simp at hmem
  | add | sub | mul | shl | lshr | ashr | div | urem =>
    obtain ⟨w, x, y, rfl, -⟩ := Op.bvBin_eq_some hv
    simp at hmem
  | concat =>
    obtain ⟨w, w', x, y, rfl, -⟩ := Op.concat_eq_some hv
    simp at hmem
  | ite =>
    obtain ⟨c, t, u, rfl, hs, rfl⟩ := Op.ite_eq_some hv
    have hboth : t.sort = .bv w ∧ u.sort = .bv w := by
      cases c with
      | true => exact ⟨hsort, hs.symm.trans hsort⟩
      | false => exact ⟨hs.trans hsort, hsort⟩
    rcases List.mem_cons.mp hmem with h | hmem
    · cases h
    · rcases List.mem_cons.mp hmem with rfl | hmem
      · cases hboth.1
      · rw [← List.mem_singleton.mp hmem] at hboth
        cases hboth.2
  | _ => simp [translateBvOp] at hpl

theorem stmt_load_iff {c : MemDecl} (hc : κ.nodeDecl m = some c) (hext : c ≠ .external) (hd : 0 < d) :
    (meaning κ ν).stmt (.assign d (.index 0 1)) (argNets κ [m, x] [.mem a d f, .bv a i]) = some (netOf (.bv d (f i))) ↔
      LoadSafe f i c := by
  have hnets : argNets κ [m, x] [.mem a d f, .bv a i] = [c.net f, some (netOf (.bv a i))] := by
    simp [argNets, netAs, hc]
  rw [hnets]
  cases c with
  | external => exact absurd rfl hext
  | array n =>
    have hassign : (Verilog.Expr.index 0 1).assign [.mem a d n f, .vec (decide (1 < a)) a i] d =
        if i.toNat < n then some (f i) else none := Verilog.Expr.assign_index_mem
    change ((Verilog.Expr.index 0 1).assign [.mem a d n f, .vec _ a i] d).map _ = _ ↔ i.toNat < n
    rw [hassign]
    by_cases hi : i.toNat < n <;> simp [hi]
  | reg =>
    have hassign : (Verilog.Expr.index 0 1).assign [.vec (decide (1 < d)) d (f 0), .vec (decide (1 < a)) a i] d =
        if decide (1 < d) = true ∧ i.toNat < d then some ((BitVec.ofBool ((f 0).getLsbD i.toNat)).setWidth d) else none :=
      Verilog.Expr.assign_index_vec hd
    change ((Verilog.Expr.index 0 1).assign [.vec _ d (f 0), .vec _ a i] d).map _ = _ ↔ _
    rw [hassign, LoadSafe]
    by_cases hb : decide (1 < d) = true ∧ i.toNat < d
    · rw [if_pos hb]
      simp only [decide_eq_true_eq] at hb
      simp [hb, netOf, eq_comm]
    · rw [if_neg hb]
      simp only [decide_eq_true_eq] at hb
      simp only [Option.map_none, reduceCtorEq, false_iff]
      exact fun h => hb ⟨h.1, h.2.1⟩

theorem stmt_eq_iff {b : Bool} (hb : b = true ↔ f = g) :
    (meaning κ ν).stmt (.assign 1 (.cmp .eq (.net 0) (.net 1))) (argNets κ [m, x] [.mem a d f, .mem a d g]) =
        some (netOf (.bool b)) ↔
      (κ.nodeDecl m = some .reg ∧ κ.nodeDecl x = some .reg) ∧ (f 0 = g 0 → f = g) := by
  have hnets : argNets κ [m, x] [.mem a d f, .mem a d g] =
      [(κ.nodeDecl m).bind fun c => c.net f, (κ.nodeDecl x).bind fun c => c.net g] := rfl
  by_cases hreg : κ.nodeDecl m = some .reg ∧ κ.nodeDecl x = some .reg
  · have hassign : (Verilog.Expr.cmp .eq (.net 0) (.net 1)).assign
        [.vec (decide (1 < d)) d (f 0), .vec (decide (1 < d)) d (g 0)] 1 =
        some (BitVec.ofBool ((Verilog.CmpOp.eq).apply false (f 0) (g 0))) := Verilog.Expr.assign_cmp .eq
    rw [hnets, hreg.1, hreg.2, and_iff_right ⟨rfl, rfl⟩]
    change ((Verilog.Expr.cmp .eq (.net 0) (.net 1)).assign [.vec _ d (f 0), .vec _ d (g 0)] 1).map _ = _ ↔ _
    have hbit : BitVec.ofBool (f 0 == g 0) = BitVec.ofBool b ↔ (f 0 = g 0 ↔ f = g) := by
      rw [BitVec.ofBool_eq_iff_eq, Bool.eq_iff_iff, hb, beq_iff_eq]
    rw [hassign, netOf_bool, Option.map_some, Option.some.injEq]
    change netOf (.bv 1 (BitVec.ofBool (f 0 == g 0))) = netOf (.bv 1 (BitVec.ofBool b)) ↔ _
    have hnet : netOf (.bv 1 (BitVec.ofBool (f 0 == g 0))) = netOf (.bv 1 (BitVec.ofBool b)) ↔
        BitVec.ofBool (f 0 == g 0) = BitVec.ofBool b := by
      simp [netOf]
    rw [hnet, hbit]
    exact ⟨fun h => h.mp, fun h => ⟨h, fun hfg => by rw [hfg]⟩⟩
  · refine iff_of_false (fun heq => hreg ?_) fun h => hreg h.1
    rw [hnets] at heq
    -- an array is no operand of a comparison, and an external memory is not declared
    have hoperand : ∀ {k : Option MemDecl} {f : BitVec a → BitVec d} {n : Verilog.Net}, (k.bind fun c => c.net f) = some n →
        k = some .reg ∨ ∃ c, n = .mem a d c f := by
      intro k f n hk
      obtain ⟨c, rfl, hc⟩ := Option.bind_eq_some_iff.mp hk
      cases c with
      | external => simp [MemDecl.net] at hc
      | array c => exact .inr ⟨c, (Option.some.inj hc).symm⟩
      | reg => exact .inl rfl
    obtain ⟨ns, hns, hval⟩ := Option.bind_eq_some_iff.mp heq
    simp only [List.mapM_cons, List.mapM_nil, id, Option.bind_eq_bind, Option.bind_eq_some_iff, Option.pure_def,
      Option.some.injEq] at hns
    obtain ⟨n₀, hn₀, ns, ⟨n₁, hn₁, _, rfl, rfl⟩, rfl⟩ := hns
    rcases hoperand (Option.bind_eq_some_iff.mpr hn₀) with h₀ | ⟨c, rfl⟩
    · rcases hoperand (Option.bind_eq_some_iff.mpr hn₁) with h₁ | ⟨c, rfl⟩
      · exact ⟨h₀, h₁⟩
      · rw [Verilog.Expr.assign_of_size_le (Nat.le_refl 1)] at hval
        cases n₀ <;> simp [Verilog.Expr.evalAt] at hval
    · rw [Verilog.Expr.assign_of_size_le (Nat.le_refl 1)] at hval
      simp [Verilog.Expr.evalAt] at hval

end Memories
/-! ### The wires of an expression -/

theorem stmt_boolOp {o : ExprOp} {e : Verilog.Expr} {vs : List Value} {v : Value} (hlen : args.length = vs.length)
    (hpl : translateBoolOp o = some e) (hv : o.apply vs = some v) (hsort : v.sort = .bool) :
    (meaning κ ν).stmt (.assign 1 e) (argNets κ args vs) = some (netOf v) ↔ OpSafe κ o args vs := by
  rcases not_mem_or_exists vs with hmem | ⟨a, d, f, hmem⟩
  · rw [stmt_assign_eq hlen hmem]
    exact textNet_boolOp hpl hmem hv hsort
  · obtain rfl := boolOp_mem hpl hv hsort hmem
    obtain rfl := Option.some.inj hpl
    obtain ⟨t, u, rfl, hs, b, rfl, hb⟩ := Op.eq_eq_some (ExprOp.apply_eq_smt hv).2
    have ht : t.sort = .mem a d := by
      rcases List.mem_cons.mp hmem with rfl | hmem
      · rfl
      · rw [hs, ← List.mem_singleton.mp hmem]
        rfl
    obtain ⟨f, rfl⟩ := Value.exists_mem ht
    obtain ⟨g, rfl⟩ := Value.exists_mem (hs.symm.trans ht)
    obtain ⟨m, x, rfl⟩ := List.length_eq_two.mp hlen
    have hbfg : b = true ↔ f = g := by
      rw [hb]
      simp
    rw [stmt_eq_iff hbfg]
    simp [OpSafe]

theorem stmt_load {m : Node} {as : List Node} {r : Rhs} {vs : List Value} {v : Value} {w : Nat}
    (hvs : Expr.evalList ν (Node.exprList (m :: as)) = some vs) (hpos : ∀ u ∈ vs, 0 < getWidth u.sort)
    (hpl : bvRhs κ .load m w = some r) (hv : ExprOp.load.apply vs = some v) (hsort : v.sort = .bv w) :
    (meaning κ ν).stmt r (argNets κ (m :: as) vs) = some (netOf v) ↔ OpSafe κ .load (m :: as) vs := by
  obtain ⟨a, d, f, i, rfl, rfl⟩ := Op.select_eq_some (ExprOp.apply_eq_smt hv).2
  obtain rfl : d = w := by simpa [Value.sort] using hsort
  have hlen := length_eq_of_evalList hvs
  obtain ⟨x, rfl⟩ : ∃ x, as = [x] := List.length_eq_one_iff.mp (by simpa using hlen)
  have hsafe : OpSafe κ .load [m, x] [.mem a d f, .bv a i] ↔ ∃ c ∈ κ.nodeDecl m, LoadSafe f i c := by
    simp [OpSafe]
  rw [hsafe]
  cases m with
  | app p hd args => simp [bvRhs, readPort, translateBvOp, Node.isVar] at hpl
  | leaf p l =>
    cases l with
    | const c => simp [bvRhs, readPort, translateBvOp, Node.isVar] at hpl
    | var u =>
      have hat : ν.atom (.var u) = .mem a d f := by
        simp only [Node.exprList, Node.expr, Expr.evalList, Expr.eval, Option.bind_some, Option.map_eq_some_iff,
          List.cons.injEq] at hvs
        obtain ⟨_, -, hu, -⟩ := hvs
        exact hu
      have hdecl : κ.nodeDecl (.leaf p (.var u)) = some (κ.decl u) := rfl
      by_cases hext : κ.external u = true
      · obtain rfl : Rhs.readPort u = r := by simpa [bvRhs, readPort, hext] using hpl
        refine iff_of_true ?_ ⟨_, hdecl, ?_⟩
        · change wordAt (ν.atom (.var u)) (some (netOf (.bv a i))) = _
          rw [hat]
          simp [wordAt, netOf]
        · rw [MemConfig.decl, if_pos hext]
          trivial
      · obtain rfl : Rhs.assign d (.index 0 1) = r := by
          simpa [bvRhs, readPort, hext, translateBvOp, Node.isVar] using hpl
        have hne : κ.decl u ≠ .external := by
          rw [MemConfig.decl, if_neg hext]
          split
          · split <;> simp
          · simp
        have hd : 0 < d := hpos (.mem a d f) List.mem_cons_self
        rw [stmt_load_iff hdecl hne hd, hdecl]
        simp

theorem stmt_bvOp {o : ExprOp} {a : Node} {as : List Node} {r : Rhs} {vs : List Value} {v : Value} {w : Nat}
    (hvs : Expr.evalList ν (Node.exprList (a :: as)) = some vs)
    (hargs : (a :: as).map (fun n => n.expr.sort) = vs.map Value.sort) (hpos : ∀ u ∈ vs, 0 < getWidth u.sort)
    (hpl : bvRhs κ o a w = some r) (hv : o.apply vs = some v) (hsort : v.sort = .bv w) :
    (meaning κ ν).stmt r (argNets κ (a :: as) vs) = some (netOf v) ↔ OpSafe κ o (a :: as) vs := by
  by_cases hload : o = .load
  · subst hload
    exact stmt_load hvs hpos hpl hv hsort
  · have hport : readPort κ o a = none := by
      cases o <;> first | rfl | exact absurd rfl hload
    rw [bvRhs, hport, Option.map_eq_some_iff] at hpl
    obtain ⟨e, he, rfl⟩ := hpl
    rcases not_mem_or_exists vs with hmem | ⟨a', d, f, hmem⟩
    · rw [stmt_assign_eq (length_eq_of_evalList hvs) hmem]
      exact textNet_bvOp he hargs hpos hmem hv hsort
    · exact absurd (bvOp_mem he hv hsort hmem) hload

theorem denote_op {p : Nat} {o : ExprOp} {vs : List Value} {v : Value} {s : Srt} {ss : List Srt}
    (hss : Expr.checkList (Node.exprList args) = some ss)
    (hsort : (Node.app p (.op o) args).expr.sort = s) (hvsort : v.sort = s)
    (hpos : ∀ a ∈ args, 0 < getWidth a.expr.sort)
    (hvs : Expr.evalList ν (Node.exprList args) = some vs) (hv : o.apply vs = some v)
    (hargs : ∀ a ∈ args, WireOk κ ν a) (hplan : (plan κ (.app p (.op o) args)).isSome) :
    (meaning κ ν).denote (gen κ) (.app p (.op o) args) = some (some (netOf v)) ↔ OpSafe κ o args vs := by
  have hmap := Node.map_sort_eq hss hvs
  have hposv : ∀ u ∈ vs, 0 < getWidth u.sort := by
    intro u hu
    have hmem : u.sort ∈ args.map fun a => a.expr.sort := by
      rw [hmap]
      exact List.mem_map_of_mem hu
    obtain ⟨a, ha, heq⟩ := List.mem_map.mp hmem
    rw [← heq]
    exact hpos a ha
  obtain ⟨r, hr⟩ := Option.isSome_iff_exists.mp hplan
  cases s with
  | bool =>
    simp only [plan, hsort, Option.map_eq_some_iff] at hr
    obtain ⟨e, he, -⟩ := hr
    have hpl : plan κ (.app p (.op o) args) = some (.inr (.assign 1 e)) := by
      simp only [plan, hsort, he, Option.map_some]
    rw [denote_op_eq hvs hargs hpl, Option.some.injEq]
    exact stmt_boolOp (length_eq_of_evalList hvs) he hv hvsort
  | bv w =>
    simp only [plan, hsort, Option.bind_eq_some_iff, Option.map_eq_some_iff] at hr
    obtain ⟨a, ha, e, he, -⟩ := hr
    obtain ⟨as, rfl⟩ : ∃ as, args = a :: as := List.head?_eq_some_iff.mp ha
    have hpl : plan κ (.app p (.op o) (a :: as)) = some (.inr e) := by
      simp only [plan, hsort, ha, he, Option.bind_some, Option.map_some]
    rw [denote_op_eq hvs hargs hpl, Option.some.injEq]
    exact stmt_bvOp hvs hmap hposv he hv hvsort
  | mem a d => simp [plan, hsort] at hr

theorem wireOk_app_iff {p : Nat} {hd : Head} {v : Value} (hv : (Node.app p hd args).expr.eval ν = some v)
    (hmem : v.sort.isMem = false) : WireOk κ ν (.app p hd args) ↔
      (meaning κ ν).denote (gen κ) (.app p hd args) = some (some (netOf v)) := by
  rw [WireOk, hv, Option.bind_some, netAs_eq hmem]

theorem not_mem_of_plan {p : Nat} {hd : Head} {s : Srt} (hcheck : (Node.app p hd args).expr.check = some s)
    (hplan : (plan κ (.app p hd args)).isSome) : s.isMem = false := by
  have hsort := Expr.sort_of_check hcheck
  cases s with
  | bool => rfl
  | bv w => rfl
  | mem a d =>
    cases hd with
    | op o => simp [plan, hsort] at hplan
    | appFunc f =>
      rw [Node.expr, Expr.sort] at hsort
      simp [plan, hsort, Srt.isMem] at hplan

theorem wireOk_iff_safeAt {n : Node} {s : Srt} (hcheck : n.expr.check = some s) (hpos : n.Positive)
    (hplan : (plan κ n).isSome) (hargs : ∀ a ∈ n.args, WireOk κ ν a) : WireOk κ ν n ↔ SafeAt κ ν n := by
  cases n with
  | leaf p l => cases l <;> exact iff_of_true rfl trivial
  | app p hd args =>
    obtain ⟨ss, hss⟩ := Node.check_app hcheck
    obtain ⟨v, hv, hvsort⟩ := Expr.eval_of_check hcheck ν
    rw [wireOk_app_iff hv (by rw [hvsort]; exact not_mem_of_plan hcheck hplan)]
    cases hd with
    | op o =>
      rw [Node.expr, Expr.eval, Option.bind_eq_some_iff] at hv
      obtain ⟨vs, hvs, hv⟩ := hv
      have hposArgs : ∀ a ∈ args, 0 < getWidth a.expr.sort := fun a ha =>
        getWidth_pos (hpos a (Node.arg_mem_subs ha))
      rw [denote_op hss (Expr.sort_of_check hcheck) hvsort hposArgs hvs hv hargs hplan]
      simp [SafeAt, hvs]
    | appFunc f =>
      rw [Node.expr, Expr.eval, Option.bind_eq_some_iff] at hv
      obtain ⟨vs, hvs, hv⟩ := hv
      exact iff_of_true (denote_appFunc hss hvs hv hargs hplan) trivial

theorem wires_iff_safe {n : Node} {s : Srt} (hcheck : n.expr.check = some s) (hpos : n.Positive)
    (hplan : ∀ m ∈ n.subs, (plan κ m).isSome) : (∀ m ∈ n.subs, WireOk κ ν m) ↔ Safe κ ν n := by
  constructor
  · intro h m hm
    obtain ⟨t, ht⟩ := Node.check_sub hcheck hm
    refine (wireOk_iff_safeAt ht (hpos.sub hm) (hplan m hm) fun a ha => ?_).mp (h m hm)
    exact h a (Node.subs_trans hm (Node.mem_subs_iff.mpr (.inr ⟨a, ha, a.mem_subs_self⟩)))
  · intro hsafe m hm
    -- From the leaves up: the arguments of a node have right wires by induction.
    induction m using Node.ind with
    | leaf p l =>
      obtain ⟨t, ht⟩ := Node.check_sub hcheck hm
      exact (wireOk_iff_safeAt ht (hpos.sub hm) (hplan _ hm) (by simp [Node.args])).mpr (hsafe _ hm)
    | app p hd args ih =>
      obtain ⟨t, ht⟩ := Node.check_sub hcheck hm
      refine (wireOk_iff_safeAt ht (hpos.sub hm) (hplan _ hm) fun a ha => ih a ha ?_).mpr (hsafe _ hm)
      exact Node.subs_trans hm (Node.arg_mem_subs ha)

/-- The wire that the generator has for a node holds the value of the Z3 translation of the node; a memory is read
under its declaration. -/
def Exact (κ : MemConfig) (z3 : Z3) (M : Model) (suffix : String) (b : Buffer Name Rhs) (m : Node) : Prop :=
  (meaning κ (frame M suffix)).read b m = some (((getExpr z3 suffix m.expr).eval M).bind (netAs (κ.nodeDecl m)))

/-- After any number of expressions, the wires of one of them all hold the values of their Z3 translations
exactly when every application in it is safe on the values of its arguments. -/
theorem exact_iff_safe (κ : MemConfig) (z3 : Z3) (M : Model) (suffix : String) {heap : Nat → Node} {roots : List Node}
    {b : Buffer Name Rhs} (hheap : ∀ n ∈ roots, n.InHeap heap) (hgen : (gen κ).visitList roots .empty = some b)
    {n : Node} (hn : n ∈ roots) {s : Srt} (hcheck : n.expr.check = some s) (hpos : n.Positive) :
    (∀ m ∈ n.subs, Exact κ z3 M suffix b m) ↔ Safe κ (frame M suffix) n := by
  have hplan : ∀ m ∈ n.subs, (plan κ m).isSome := fun m hm => Emitter.plan_isSome hheap hgen hn hm
  rw [← wires_iff_safe hcheck hpos hplan]
  refine forall₂_congr fun m hm => ?_
  obtain ⟨t, ht⟩ := Node.check_sub hcheck hm
  rw [Exact, getExpr_eval z3 M suffix ht, (Emitter.read_eq_denote hheap hgen hn hm).2, WireOk]

/-! ### An operator on -2 and 2, on eight bits -/

def constBin (o : ExprOp) : Node := .app 2 (.op o) [.leaf 0 (.const (.bv 254 8)), .leaf 1 (.const (.bv 2 8))]

def constBinHeap (o : ExprOp) : Nat → Node
  | 0 => .leaf 0 (.const (.bv 254 8))
  | 1 => .leaf 1 (.const (.bv 2 8))
  | _ => constBin o

theorem mem_subs_constBin {o : ExprOp} {m : Node} (h : m ∈ (constBin o).subs) :
    m = constBin o ∨ m = .leaf 0 (.const (.bv 254 8)) ∨ m = .leaf 1 (.const (.bv 2 8)) := by
  simpa [constBin, Node.subs, Node.subsList] using h

theorem constBin_inHeap (o : ExprOp) : ∀ n ∈ [constBin o], n.InHeap (constBinHeap o) := by
  intro n hn m hm
  rw [List.mem_singleton.mp hn] at hm
  rcases mem_subs_constBin hm with rfl | rfl | rfl <;> rfl

theorem constBin_positive {o : ExprOp} (h : (constBin o).expr.sort = .bv 8) : (constBin o).Positive := by
  intro m hm
  rcases mem_subs_constBin hm with rfl | rfl | rfl
  · rw [h]
    exact Nat.succ_pos 7
  · exact Nat.succ_pos 7
  · exact Nat.succ_pos 7

/-- Internal memories, with a word for every address. -/
def internalMems : MemConfig := ⟨false, fun _ => none, fun _ => 0⟩

/-- An arithmetic shift, on the other hand, is right, negative value or not. -/
theorem exact_iff_safe_ashr : ∃ b, (gen internalMems).visitList [constBin .ashr] .empty = some b ∧
    Safe internalMems (frame default "") (constBin .ashr) ∧
    ∀ m ∈ (constBin .ashr).subs, Exact internalMems default default "" b m := by
  have hsafe : Safe internalMems (frame default "") (constBin .ashr) := by
    intro m hm
    rcases mem_subs_constBin hm with rfl | rfl | rfl
    · exact fun vs _ => trivial
    · trivial
    · trivial
  obtain ⟨b, hb⟩ : ∃ b, (gen internalMems).visitList [constBin .ashr] .empty = some b := ⟨_, rfl⟩
  have hiff := exact_iff_safe internalMems default default "" (constBin_inHeap .ashr) hb List.mem_cons_self
    (s := .bv 8) rfl (constBin_positive rfl)
  exact ⟨b, hb, hsafe, hiff.mpr hsafe⟩

/-- The wire of a quotient does not hold the signed quotient that Z3 computes. -/
theorem exact_fails_at_div : ¬∀ (κ : MemConfig) (z3 : Z3) (M : Model) (suffix : String) (heap : Nat → Node) (n : Node)
    (b : Buffer Name Rhs), (∀ m ∈ [n], m.InHeap heap) → (gen κ).visitList [n] .empty = some b →
    ∀ s, n.expr.check = some s → n.Positive → Exact κ z3 M suffix b n := by
  intro h
  obtain ⟨b, hb⟩ : ∃ b, (gen internalMems).visitList [constBin .div] .empty = some b := ⟨_, rfl⟩
  have hexact := h internalMems default default "" (constBinHeap .div) (constBin .div) b (constBin_inHeap .div) hb
    (.bv 8) rfl (constBin_positive rfl)
  have hread : (meaning internalMems (frame default "")).read b (constBin .div) =
      (meaning internalMems (frame default "")).denote (gen internalMems) _ :=
    (Emitter.read_eq_denote (constBin_inHeap .div) hb List.mem_cons_self (constBin .div).mem_subs_self).2
  rw [Exact, getExpr_eval default default "" (e := (constBin .div).expr) (s := .bv 8) rfl, hread] at hexact
  have hsafe : SafeAt internalMems (frame default "") (constBin .div) := by
    refine (wireOk_iff_safeAt (s := .bv 8) rfl (constBin_positive rfl) rfl fun a ha => ?_).mp hexact
    fin_cases ha <;> rfl
  have hagree : Bits.DivAgree (254#8) ((2#8).setWidth 8) := hsafe [.bv 8 254#8, .bv 8 2#8] rfl
  exact absurd hagree (by decide)

end VerilogGen

end Ilang
