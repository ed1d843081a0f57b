import Ilang.Target.JsonDes

/-!
# Reading back what was written

The functions of the deserializer undo those of the serializer, one by one: on the sorts, on the constants that `asthub` makes,
on the functions and on the operations. A constructor of `asthub` that changes its arguments to fit does so only where the sorts
are not those of a well-sorted expression.
-/

namespace Ilang

open Smt

/-! ### Operations -/

namespace ExprOp

/-- How many arguments an operation has. -/
def arity : ExprOp → Nat
  | .neg | .not | .compl | .extract .. | .zext _ | .sext _ | .lRotate _ | .rRotate _ => 1
  | .store | .ite => 3
  | _ => 2

theorem bvBinSort_pair {ss : List Srt} {s : Srt} (h : Op.bvBinSort ss = some s) : ∃ a, ss = [a, a] := by
  unfold Op.bvBinSort at h
  split at h
  · obtain ⟨rfl, -⟩ := Option.ite_none_right_eq_some.mp h
    exact ⟨_, rfl⟩
  · cases h

theorem boolBinSort_pair {ss : List Srt} {s : Srt} (h : Op.boolBinSort ss = some s) : ∃ a, ss = [a, a] := by
  unfold Op.boolBinSort at h
  split at h
  · exact ⟨_, rfl⟩
  · cases h

theorem bvUnSort_length {ss : List Srt} {s : Srt} (h : Op.bvUnSort ss = some s) : ss.length = 1 := by
  unfold Op.bvUnSort at h
  split at h
  · rfl
  · cases h

theorem bvCmpSort_length {ss : List Srt} {s : Srt} (h : Op.bvCmpSort ss = some s) : ss.length = 2 := by
  unfold Op.bvCmpSort at h
  split at h
  · rfl
  · cases h

theorem logic_pair {o : ExprOp} (ho : o = .and ∨ o = .or ∨ o = .xor) {ss : List Srt} {s : Srt} (h : o.check ss = some s) :
    ∃ a, ss = [a, a] := by
  rcases ho with rfl | rfl | rfl
  all_goals
    have hop := (Option.ite_none_right_eq_some.mp h).2
    simp only [smt] at hop
    split at hop
    · exact boolBinSort_pair hop
    · exact bvBinSort_pair hop

theorem concat_pair {ss : List Srt} {s : Srt} (h : ExprOp.concat.check ss = some s) : ∃ m n, ss = [.bv m, .bv n] := by
  have hop := (Option.ite_none_right_eq_some.mp h).2
  match ss, hop with
  | [.bv m, .bv n], _ => exact ⟨m, n, rfl⟩

theorem length_of_check {o : ExprOp} {ss : List Srt} {s : Srt} (h : o.check ss = some s) : ss.length = o.arity := by
  have hpair {ss : List Srt} (h : ∃ a, ss = [a, a]) : ss.length = 2 := by
    obtain ⟨a, rfl⟩ := h
    rfl
  have hop := (Option.ite_none_right_eq_some.mp h).2
  cases o with
  | and => exact hpair (logic_pair (.inl rfl) h)
  | or => exact hpair (logic_pair (.inr (.inl rfl)) h)
  | xor => exact hpair (logic_pair (.inr (.inr rfl)) h)
  | shl | ashr | lshr | add | sub | div | srem | urem | smod | mul => exact hpair (bvBinSort_pair hop)
  | imply => exact hpair (boolBinSort_pair hop)
  | neg | compl | lRotate _ | rRotate _ => exact bvUnSort_length hop
  | lt | gt | ult | ugt => exact bvCmpSort_length hop
  | concat =>
    obtain ⟨m, n, rfl⟩ := concat_pair h
    rfl
  | not =>
    match ss, hop with
    | [.bool], _ => rfl
  | eq =>
    match ss, hop with
    | [_, _], _ => rfl
  | load =>
    match ss, hop with
    | [.mem _ _, .bv _], _ => rfl
  | store =>
    match ss, hop with
    | [.mem _ _, .bv _, .bv _], _ => rfl
  | ite =>
    match ss, hop with
    | [.bool, _, _], _ => rfl
  | extract hi lo =>
    match ss, hop with
    | [.bv _], _ => rfl
  | zext w | sext w =>
    match ss, hop with
    | [.bv _], _ => rfl

end ExprOp

namespace J2IDes

open I2JSer

theorem opOf_uid (o : ExprOp) : opOf o.uid o.params = some (o, o.arity) := by
  cases o <;> rfl

theorem logic_of_sort_eq {o : ExprOp} {n : Nat} {l r : Expr} (h : l.sort = r.sort) : logic o (n + 1) l r = some (.op o [l, r]) := by
  rw [logic, if_pos h]

theorem exprOp_of_check {o : ExprOp} {args : List Expr} {s : Srt} (h : o.check (args.map Expr.sort) = some s) :
    exprOp o args = some (.op o args) := by
  have hlogic (ho : o = .and ∨ o = .or ∨ o = .xor) : ∃ l r, args = [l, r] ∧ l.sort = r.sort := by
    obtain ⟨a, ha⟩ := ExprOp.logic_pair ho h
    obtain ⟨l, r, rfl⟩ := List.length_eq_two.mp ((List.length_map Expr.sort).symm.trans (congrArg List.length ha))
    simp only [List.map_cons, List.map_nil, List.cons.injEq, and_true] at ha
    exact ⟨l, r, rfl, ha.1.trans ha.2.symm⟩
  cases o with
  | and =>
    obtain ⟨l, r, rfl, hsort⟩ := hlogic (.inl rfl)
    exact logic_of_sort_eq hsort
  | or =>
    obtain ⟨l, r, rfl, hsort⟩ := hlogic (.inr (.inl rfl))
    exact logic_of_sort_eq hsort
  | xor =>
    obtain ⟨l, r, rfl, hsort⟩ := hlogic (.inr (.inr rfl))
    exact logic_of_sort_eq hsort
  | concat =>
    obtain ⟨m, n, hmn⟩ := ExprOp.concat_pair h
    obtain ⟨hi, lo, rfl⟩ := List.length_eq_two.mp ((List.length_map Expr.sort).symm.trans (congrArg List.length hmn))
    simp only [List.map_cons, List.map_nil, List.cons.injEq, and_true] at hmn
    simp [exprOp, bit, hmn.1, hmn.2]
  | _ => rfl

theorem desExprOp_uid {o : ExprOp} {args : List Expr} {s : Srt} (h : o.check (args.map Expr.sort) = some s) :
    desExprOp o.uid args o.params = some (.op o args) := by
  have hlength : args.length = o.arity := (List.length_map Expr.sort).symm.trans (ExprOp.length_of_check h)
  rw [desExprOp, opOf_uid, Option.bind_some]
  change (if o.arity ≤ args.length then exprOp o (args.take o.arity) else none) = _
  rw [if_pos hlength.ge, ← hlength, List.take_length, exprOp_of_check h]

/-! ### Sorts, constants and functions -/

theorem desSort_serSort (s : Srt) : desSort (serSort s) = some s := by
  cases s with
  | bool => rw [desSort, serSort, Json.natAt_object rfl]; rfl
  | bv w =>
    have hwidth : (serSort (.bv w)).natAt "w" = some w := Json.natAt_object rfl
    have huid : (serSort (.bv w)).natAt "u" = some 2 := Json.natAt_object rfl
    rw [desSort, huid]
    change ((serSort (.bv w)).natAt "w").map _ = _
    rw [hwidth]
    rfl
  | mem a d =>
    have haddr : (serSort (.mem a d)).natAt "a" = some a := Json.natAt_object rfl
    have hdata : (serSort (.mem a d)).natAt "d" = some d := Json.natAt_object rfl
    have huid : (serSort (.mem a d)).natAt "u" = some 3 := Json.natAt_object rfl
    rw [desSort, huid]
    change ((serSort (.mem a d)).natAt "a").bind (fun a => ((serSort (.mem _ d)).natAt "d").map _) = _
    rw [haddr, Option.bind_some, hdata]
    rfl

theorem mapM_desSort (ss : List Srt) : (ss.map serSort).mapM desSort = some ss := by
  induction ss with
  | nil => rfl
  | cons s ss ih =>
    rw [List.map_cons, List.mapM_cons, desSort_serSort, ih]
    rfl

end J2IDes

/-- The constants that `asthub` makes. -/
inductive ConstVal.Made : ConstVal → Prop
  | bool (b : Bool) : Made (.bool b)
  | bv {x w : Nat} (hval : x < UInt64.size) (hpos : 0 < w) (hfit : 64 ≤ w ∨ x >>> w = 0) : Made (.bv x w)
  | mem (m : MemVal) (a d : Nat) : Made (m.const a d)

namespace J2IDes

open I2JSer

theorem fields_mem (m : MemVal) :
    (Json.object ((m.valMap.entries.map fun p => (p.1.val, p.2.val)).map fun p => (toString p.1, .nat p.2))).fields =
      some ((Ilang.serConstVal m).map.entries.map fun p => (p.1, .nat p.2.val)) := by
  have hmap := OrdMap.entries_foldl_emplace_map (fun y : BvVal => Json.nat y.val)
    (m.valMap.entries.map fun p => (toString p.1.val, p.2))
  rw [List.map_map] at hmap ⊢
  refine congrArg some (hmap.trans ?_)
  rw [List.foldl_map]
  rfl

theorem bvVal_val (x : BvVal) : bvVal x.val = x := Fin.ext (Nat.mod_eq_of_lt x.isLt)

theorem desMemMap_map (es : List (String × BvVal)) (m : OrdMap BvVal BvVal) :
    (es.map fun p => (p.1, Json.nat p.2.val)).foldlM
        (fun m p => p.2.getNat.map fun data => m.assign (strToULongLong p.1) (bvVal data)) m =
      some (es.foldl (fun m p => m.assign (strToULongLong p.1) p.2) m) := by
  induction es generalizing m with
  | nil => rfl
  | cons p es ih =>
    rw [List.map_cons, List.foldlM_cons, List.foldl_cons, ← ih]
    change (some (m.assign (strToULongLong p.1) (bvVal p.2.val))).bind _ = _
    rw [Option.bind_some, bvVal_val]

theorem desExprConst_serConstVal {c : ConstVal} (h : c.Made) :
    desExprConst (serSort c.sort) (I2JSer.serConstVal c) = some (.const c) := by
  rw [desExprConst, desSort_serSort, Option.bind_some]
  cases h with
  | bool b =>
    change (((I2JSer.serConstVal (.bool b)).field "v").bind Json.getBool).map _ = _
    rw [I2JSer.serConstVal, Json.field_object]
    rfl
  | @bv x w hval hpos hfit =>
    have hx : (I2JSer.serConstVal (.bv x w)).natAt "v" = some x := Json.natAt_object rfl
    change ((I2JSer.serConstVal (.bv x w)).natAt "v").bind (fun x => bvConst (bvVal x).val w) = _
    have hmod : (bvVal x).val = x := Nat.mod_eq_of_lt hval
    rw [hx, Option.bind_some, hmod, bvConst, if_pos ⟨hpos, hfit⟩]
  | mem m a d =>
    have hdef : (I2JSer.serConstVal (m.const a d)).natAt "d" = some m.default.val := Json.natAt_object rfl
    have hmap : ((I2JSer.serConstVal (m.const a d)).field "m").bind Json.fields =
        some ((Ilang.serConstVal m).map.entries.map fun p => (p.1, .nat p.2.val)) := by
      rw [MemVal.const, I2JSer.serConstVal, Json.field_object]
      exact fields_mem m
    change ((I2JSer.serConstVal (m.const a d)).natAt "d").bind (fun x =>
      (((I2JSer.serConstVal (m.const a d)).field "m").bind Json.fields).bind fun fs => (desMemMap fs).map fun m =>
        Expr.const (MemVal.const ⟨bvVal x, m⟩ a d)) = _
    rw [hdef, Option.bind_some, hmap, Option.bind_some, desMemMap, desMemMap_map, Option.map_some, bvVal_val]
    exact congrArg (fun m : MemVal => some (Expr.const (m.const a d))) (des_ser m)

/-- The function that is made for one in the file. -/
def newFunc (id : Nat) (f : Func) : Func := ⟨id, f.name, "", "", f.out, f.args⟩

theorem desFunc_funcJson (s : J2IDes) (f : Func) : s.desFunc (funcJson f) =
    some (match s.idFuncMap.lookup f.id with
      | some _ => s
      | none => { s with next := s.next + 1, idFuncMap := s.idFuncMap ++ [(f.id, newFunc s.next f)] }) := by
  have hid : (funcJson f).natAt "i" = some f.id := Json.natAt_object rfl
  have hname : (funcJson f).strAt "n" = some f.name := Json.strAt_object rfl
  have hout : ((funcJson f).field "o").bind desSort = some f.out := by
    rw [funcJson, Json.field_object]
    exact desSort_serSort f.out
  have hargs : (funcJson f).elemsAt "a" = some (f.args.map serSort) := Json.elemsAt_object rfl
  rw [desFunc, hid, Option.bind_some]
  cases s.idFuncMap.lookup f.id with
  | some f' => rfl
  | none =>
    simp only [hname, hout, hargs, Option.bind_some, mapM_desSort, Option.map_some]
    rfl

end J2IDes

/-! ### Expressions with other variables and functions -/

namespace Expr

variable (ρ : Var → Var) (φ : Func → Func)

mutual

def relabel : Expr → Expr
  | .var v => .var (ρ v)
  | .const c => .const c
  | .op o args => .op o (relabelList args)
  | .appFunc f args => .appFunc (φ f) (relabelList args)

def relabelList : List Expr → List Expr
  | [] => []
  | a :: as => relabel a :: relabelList as

end

variable {ρ φ}

theorem relabelList_eq_map (args : List Expr) : relabelList ρ φ args = args.map (relabel ρ φ) := by
  induction args with
  | nil => rfl
  | cons a as ih => rw [relabelList, ih, List.map_cons]

theorem sort_relabel (hρ : ∀ v, (ρ v).sort = v.sort) (hφ : ∀ f, (φ f).out = f.out) (e : Expr) :
    (e.relabel ρ φ).sort = e.sort := by
  induction e using ind with
  | var v => exact hρ v
  | const c => rfl
  | op o args ih =>
    rw [relabel, sort, sort, sortList_eq_map, sortList_eq_map, relabelList_eq_map, List.map_map]
    exact congrArg o.sortOf (List.map_congr_left ih)
  | appFunc f args ih => exact hφ f

end Expr

namespace Node

end Node

end Ilang
