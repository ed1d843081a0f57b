import Ilang.Ila.Node
import Ilang.Target.Z3Adapter

/-!
# The smt-switch interface

`SmtSwitchItf` remembers the term of every node and the symbol of every function it has translated, until
the next `Reset`. A new suffix does not empty these maps, so a node keeps the suffix under which it was
translated first. The terms that come out are therefore translations in which each variable and each
function carries the suffix of its first call (`transBy`). A function without arguments has no sort in
smt-switch, and the program stops where its term is needed (`Node.Applied`).
-/

namespace Ilang

open Smt

/-- The symbol of `Func2Term`. -/
def Func.smtSym (f : Func) (suffix : String) : FuncSym := ⟨formatStr f.name f.hostRoot suffix, f.args, f.out⟩

/-! ### Constants -/

/-- The number of a given width that `make_term` builds when it is given an unsigned number of 64 bits for
its `int64_t`. -/
def int64At (w x : Nat) : Nat := ((BitVec.ofNat 64 x).signExtend w).toNat

/-- A constant with its numbers as smt-switch reads them. -/
def ConstVal.int64 : ConstVal → ConstVal
  | .bool b => .bool b
  | .bv x w => .bv (int64At w x) w
  | .mem x m a d => .mem (int64At d x) (m.map fun p => (int64At a p.1, int64At d p.2)) a d

/-- `ExprConst2Term`. -/
def ConstVal.smtTerm (c : ConstVal) : Term := c.int64.term

/-- A number that is the same as an `int64_t`: it has at most 64 bits, or it is below `2 ^ 63`. -/
def ReadsAlike (w x : Nat) : Prop := w ≤ 64 ∨ x < 2 ^ 63

instance (w x : Nat) : Decidable (ReadsAlike w x) := inferInstanceAs (Decidable (_ ∨ _))

/-- All the numbers of a constant are. -/
def ConstVal.ReadsAlike : ConstVal → Prop
  | .bool _ => True
  | .bv x w => Ilang.ReadsAlike w x
  | .mem x m a d => Ilang.ReadsAlike d x ∧ ∀ p ∈ m, Ilang.ReadsAlike a p.1 ∧ Ilang.ReadsAlike d p.2

theorem ofNat_int64At {w x : Nat} (h : ReadsAlike w x) : BitVec.ofNat w (int64At w x) = BitVec.ofNat w x := by
  rw [int64At, BitVec.ofNat_toNat, BitVec.setWidth_eq]
  rcases h with hw | hx
  · rw [BitVec.signExtend_eq_setWidth_of_le _ hw]
    refine BitVec.eq_of_toNat_eq ?_
    rw [BitVec.toNat_setWidth, BitVec.toNat_ofNat, BitVec.toNat_ofNat, Nat.mod_mod_of_dvd x (Nat.pow_dvd_pow 2 hw)]
  · have hsmall : x < 2 ^ 64 := by omega
    have hmsb : (BitVec.ofNat 64 x).msb = false := by
      rw [BitVec.msb_eq_false_iff_two_mul_lt, BitVec.toNat_ofNat, Nat.mod_eq_of_lt hsmall]
      omega
    rw [BitVec.signExtend_eq_setWidth_of_msb_false hmsb]
    refine BitVec.eq_of_toNat_eq ?_
    rw [BitVec.toNat_setWidth, BitVec.toNat_ofNat, BitVec.toNat_ofNat, Nat.mod_eq_of_lt hsmall]

theorem ConstVal.contents_int64 {a d : Nat} {m : List (Nat × Nat)}
    (h : ∀ p ∈ m, Ilang.ReadsAlike a p.1 ∧ Ilang.ReadsAlike d p.2) (f : BitVec a → BitVec d) :
    (m.map fun p => (int64At a p.1, int64At d p.2)).foldl
        (fun f p i => if i = BitVec.ofNat a p.1 then BitVec.ofNat d p.2 else f i) f =
      m.foldl (fun f p i => if i = BitVec.ofNat a p.1 then BitVec.ofNat d p.2 else f i) f := by
  induction m generalizing f with
  | nil => rfl
  | cons p m ih =>
    obtain ⟨haddr, hdata⟩ := h p List.mem_cons_self
    rw [List.map_cons, List.foldl_cons, List.foldl_cons, ih fun q hq => h q (List.mem_cons_of_mem p hq),
      ofNat_int64At haddr, ofNat_int64At hdata]

theorem ConstVal.value_int64 {c : ConstVal} (h : c.ReadsAlike) : c.int64.value = c.value := by
  cases c with
  | bool b => rfl
  | bv x w => rw [ConstVal.int64, ConstVal.value, ConstVal.value, ofNat_int64At h]
  | mem x m a d =>
    rw [ConstVal.int64, ConstVal.value, ConstVal.value, ConstVal.contents, ConstVal.contents, ofNat_int64At h.1,
      ConstVal.contents_int64 h.2]

theorem smtTerm_eval (M : Model) (c : ConstVal) : c.smtTerm.eval M = some c.int64.value := term_eval M c.int64

/-- The constants of a node mean the same as `int64_t`. -/
def Node.ReadsAlike (n : Node) : Prop := ∀ p c, .leaf p (.const c) ∈ n.subs → c.ReadsAlike

/-- Every function of a node is applied to something. -/
def Node.Applied (n : Node) : Prop := ∀ f ∈ n.funcs, f.args ≠ []

instance (n : Node) : Decidable n.Applied := inferInstanceAs (Decidable (∀ f ∈ n.funcs, _))

theorem Node.Applied.arg {p : Nat} {h : Head} {args : List Node} (hn : (Node.app p h args).Applied) {a : Node}
    (ha : a ∈ args) : a.Applied := fun f hf => hn f (Node.mem_funcs_app.mpr (.inr ⟨a, ha, hf⟩))

theorem Node.applied_leaf (p : Nat) (l : Leaf) : (Node.leaf p l).Applied := by
  simp [Node.Applied, Node.funcs_leaf]

/-! ### Translations -/

/-- Which suffix each variable node and each function carries. -/
structure Suffixes where
  var : Nat → String
  func : Func → String

mutual

/-- The translation of a node in which variables and functions carry given suffixes. -/
def transBy (π : Suffixes) : Node → Term
  | .leaf p (.var v) => .const (v.sym (π.var p))
  | .leaf _ (.const c) => c.smtTerm
  | .app _ (.op o) args => .op (o.smt (Expr.sortList (Node.exprList args))) (transByList π args)
  | .app _ (.appFunc f) args => .app (f.smtSym (π.func f)) (transByList π args)

def transByList (π : Suffixes) : List Node → List Term
  | [] => []
  | a :: as => transBy π a :: transByList π as

end

/-- The translation on a fresh interface: one suffix everywhere. -/
def trans (suffix : String) (n : Node) : Term := transBy ⟨fun _ => suffix, fun _ => suffix⟩ n

theorem formatStr_suffix_inj {name pre s t : String} : formatStr name pre s = formatStr name pre t ↔ s = t := by
  refine ⟨fun h => ?_, fun h => by rw [h]⟩
  have hlen := congrArg String.length h
  have hsep : "_sEp_".length = 5 := rfl
  simp only [formatStr] at h hlen
  by_cases hs : s = ""
  · by_cases ht : t = ""
    · rw [hs, ht]
    · simp only [hs, ht, if_true, if_false, String.length_append] at hlen
      omega
  · by_cases ht : t = ""
    · simp only [hs, ht, if_true, if_false, String.length_append] at hlen
      omega
    · rw [if_neg hs, if_neg ht] at h
      exact String.append_right_inj _ |>.mp h

theorem transByList_eq_map (π : Suffixes) (args : List Node) : transByList π args = args.map (transBy π) := by
  induction args with
  | nil => rfl
  | cons a as ih => rw [transByList, ih, List.map_cons]

/-- Two translations of a node agree exactly when they give its variables and functions the same suffixes. -/
theorem transBy_eq_iff {π ρ : Suffixes} {n : Node} : transBy π n = transBy ρ n ↔
    (∀ q ∈ n.varPtrs, π.var q = ρ.var q) ∧ ∀ f ∈ n.funcs, π.func f = ρ.func f := by
  induction n using Node.ind with
  | leaf p l =>
    cases l with
    | var v =>
      have hinj : v.sym (π.var p) = v.sym (ρ.var p) ↔ π.var p = ρ.var p := by
        simp only [Var.sym, Sym.mk.injEq, and_true, formatStr_suffix_inj]
      simp [transBy, Node.mem_varPtrs_var, Node.funcs_leaf, hinj]
    | const c => simp [transBy, Node.varPtrs, Node.subs, Node.isVar, Node.funcs_leaf]
  | app p h args ih =>
    have hargs : transByList π args = transByList ρ args ↔
        (∀ a ∈ args, ∀ q ∈ a.varPtrs, π.var q = ρ.var q) ∧ ∀ a ∈ args, ∀ f ∈ a.funcs, π.func f = ρ.func f := by
      rw [transByList_eq_map, transByList_eq_map, List.map_inj_left, ← forall₂_and]
      exact forall₂_congr ih
    have hvars : (∀ q ∈ (Node.app p h args).varPtrs, π.var q = ρ.var q) ↔
        ∀ a ∈ args, ∀ q ∈ a.varPtrs, π.var q = ρ.var q := by
      simp only [Node.mem_varPtrs_app, forall_exists_index, and_imp]
      exact ⟨fun h a ha q hq => h q a ha hq, fun h q a ha hq => h a ha q hq⟩
    have hfuncs : (∀ f ∈ (Node.app p h args).funcs, π.func f = ρ.func f) ↔
        (∀ f, h = .appFunc f → π.func f = ρ.func f) ∧ ∀ a ∈ args, ∀ f ∈ a.funcs, π.func f = ρ.func f := by
      simp only [Node.mem_funcs_app, or_imp, forall_and, forall_exists_index, and_imp]
      exact and_congr_right fun _ => ⟨fun h a ha f hf => h f a ha hf, fun h f a ha hf => h a ha f hf⟩
    rw [hvars, hfuncs]
    cases h with
    | op o => simp [transBy, hargs]
    | appFunc f =>
      have hinj : f.smtSym (π.func f) = f.smtSym (ρ.func f) ↔ π.func f = ρ.func f := by
        simp only [Func.smtSym, FuncSym.mk.injEq, and_true, formatStr_suffix_inj]
      simp [transBy, hargs, hinj]
      tauto

/-! ### The value of a translation -/

/-- The frame of a model that a suffix selects here, where functions carry the suffix too. -/
def smtFrame (M : Model) (suffix : String) : Valuation where
  atom
    | .var v => M.const (v.sym suffix)
    | .nondet f => M.func (f.smtSym suffix) []
  atom_sort
    | .var v => M.const_sort (v.sym suffix)
    | .nondet f => M.func_sort (f.smtSym suffix) []
  func f := M.func (f.smtSym suffix)
  func_sort f := M.func_sort (f.smtSym suffix)

theorem transByList_eval {M : Model} {π : Suffixes} {ν : Valuation} {args : List Node} {ss : List Srt}
    (hcheck : Expr.checkList (Node.exprList args) = some ss)
    (ih : ∀ a ∈ args, ∀ s, a.expr.check = some s → (transBy π a).eval M = a.expr.eval ν) :
    Term.evalList M (transByList π args) = Expr.evalList ν (Node.exprList args) := by
  induction args generalizing ss with
  | nil => rfl
  | cons a as iha =>
    simp only [Node.exprList, Expr.checkList, Option.bind_eq_some_iff, Option.map_eq_some_iff] at hcheck
    obtain ⟨s, hs, us, hus, -⟩ := hcheck
    rw [transByList, Term.evalList, Node.exprList, Expr.evalList, ih a List.mem_cons_self s hs,
      iha hus fun b hb => ih b (List.mem_cons_of_mem a hb)]

/-- The translation of a well-sorted node has the value of its expression in the frame of the suffix. -/
theorem trans_eval (M : Model) (suffix : String) {n : Node} {s : Srt} (h : n.expr.check = some s)
    (hconst : n.ReadsAlike) : (trans suffix n).eval M = n.expr.eval (smtFrame M suffix) := by
  induction n using Node.ind generalizing s with
  | leaf p l =>
    cases l with
    | var v => rfl
    | const c =>
      have hread : c.ReadsAlike := hconst p c (Node.mem_subs_self _)
      rw [trans, transBy, smtTerm_eval, ConstVal.value_int64 hread, Node.expr, Expr.eval]
  | app p head args ih =>
    have hreads : ∀ a ∈ args, a.ReadsAlike := fun a ha q c hq => hconst q c (Node.mem_subs_of_arg ha hq)
    cases head with
    | op o =>
      rw [Node.expr, Expr.check, Option.bind_eq_some_iff] at h
      obtain ⟨ss, hss, ho⟩ := h
      have hargs := transByList_eval (M := M) hss fun a ha s hs => ih a ha hs (hreads a ha)
      rw [trans, transBy, Term.eval, hargs, Node.expr, Expr.eval, Expr.sortList_of_checkList hss]
      cases hvs : Expr.evalList (smtFrame M suffix) (Node.exprList args) with
      | none => rfl
      | some vs =>
        have hsorts := Expr.evalList_sort (smtFrame M suffix) (Node.exprList args)
        rw [hvs, hss, Option.map_some, Option.some.injEq] at hsorts
        rw [ExprOp.check, Option.ite_none_right_eq_some] at ho
        rw [Option.bind_some, Option.bind_some, ExprOp.apply, hsorts, if_pos ho.1]
    | appFunc f =>
      rw [Node.expr, Expr.check, Option.bind_eq_some_iff] at h
      obtain ⟨ss, hss, -⟩ := h
      have hargs := transByList_eval (M := M) hss fun a ha s hs => ih a ha hs (hreads a ha)
      rw [trans, transBy, Term.eval, hargs, Node.expr, Expr.eval]
      congr 1
      funext vs
      rw [Model.apply, Valuation.app]
      cases vs <;> rfl

/-- Translations under other suffixes have the same value in a model that gives their symbols the same
meaning. -/
theorem transBy_eval_congr {M N : Model} {π ρ : Suffixes} {n : Node}
    (hvar : ∀ p v, .leaf p (.var v) ∈ n.subs → M.const (v.sym (π.var p)) = N.const (v.sym (ρ.var p)))
    (hfunc : ∀ f ∈ n.funcs, M.func (f.smtSym (π.func f)) = N.func (f.smtSym (ρ.func f))) :
    (transBy π n).eval M = (transBy ρ n).eval N := by
  induction n using Node.ind with
  | leaf p l =>
    cases l with
    | var v => rw [transBy, transBy, Term.eval, Term.eval, hvar p v (Node.mem_subs_self _)]
    | const c => rw [transBy, transBy, smtTerm_eval, smtTerm_eval]
  | app p head args ih =>
    have hargs : ∀ as : List Node, as ⊆ args →
        Term.evalList M (transByList π as) = Term.evalList N (transByList ρ as) := by
      intro as
      induction as with
      | nil => exact fun _ => rfl
      | cons a as iha =>
        intro hsub
        have ha : a ∈ args := hsub List.mem_cons_self
        have heval := ih a ha (fun q v hq => hvar q v (Node.mem_subs_of_arg ha hq))
          fun f hf => hfunc f (Node.mem_funcs_app.mpr (.inr ⟨a, ha, hf⟩))
        rw [transByList, transByList, Term.evalList, Term.evalList, heval,
          iha fun b hb => hsub (List.mem_cons_of_mem a hb)]
    cases head with
    | op o => rw [transBy, transBy, Term.eval, Term.eval, hargs args (List.Subset.refl _)]
    | appFunc f =>
      rw [transBy, transBy, Term.eval, Term.eval, hargs args (List.Subset.refl _)]
      congr 1
      funext vs
      rw [Model.apply, Model.apply, hfunc f (Node.mem_funcs_app.mpr (.inl rfl))]
      rfl

/-! ### The interface -/

/-- The maps of `SmtSwitchItf`. -/
structure SmtSwitchItf where
  exprMap : Nat → Option Term
  funcMap : Func → Option FuncSym

namespace SmtSwitchItf

/-- After `Reset`. -/
def reset : SmtSwitchItf := ⟨fun _ => none, fun _ => none⟩

/-- `expr_map_.insert`, which leaves an entry that is there. -/
def insert (st : SmtSwitchItf) (p : Nat) (t : Term) : SmtSwitchItf :=
  match st.exprMap p with
  | some _ => st
  | none => { st with exprMap := Function.update st.exprMap p (some t) }

/-- The terms of the arguments. One that is missing fails an assertion. -/
def argTerms (st : SmtSwitchItf) : List Node → Option (List Term)
  | [] => some []
  | a :: as => (st.exprMap a.ptr).bind fun t => (argTerms st as).map fun ts => t :: ts

/-- `Func2Term`. There is no function sort without arguments. -/
def func2Term (suffix : String) (f : Func) : Option FuncSym := if f.args = [] then none else some (f.smtSym suffix)

/-- The symbol of a function: the one in the map, else a new one. -/
def funcTerm (suffix : String) (st : SmtSwitchItf) (f : Func) : Option FuncSym :=
  (st.funcMap f).or (func2Term suffix f)

/-- `PopulateExprMap`, on nodes whose sorts the solver accepts. When the term of a function is refused, `post`
catches the exception and the maps stay as they are. -/
def populateExprMap (suffix : String) (st : SmtSwitchItf) : Node → Option SmtSwitchItf
  | .leaf p (.var v) => some (st.insert p (.const (v.sym suffix)))
  | .leaf p (.const c) => some (st.insert p c.smtTerm)
  | .app p (.op o) args =>
    (st.argTerms args).map fun ts => st.insert p (.op (o.smt (Expr.sortList (Node.exprList args))) ts)
  | .app p (.appFunc f) args => (st.argTerms args).map fun ts =>
    match funcTerm suffix st f with
    | some fs => { st with funcMap := Function.update st.funcMap f (some fs) }.insert p (.app fs ts)
    | none => st

mutual

/-- `DepthFirstVisitPrePost`: a node that is in the map is not entered. -/
def visit (suffix : String) : Node → SmtSwitchItf → Option SmtSwitchItf
  | .leaf p l, st => if (st.exprMap p).isSome then some st else populateExprMap suffix st (.leaf p l)
  | .app p h args, st =>
    if (st.exprMap p).isSome then some st
    else (visitList suffix args st).bind fun st => populateExprMap suffix st (.app p h args)

def visitList (suffix : String) : List Node → SmtSwitchItf → Option SmtSwitchItf
  | [], st => some st
  | a :: as, st => (visit suffix a st).bind (visitList suffix as)

end

/-- `GetSmtTerm`. A missing term fails an assertion, here as for the arguments. -/
def getSmtTerm (n : Node) (suffix : String) (st : SmtSwitchItf) : Option (Term × SmtSwitchItf) :=
  (visit suffix n st).bind fun st => (st.exprMap n.ptr).map fun t => (t, st)

/-! ### What the maps hold -/

/-- The entries of the maps are translations under some suffixes, and the maps are closed under going
down in a node. -/
structure Inv (heap : Nat → Node) (π : Suffixes) (st : SmtSwitchItf) : Prop where
  term : ∀ q t, st.exprMap q = some t → t = transBy π (heap q)
  closed : ∀ q, (st.exprMap q).isSome → ∀ m ∈ (heap q).subs, (st.exprMap m.ptr).isSome
  func : ∀ f x, st.funcMap f = some x → x = f.smtSym (π.func f) ∧ f.args ≠ []
  funcs : ∀ q, (st.exprMap q).isSome → ∀ f ∈ (heap q).funcs, (st.funcMap f).isSome

/-- What is not in the maps yet is to be translated with this suffix. -/
structure Pending (π : Suffixes) (suffix : String) (st : SmtSwitchItf) (n : Node) : Prop where
  var : ∀ q ∈ n.varPtrs, st.exprMap q = none → π.var q = suffix
  func : ∀ f ∈ n.funcs, st.funcMap f = none → π.func f = suffix

/-- One state has the entries of another and those of some nodes. -/
structure Extends (st st' : SmtSwitchItf) (ns : List Node) : Prop where
  expr : ∀ q, (st'.exprMap q).isSome ↔ (st.exprMap q).isSome ∨ ∃ n ∈ ns, q ∈ n.ptrs
  func : ∀ f, (st'.funcMap f).isSome ↔ (st.funcMap f).isSome ∨ ∃ n ∈ ns, f ∈ n.funcs

variable {heap : Nat → Node} {π : Suffixes} {suffix : String} {st st' : SmtSwitchItf}

theorem insert_exprMap_isSome (st : SmtSwitchItf) (p : Nat) (t : Term) (q : Nat) :
    ((st.insert p t).exprMap q).isSome ↔ (st.exprMap q).isSome ∨ q = p := by
  unfold insert
  split
  · rename_i x hx
    constructor
    · exact .inl
    · rintro (h | rfl)
      · exact h
      · rw [hx]
        rfl
  · by_cases hq : q = p
    · simp [hq]
    · simp [hq]

theorem insert_funcMap (st : SmtSwitchItf) (p : Nat) (t : Term) : (st.insert p t).funcMap = st.funcMap := by
  unfold insert
  split <;> rfl

theorem insert_exprMap_eq_some {p : Nat} {t u : Term} {q : Nat} (h : (st.insert p t).exprMap q = some u) :
    st.exprMap q = some u ∨ (q = p ∧ u = t) := by
  unfold insert at h
  split at h
  · exact .inl h
  · by_cases hq : q = p
    · subst hq
      right
      simpa [eq_comm] using h
    · left
      simpa [Function.update_of_ne hq] using h

theorem argTerms_eq (hinv : Inv heap π st) {args : List Node} (hheap : ∀ a ∈ args, a.InHeap heap)
    (hsome : ∀ a ∈ args, (st.exprMap a.ptr).isSome) : st.argTerms args = some (transByList π args) := by
  induction args with
  | nil => rfl
  | cons a as ih =>
    obtain ⟨t, ht⟩ := Option.isSome_iff_exists.mp (hsome a List.mem_cons_self)
    have hterm : t = transBy π a := by
      rw [hinv.term a.ptr t ht, hheap a List.mem_cons_self a a.mem_subs_self]
    have hrest := ih (fun b hb => hheap b (List.mem_cons_of_mem a hb))
      fun b hb => hsome b (List.mem_cons_of_mem a hb)
    rw [argTerms, ht, hrest, Option.bind_some, Option.map_some, transByList, hterm]

theorem isSome_of_argTerms {args : List Node} {ts : List Term} (h : st.argTerms args = some ts) :
    ∀ a ∈ args, (st.exprMap a.ptr).isSome := by
  induction args generalizing ts with
  | nil => simp
  | cons a as ih =>
    rw [argTerms, Option.bind_eq_some_iff] at h
    obtain ⟨t, ht, h⟩ := h
    obtain ⟨us, hus, -⟩ := Option.map_eq_some_iff.mp h
    intro b hb
    rcases List.mem_cons.mp hb with rfl | hb
    · simp [ht]
    · exact ih hus b hb

theorem Inv.insert (hinv : Inv heap π st) {n : Node} (hn : n.InHeap heap)
    (hsubs : ∀ m ∈ n.subs, m = n ∨ (st.exprMap m.ptr).isSome) (hfuncs : ∀ f ∈ n.funcs, (st.funcMap f).isSome) :
    Inv heap π (st.insert n.ptr (transBy π n)) := by
  have hself : heap n.ptr = n := hn n n.mem_subs_self
  refine ⟨fun q t ht => ?_, fun q hq m hm => ?_, fun f x hx => ?_, fun q hq f hf => ?_⟩
  · rcases insert_exprMap_eq_some ht with hold | ⟨rfl, rfl⟩
    · exact hinv.term q t hold
    · rw [hself]
  · rw [insert_exprMap_isSome] at hq ⊢
    rcases hq with hq | rfl
    · exact .inl (hinv.closed q hq m hm)
    · rw [hself] at hm
      rcases hsubs m hm with rfl | hm
      · exact .inr rfl
      · exact .inl hm
  · rw [insert_funcMap] at hx
    exact hinv.func f x hx
  · rw [insert_exprMap_isSome] at hq
    rw [insert_funcMap]
    rcases hq with hq | rfl
    · exact hinv.funcs q hq f hf
    · rw [hself] at hf
      exact hfuncs f hf

theorem Inv.addFunc (hinv : Inv heap π st) {f : Func} (hf : f.args ≠ []) :
    Inv heap π { st with funcMap := Function.update st.funcMap f (some (f.smtSym (π.func f))) } := by
  refine ⟨hinv.term, hinv.closed, fun g x hx => ?_, fun q hq g hg => ?_⟩
  · by_cases hg : g = f
    · subst hg
      simp only [Function.update_self, Option.some.injEq] at hx
      exact ⟨hx.symm, hf⟩
    · exact hinv.func g x (by simpa [hg] using hx)
  · have hsome := hinv.funcs q hq g hg
    by_cases hgf : g = f
    · simp [hgf]
    · simpa [hgf] using hsome

theorem insert_spec (hinv : Inv heap π st) {n : Node} (hn : n.InHeap heap)
    (hsubs : ∀ m ∈ n.subs, m = n ∨ (st.exprMap m.ptr).isSome) (hfuncs : ∀ f ∈ n.funcs, (st.funcMap f).isSome) :
    Inv heap π (st.insert n.ptr (transBy π n)) ∧ Extends st (st.insert n.ptr (transBy π n)) [n] := by
  refine ⟨hinv.insert hn hsubs hfuncs, fun q => ?_, fun f => ?_⟩
  · simp only [insert_exprMap_isSome, List.mem_singleton, exists_eq_left]
    constructor
    · rintro (hq | rfl)
      · exact .inl hq
      · exact .inr n.ptr_mem_ptrs
    · rintro (hq | hq)
      · exact .inl hq
      · obtain ⟨m, hm, rfl⟩ := Node.mem_ptrs.mp hq
        rcases hsubs m hm with rfl | hm
        · exact .inr rfl
        · exact .inl hm
  · simp only [insert_funcMap, List.mem_singleton, exists_eq_left]
    exact ⟨.inl, fun h => h.elim id (hfuncs f)⟩

theorem populateExprMap_leaf (hinv : Inv heap π st) {p : Nat} {l : Leaf} (hn : (Node.leaf p l).InHeap heap)
    (hpend : Pending π suffix st (.leaf p l)) (hmiss : st.exprMap p = none) :
    ∃ st', populateExprMap suffix st (.leaf p l) = some st' ∧ Inv heap π st' ∧ Extends st st' [.leaf p l] := by
  have hins := insert_spec hinv hn (fun m hm => .inl (Node.mem_subs_leaf.mp hm))
    (by simp [Node.funcs_leaf])
  refine ⟨_, ?_, hins⟩
  cases l with
  | var v => rw [populateExprMap, ← hpend.var p (Node.mem_varPtrs_var.mpr rfl) hmiss, transBy, Node.ptr]
  | const c => rfl

theorem funcTerm_eq (hinv : Inv heap π st) {f : Func} (hf : f.args ≠ [])
    (hpend : st.funcMap f = none → π.func f = suffix) : funcTerm suffix st f = some (f.smtSym (π.func f)) := by
  cases h : st.funcMap f with
  | none => rw [funcTerm, h, Option.none_or, func2Term, if_neg hf, hpend h]
  | some x => rw [funcTerm, h, Option.some_or, (hinv.func f x h).1]

theorem populateExprMap_app (hinv : Inv heap π st) {p : Nat} {h : Head} {args : List Node}
    (hn : (Node.app p h args).InHeap heap) (happ : (Node.app p h args).Applied)
    (hpend : Pending π suffix st (.app p h args)) (hargs : ∀ a ∈ args, (st.exprMap a.ptr).isSome) :
    ∃ st', populateExprMap suffix st (.app p h args) = some st' ∧ Inv heap π st' ∧
      Extends st st' [.app p h args] := by
  have hheap : ∀ a ∈ args, heap a.ptr = a := fun a ha => hn.arg ha a a.mem_subs_self
  have hsubs : ∀ m ∈ (Node.app p h args).subs, m = .app p h args ∨ (st.exprMap m.ptr).isSome := by
    intro m hm
    rcases Node.mem_subs_app.mp hm with rfl | ⟨a, ha, hma⟩
    · exact .inl rfl
    · exact .inr (hinv.closed a.ptr (hargs a ha) m (by rwa [hheap a ha]))
  -- the functions below the node are known, so only its own can be missing
  have hbelow : ∀ f ∈ (Node.app p h args).funcs, h = .appFunc f ∨ (st.funcMap f).isSome := by
    intro f hf
    rcases Node.mem_funcs_app.mp hf with heq | ⟨a, ha, hfa⟩
    · exact .inl heq
    · exact .inr (hinv.funcs a.ptr (hargs a ha) f (by rwa [hheap a ha]))
  have hterms := argTerms_eq hinv (fun a ha => hn.arg ha) hargs
  cases h with
  | op o =>
    have hins := insert_spec hinv hn hsubs fun f hf => (hbelow f hf).resolve_left (by simp)
    exact ⟨_, by rw [populateExprMap, hterms, Option.map_some, transBy, Node.ptr], hins⟩
  | appFunc f =>
    have hmem : f ∈ (Node.app p (.appFunc f) args).funcs := Node.mem_funcs_app.mpr (.inl rfl)
    have hterm := funcTerm_eq hinv (happ f hmem) (hpend.func f hmem)
    have hupd : ∀ g, (Function.update st.funcMap f (some (f.smtSym (π.func f))) g).isSome ↔
        (st.funcMap g).isSome ∨ g = f := by
      intro g
      by_cases hg : g = f
      · simp [hg]
      · simp [hg]
    have hknown : ∀ g ∈ (Node.app p (.appFunc f) args).funcs, (st.funcMap g).isSome ∨ g = f := by
      intro g hg
      rcases hbelow g hg with heq | hsome
      · injection heq with heq
        exact .inr heq.symm
      · exact .inl hsome
    obtain ⟨hinv', hext⟩ := insert_spec (hinv.addFunc (happ f hmem)) hn hsubs fun g hg => (hupd g).mpr (hknown g hg)
    refine ⟨_, by rw [populateExprMap, hterms, Option.map_some, hterm, transBy, Node.ptr], hinv', hext.expr,
      fun g => (hext.func g).trans ?_⟩
    rw [hupd]
    constructor
    · rintro ((hg | rfl) | hg)
      · exact .inl hg
      · exact .inr ⟨_, List.mem_singleton_self _, hmem⟩
      · exact .inr hg
    · rintro (hg | hg)
      · exact .inl (.inl hg)
      · exact .inr hg

theorem Extends.refl_of_cached (hinv : Inv heap π st) {n : Node} (hn : n.InHeap heap)
    (hcached : (st.exprMap n.ptr).isSome) : Extends st st [n] := by
  have hself : heap n.ptr = n := hn n n.mem_subs_self
  refine ⟨fun q => ⟨.inl, ?_⟩, fun f => ⟨.inl, ?_⟩⟩
  · rintro (hq | ⟨m, hm, hq⟩)
    · exact hq
    · obtain rfl := List.mem_singleton.mp hm
      obtain ⟨k, hk, rfl⟩ := Node.mem_ptrs.mp hq
      exact hinv.closed m.ptr hcached k (by rwa [hself])
  · rintro (hf | ⟨m, hm, hf⟩)
    · exact hf
    · obtain rfl := List.mem_singleton.mp hm
      exact hinv.funcs m.ptr hcached f (by rwa [hself])

theorem Extends.trans {st'' : SmtSwitchItf} {ns ms : List Node} (h : Extends st st' ns)
    (h' : Extends st' st'' ms) : Extends st st'' (ns ++ ms) := by
  refine ⟨fun q => ?_, fun f => ?_⟩
  · rw [h'.expr, h.expr, or_assoc]
    simp only [List.mem_append, or_and_right, exists_or]
  · rw [h'.func, h.func, or_assoc]
    simp only [List.mem_append, or_and_right, exists_or]

theorem Pending.of_extends {ns : List Node} {n : Node} (h : Pending π suffix st n) (hext : Extends st st' ns) :
    Pending π suffix st' n := by
  refine ⟨fun q hq hnone => h.var q hq ?_, fun f hf hnone => h.func f hf ?_⟩
  · by_contra hsome
    have := (hext.expr q).mpr (.inl (Option.isSome_iff_ne_none.mpr hsome))
    simp [hnone] at this
  · by_contra hsome
    have := (hext.func f).mpr (.inl (Option.isSome_iff_ne_none.mpr hsome))
    simp [hnone] at this

theorem Pending.arg {p : Nat} {h : Head} {args : List Node} (hp : Pending π suffix st (.app p h args)) {a : Node}
    (ha : a ∈ args) : Pending π suffix st a :=
  ⟨fun q hq => hp.var q (Node.mem_varPtrs_app.mpr ⟨a, ha, hq⟩),
    fun f hf => hp.func f (Node.mem_funcs_app.mpr (.inr ⟨a, ha, hf⟩))⟩

theorem visitList_spec {args : List Node}
    (hvisit : ∀ a ∈ args, ∀ st, Inv heap π st → Pending π suffix st a →
      ∃ st', visit suffix a st = some st' ∧ Inv heap π st' ∧ Extends st st' [a])
    (hinv : Inv heap π st) (hpend : ∀ a ∈ args, Pending π suffix st a) :
    ∃ st', visitList suffix args st = some st' ∧ Inv heap π st' ∧ Extends st st' args := by
  induction args generalizing st with
  | nil => exact ⟨st, by rw [visitList], hinv, by simp, by simp⟩
  | cons a as ih =>
    obtain ⟨st₁, hst₁, hinv₁, hext₁⟩ := hvisit a List.mem_cons_self st hinv (hpend a List.mem_cons_self)
    obtain ⟨st₂, hst₂, hinv₂, hext₂⟩ := ih (fun b hb => hvisit b (List.mem_cons_of_mem a hb)) hinv₁ fun b hb =>
      (hpend b (List.mem_cons_of_mem a hb)).of_extends hext₁
    refine ⟨st₂, ?_, hinv₂, hext₁.trans hext₂⟩
    rw [visitList, hst₁, Option.bind_some, hst₂]

theorem visit_spec {n : Node} (hn : n.InHeap heap) (happ : n.Applied) (hinv : Inv heap π st)
    (hpend : Pending π suffix st n) : ∃ st', visit suffix n st = some st' ∧ Inv heap π st' ∧ Extends st st' [n] := by
  induction n using Node.ind generalizing st with
  | leaf p l =>
    rw [visit]
    split
    · rename_i hcached
      exact ⟨st, rfl, hinv, .refl_of_cached hinv hn hcached⟩
    · rename_i hmiss
      exact populateExprMap_leaf hinv hn hpend (by simpa using hmiss)
  | app p h args ih =>
    rw [visit]
    split
    · rename_i hcached
      exact ⟨st, rfl, hinv, .refl_of_cached hinv hn hcached⟩
    · obtain ⟨st₁, hst₁, hinv₁, hext⟩ := visitList_spec
        (fun a ha st' hi hp => ih a ha (hn.arg ha) (happ.arg ha) hi hp) hinv fun a ha => hpend.arg ha
      have hargs : ∀ a ∈ args, (st₁.exprMap a.ptr).isSome := fun a ha =>
        (hext.expr a.ptr).mpr (.inr ⟨a, ha, a.ptr_mem_ptrs⟩)
      obtain ⟨st₂, hst₂, hinv₂, hext'⟩ := populateExprMap_app hinv₁ hn happ (hpend.of_extends hext) hargs
      -- what the arguments added is part of what the node adds
      refine ⟨st₂, by rw [hst₁, Option.bind_some, hst₂], hinv₂, fun q => ?_, fun f => ?_⟩
      · rw [hext'.expr, hext.expr, or_assoc]
        refine or_congr_right ⟨?_, .inr⟩
        rintro (⟨a, ha, hq⟩ | hq)
        · exact ⟨_, List.mem_singleton_self _, Node.mem_ptrs_app.mpr (.inr ⟨a, ha, hq⟩)⟩
        · exact hq
      · rw [hext'.func, hext.func, or_assoc]
        refine or_congr_right ⟨?_, .inr⟩
        rintro (⟨a, ha, hf⟩ | hf)
        · exact ⟨_, List.mem_singleton_self _, Node.mem_funcs_app.mpr (.inr ⟨a, ha, hf⟩)⟩
        · exact hf

theorem getSmtTerm_eq {n : Node} (hn : n.InHeap heap) (happ : n.Applied) (hinv : Inv heap π st)
    (hpend : Pending π suffix st n) :
    ∃ st', getSmtTerm n suffix st = some (transBy π n, st') ∧ Inv heap π st' ∧ Extends st st' [n] := by
  obtain ⟨st', hst', hinv', hext⟩ := visit_spec hn happ hinv hpend
  have hsome := (hext.expr n.ptr).mpr
    (.inr ⟨n, List.mem_singleton_self n, n.ptr_mem_ptrs⟩)
  obtain ⟨t, ht⟩ := Option.isSome_iff_exists.mp hsome
  refine ⟨st', ?_, hinv', hext⟩
  rw [getSmtTerm, hst', Option.bind_some, ht, Option.map_some, hinv'.term n.ptr t ht, hn n n.mem_subs_self]

/-! ### Functions without arguments -/

/-- The maps know no function without arguments. -/
structure Known (heap : Nat → Node) (st : SmtSwitchItf) : Prop where
  expr : ∀ q, (st.exprMap q).isSome → (heap q).Applied
  func : ∀ f, (st.funcMap f).isSome → f.args ≠ []

theorem Inv.known (hinv : Inv heap π st) : Known heap st := by
  have hfunc : ∀ f, (st.funcMap f).isSome → f.args ≠ [] := by
    intro f hf
    obtain ⟨x, hx⟩ := Option.isSome_iff_exists.mp hf
    exact (hinv.func f x hx).2
  exact ⟨fun q hq f hf => hfunc f (hinv.funcs q hq f hf), hfunc⟩

theorem Known.insert (hk : Known heap st) {n : Node} (hn : n.InHeap heap) (happ : n.Applied) (t : Term) :
    Known heap (st.insert n.ptr t) := by
  refine ⟨fun q hq => ?_, fun f hf => ?_⟩
  · rcases (insert_exprMap_isSome st n.ptr t q).mp hq with hq | rfl
    · exact hk.expr q hq
    · rwa [hn n n.mem_subs_self]
  · rw [insert_funcMap] at hf
    exact hk.func f hf

theorem Known.populateExprMap (hk : Known heap st) {n : Node} (hn : n.InHeap heap)
    (h : populateExprMap suffix st n = some st') : Known heap st' := by
  cases n with
  | leaf p l =>
    cases l with
    | var v =>
      obtain rfl := Option.some.inj h
      exact hk.insert hn (Node.applied_leaf p _) _
    | const c =>
      obtain rfl := Option.some.inj h
      exact hk.insert hn (Node.applied_leaf p _) _
  | app p head args =>
    -- an entry of the node comes after those of its arguments
    have happ : ∀ ts, st.argTerms args = some ts → (∀ f, head = .appFunc f → f.args ≠ []) →
        (Node.app p head args).Applied := by
      intro ts hts hhead f hf
      rcases Node.mem_funcs_app.mp hf with hf | ⟨a, ha, hf⟩
      · exact hhead f hf
      · have hknown := hk.expr a.ptr (isSome_of_argTerms hts a ha)
        rw [hn.arg ha a a.mem_subs_self] at hknown
        exact hknown f hf
    cases head with
    | op o =>
      obtain ⟨ts, hts, rfl⟩ := Option.map_eq_some_iff.mp h
      exact hk.insert hn (happ ts hts (by simp)) _
    | appFunc f =>
      obtain ⟨ts, hts, h⟩ := Option.map_eq_some_iff.mp h
      cases hfs : funcTerm suffix st f with
      | none =>
        rw [hfs] at h
        exact h ▸ hk
      | some fs =>
        have hf : f.args ≠ [] := by
          rcases Option.or_eq_some_iff.mp hfs with hmap | ⟨-, hnew⟩
          · exact hk.func f (by simp [hmap])
          · intro hnil
            simp [func2Term, hnil] at hnew
        have hk' : Known heap { st with funcMap := Function.update st.funcMap f (some fs) } := by
          refine ⟨hk.expr, fun g hg => ?_⟩
          by_cases heq : g = f
          · rwa [heq]
          · exact hk.func g (by simpa [heq] using hg)
        rw [hfs] at h
        have hins := hk'.insert hn (happ ts hts (by simpa using hf)) (.app fs ts)
        exact h ▸ hins

theorem Known.visitList {args : List Node}
    (hvisit : ∀ a ∈ args, ∀ st st', Known heap st → visit suffix a st = some st' → Known heap st')
    (hk : Known heap st) (h : visitList suffix args st = some st') : Known heap st' := by
  induction args generalizing st with
  | nil =>
    rw [SmtSwitchItf.visitList, Option.some.injEq] at h
    exact h ▸ hk
  | cons a as ih =>
    rw [SmtSwitchItf.visitList, Option.bind_eq_some_iff] at h
    obtain ⟨st₁, hst₁, h⟩ := h
    exact ih (fun b hb => hvisit b (List.mem_cons_of_mem a hb)) (hvisit a List.mem_cons_self st st₁ hk hst₁) h

theorem Known.visit {n : Node} (hn : n.InHeap heap) (hk : Known heap st) (h : visit suffix n st = some st') :
    Known heap st' := by
  induction n using Node.ind generalizing st st' with
  | leaf p l =>
    rw [SmtSwitchItf.visit] at h
    split at h
    · exact Option.some.inj h ▸ hk
    · exact hk.populateExprMap hn h
  | app p head args ih =>
    rw [SmtSwitchItf.visit] at h
    split at h
    · exact Option.some.inj h ▸ hk
    · rw [Option.bind_eq_some_iff] at h
      obtain ⟨st₁, hst₁, h⟩ := h
      exact (Known.visitList (fun a ha _ _ hk h => ih a ha (hn.arg ha) hk h) hk hst₁).populateExprMap hn h

theorem applied_of_getSmtTerm {n : Node} (hn : n.InHeap heap) (hinv : Inv heap π st) {t : Term}
    (h : getSmtTerm n suffix st = some (t, st')) : n.Applied := by
  rw [getSmtTerm, Option.bind_eq_some_iff] at h
  obtain ⟨st₁, hst₁, h⟩ := h
  obtain ⟨u, hu, -⟩ := Option.map_eq_some_iff.mp h
  have hknown := (hinv.known.visit hn hst₁).expr n.ptr (by simp [hu])
  rwa [hn n n.mem_subs_self] at hknown

/-! ### Sequences of calls -/

inductive Call where
  | getSmtTerm (n : Node) (suffix : String)
  | reset

/-- What a call leaves in the maps, if it returns. -/
def after (st : SmtSwitchItf) : Call → Option SmtSwitchItf
  | .getSmtTerm n suffix => (getSmtTerm n suffix st).map Prod.snd
  | .reset => some reset

/-- The maps after a sequence of calls on a new interface, if all of them return. -/
def run (calls : List Call) : Option SmtSwitchItf := calls.foldlM after reset

/-- The translations asked for since the last `Reset`. -/
def sinceReset (calls : List Call) : List (Node × String) :=
  calls.foldl (fun seen c => match c with
    | .getSmtTerm n suffix => seen ++ [(n, suffix)]
    | .reset => []) []

/-- The suffix of the first translation of a node with some property. -/
def firstSuffix (seen : List (Node × String)) (p : Node → Bool) : Option String :=
  (seen.find? fun c => p c.1).map Prod.snd

/-- Each variable and each function has the suffix of the first translation that met it. -/
def firstSuffixes (seen : List (Node × String)) : Suffixes where
  var q := (firstSuffix seen fun n => decide (q ∈ n.ptrs)).getD ""
  func f := (firstSuffix seen fun n => decide (f ∈ n.funcs)).getD ""

/-- No variable and no function of a node was met first under another suffix. -/
def Fresh (seen : List (Node × String)) (n : Node) (suffix : String) : Prop :=
  (∀ q ∈ n.varPtrs, (firstSuffix seen fun m => decide (q ∈ m.ptrs)).getD suffix = suffix) ∧
  ∀ f ∈ n.funcs, (firstSuffix seen fun m => decide (f ∈ m.funcs)).getD suffix = suffix

instance (seen : List (Node × String)) (n : Node) (suffix : String) : Decidable (Fresh seen n suffix) :=
  inferInstanceAs (Decidable (_ ∧ _))

/-- The maps hold what a list of translations put there. -/
structure Holds (heap : Nat → Node) (seen : List (Node × String)) (st : SmtSwitchItf) : Prop where
  inv : Inv heap (firstSuffixes seen) st
  expr : ∀ q, (st.exprMap q).isSome ↔ ∃ c ∈ seen, q ∈ c.1.ptrs
  func : ∀ f, (st.funcMap f).isSome ↔ ∃ c ∈ seen, f ∈ c.1.funcs

variable {seen : List (Node × String)}

theorem firstSuffix_append_of_exists {p : Node → Bool} (h : ∃ c ∈ seen, p c.1 = true) (cs : List (Node × String)) :
    firstSuffix (seen ++ cs) p = firstSuffix seen p := by
  obtain ⟨c, hc⟩ := Option.isSome_iff_exists.mp (List.find?_isSome.mpr h)
  rw [firstSuffix, firstSuffix, List.find?_append, hc]
  rfl

theorem firstSuffix_append_singleton {p : Node → Bool} {n : Node} (h : p n = true) (d : String) :
    (firstSuffix (seen ++ [(n, suffix)]) p).getD d = (firstSuffix seen p).getD suffix := by
  rw [firstSuffix, firstSuffix, List.find?_append]
  cases seen.find? fun c => p c.1 with
  | none => simp [h]
  | some c => rfl

theorem firstSuffix_eq_none {p : Node → Bool} (h : ¬ ∃ c ∈ seen, p c.1 = true) : firstSuffix seen p = none := by
  rw [firstSuffix, Option.map_eq_none_iff, List.find?_eq_none]
  exact fun c hc hp => h ⟨c, hc, hp⟩

theorem holds_reset (heap : Nat → Node) : Holds heap [] reset :=
  ⟨⟨by simp [reset], by simp [reset], by simp [reset], by simp [reset]⟩, by simp [reset], by simp [reset]⟩

theorem Inv.congr {ρ : Suffixes} (hinv : Inv heap π st)
    (hvar : ∀ q, (st.exprMap q).isSome → ρ.var q = π.var q)
    (hfunc : ∀ f, (st.funcMap f).isSome → ρ.func f = π.func f) : Inv heap ρ st := by
  refine ⟨fun q t ht => ?_, hinv.closed, fun f x hx => ?_, hinv.funcs⟩
  · have hq : (st.exprMap q).isSome := by simp [ht]
    rw [hinv.term q t ht, eq_comm, transBy_eq_iff]
    refine ⟨fun r hr => hvar r ?_, fun f hf => hfunc f (hinv.funcs q hq f hf)⟩
    obtain ⟨m, hm, -, rfl⟩ := Node.mem_varPtrs.mp hr
    exact hinv.closed q hq m hm
  · obtain ⟨heq, hargs⟩ := hinv.func f x hx
    exact ⟨by rw [heq, hfunc f (by simp [hx])], hargs⟩

theorem Holds.pending (h : Holds heap seen st) (n : Node) (suffix : String) :
    Inv heap (firstSuffixes (seen ++ [(n, suffix)])) st ∧
      Pending (firstSuffixes (seen ++ [(n, suffix)])) suffix st n := by
  constructor
  · refine h.inv.congr (fun q hq => ?_) fun f hf => ?_
    · obtain ⟨c, hc, hqc⟩ := (h.expr q).mp hq
      simp only [firstSuffixes]
      rw [firstSuffix_append_of_exists (p := fun n => decide (q ∈ n.ptrs)) ⟨c, hc, decide_eq_true hqc⟩]
    · obtain ⟨c, hc, hfc⟩ := (h.func f).mp hf
      simp only [firstSuffixes]
      rw [firstSuffix_append_of_exists (p := fun n => decide (f ∈ n.funcs)) ⟨c, hc, decide_eq_true hfc⟩]
  · refine ⟨fun q hq hnone => ?_, fun f hf hnone => ?_⟩
    · have hnew : ¬ ∃ c ∈ seen, q ∈ c.1.ptrs := by
        rw [← h.expr q, hnone]
        exact Bool.false_ne_true
      simp only [firstSuffixes]
      rw [firstSuffix_append_singleton (decide_eq_true (Node.varPtrs_subset_ptrs hq)),
        firstSuffix_eq_none (by simpa using hnew), Option.getD_none]
    · have hnew : ¬ ∃ c ∈ seen, f ∈ c.1.funcs := by
        rw [← h.func f, hnone]
        exact Bool.false_ne_true
      simp only [firstSuffixes]
      rw [firstSuffix_append_singleton (decide_eq_true hf), firstSuffix_eq_none (by simpa using hnew),
        Option.getD_none]

theorem Holds.getSmtTerm_eq (h : Holds heap seen st) {n : Node} (hn : n.InHeap heap) (happ : n.Applied)
    (suffix : String) : ∃ st', SmtSwitchItf.getSmtTerm n suffix st =
      some (transBy (firstSuffixes (seen ++ [(n, suffix)])) n, st') ∧ Holds heap (seen ++ [(n, suffix)]) st' := by
  obtain ⟨hinv, hpend⟩ := h.pending n suffix
  obtain ⟨st', hst', hinv', hext⟩ := SmtSwitchItf.getSmtTerm_eq hn happ hinv hpend
  refine ⟨st', hst', hinv', fun q => ?_, fun f => ?_⟩
  · refine (hext.expr q).trans ?_
    simp [h.expr q, or_and_right, exists_or]
  · refine (hext.func f).trans ?_
    simp [h.func f, or_and_right, exists_or]

theorem Holds.after (h : Holds heap seen st) {n : Node} (hn : n.InHeap heap) {suffix : String} {t : Term}
    (hget : SmtSwitchItf.getSmtTerm n suffix st = some (t, st')) : Holds heap (seen ++ [(n, suffix)]) st' := by
  obtain ⟨st'', heq, hholds⟩ := h.getSmtTerm_eq hn (applied_of_getSmtTerm hn h.inv hget) suffix
  obtain ⟨-, rfl⟩ := Prod.mk.inj (Option.some.inj (hget.symm.trans heq))
  exact hholds

theorem holds_run {calls : List Call} (hcalls : ∀ n suffix, Call.getSmtTerm n suffix ∈ calls → n.InHeap heap)
    (hrun : run calls = some st) : Holds heap (sinceReset calls) st := by
  induction calls using List.reverseRecOn generalizing st with
  | nil =>
    obtain rfl := Option.some.inj hrun
    exact holds_reset heap
  | append_singleton calls c ih =>
    rw [run, List.foldlM_append] at hrun
    obtain ⟨st₁, hst₁, hlast⟩ := Option.bind_eq_some_iff.mp hrun
    have hpre := ih (fun n suffix hmem => hcalls n suffix (List.mem_append_left _ hmem)) hst₁
    have hlast : SmtSwitchItf.after st₁ c = some st := by simpa using hlast
    rw [sinceReset, List.foldl_append, List.foldl_cons, List.foldl_nil]
    cases c with
    | getSmtTerm n suffix =>
      obtain ⟨⟨t, st₂⟩, hget, rfl⟩ := Option.map_eq_some_iff.mp hlast
      exact hpre.after (hcalls n suffix (by simp)) hget
    | reset =>
      obtain rfl := Option.some.inj hlast
      exact holds_reset heap

theorem transBy_firstSuffixes_eq_iff {n : Node} : transBy (firstSuffixes (seen ++ [(n, suffix)])) n = trans suffix n ↔
    Fresh seen n suffix := by
  rw [trans, transBy_eq_iff, Fresh]
  refine and_congr (forall₂_congr fun q hq => ?_) (forall₂_congr fun f hf => ?_)
  · simp only [firstSuffixes]
    rw [firstSuffix_append_singleton (decide_eq_true (Node.varPtrs_subset_ptrs hq))]
  · simp only [firstSuffixes]
    rw [firstSuffix_append_singleton (decide_eq_true hf)]

/-- The answer of a call has the suffix of the call everywhere exactly when nothing in its expression was
met before under another suffix and every function has arguments. -/
theorem Holds.getSmtTerm_eq_trans_iff (h : Holds heap seen st) {n : Node} (hn : n.InHeap heap) (suffix : String) :
    (SmtSwitchItf.getSmtTerm n suffix st).map Prod.fst = some (trans suffix n) ↔ n.Applied ∧ Fresh seen n suffix := by
  by_cases happ : n.Applied
  · obtain ⟨st', heq, -⟩ := h.getSmtTerm_eq hn happ suffix
    rw [heq, Option.map_some, Option.some.injEq, transBy_firstSuffixes_eq_iff, and_iff_right happ]
  · refine iff_of_false (fun hget => ?_) fun hboth => happ hboth.1
    obtain ⟨⟨t, st'⟩, hget, -⟩ := Option.map_eq_some_iff.mp hget
    exact happ (applied_of_getSmtTerm hn h.inv hget)

end SmtSwitchItf

end Ilang
