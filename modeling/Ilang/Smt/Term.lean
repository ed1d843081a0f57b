import Ilang.Smt.Value

/-!
# Terms and models

A term is built from constants, literals, operators and uninterpreted functions; a model gives every
constant and every function a value of its declared sort. `Term.subst` replaces constants by terms
simultaneously, and `eval_subst` says that this is the same as evaluating in the model in which the
replaced constants already have the values of their replacements.
-/

namespace Smt

/-- An uninterpreted constant. Two constants of one name and different sorts are different. -/
structure Sym where
  name : String
  sort : Srt
  deriving DecidableEq, Repr

/-- An uninterpreted function. -/
structure FuncSym where
  name : String
  args : List Srt
  out : Srt
  deriving DecidableEq, Repr

inductive Term where
  | const (c : Sym)
  | bool (b : Bool)
  | bv (width : Nat) (x : BitVec width)
  | op (o : Op) (args : List Term)
  | app (f : FuncSym) (args : List Term)

structure Model where
  const : Sym → Value
  const_sort : ∀ c, (const c).sort = c.sort
  func : FuncSym → List Value → Value
  func_sort : ∀ f vs, (func f vs).sort = f.out

namespace Model

/-- The value of a function at arguments of its domain. -/
def apply (M : Model) (f : FuncSym) (vs : List Value) : Option Value :=
  if vs.map Value.sort = f.args then some (M.func f vs) else none

theorem apply_congr {M N : Model} (h : M.func = N.func) : M.apply = N.apply := by
  funext f vs
  simp only [apply, h]

/-- The model that differs from `M` where the assignment gives a value of the right sort. -/
def override (M : Model) (assign : Sym → Option Value) : Model where
  const c :=
    match assign c with
    | some v => if v.sort = c.sort then v else M.const c
    | none => M.const c
  const_sort c := by
    split
    · split
      · assumption
      · exact M.const_sort c
    · exact M.const_sort c
  func := M.func
  func_sort := M.func_sort

@[simp] theorem override_func (M : Model) (assign : Sym → Option Value) :
    (M.override assign).func = M.func := rfl

theorem override_none {M : Model} {assign : Sym → Option Value} {c : Sym} (h : assign c = none) :
    (M.override assign).const c = M.const c := by
  simp only [override, h]

theorem override_some {M : Model} {assign : Sym → Option Value} {c : Sym} {v : Value}
    (h : assign c = some v) (hsort : v.sort = c.sort) : (M.override assign).const c = v := by
  simp only [override, h, if_pos hsort]

/-- Some model. -/
instance : Inhabited Model :=
  ⟨{ const := fun c => c.sort.default
     const_sort := fun c => c.sort.sort_default
     func := fun f _ => f.out.default
     func_sort := fun f _ => f.out.sort_default }⟩

/-- Constants can be given any values that respect their sorts, as long as a constant asked for twice
is asked to have the same value both times. Everything else keeps its value. -/
theorem exists_assign {ι : Type} (M : Model) (sym : ι → Sym) (val : ι → Value)
    (hsort : ∀ i, (val i).sort = (sym i).sort) (hcompat : ∀ i j, sym i = sym j → val i = val j) :
    ∃ N : Model, N.func = M.func ∧ (∀ i, N.const (sym i) = val i) ∧
      ∀ c, (∀ i, sym i ≠ c) → N.const c = M.const c := by
  classical
  let assign : Sym → Option Value := fun c => if h : ∃ i, sym i = c then some (val h.choose) else none
  refine ⟨M.override assign, rfl, fun i => ?_, fun c hc => override_none ?_⟩
  · have hex : ∃ j, sym j = sym i := ⟨i, rfl⟩
    have hassign : assign (sym i) = some (val hex.choose) := dif_pos hex
    have hval : val hex.choose = val i := hcompat _ _ hex.choose_spec
    rw [override_some hassign (by rw [hval, hsort]), hval]
  · exact dif_neg fun ⟨i, hi⟩ => hc i hi

theorem exists_assign_list (M : Model) (l : List (Sym × Value)) (hsort : ∀ p ∈ l, p.2.sort = p.1.sort)
    (hnodup : (l.map Prod.fst).Nodup) :
    ∃ N : Model, N.func = M.func ∧ ∀ p ∈ l, N.const p.1 = p.2 := by
  obtain ⟨N, hfunc, hN, -⟩ := M.exists_assign (fun p : { p // p ∈ l } => p.1.1) (fun p => p.1.2)
    (fun p => hsort p.1 p.2) fun p q hpq => by rw [List.inj_on_of_nodup_map hnodup p.2 q.2 hpq]
  exact ⟨N, hfunc, fun p hp => hN ⟨p, hp⟩⟩

theorem exists_funcs {κ : Type} (M : Model) (sym : κ → FuncSym) (table : κ → List Value → Value)
    (hsort : ∀ k vs, (table k vs).sort = (sym k).out)
    (hcompat : ∀ k l, sym k = sym l → table k = table l) :
    ∃ N : Model, N.const = M.const ∧ ∀ k, N.func (sym k) = table k := by
  classical
  let pick : FuncSym → List Value → Value := fun f => if h : ∃ k, sym k = f then table h.choose else M.func f
  have hpick : ∀ f vs, (pick f vs).sort = f.out := by
    intro f vs
    by_cases h : ∃ k, sym k = f
    · rw [show pick f = table h.choose from dif_pos h, hsort, h.choose_spec]
    · rw [show pick f = M.func f from dif_neg h, M.func_sort]
  refine ⟨⟨M.const, M.const_sort, pick, hpick⟩, rfl, fun k => ?_⟩
  have hex : ∃ l, sym l = sym k := ⟨k, rfl⟩
  have hval : pick (sym k) = table hex.choose := dif_pos hex
  exact hval.trans (hcompat _ _ hex.choose_spec)

end Model

namespace Term

mutual

def eval (M : Model) : Term → Option Value
  | .const c => some (M.const c)
  | .bool b => some (.bool b)
  | .bv w x => some (.bv w x)
  | .op o args => (evalList M args).bind o.apply
  | .app f args => (evalList M args).bind (M.apply f)

def evalList (M : Model) : List Term → Option (List Value)
  | [] => some []
  | t :: ts => (eval M t).bind fun v => (evalList M ts).map (v :: ·)

end

mutual

/-- Replace constants by terms, all at once. -/
def subst (σ : Sym → Option Term) : Term → Term
  | .const c => (σ c).getD (.const c)
  | .bool b => .bool b
  | .bv w x => .bv w x
  | .op o args => .op o (substList σ args)
  | .app f args => .app f (substList σ args)

def substList (σ : Sym → Option Term) : List Term → List Term
  | [] => []
  | t :: ts => subst σ t :: substList σ ts

end

/-- The model in which the replaced constants have the values of their replacements. -/
def substModel (M : Model) (σ : Sym → Option Term) : Model :=
  M.override fun c => (σ c).bind (eval M)

theorem substModel_none {M : Model} {σ : Sym → Option Term} {c : Sym} (h : σ c = none) :
    (substModel M σ).const c = M.const c :=
  Model.override_none (by rw [h, Option.bind_none])

theorem substModel_some {M : Model} {σ : Sym → Option Term} {c : Sym} {t : Term} {v : Value}
    (h : σ c = some t) (ht : t.eval M = some v) (hsort : v.sort = c.sort) :
    (substModel M σ).const c = v :=
  Model.override_some (by rw [h, Option.bind_some, ht]) hsort

section Subst

variable {M : Model} {σ : Sym → Option Term}

mutual

theorem eval_subst (hσ : ∀ c t, σ c = some t → ∃ v, t.eval M = some v ∧ v.sort = c.sort) :
    ∀ t : Term, (t.subst σ).eval M = t.eval (substModel M σ)
  | .const c => by
    rw [subst]
    cases hc : σ c with
    | none => rw [Option.getD_none, eval, eval, substModel_none hc]
    | some t =>
      obtain ⟨v, hv, hsort⟩ := hσ c t hc
      rw [Option.getD_some, hv, eval, substModel_some hc hv hsort]
  | .bool b => by rw [subst, eval, eval]
  | .bv w x => by rw [subst, eval, eval]
  | .op o args => by rw [subst, eval, eval, evalList_subst hσ args]
  | .app f args => by
    rw [subst, eval, eval, evalList_subst hσ args, Model.apply_congr (show (substModel M σ).func = M.func from rfl)]

theorem evalList_subst (hσ : ∀ c t, σ c = some t → ∃ v, t.eval M = some v ∧ v.sort = c.sort) :
    ∀ ts : List Term, evalList M (substList σ ts) = evalList (substModel M σ) ts
  | [] => rfl
  | t :: ts => by rw [substList, evalList, evalList, eval_subst hσ t, evalList_subst hσ ts]

end

end Subst

end Term

/-! ### Formulas -/

/-- A model satisfies a formula when the formula evaluates to true. -/
def Model.Sat (M : Model) (t : Term) : Prop := t.eval M = some (.bool true)

namespace Term

def conj (a b : Term) : Term := .op .and [a, b]
def disj (a b : Term) : Term := .op .or [a, b]
def neg (a : Term) : Term := .op .not [a]
def implies (a b : Term) : Term := .op .implies [a, b]
def eq (a b : Term) : Term := .op .eq [a, b]

/-- The term has a Boolean value in every model. -/
def IsBool (t : Term) : Prop := ∀ M, ∃ b, t.eval M = some (.bool b)

theorem evalList_pair (M : Model) (a b : Term) :
    evalList M [a, b] = (a.eval M).bind fun u => (b.eval M).map fun v => [u, v] := by
  simp only [evalList]
  cases a.eval M <;> cases b.eval M <;> rfl

theorem sat_bool_true (M : Model) : M.Sat (.bool true) := by
  rw [Model.Sat, eval]

theorem sat_conj {M : Model} {a b : Term} : M.Sat (a.conj b) ↔ M.Sat a ∧ M.Sat b := by
  simp only [Model.Sat, conj, eval, evalList_pair]
  cases ha : a.eval M with
  | none => simp
  | some u =>
    cases hb : b.eval M with
    | none => simp
    | some v =>
      cases u <;> cases v <;> simp [Op.boolBin]

theorem sat_eq {M : Model} {a b : Term} :
    M.Sat (a.eq b) ↔ ∃ v, a.eval M = some v ∧ b.eval M = some v := by
  simp only [Model.Sat, eq, eval, evalList_pair]
  cases ha : a.eval M with
  | none => simp
  | some u =>
    cases hb : b.eval M with
    | none => simp
    | some v =>
      constructor
      · intro h
        have htrue : u.eq? v = some true := by simpa using h
        exact ⟨u, rfl, by rw [Value.eq?_eq_true.mp htrue]⟩
      · rintro ⟨w, hu, hv⟩
        obtain rfl := Option.some.inj hu
        obtain rfl := Option.some.inj hv
        simp [Value.eq?_eq_true.mpr rfl]

/-! On terms with a Boolean value the connectives are the logical ones. -/

theorem IsBool.sat_neg {a : Term} (ha : a.IsBool) {M : Model} : M.Sat a.neg ↔ ¬M.Sat a := by
  obtain ⟨b, hb⟩ := ha M
  simp only [Model.Sat, neg, eval, evalList, hb]
  cases b <;> simp

theorem isBool_eq {a b : Term} (h : ∀ M, ∃ u v, a.eval M = some u ∧ b.eval M = some v ∧ u.sort = v.sort) :
    (a.eq b).IsBool := by
  intro M
  obtain ⟨u, v, ha, hb, hsort⟩ := h M
  obtain ⟨c, hc, -⟩ := Value.eq?_of_sort_eq hsort
  exact ⟨c, by simp only [eq, eval, evalList_pair, ha, hb, Option.bind_some, Option.map_some, Op.apply_eq, hc]⟩

theorem sat_neg_eq {M : Model} {a b : Term} {u v : Value} (ha : a.eval M = some u) (hb : b.eval M = some v)
    (hsort : u.sort = v.sort) : M.Sat (a.eq b).neg ↔ u ≠ v := by
  obtain ⟨c, hc, hiff⟩ := Value.eq?_of_sort_eq hsort
  have heq : (a.eq b).eval M = some (.bool c) := by
    simp only [eq, eval, evalList_pair, ha, hb, Option.bind_some, Option.map_some, Op.apply_eq, hc]
  simp only [Model.Sat, neg, eval, evalList, heq]
  cases c <;> simp_all

theorem IsBool.sat_disj {a b : Term} (ha : a.IsBool) (hb : b.IsBool) {M : Model} :
    M.Sat (a.disj b) ↔ M.Sat a ∨ M.Sat b := by
  obtain ⟨u, hu⟩ := ha M
  obtain ⟨v, hv⟩ := hb M
  simp only [Model.Sat, disj, eval, evalList_pair, hu, hv]
  cases u <;> cases v <;> simp [Op.boolBin]

theorem IsBool.sat_implies {a b : Term} (ha : a.IsBool) (hb : b.IsBool) {M : Model} :
    M.Sat (a.implies b) ↔ (M.Sat a → M.Sat b) := by
  obtain ⟨u, hu⟩ := ha M
  obtain ⟨v, hv⟩ := hb M
  simp only [Model.Sat, implies, eval, evalList_pair, hu, hv]
  cases u <;> cases v <;> simp [Op.boolBin]

theorem isBool_bool (b : Bool) : (Term.bool b).IsBool := fun M => ⟨b, by rw [eval]⟩

theorem IsBool.conj {a b : Term} (ha : a.IsBool) (hb : b.IsBool) : (a.conj b).IsBool := by
  intro M
  obtain ⟨u, hu⟩ := ha M
  obtain ⟨v, hv⟩ := hb M
  exact ⟨u && v, by simp [Term.conj, eval, evalList_pair, hu, hv, Op.boolBin]⟩

theorem IsBool.disj {a b : Term} (ha : a.IsBool) (hb : b.IsBool) : (a.disj b).IsBool := by
  intro M
  obtain ⟨u, hu⟩ := ha M
  obtain ⟨v, hv⟩ := hb M
  exact ⟨u || v, by simp [Term.disj, eval, evalList_pair, hu, hv, Op.boolBin]⟩

theorem IsBool.implies {a b : Term} (ha : a.IsBool) (hb : b.IsBool) : (a.implies b).IsBool := by
  intro M
  obtain ⟨u, hu⟩ := ha M
  obtain ⟨v, hv⟩ := hb M
  exact ⟨!u || v, by simp [Term.implies, eval, evalList_pair, hu, hv, Op.boolBin]⟩

theorem isBool_foldl_disj {ts : List Term} {acc : Term} (hacc : acc.IsBool) (hts : ∀ t ∈ ts, t.IsBool) :
    (ts.foldl disj acc).IsBool := by
  induction ts generalizing acc with
  | nil => exact hacc
  | cons t ts ih =>
    exact ih (hacc.disj (hts t List.mem_cons_self)) fun s hs => hts s (List.mem_cons_of_mem t hs)

theorem sat_foldl_disj {M : Model} {ts : List Term} {acc : Term} (hacc : acc.IsBool) (hts : ∀ t ∈ ts, t.IsBool) :
    M.Sat (ts.foldl disj acc) ↔ M.Sat acc ∨ ∃ t ∈ ts, M.Sat t := by
  induction ts generalizing acc with
  | nil => simp
  | cons t ts ih =>
    have ht := hts t List.mem_cons_self
    rw [List.foldl_cons, ih (hacc.disj ht) fun s hs => hts s (List.mem_cons_of_mem t hs), hacc.sat_disj ht, or_assoc]
    simp only [List.mem_cons, or_and_right, exists_or, exists_eq_left]

/-- The conjunction of a list, accumulated from the left. -/
def conjAll (ts : List Term) : Term := ts.foldl conj (.bool true)

theorem sat_foldl_conj {M : Model} (ts : List Term) (acc : Term) :
    M.Sat (ts.foldl conj acc) ↔ M.Sat acc ∧ ∀ t ∈ ts, M.Sat t := by
  induction ts generalizing acc with
  | nil => simp
  | cons t ts ih => rw [List.foldl_cons, ih, sat_conj, List.forall_mem_cons, and_assoc]

theorem isBool_foldl_conj {ts : List Term} {acc : Term} (hacc : acc.IsBool) (hts : ∀ t ∈ ts, t.IsBool) :
    (ts.foldl conj acc).IsBool := by
  induction ts generalizing acc with
  | nil => exact hacc
  | cons t ts ih =>
    exact ih (hacc.conj (hts t List.mem_cons_self)) fun s hs => hts s (List.mem_cons_of_mem t hs)

theorem sat_conjAll {M : Model} {ts : List Term} : M.Sat (conjAll ts) ↔ ∀ t ∈ ts, M.Sat t := by
  rw [conjAll, sat_foldl_conj]
  exact and_iff_right (sat_bool_true M)

end Term

end Smt
