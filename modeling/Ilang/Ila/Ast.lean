import Ilang.Smt.Term

/-!
# Expressions

The expression language of an instruction-level abstraction. A variable is a node with an identity: two
variables of one name and one host are still two variables, although the solver sees one constant for
both (`Var.sym`). Every operation is given by the solver operator its `GetZ3Expr` builds, so the
value of an expression is the value of what is sent to the solver, read in one time frame.

`Expr.sort` is the sort a constructor records, `Expr.check` the sort of a well-sorted expression. The
assertions of the constructors are not compiled into a release build, so the first is total.
-/

namespace Ilang

open Smt

/-- `Symbol::format_str`. -/
def formatStr (name pre suffix : String) : String :=
  let res := if pre = "" then name else pre ++ "_sEp_" ++ name
  if suffix = "" then res else res ++ "_sEp_" ++ suffix

/-! ### Variables, functions and constants -/

/-- A variable node. The host is kept by its root name, which is all that translation reads of it. -/
structure Var where
  id : Nat
  name : String
  host : Option String
  sort : Srt
  deriving DecidableEq, Repr

/-- An uninterpreted function. One translation prefixes the name of the host, the other its root name;
both are empty without a host. -/
structure Func where
  id : Nat
  name : String
  hostName : String
  hostRoot : String
  out : Srt
  args : List Srt
  deriving DecidableEq, Repr

/-- What an expression reads from a frame: its variables, and its functions without arguments, which
are fresh in every frame. -/
inductive Atom where
  | var (v : Var)
  | nondet (f : Func)
  deriving DecidableEq, Repr

inductive ConstVal where
  | bool (val : Bool)
  | bv (val width : Nat)
  | mem (defVal : Nat) (valMap : List (Nat × Nat)) (addrWidth dataWidth : Nat)
  deriving DecidableEq, Repr

/-- The constant that `ExprVar::GetZ3Expr` makes. -/
def Var.sym (v : Var) (suffix : String) : Sym :=
  ⟨formatStr v.name (v.host.getD "") suffix, v.sort⟩

/-- The free constant that `ExprOpAppFunc::GetZ3Expr` makes for a function without arguments. The
expression has no arguments to take a host from, so there is no prefix. -/
def Func.sym (f : Func) (suffix : String) : Sym :=
  ⟨formatStr f.name "" suffix, f.out⟩

/-- `Func::GetZ3FuncDecl`: the name does not carry the suffix. -/
def Func.z3FuncDecl (f : Func) : FuncSym :=
  ⟨formatStr f.name f.hostName "", f.args, f.out⟩

namespace Atom

def sort : Atom → Srt
  | .var v => v.sort
  | .nondet f => f.out

def sym (a : Atom) (suffix : String) : Sym :=
  match a with
  | .var v => v.sym suffix
  | .nondet f => f.sym suffix

@[simp] theorem sym_var (v : Var) (suffix : String) : (Atom.var v).sym suffix = v.sym suffix := rfl

@[simp] theorem sort_sym (a : Atom) (suffix : String) : (a.sym suffix).sort = a.sort := by
  cases a <;> rfl

end Atom

namespace ConstVal

def sort : ConstVal → Srt
  | .bool _ => .bool
  | .bv _ w => .bv w
  | .mem _ _ a d => .mem a d

/-- A memory constant is its default value with the listed stores on top. -/
def contents (a d : Nat) (defVal : Nat) (valMap : List (Nat × Nat)) : BitVec a → BitVec d :=
  valMap.foldl (fun f p i => if i = BitVec.ofNat a p.1 then BitVec.ofNat d p.2 else f i)
    fun _ => BitVec.ofNat d defVal

def value : ConstVal → Value
  | .bool b => .bool b
  | .bv x w => .bv w (BitVec.ofNat w x)
  | .mem x m a d => .mem a d (contents a d x m)

@[simp] theorem sort_value (c : ConstVal) : c.value.sort = c.sort := by
  cases c <;> rfl

end ConstVal

/-! ### Operations -/

/-- The operations of `ExprOp`, function application apart. -/
inductive ExprOp where
  | neg | not | compl | and | or | xor | shl | ashr | lshr
  | add | sub | div | srem | urem | smod | mul
  | eq | lt | gt | ult | ugt
  | load | store | concat
  | extract (hi lo : Nat) | zext (width : Nat) | sext (width : Nat)
  | lRotate (immediate : Nat) | rRotate (immediate : Nat)
  | imply | ite
  deriving DecidableEq, Repr

/-- `Sort::bit_width`, which answers zero for other sorts once its assertion is gone. -/
def bitWidth : Srt → Nat
  | .bv w => w
  | _ => 0

/-- `Sort::data_width`. -/
def dataWidth : Srt → Nat
  | .mem _ d => d
  | _ => 0

namespace ExprOp

/-- The sort of an argument, by its position. -/
def argSort (ss : List Srt) (i : Nat) : Srt := ss.getD i .bool

/-- The sort that the constructor of the operation records. -/
def sortOf : ExprOp → List Srt → Srt
  | .eq, _ | .lt, _ | .gt, _ | .ult, _ | .ugt, _ | .imply, _ => .bool
  | .load, ss => .bv (dataWidth (argSort ss 0))
  | .concat, ss => .bv (bitWidth (argSort ss 0) + bitWidth (argSort ss 1))
  | .extract hi lo, _ => .bv (hi - lo + 1)
  | .zext w, _ | .sext w, _ => .bv w
  | .ite, ss => argSort ss 1
  | _, ss => argSort ss 0

/-- The solver operator that `GetZ3Expr` applies to the translated arguments. -/
def smt : ExprOp → List Srt → Op
  | .neg, _ => .bvneg
  | .not, _ => .not
  | .compl, _ => .bvnot
  | .and, ss => if argSort ss 0 = .bool then .and else .bvand
  | .or, ss => if argSort ss 0 = .bool then .or else .bvor
  | .xor, ss => if argSort ss 0 = .bool then .xor else .bvxor
  | .shl, _ => .bvshl
  | .ashr, _ => .bvashr
  | .lshr, _ => .bvlshr
  | .add, _ => .bvadd
  | .sub, _ => .bvsub
  | .div, _ => .bvsdiv
  | .srem, _ => .bvsrem
  | .urem, _ => .bvurem
  | .smod, _ => .bvsmod
  | .mul, _ => .bvmul
  | .eq, _ => .eq
  | .lt, _ => .bvslt
  | .gt, _ => .bvsgt
  | .ult, _ => .bvult
  | .ugt, _ => .bvugt
  | .load, _ => .select
  | .store, _ => .store
  | .concat, _ => .concat
  | .extract hi lo, _ => .extract hi lo
  | .zext w, ss => .zeroExtend (w - bitWidth (argSort ss 0))
  | .sext w, ss => .signExtend (w - bitWidth (argSort ss 0))
  | .lRotate n, _ => .rotateLeft n
  | .rRotate n, _ => .rotateRight n
  | .imply, _ => .implies
  | .ite, _ => .ite

/-- An extension must not shrink its argument; everything else is checked by the solver. -/
def inRange : ExprOp → List Srt → Bool
  | .zext w, ss | .sext w, ss => bitWidth (argSort ss 0) ≤ w
  | _, _ => true

/-- The sort rule: the sorts for which the solver accepts the application. -/
def check (o : ExprOp) (ss : List Srt) : Option Srt :=
  if o.inRange ss then (o.smt ss).check ss else none

/-- The value of an operation. -/
def apply (o : ExprOp) (vs : List Value) : Option Value :=
  if o.inRange (vs.map Value.sort) then (o.smt (vs.map Value.sort)).apply vs else none

theorem apply_sort (o : ExprOp) (vs : List Value) :
    (o.apply vs).map Value.sort = o.check (vs.map Value.sort) := by
  unfold apply check
  split
  · exact Op.apply_sort _ vs
  · rfl

theorem apply_eq_smt {o : ExprOp} {vs : List Value} {v : Value} (h : o.apply vs = some v) :
    o.inRange (vs.map Value.sort) = true ∧ (o.smt (vs.map Value.sort)).apply vs = some v :=
  Option.ite_none_right_eq_some.mp h

theorem apply_store {a d : Nat} (f : BitVec a → BitVec d) (x : BitVec a) (y : BitVec d) :
    ExprOp.store.apply [.mem a d f, .bv a x, .bv d y] = some (.mem a d (Function.update f x y)) := by
  have hupd : Function.update f x y = fun i => if i = x then y else f i := funext fun i => Function.update_apply f x y i
  rw [hupd]
  exact Op.apply_store f x y

theorem zext_eq_some {w : Nat} {vs : List Value} {v : Value} (h : (ExprOp.zext w).apply vs = some v) :
    ∃ n x, n ≤ w ∧ vs = [.bv n x] ∧ v = .bv w (x.setWidth w) := by
  obtain ⟨hrange, hv⟩ := apply_eq_smt h
  obtain ⟨n, x, rfl, rfl⟩ := Op.zeroExtend_eq_some hv
  have hle : n ≤ w := of_decide_eq_true hrange
  refine ⟨n, x, hle, rfl, ?_⟩
  change Value.bv (n + (w - n)) (x.setWidth (n + (w - n))) = _
  rw [Nat.add_sub_cancel' hle]

theorem sext_eq_some {w : Nat} {vs : List Value} {v : Value} (h : (ExprOp.sext w).apply vs = some v) :
    ∃ n x, n ≤ w ∧ vs = [.bv n x] ∧ v = .bv w (x.signExtend w) := by
  obtain ⟨hrange, hv⟩ := apply_eq_smt h
  obtain ⟨n, x, rfl, rfl⟩ := Op.signExtend_eq_some hv
  have hle : n ≤ w := of_decide_eq_true hrange
  refine ⟨n, x, hle, rfl, ?_⟩
  change Value.bv (n + (w - n)) (x.signExtend (n + (w - n))) = _
  rw [Nat.add_sub_cancel' hle]

theorem bvBinSort_eq {ss : List Srt} {s : Srt} (h : Op.bvBinSort ss = some s) : argSort ss 0 = s := by
  unfold Op.bvBinSort at h
  split at h
  · split at h
    · exact Option.some.inj h
    · simp at h
  · simp at h

theorem boolBinSort_eq {ss : List Srt} {s : Srt} (h : Op.boolBinSort ss = some s) :
    argSort ss 0 = s ∧ s = .bool := by
  unfold Op.boolBinSort at h
  split at h
  · exact ⟨Option.some.inj h, (Option.some.inj h).symm⟩
  · simp at h

theorem bvUnSort_eq {ss : List Srt} {s : Srt} (h : Op.bvUnSort ss = some s) : argSort ss 0 = s := by
  unfold Op.bvUnSort at h
  split at h
  · exact Option.some.inj h
  · simp at h

theorem bvCmpSort_eq {ss : List Srt} {s : Srt} (h : Op.bvCmpSort ss = some s) : s = .bool := by
  unfold Op.bvCmpSort at h
  split at h
  · split at h
    · exact (Option.some.inj h).symm
    · simp at h
  · simp at h

theorem sortOf_of_check {o : ExprOp} {ss : List Srt} {s : Srt} (h : o.check ss = some s) :
    o.sortOf ss = s := by
  unfold check at h
  split at h
  case isFalse => simp at h
  case isTrue hrange =>
  cases o with
  | shl | ashr | lshr | add | sub | div | srem | urem | smod | mul => exact bvBinSort_eq h
  | neg | compl | lRotate _ | rRotate _ => exact bvUnSort_eq h
  | lt | gt | ult | ugt => exact (bvCmpSort_eq h).symm
  | imply => exact (boolBinSort_eq h).2.symm
  | and | or | xor =>
    simp only [smt] at h
    split at h
    · exact (boolBinSort_eq h).1
    · exact bvBinSort_eq h
  | not =>
    match ss, h with
    | [.bool], h => exact Option.some.inj h
  | eq =>
    match ss, h with
    | [a, b], h => exact Option.some.inj (Option.ite_none_right_eq_some.mp h).2
  | load =>
    match ss, h with
    | [.mem a d, .bv w], h => exact Option.some.inj (Option.ite_none_right_eq_some.mp h).2
  | store =>
    match ss, h with
    | [.mem a d, .bv w, .bv w'], h => exact Option.some.inj (Option.ite_none_right_eq_some.mp h).2
  | concat =>
    match ss, h with
    | [.bv w, .bv w'], h => exact Option.some.inj h
  | extract hi lo =>
    match ss, h with
    | [.bv w], h => exact Option.some.inj (Option.ite_none_right_eq_some.mp h).2
  | ite =>
    match ss, h with
    | [.bool, a, b], h => exact Option.some.inj (Option.ite_none_right_eq_some.mp h).2
  | zext w | sext w =>
    match ss, h with
    | [.bv n], h =>
      have hle : n ≤ w := of_decide_eq_true hrange
      have hs : Srt.bv (n + (w - n)) = s := Option.some.inj h
      rw [← hs, Nat.add_sub_cancel' hle]
      rfl

end ExprOp

/-! ### Expressions -/

inductive Expr where
  | var (v : Var)
  | const (c : ConstVal)
  | op (o : ExprOp) (args : List Expr)
  | appFunc (f : Func) (args : List Expr)

/-- The values that one time frame gives to what an expression can read. -/
structure Valuation where
  atom : Atom → Value
  atom_sort : ∀ a, (atom a).sort = a.sort
  func : Func → List Value → Value
  func_sort : ∀ f vs, (func f vs).sort = f.out

namespace Valuation

/-- A function applied to arguments of its domain. Without arguments it is a value of the frame. -/
def app (ν : Valuation) (f : Func) (vs : List Value) : Option Value :=
  if vs.map Value.sort = f.args then
    some (if vs.isEmpty then ν.atom (.nondet f) else ν.func f vs)
  else none

theorem app_sort (ν : Valuation) (f : Func) (vs : List Value) :
    (ν.app f vs).map Value.sort = if vs.map Value.sort = f.args then some f.out else none := by
  unfold app
  split
  · rw [Option.map_some]
    split
    · rw [ν.atom_sort, Atom.sort]
    · rw [ν.func_sort]
  · rfl

end Valuation

namespace Expr

@[elab_as_elim]
theorem ind {P : Expr → Prop} (var : ∀ v, P (.var v)) (const : ∀ c, P (.const c))
    (op : ∀ o args, (∀ a ∈ args, P a) → P (.op o args))
    (appFunc : ∀ f args, (∀ a ∈ args, P a) → P (.appFunc f args)) : ∀ e, P e
  | .var v => var v
  | .const c => const c
  | .op o args => op o args fun a _ => ind var const op appFunc a
  | .appFunc f args => appFunc f args fun a _ => ind var const op appFunc a

mutual

/-- The sort recorded in the node. -/
def sort : Expr → Srt
  | .var v => v.sort
  | .const c => c.sort
  | .op o args => o.sortOf (sortList args)
  | .appFunc f _ => f.out

def sortList : List Expr → List Srt
  | [] => []
  | a :: as => sort a :: sortList as

end

mutual

/-- The sort of a well-sorted expression. -/
def check : Expr → Option Srt
  | .var v => some v.sort
  | .const c => some c.sort
  | .op o args => (checkList args).bind o.check
  | .appFunc f args => (checkList args).bind fun ss => if ss = f.args then some f.out else none

def checkList : List Expr → Option (List Srt)
  | [] => some []
  | a :: as => (check a).bind fun s => (checkList as).map (s :: ·)

end

mutual

def eval (ν : Valuation) : Expr → Option Value
  | .var v => some (ν.atom (.var v))
  | .const c => some c.value
  | .op o args => (evalList ν args).bind o.apply
  | .appFunc f args => (evalList ν args).bind (ν.app f)

def evalList (ν : Valuation) : List Expr → Option (List Value)
  | [] => some []
  | a :: as => (eval ν a).bind fun v => (evalList ν as).map (v :: ·)

end

mutual

/-- What the expression reads from a frame. -/
def atoms : Expr → List Atom
  | .var v => [.var v]
  | .const _ => []
  | .op _ args => atomsList args
  | .appFunc f args => if args.isEmpty then [.nondet f] else atomsList args

def atomsList : List Expr → List Atom
  | [] => []
  | a :: as => atoms a ++ atomsList as

end

mutual

/-- The functions applied in the expression. -/
def funcs : Expr → List Func
  | .var _ => []
  | .const _ => []
  | .op _ args => funcsList args
  | .appFunc f args => f :: funcsList args

def funcsList : List Expr → List Func
  | [] => []
  | a :: as => funcs a ++ funcsList as

end

theorem sortList_eq_map (args : List Expr) : sortList args = args.map sort := by
  induction args with
  | nil => rfl
  | cons a as ih => rw [sortList, ih, List.map_cons]

theorem mem_atomsList {args : List Expr} {x : Atom} : x ∈ atomsList args ↔ ∃ a ∈ args, x ∈ atoms a := by
  induction args with
  | nil => simp [atomsList]
  | cons a as ih => simp [atomsList, ih]

theorem mem_funcsList {args : List Expr} {f : Func} : f ∈ funcsList args ↔ ∃ a ∈ args, f ∈ funcs a := by
  induction args with
  | nil => simp [funcsList]
  | cons a as ih => simp [funcsList, ih]

theorem evalList_length {ν : Valuation} {args : List Expr} {vs : List Value}
    (h : evalList ν args = some vs) : vs.length = args.length := by
  induction args generalizing vs with
  | nil => rw [evalList, Option.some.injEq] at h; rw [← h]; rfl
  | cons a as ih =>
    simp only [evalList, Option.bind_eq_some_iff, Option.map_eq_some_iff] at h
    obtain ⟨v, -, us, hus, rfl⟩ := h
    rw [List.length_cons, List.length_cons, ih hus]

theorem evalList_isEmpty {ν : Valuation} {args : List Expr} {vs : List Value}
    (h : evalList ν args = some vs) : vs.isEmpty = args.isEmpty := by
  have hlen := evalList_length h
  cases vs <;> cases args <;> simp_all

/-! ### Sorts and values agree -/

theorem evalList_sort_of_mem {ν : Valuation} {args : List Expr}
    (ih : ∀ a ∈ args, (a.eval ν).map Value.sort = a.check) :
    (evalList ν args).map (List.map Value.sort) = checkList args := by
  induction args with
  | nil => rfl
  | cons a as iha =>
    have hhead := ih a List.mem_cons_self
    have htail := iha fun b hb => ih b (List.mem_cons_of_mem a hb)
    rw [evalList, checkList, ← hhead, ← htail]
    cases eval ν a <;> cases evalList ν as <;> rfl

theorem eval_sort (ν : Valuation) (e : Expr) : (e.eval ν).map Value.sort = e.check := by
  induction e using ind with
  | var v => rw [eval, check, Option.map_some, ν.atom_sort, Atom.sort]
  | const c => rw [eval, check, Option.map_some, c.sort_value]
  | op o args ih =>
    rw [eval, check, ← evalList_sort_of_mem ih]
    cases evalList ν args with
    | none => rfl
    | some vs => exact o.apply_sort vs
  | appFunc f args ih =>
    rw [eval, check, ← evalList_sort_of_mem ih]
    cases evalList ν args with
    | none => rfl
    | some vs => exact ν.app_sort f vs

theorem evalList_sort (ν : Valuation) (args : List Expr) :
    (evalList ν args).map (List.map Value.sort) = checkList args :=
  evalList_sort_of_mem fun a _ => eval_sort ν a

theorem eval_of_check {e : Expr} {s : Srt} (h : e.check = some s) (ν : Valuation) :
    ∃ v, e.eval ν = some v ∧ v.sort = s := by
  rw [← eval_sort ν e, Option.map_eq_some_iff] at h
  exact h

theorem eval_bv {e : Expr} {w : Nat} (ν : Valuation) (h : e.check = some (.bv w)) : ∃ x, e.eval ν = some (.bv w x) := by
  obtain ⟨v, hv, hsort⟩ := eval_of_check h ν
  obtain ⟨x, rfl⟩ := Value.exists_bv hsort
  exact ⟨x, hv⟩

theorem eval_mem {e : Expr} {a d : Nat} (ν : Valuation) (h : e.check = some (.mem a d)) :
    ∃ f, e.eval ν = some (.mem a d f) := by
  obtain ⟨v, hv, hsort⟩ := eval_of_check h ν
  obtain ⟨f, rfl⟩ := Value.exists_mem hsort
  exact ⟨f, hv⟩

theorem checkList_eq_sortList {args : List Expr} (ih : ∀ a ∈ args, ∀ s, a.check = some s → a.sort = s)
    {ss : List Srt} (h : checkList args = some ss) : sortList args = ss := by
  induction args generalizing ss with
  | nil => exact Option.some.inj h
  | cons a as iha =>
    simp only [checkList, Option.bind_eq_some_iff, Option.map_eq_some_iff] at h
    obtain ⟨s, hs, us, hus, rfl⟩ := h
    rw [sortList, ih a List.mem_cons_self s hs, iha (fun b hb => ih b (List.mem_cons_of_mem a hb)) hus]

theorem sort_of_check {e : Expr} {s : Srt} (h : e.check = some s) : e.sort = s := by
  induction e using ind generalizing s with
  | var v => exact Option.some.inj h
  | const c => exact Option.some.inj h
  | op o args ih =>
    rw [check, Option.bind_eq_some_iff] at h
    obtain ⟨ss, hss, ho⟩ := h
    rw [sort, checkList_eq_sortList (fun a ha s hs => ih a ha hs) hss, ExprOp.sortOf_of_check ho]
  | appFunc f args ih =>
    rw [check, Option.bind_eq_some_iff] at h
    obtain ⟨ss, -, hout⟩ := h
    split at hout
    · exact Option.some.inj hout
    · simp at hout

theorem sortList_of_checkList {args : List Expr} {ss : List Srt} (h : checkList args = some ss) :
    sortList args = ss :=
  checkList_eq_sortList (fun _ _ _ hs => sort_of_check hs) h

/-! ### Stores and choices -/

theorem check_store {m x y : Expr} {a d : Nat} (h : (Expr.op .store [m, x, y]).check = some (.mem a d)) :
    m.check = some (.mem a d) ∧ x.check = some (.bv a) ∧ y.check = some (.bv d) := by
  simp only [check, checkList, Option.bind_eq_some_iff, Option.map_eq_some_iff] at h
  obtain ⟨ss, ⟨s, hs, us, ⟨t, ht, us', ⟨u, hu, us'', hus, rfl⟩, rfl⟩, rfl⟩, hc⟩ := h
  obtain rfl : us'' = [] := by simpa [eq_comm] using hus
  change Op.check .store [s, t, u] = some (.mem a d) at hc
  match s, t, u, hc with
  | .mem a' d', .bv w, .bv w', hc =>
    obtain ⟨⟨rfl, rfl⟩, heq⟩ := Option.ite_none_right_eq_some.mp hc
    obtain ⟨rfl, rfl⟩ : w = a ∧ w' = d := by simpa using heq
    exact ⟨hs, ht, hu⟩

theorem check_ite {c t e : Expr} {s : Srt} (h : (Expr.op .ite [c, t, e]).check = some s) :
    c.check = some .bool ∧ t.check = some s ∧ e.check = some s := by
  simp only [check, checkList, Option.bind_eq_some_iff, Option.map_eq_some_iff] at h
  obtain ⟨ss, ⟨s₁, hs, us, ⟨s₂, ht, us', ⟨s₃, hu, us'', hus, rfl⟩, rfl⟩, rfl⟩, hc⟩ := h
  obtain rfl : us'' = [] := by simpa [eq_comm] using hus
  change Op.check .ite [s₁, s₂, s₃] = some s at hc
  match s₁, hc with
  | .bool, hc =>
    obtain ⟨rfl, heq⟩ := Option.ite_none_right_eq_some.mp hc
    obtain rfl := Option.some.inj heq
    exact ⟨hs, ht, hu⟩

theorem check_ite' {c t e : Expr} {s : Srt} (hc : c.check = some .bool) (ht : t.check = some s) (he : e.check = some s) :
    (Expr.op .ite [c, t, e]).check = some s := by
  rw [check, checkList, checkList, checkList, checkList, hc, ht, he]
  exact if_pos rfl

theorem eval_ite {c t e : Expr} {s : Srt} (h : (Expr.op .ite [c, t, e]).check = some s) (ν : Valuation) :
    (Expr.op .ite [c, t, e]).eval ν = if Value.isTrue (c.eval ν) then t.eval ν else e.eval ν := by
  obtain ⟨hc, ht, he⟩ := check_ite h
  obtain ⟨u, hu, hsort⟩ := eval_of_check hc ν
  obtain ⟨b, rfl⟩ := Value.exists_bool hsort
  obtain ⟨v, hv, hvs⟩ := eval_of_check ht ν
  obtain ⟨w, hw, hws⟩ := eval_of_check he ν
  have hif : (if v.sort = w.sort then some (if b then v else w) else none) = some (if b then v else w) :=
    if_pos (by rw [hvs, hws])
  rw [eval, evalList, evalList, evalList, evalList, hu, hv, hw]
  refine Eq.trans hif ?_
  cases b <;> rfl

/-! ### An expression reads only its atoms -/

theorem evalList_congr_of_mem {ν μ : Valuation} {args : List Expr}
    (ih : ∀ a ∈ args, a.eval ν = a.eval μ) : evalList ν args = evalList μ args := by
  induction args with
  | nil => rfl
  | cons a as iha =>
    rw [evalList, evalList, ih a List.mem_cons_self, iha fun b hb => ih b (List.mem_cons_of_mem a hb)]

theorem eval_congr {ν μ : Valuation} {e : Expr} (hfunc : ∀ f ∈ e.funcs, ν.func f = μ.func f)
    (hatom : ∀ x ∈ e.atoms, ν.atom x = μ.atom x) : e.eval ν = e.eval μ := by
  induction e using ind with
  | var v => rw [eval, eval, hatom (.var v) (by simp [atoms])]
  | const c => rw [eval, eval]
  | op o args ih =>
    have hargs : evalList ν args = evalList μ args := evalList_congr_of_mem fun a ha =>
      ih a ha (fun f hf => hfunc f (mem_funcsList.mpr ⟨a, ha, hf⟩))
        fun x hx => hatom x (mem_atomsList.mpr ⟨a, ha, hx⟩)
    rw [eval, eval, hargs]
  | appFunc f args ih =>
    cases args with
    | nil =>
      have hf := hatom (.nondet f) (by simp [atoms])
      simp [eval, evalList, Valuation.app, hf]
    | cons a as =>
      have hargs : evalList ν (a :: as) = evalList μ (a :: as) := evalList_congr_of_mem fun b hb =>
        ih b hb (fun g hg => hfunc g (List.mem_cons_of_mem f (mem_funcsList.mpr ⟨b, hb, hg⟩)))
          fun x hx => hatom x (mem_atomsList.mpr ⟨b, hb, hx⟩)
      rw [eval, eval, hargs]
      cases hvs : evalList μ (a :: as) with
      | none => rfl
      | some vs =>
        have hne : vs.isEmpty = false := evalList_isEmpty hvs
        have hf := hfunc f List.mem_cons_self
        simp only [Option.bind_some, Valuation.app, hne, hf, Bool.false_eq_true, if_false]

end Expr

end Ilang
