import Mathlib.Tactic

/-!
# Sorts, values and operators of the solver theories

The fragment of SMT-LIB that hardware models use: Booleans, fixed-size bit-vectors, and arrays from
bit-vectors to bit-vectors. An operator is a partial function on values, undefined exactly when its
arguments have the wrong number or the wrong sorts, and `Op.check` is the matching sort rule.
-/

namespace Smt

inductive Srt where
  | bool
  | bv (width : Nat)
  | mem (addrWidth dataWidth : Nat)
  deriving DecidableEq, Repr

def Srt.isMem : Srt → Bool
  | .mem _ _ => true
  | _ => false

/-- The solver has no sorts of width zero. -/
def Srt.Pos : Srt → Prop
  | .bool => True
  | .bv w => 0 < w
  | .mem a d => 0 < a ∧ 0 < d

inductive Value where
  | bool (b : Bool)
  | bv (width : Nat) (x : BitVec width)
  | mem (addrWidth dataWidth : Nat) (contents : BitVec addrWidth → BitVec dataWidth)

namespace Value

def sort : Value → Srt
  | .bool _ => .bool
  | .bv w _ => .bv w
  | .mem a d _ => .mem a d

theorem exists_bool {v : Value} (h : v.sort = .bool) : ∃ b, v = .bool b := by
  cases v with
  | bool b => exact ⟨b, rfl⟩
  | bv w x => simp [sort] at h
  | mem a d f => simp [sort] at h

theorem exists_bv {v : Value} {w : Nat} (h : v.sort = .bv w) : ∃ x, v = .bv w x := by
  cases v with
  | bool b => simp [sort] at h
  | bv w' x =>
    obtain rfl := Srt.bv.inj h
    exact ⟨x, rfl⟩
  | mem a d f => simp [sort] at h

theorem exists_mem {v : Value} {a d : Nat} (h : v.sort = .mem a d) : ∃ f, v = .mem a d f := by
  cases v with
  | bool b => simp [sort] at h
  | bv w x => simp [sort] at h
  | mem a' d' f =>
    obtain ⟨rfl, rfl⟩ := Srt.mem.inj h
    exact ⟨f, rfl⟩

/-- Two memories are compared address by address. -/
def decEqMem {a d : Nat} (f g : BitVec a → BitVec d) : Decidable (f = g) :=
  decidable_of_iff (∀ i : Fin (2 ^ a), f (BitVec.ofFin i) = g (BitVec.ofFin i))
    ⟨fun h => funext fun x => h x.toFin, fun h _ => congrFun h _⟩

/-- Equality of two values of one sort; undefined between sorts. -/
def eq? : Value → Value → Option Bool
  | .bool a, .bool b => some (a == b)
  | .bv w x, .bv w' y => if h : w' = w then some (x == y.cast h) else none
  | .mem a d f, .mem a' d' g =>
    if h : a' = a ∧ d' = d then
      some (@decide (f = fun i => (g (i.cast h.1.symm)).cast h.2) (decEqMem _ _))
    else none
  | _, _ => none

theorem eq?_of_sort_eq {u v : Value} (h : u.sort = v.sort) : ∃ b, u.eq? v = some b ∧ (b = true ↔ u = v) := by
  cases u with
  | bool a =>
    cases v with
    | bool b => exact ⟨a == b, rfl, by simp⟩
    | bv w y => simp [sort] at h
    | mem a d g => simp [sort] at h
  | bv w x =>
    cases v with
    | bool b => simp [sort] at h
    | bv w' y =>
      obtain rfl : w = w' := by simpa [sort] using h
      exact ⟨x == y, by simp [eq?], by simp⟩
    | mem a d g => simp [sort] at h
  | mem a d f =>
    cases v with
    | bool b => simp [sort] at h
    | bv w' y => simp [sort] at h
    | mem a' d' g =>
      obtain ⟨rfl, rfl⟩ : a = a' ∧ d = d' := by simpa [sort] using h
      exact ⟨@decide (f = g) (decEqMem _ _), by simp [eq?], by simp⟩

theorem eq?_of_sort_ne {u v : Value} (h : u.sort ≠ v.sort) : u.eq? v = none := by
  cases u with
  | bool a => cases v <;> simp_all [eq?, sort]
  | bv w x =>
    cases v with
    | bv w' y => rw [eq?, dif_neg fun hw => h (by rw [sort, sort, hw])]
    | bool b => rfl
    | mem a d g => rfl
  | mem a d f =>
    cases v with
    | mem a' d' g => rw [eq?, dif_neg fun hw => h (by rw [sort, sort, hw.1, hw.2])]
    | bool b => rfl
    | bv w y => rfl

theorem eq?_eq_true {u v : Value} : u.eq? v = some true ↔ u = v := by
  constructor
  · intro h
    by_cases hs : u.sort = v.sort
    · obtain ⟨b, hb, hiff⟩ := eq?_of_sort_eq hs
      rw [h] at hb
      exact hiff.mp (Option.some.inj hb).symm
    · rw [eq?_of_sort_ne hs] at h
      simp at h
  · rintro rfl
    obtain ⟨b, hb, hiff⟩ := eq?_of_sort_eq (u := u) (v := u) rfl
    rw [hb, hiff.mpr rfl]

end Value

/-- A value is the truth value true. -/
def Value.isTrue : Option Value → Bool
  | some (.bool b) => b
  | _ => false

theorem Value.isTrue_iff (v : Option Value) : isTrue v ↔ v = some (.bool true) := by
  unfold isTrue
  split
  · simp
  · rename_i h
    exact ⟨fun hfalse => absurd hfalse Bool.false_ne_true, fun hv => absurd hv (h true)⟩

/-- Some value of each sort. -/
def Srt.default : Srt → Value
  | .bool => .bool false
  | .bv w => .bv w 0
  | .mem a d => .mem a d fun _ => 0

@[simp] theorem Srt.sort_default (s : Srt) : s.default.sort = s := by
  cases s <;> rfl

/-! ### Operators -/

/-- The operators the translations use, under their SMT-LIB names. -/
inductive Op where
  | not | and | or | xor | implies | eq | ite
  | bvneg | bvnot | bvand | bvor | bvxor | bvshl | bvashr | bvlshr
  | bvadd | bvsub | bvmul | bvsdiv | bvsrem | bvurem | bvsmod
  | bvslt | bvsgt | bvult | bvugt
  | select | store | constArray (addrWidth : Nat)
  | concat | extract (hi lo : Nat) | zeroExtend (by_ : Nat) | signExtend (by_ : Nat)
  | rotateLeft (by_ : Nat) | rotateRight (by_ : Nat)
  deriving DecidableEq, Repr

namespace Op

def boolBin (f : Bool → Bool → Bool) : List Value → Option Value
  | [.bool a, .bool b] => some (.bool (f a b))
  | _ => none

def bvUn (f : (w : Nat) → BitVec w → BitVec w) : List Value → Option Value
  | [.bv w x] => some (.bv w (f w x))
  | _ => none

def bvBin (f : (w : Nat) → BitVec w → BitVec w → BitVec w) : List Value → Option Value
  | [.bv w x, .bv w' y] => if h : w' = w then some (.bv w (f w x (y.cast h))) else none
  | _ => none

def bvCmp (f : (w : Nat) → BitVec w → BitVec w → Bool) : List Value → Option Value
  | [.bv w x, .bv w' y] => if h : w' = w then some (.bool (f w x (y.cast h))) else none
  | _ => none

/-- The value of an operator, with the SMT-LIB conventions for division by zero. -/
def apply : Op → List Value → Option Value
  | .not, [.bool a] => some (.bool !a)
  | .and, vs => boolBin (· && ·) vs
  | .or, vs => boolBin (· || ·) vs
  | .xor, vs => boolBin (· ^^ ·) vs
  | .implies, vs => boolBin (fun a b => !a || b) vs
  | .eq, [u, v] => (u.eq? v).map .bool
  | .ite, [.bool c, t, e] => if t.sort = e.sort then some (if c then t else e) else none
  | .bvneg, vs => bvUn (fun _ x => -x) vs
  | .bvnot, vs => bvUn (fun _ x => ~~~x) vs
  | .bvand, vs => bvBin (fun _ x y => x &&& y) vs
  | .bvor, vs => bvBin (fun _ x y => x ||| y) vs
  | .bvxor, vs => bvBin (fun _ x y => x ^^^ y) vs
  | .bvshl, vs => bvBin (fun _ x y => x <<< y) vs
  | .bvashr, vs => bvBin (fun _ x y => x.sshiftRight' y) vs
  | .bvlshr, vs => bvBin (fun _ x y => x >>> y) vs
  | .bvadd, vs => bvBin (fun _ x y => x + y) vs
  | .bvsub, vs => bvBin (fun _ x y => x - y) vs
  | .bvmul, vs => bvBin (fun _ x y => x * y) vs
  | .bvsdiv, vs => bvBin (fun _ x y => x.smtSDiv y) vs
  | .bvsrem, vs => bvBin (fun _ x y => x.srem y) vs
  | .bvurem, vs => bvBin (fun _ x y => x.umod y) vs
  | .bvsmod, vs => bvBin (fun _ x y => x.smod y) vs
  | .bvslt, vs => bvCmp (fun _ x y => x.slt y) vs
  | .bvsgt, vs => bvCmp (fun _ x y => y.slt x) vs
  | .bvult, vs => bvCmp (fun _ x y => x.ult y) vs
  | .bvugt, vs => bvCmp (fun _ x y => y.ult x) vs
  | .select, [.mem a d f, .bv w x] => if h : w = a then some (.bv d (f (x.cast h))) else none
  | .store, [.mem a d f, .bv w x, .bv w' y] =>
    if h : w = a ∧ w' = d then
      some (.mem a d fun i => if i = x.cast h.1 then y.cast h.2 else f i)
    else none
  | .constArray a, [.bv w x] => some (.mem a w fun _ => x)
  | .concat, [.bv w x, .bv w' y] => some (.bv (w + w') (x ++ y))
  | .extract hi lo, [.bv w x] =>
    if lo ≤ hi ∧ hi < w then some (.bv (hi - lo + 1) (x.extractLsb hi lo)) else none
  | .zeroExtend n, [.bv w x] => some (.bv (w + n) (x.setWidth (w + n)))
  | .signExtend n, [.bv w x] => some (.bv (w + n) (x.signExtend (w + n)))
  | .rotateLeft n, vs => bvUn (fun _ x => x.rotateLeft n) vs
  | .rotateRight n, vs => bvUn (fun _ x => x.rotateRight n) vs
  | _, _ => none

@[simp] theorem apply_not (a : Bool) : apply .not [.bool a] = some (.bool !a) := rfl

@[simp] theorem apply_and (vs : List Value) : apply .and vs = boolBin (· && ·) vs := rfl

@[simp] theorem apply_or (vs : List Value) : apply .or vs = boolBin (· || ·) vs := rfl

@[simp] theorem apply_implies (vs : List Value) : apply .implies vs = boolBin (fun a b => !a || b) vs := rfl

@[simp] theorem apply_eq (u v : Value) : apply .eq [u, v] = (u.eq? v).map .bool := rfl

@[simp] theorem apply_constArray (a w : Nat) (x : BitVec w) : apply (.constArray a) [.bv w x] = some (.mem a w fun _ => x) := rfl

@[simp] theorem apply_store {a d : Nat} (f : BitVec a → BitVec d) (x : BitVec a) (y : BitVec d) :
    apply .store [.mem a d f, .bv a x, .bv d y] = some (.mem a d fun i => if i = x then y else f i) :=
  dif_pos (show a = a ∧ d = d from ⟨rfl, rfl⟩)

def boolBinSort : List Srt → Option Srt
  | [.bool, .bool] => some .bool
  | _ => none

def bvUnSort : List Srt → Option Srt
  | [.bv w] => some (.bv w)
  | _ => none

def bvBinSort : List Srt → Option Srt
  | [.bv w, .bv w'] => if w' = w then some (.bv w) else none
  | _ => none

def bvCmpSort : List Srt → Option Srt
  | [.bv w, .bv w'] => if w' = w then some .bool else none
  | _ => none

/-- The sort rule of an operator. -/
def check : Op → List Srt → Option Srt
  | .not, [.bool] => some .bool
  | .and, ss | .or, ss | .xor, ss | .implies, ss => boolBinSort ss
  | .eq, [s, t] => if s = t then some .bool else none
  | .ite, [.bool, s, t] => if s = t then some s else none
  | .bvneg, ss | .bvnot, ss | .rotateLeft _, ss | .rotateRight _, ss => bvUnSort ss
  | .bvand, ss | .bvor, ss | .bvxor, ss | .bvshl, ss | .bvashr, ss | .bvlshr, ss | .bvadd, ss
  | .bvsub, ss | .bvmul, ss | .bvsdiv, ss | .bvsrem, ss | .bvurem, ss | .bvsmod, ss => bvBinSort ss
  | .bvslt, ss | .bvsgt, ss | .bvult, ss | .bvugt, ss => bvCmpSort ss
  | .select, [.mem a d, .bv w] => if w = a then some (.bv d) else none
  | .store, [.mem a d, .bv w, .bv w'] => if w = a ∧ w' = d then some (.mem a d) else none
  | .constArray a, [.bv w] => some (.mem a w)
  | .concat, [.bv w, .bv w'] => some (.bv (w + w'))
  | .extract hi lo, [.bv w] => if lo ≤ hi ∧ hi < w then some (.bv (hi - lo + 1)) else none
  | .zeroExtend n, [.bv w] => some (.bv (w + n))
  | .signExtend n, [.bv w] => some (.bv (w + n))
  | _, _ => none

/-! ### An operator is defined exactly where its sort rule accepts -/

theorem boolBin_sort (f : Bool → Bool → Bool) (vs : List Value) :
    (boolBin f vs).map Value.sort = boolBinSort (vs.map Value.sort) := by
  match vs with
  | [] => rfl
  | [u] => cases u <;> rfl
  | [u, v] => cases u <;> cases v <;> rfl
  | u :: v :: w :: t => cases u <;> cases v <;> rfl

theorem bvUn_sort (f : (w : Nat) → BitVec w → BitVec w) (vs : List Value) :
    (bvUn f vs).map Value.sort = bvUnSort (vs.map Value.sort) := by
  match vs with
  | [] => rfl
  | [u] => cases u <;> rfl
  | u :: v :: t => cases u <;> rfl

theorem bvBin_sort (f : (w : Nat) → BitVec w → BitVec w → BitVec w) (vs : List Value) :
    (bvBin f vs).map Value.sort = bvBinSort (vs.map Value.sort) := by
  match vs with
  | [] => rfl
  | [u] => cases u <;> rfl
  | [.bv w x, .bv w' y] =>
    simp only [bvBin, bvBinSort, List.map_cons, List.map_nil, Value.sort]
    split <;> rfl
  | [.bool _, v] | [.mem _ _ _, v] => cases v <;> rfl
  | [.bv _ _, .bool _] | [.bv _ _, .mem _ _ _] => rfl
  | u :: v :: w :: t => cases u <;> cases v <;> rfl

theorem bvCmp_sort (f : (w : Nat) → BitVec w → BitVec w → Bool) (vs : List Value) :
    (bvCmp f vs).map Value.sort = bvCmpSort (vs.map Value.sort) := by
  match vs with
  | [] => rfl
  | [u] => cases u <;> rfl
  | [.bv w x, .bv w' y] =>
    simp only [bvCmp, bvCmpSort, List.map_cons, List.map_nil, Value.sort]
    split <;> rfl
  | [.bool _, v] | [.mem _ _ _, v] => cases v <;> rfl
  | [.bv _ _, .bool _] | [.bv _ _, .mem _ _ _] => rfl
  | u :: v :: w :: t => cases u <;> cases v <;> rfl

theorem eq_sort (vs : List Value) :
    (apply .eq vs).map Value.sort = check .eq (vs.map Value.sort) := by
  match vs with
  | [] | [_] => rfl
  | [u, v] =>
    change ((u.eq? v).map Value.bool).map Value.sort = if u.sort = v.sort then some .bool else none
    by_cases h : u.sort = v.sort
    · obtain ⟨b, hb, -⟩ := Value.eq?_of_sort_eq h
      rw [if_pos h, hb]
      rfl
    · rw [if_neg h, Value.eq?_of_sort_ne h]
      rfl
  | _ :: _ :: _ :: _ => rfl

theorem ite_sort (vs : List Value) :
    (apply .ite vs).map Value.sort = check .ite (vs.map Value.sort) := by
  match vs with
  | [] => rfl
  | [u] | [u, _] => cases u <;> rfl
  | [.bool c, t, e] =>
    change (if t.sort = e.sort then some (if c then t else e) else none).map Value.sort =
      if t.sort = e.sort then some t.sort else none
    by_cases h : t.sort = e.sort
    · cases c <;> simp [h]
    · rw [if_neg h, if_neg h]
      rfl
  | [.bv _ _, _, _] | [.mem _ _ _, _, _] => rfl
  | u :: _ :: _ :: _ :: _ => cases u <;> rfl

theorem select_sort (vs : List Value) :
    (apply .select vs).map Value.sort = check .select (vs.map Value.sort) := by
  match vs with
  | [] => rfl
  | [u] => cases u <;> rfl
  | [.mem a d f, .bv w x] =>
    change (if h : w = a then some (.bv d (f (x.cast h))) else none : Option Value).map Value.sort =
      if w = a then some (.bv d) else none
    by_cases h : w = a
    · rw [dif_pos h, if_pos h]
      rfl
    · rw [dif_neg h, if_neg h]
      rfl
  | [.bool _, v] | [.bv _ _, v] => cases v <;> rfl
  | [.mem _ _ _, .bool _] | [.mem _ _ _, .mem _ _ _] => rfl
  | u :: v :: _ :: _ => cases u <;> cases v <;> rfl

theorem store_sort (vs : List Value) :
    (apply .store vs).map Value.sort = check .store (vs.map Value.sort) := by
  match vs with
  | [] => rfl
  | [u] => cases u <;> rfl
  | [u, v] => cases u <;> cases v <;> rfl
  | [.mem a d f, .bv w x, .bv w' y] =>
    change (if h : w = a ∧ w' = d then some (.mem a d fun i => if i = x.cast h.1 then y.cast h.2 else f i) else none :
      Option Value).map Value.sort = if w = a ∧ w' = d then some (.mem a d) else none
    by_cases h : w = a ∧ w' = d
    · rw [dif_pos h, if_pos h]
      rfl
    · rw [dif_neg h, if_neg h]
      rfl
  | [.bool _, v, t] | [.bv _ _, v, t] => cases v <;> cases t <;> rfl
  | [.mem _ _ _, .bool _, t] | [.mem _ _ _, .mem _ _ _, t] => cases t <;> rfl
  | [.mem _ _ _, .bv _ _, .bool _] | [.mem _ _ _, .bv _ _, .mem _ _ _] => rfl
  | u :: v :: t :: _ :: _ => cases u <;> cases v <;> cases t <;> rfl

theorem extract_sort (hi lo : Nat) (vs : List Value) :
    (apply (.extract hi lo) vs).map Value.sort = check (.extract hi lo) (vs.map Value.sort) := by
  match vs with
  | [] => rfl
  | [.bv w x] =>
    change (if lo ≤ hi ∧ hi < w then some (.bv (hi - lo + 1) (x.extractLsb hi lo)) else none : Option Value).map Value.sort =
      if lo ≤ hi ∧ hi < w then some (.bv (hi - lo + 1)) else none
    by_cases h : lo ≤ hi ∧ hi < w
    · rw [if_pos h, if_pos h]
      rfl
    · rw [if_neg h, if_neg h]
      rfl
  | [.bool _] | [.mem _ _ _] => rfl
  | u :: _ :: _ => cases u <;> rfl

/-- An operator applied to values has a value exactly when the sort rule accepts the sorts of the
arguments, and then it has the sort the rule gives. -/
theorem apply_sort (o : Op) (vs : List Value) :
    (o.apply vs).map Value.sort = o.check (vs.map Value.sort) := by
  cases o with
  | eq => exact eq_sort vs
  | ite => exact ite_sort vs
  | select => exact select_sort vs
  | store => exact store_sort vs
  | extract hi lo => exact extract_sort hi lo vs
  | and | or | xor | implies => exact boolBin_sort _ vs
  | bvneg | bvnot => exact bvUn_sort _ vs
  | rotateLeft n => exact bvUn_sort _ vs
  | rotateRight n => exact bvUn_sort _ vs
  | bvand | bvor | bvxor | bvshl | bvashr | bvlshr | bvadd | bvsub | bvmul | bvsdiv | bvsrem | bvurem
  | bvsmod => exact bvBin_sort _ vs
  | bvslt | bvult => exact bvCmp_sort _ vs
  | bvsgt => exact bvCmp_sort (fun _ x y => y.slt x) vs
  | bvugt => exact bvCmp_sort (fun _ x y => y.ult x) vs
  | not =>
    match vs with
    | [] => rfl
    | [u] | u :: _ :: _ => cases u <;> rfl
  | constArray a =>
    match vs with
    | [] => rfl
    | [u] | u :: _ :: _ => cases u <;> rfl
  | zeroExtend n =>
    match vs with
    | [] => rfl
    | [u] | u :: _ :: _ => cases u <;> rfl
  | signExtend n =>
    match vs with
    | [] => rfl
    | [u] | u :: _ :: _ => cases u <;> rfl
  | concat =>
    match vs with
    | [] => rfl
    | [u] => cases u <;> rfl
    | [u, v] | u :: v :: _ :: _ => cases u <;> cases v <;> rfl

/-! ### The arguments of an operator that has a value -/

variable {vs : List Value} {v : Value}

theorem boolBin_eq_some {f : Bool → Bool → Bool} (h : boolBin f vs = some v) :
    ∃ a b, vs = [.bool a, .bool b] ∧ v = .bool (f a b) := by
  unfold boolBin at h
  split at h
  · exact ⟨_, _, rfl, (Option.some.inj h).symm⟩
  · simp at h

theorem bvUn_eq_some {f : (w : Nat) → BitVec w → BitVec w} (h : bvUn f vs = some v) :
    ∃ w x, vs = [.bv w x] ∧ v = .bv w (f w x) := by
  unfold bvUn at h
  split at h
  · exact ⟨_, _, rfl, (Option.some.inj h).symm⟩
  · simp at h

theorem bvBin_eq_some {f : (w : Nat) → BitVec w → BitVec w → BitVec w} (h : bvBin f vs = some v) :
    ∃ w x y, vs = [.bv w x, .bv w y] ∧ v = .bv w (f w x y) := by
  unfold bvBin at h
  split at h
  · rename_i w x w' y
    split at h
    · rename_i hw
      subst hw
      exact ⟨_, x, y, rfl, (Option.some.inj h).symm⟩
    · simp at h
  · simp at h

theorem bvCmp_eq_some {f : (w : Nat) → BitVec w → BitVec w → Bool} (h : bvCmp f vs = some v) :
    ∃ w x y, vs = [.bv w x, .bv w y] ∧ v = .bool (f w x y) := by
  unfold bvCmp at h
  split at h
  · rename_i w x w' y
    split at h
    · rename_i hw
      subst hw
      exact ⟨_, x, y, rfl, (Option.some.inj h).symm⟩
    · simp at h
  · simp at h

theorem not_eq_some (h : apply .not vs = some v) : ∃ a, vs = [.bool a] ∧ v = .bool !a := by
  match vs, h with
  | [.bool a], h => exact ⟨a, rfl, (Option.some.inj h).symm⟩

theorem eq_eq_some (h : apply .eq vs = some v) :
    ∃ t u, vs = [t, u] ∧ t.sort = u.sort ∧ ∃ b, v = .bool b ∧ (b = true ↔ t = u) := by
  match vs, h with
  | [t, u], h =>
    obtain ⟨b, hb, rfl⟩ := Option.map_eq_some_iff.mp (show (t.eq? u).map Value.bool = some v from h)
    have hsort : t.sort = u.sort := by
      by_contra hne
      rw [Value.eq?_of_sort_ne hne] at hb
      simp at hb
    obtain ⟨b', hb', hiff⟩ := Value.eq?_of_sort_eq hsort
    rw [hb, Option.some.injEq] at hb'
    exact ⟨t, u, rfl, hsort, b, rfl, by rw [hb']; exact hiff⟩

theorem ite_eq_some (h : apply .ite vs = some v) :
    ∃ c t e, vs = [.bool c, t, e] ∧ t.sort = e.sort ∧ v = if c then t else e := by
  match vs, h with
  | [.bool c, t, e], h =>
    obtain ⟨hsort, hv⟩ := Option.ite_none_right_eq_some.mp
      (show (if t.sort = e.sort then some (if c then t else e) else none) = some v from h)
    exact ⟨c, t, e, rfl, hsort, (Option.some.inj hv).symm⟩

theorem select_eq_some (h : apply .select vs = some v) :
    ∃ a d f x, vs = [.mem a d f, .bv a x] ∧ v = .bv d (f x) := by
  match vs, h with
  | [.mem a d f, .bv w x], h =>
    change (if h : w = a then some (.bv d (f (x.cast h))) else none) = some v at h
    by_cases hw : w = a
    · subst hw
      rw [dif_pos rfl] at h
      exact ⟨_, d, f, x, rfl, (Option.some.inj h).symm⟩
    · rw [dif_neg hw] at h
      cases h

theorem store_eq_some (h : apply .store vs = some v) :
    ∃ a d f x y, vs = [.mem a d f, .bv a x, .bv d y] ∧ v = .mem a d fun i => if i = x then y else f i := by
  match vs, h with
  | [.mem a d f, .bv w x, .bv w' y], h =>
    change (if h : w = a ∧ w' = d then some (.mem a d fun i => if i = x.cast h.1 then y.cast h.2 else f i) else none) =
      some v at h
    by_cases hw : w = a ∧ w' = d
    · obtain ⟨rfl, rfl⟩ := hw
      rw [dif_pos ⟨rfl, rfl⟩] at h
      exact ⟨_, _, f, x, y, rfl, (Option.some.inj h).symm⟩
    · rw [dif_neg hw] at h
      cases h

theorem concat_eq_some (h : apply .concat vs = some v) :
    ∃ w w' x y, vs = [.bv w x, .bv w' y] ∧ v = .bv (w + w') (x ++ y) := by
  match vs, h with
  | [.bv w x, .bv w' y], h => exact ⟨w, w', x, y, rfl, (Option.some.inj h).symm⟩

theorem extract_eq_some {hi lo : Nat} (h : apply (.extract hi lo) vs = some v) :
    ∃ w x, vs = [.bv w x] ∧ lo ≤ hi ∧ hi < w ∧ v = .bv (hi - lo + 1) (x.extractLsb hi lo) := by
  match vs, h with
  | [.bv w x], h =>
    change (if lo ≤ hi ∧ hi < w then some (.bv (hi - lo + 1) (x.extractLsb hi lo)) else none) = some v at h
    obtain ⟨hb, hv⟩ := Option.ite_none_right_eq_some.mp h
    exact ⟨w, x, rfl, hb.1, hb.2, (Option.some.inj hv).symm⟩

theorem zeroExtend_eq_some {n : Nat} (h : apply (.zeroExtend n) vs = some v) :
    ∃ w x, vs = [.bv w x] ∧ v = .bv (w + n) (x.setWidth (w + n)) := by
  match vs, h with
  | [.bv w x], h => exact ⟨w, x, rfl, (Option.some.inj h).symm⟩

theorem signExtend_eq_some {n : Nat} (h : apply (.signExtend n) vs = some v) :
    ∃ w x, vs = [.bv w x] ∧ v = .bv (w + n) (x.signExtend (w + n)) := by
  match vs, h with
  | [.bv w x], h => exact ⟨w, x, rfl, (Option.some.inj h).symm⟩

end Op

end Smt
