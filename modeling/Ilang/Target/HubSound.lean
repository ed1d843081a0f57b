import Ilang.Target.HubTerm

/-!
# When the translations are right

Nothing in a release build stops a call of `asthub` whose operands do not fit the operation. The two libraries refuse most of
what comes of it, and where they do not, the recorded sort may be another one, or the two may read a number differently. An
expression and all expressions below it are translated well exactly when every node satisfies the conditions that the assertions
state in part (`Accepts`).
-/

namespace Ilang

open Smt

namespace AstOp

/-- The operations on two bit-vectors of one width. -/
def isBvBin : AstOp → Bool
  | .and | .or | .xor | .shl | .ashr | .lshr | .add | .sub | .div | .srem | .urem | .smod | .mul
  | .lt | .gt | .ult | .ugt => true
  | _ => false

/-- The operands that an operation is for. -/
inductive Accepts : AstOp → List Srt → Prop
  | not : Accepts .not [.bool]
  | bvUn {o : AstOp} (w : Nat) (h : o = .neg ∨ o = .compl) : Accepts o [.bv w]
  | boolBin {o : AstOp} (h : o = .and ∨ o = .or ∨ o = .xor ∨ o = .imply) : Accepts o [.bool, .bool]
  | bvBin {o : AstOp} (w : Nat) (h : o.isBvBin = true) : Accepts o [.bv w, .bv w]
  | eq (s : Srt) : Accepts .eq [s, s]
  | load (a d : Nat) : Accepts .load [.mem a d, .bv a]
  | store (a d : Nat) : Accepts .store [.mem a d, .bv a, .bv d]
  | concat (w v : Nat) : Accepts .concat [.bv w, .bv v]
  | extract (w : Nat) {hi lo : Int} (hlo : 0 ≤ lo) (hle : lo ≤ hi) (hhi : hi < w) : Accepts (.extract hi lo) [.bv w]
  | zext (w : Nat) {n : Int} (h : w ≤ n) : Accepts (.zext n) [.bv w]
  | sext (w : Nat) {n : Int} (h : w ≤ n) : Accepts (.sext n) [.bv w]
  | lRotate (w : Nat) {n : Int} (h : 0 ≤ n) : Accepts (.lRotate n) [.bv w]
  | rRotate (w : Nat) {n : Int} (h : 0 ≤ n) : Accepts (.rRotate n) [.bv w]
  | ite (s : Srt) : Accepts .ite [.bool, s, s]

/-- Both translations apply one operator, and its result has the recorded sort. -/
def Fits (o : AstOp) (ss : List Srt) (p : Op) (s : Srt) : Prop :=
  o.z3Op (ss.map .ofSrt) = p ∧ o.smtOp (ss.map .ofSrt) = some p ∧ (o.sortOf (ss.map .ofSrt)).srt? = some s ∧
    p.check ss = some s

theorem srt?_bool : AstSort.bool.srt? = some .bool := rfl

theorem srt?_bv {w : Nat} (h : 0 < w) : (AstSort.bv w).srt? = some (.bv w) :=
  AstSort.srt?_eq_some.mpr ⟨rfl, h⟩

theorem srt?_ofSrt {s : Srt} (h : s.Pos) : (AstSort.ofSrt s).srt? = some s := AstSort.srt?_eq_some.mpr ⟨rfl, h⟩

theorem fits_bvBin {o : AstOp} {w : Nat} (hw : 0 < w) (h : o.isBvBin = true) : ∃ p s, o.Fits [.bv w, .bv w] p s := by
  have hbv := srt?_bv hw
  have hsame : Op.bvBinSort [.bv w, .bv w] = some (.bv w) := if_pos rfl
  have hcmp : Op.bvCmpSort [.bv w, .bv w] = some .bool := if_pos rfl
  cases o with
  | and | or | xor | shl | ashr | lshr | add | sub | div | srem | urem | smod | mul => exact ⟨_, _, rfl, rfl, hbv, hsame⟩
  | lt | gt | ult | ugt => exact ⟨_, _, rfl, rfl, srt?_bool, hcmp⟩
  | _ => cases h

theorem exists_fits {o : AstOp} {ss : List Srt} (h : o.Accepts ss) (hpos : ∀ s ∈ ss, s.Pos) : ∃ p s, o.Fits ss p s := by
  cases h with
  | not => exact ⟨_, _, rfl, rfl, srt?_bool, rfl⟩
  | bvUn w h =>
    have hbv := srt?_bv (hpos (.bv w) (by simp))
    rcases h with rfl | rfl
    · exact ⟨_, _, rfl, rfl, hbv, rfl⟩
    · exact ⟨_, _, rfl, rfl, hbv, rfl⟩
  | boolBin h => rcases h with rfl | rfl | rfl | rfl <;> exact ⟨_, _, rfl, rfl, srt?_bool, rfl⟩
  | bvBin w h => exact fits_bvBin (hpos (.bv w) (by simp)) h
  | eq s => exact ⟨_, _, rfl, rfl, srt?_bool, if_pos rfl⟩
  | load a d => exact ⟨_, _, rfl, rfl, srt?_bv (hpos (.mem a d) (by simp)).2, if_pos rfl⟩
  | store a d => exact ⟨_, _, rfl, rfl, srt?_ofSrt (hpos (.mem a d) (by simp)), if_pos ⟨rfl, rfl⟩⟩
  | concat w v =>
    have hw : 0 < w := hpos (.bv w) (by simp)
    exact ⟨_, _, rfl, rfl, srt?_bv (w := w + v) (by omega), rfl⟩
  | extract w hlo hle hhi =>
    obtain ⟨lo, rfl⟩ := Int.eq_ofNat_of_zero_le hlo
    obtain ⟨hi, rfl⟩ := Int.eq_ofNat_of_zero_le (Int.le_trans hlo hle)
    have hidx : ∀ k : Nat, index k = some k := fun k => index_eq_some.mpr rfl
    refine ⟨.extract hi lo, .bv (hi - lo + 1), ?_, ?_, ?_, if_pos ⟨by omega, by omega⟩⟩
    · rw [z3Op, unsigned_natCast, unsigned_natCast]
    · rw [smtOp, hidx, hidx]
      rfl
    · refine AstSort.srt?_eq_some.mpr ⟨?_, Nat.succ_pos _⟩
      rw [sortOf, AstSort.ofSrt]
      congr 1
      omega
  | @zext w n h =>
    obtain ⟨k, hk⟩ := Int.eq_ofNat_of_zero_le (Int.sub_nonneg.mpr h)
    obtain rfl : n = ((w + k : Nat) : Int) := by omega
    refine ⟨.zeroExtend k, .bv (w + k), ?_, ?_, srt?_bv (w := w + k) (Nat.add_pos_left (hpos (.bv w) (by simp)) k), rfl⟩
    · exact congrArg Op.zeroExtend ((congrArg unsigned hk).trans (unsigned_natCast k))
    · exact congrArg (Option.map Op.zeroExtend) (index_eq_some.mpr hk)
  | @sext w n h =>
    obtain ⟨k, hk⟩ := Int.eq_ofNat_of_zero_le (Int.sub_nonneg.mpr h)
    obtain rfl : n = ((w + k : Nat) : Int) := by omega
    refine ⟨.signExtend k, .bv (w + k), ?_, ?_, srt?_bv (w := w + k) (Nat.add_pos_left (hpos (.bv w) (by simp)) k), rfl⟩
    · exact congrArg Op.signExtend ((congrArg unsigned hk).trans (unsigned_natCast k))
    · exact congrArg (Option.map Op.signExtend) (index_eq_some.mpr hk)
  | lRotate w h =>
    obtain ⟨k, rfl⟩ := Int.eq_ofNat_of_zero_le h
    refine ⟨.rotateLeft k, .bv w, ?_, ?_, srt?_bv (hpos (.bv w) (by simp)), rfl⟩
    · rw [z3Op, unsigned_natCast]
    · rw [smtOp, index_eq_some.mpr rfl]
      rfl
  | rRotate w h =>
    obtain ⟨k, rfl⟩ := Int.eq_ofNat_of_zero_le h
    refine ⟨.rotateRight k, .bv w, ?_, ?_, srt?_bv (hpos (.bv w) (by simp)), rfl⟩
    · rw [z3Op, unsigned_natCast]
    · rw [smtOp, index_eq_some.mpr rfl]
      rfl
  | ite s => exact ⟨_, _, rfl, rfl, srt?_ofSrt (hpos s (by simp)), if_pos rfl⟩

/-! ### The operands of an operator that a library accepts -/

section Check

variable {ss : List Srt} {s : Srt}

theorem boolBinSort_eq_some (h : Op.boolBinSort ss = some s) : ss = [.bool, .bool] := by
  unfold Op.boolBinSort at h
  split at h
  · rfl
  · cases h

theorem bvUnSort_eq_some (h : Op.bvUnSort ss = some s) : ∃ w, ss = [.bv w] := by
  unfold Op.bvUnSort at h
  split at h
  · exact ⟨_, rfl⟩
  · cases h

theorem bvBinSort_eq_some (h : Op.bvBinSort ss = some s) : ∃ w, ss = [.bv w, .bv w] := by
  unfold Op.bvBinSort at h
  split at h
  · obtain ⟨rfl, -⟩ := Option.ite_none_right_eq_some.mp h
    exact ⟨_, rfl⟩
  · cases h

theorem bvCmpSort_eq_some (h : Op.bvCmpSort ss = some s) : ∃ w, ss = [.bv w, .bv w] := by
  unfold Op.bvCmpSort at h
  split at h
  · obtain ⟨rfl, -⟩ := Option.ite_none_right_eq_some.mp h
    exact ⟨_, rfl⟩
  · cases h

theorem not_eq_some (h : Op.not.check ss = some s) : ss = [.bool] := by
  rcases ss with _ | ⟨_ | _ | _, _ | ⟨_, _⟩⟩ <;> first | rfl | cases h

theorem eq_eq_some (h : Op.eq.check ss = some s) : ∃ t, ss = [t, t] := by
  rcases ss with _ | ⟨t, _ | ⟨u, _ | ⟨_, _⟩⟩⟩
  · cases h
  · cases h
  · obtain ⟨rfl, -⟩ := Option.ite_none_right_eq_some.mp (show (if t = u then some Srt.bool else none) = some s from h)
    exact ⟨t, rfl⟩
  · cases h

theorem ite_eq_some (h : Op.ite.check ss = some s) : ∃ t, ss = [.bool, t, t] := by
  rcases ss with _ | ⟨_ | _ | _, _ | ⟨t, _ | ⟨u, _ | ⟨_, _⟩⟩⟩⟩ <;> try cases h
  obtain ⟨rfl, -⟩ := Option.ite_none_right_eq_some.mp (show (if t = u then some t else none) = some s from h)
  exact ⟨t, rfl⟩

theorem select_eq_some (h : Op.select.check ss = some s) : ∃ a d, ss = [.mem a d, .bv a] := by
  rcases ss with _ | ⟨_ | _ | ⟨a, d⟩, _ | ⟨_ | w | _, _ | ⟨_, _⟩⟩⟩ <;> try cases h
  obtain ⟨rfl, -⟩ := Option.ite_none_right_eq_some.mp (show (if w = a then some (Srt.bv d) else none) = some s from h)
  exact ⟨w, d, rfl⟩

theorem store_eq_some (h : Op.store.check ss = some s) : ∃ a d, ss = [.mem a d, .bv a, .bv d] := by
  rcases ss with _ | ⟨_ | _ | ⟨a, d⟩, _ | ⟨_ | w | _, _ | ⟨_ | v | _, _ | ⟨_, _⟩⟩⟩⟩ <;> try cases h
  obtain ⟨⟨rfl, rfl⟩, -⟩ := Option.ite_none_right_eq_some.mp
    (show (if w = a ∧ v = d then some (Srt.mem a d) else none) = some s from h)
  exact ⟨w, v, rfl⟩

theorem concat_eq_some (h : Op.concat.check ss = some s) : ∃ w v, ss = [.bv w, .bv v] := by
  rcases ss with _ | ⟨_ | w | _, _ | ⟨_ | v | _, _ | ⟨_, _⟩⟩⟩ <;> first | exact ⟨_, _, rfl⟩ | cases h

theorem extract_eq_some {hi lo : Nat} (h : (Op.extract hi lo).check ss = some s) : ∃ w, ss = [.bv w] ∧ lo ≤ hi ∧ hi < w := by
  rcases ss with _ | ⟨_ | w | _, _ | ⟨_, _⟩⟩ <;> try cases h
  obtain ⟨hle, -⟩ := Option.ite_none_right_eq_some.mp
    (show (if lo ≤ hi ∧ hi < w then some (Srt.bv (hi - lo + 1)) else none) = some s from h)
  exact ⟨w, rfl, hle⟩

theorem zeroExtend_eq_some {k : Nat} (h : (Op.zeroExtend k).check ss = some s) : ∃ w, ss = [.bv w] := by
  rcases ss with _ | ⟨_ | w | _, _ | ⟨_, _⟩⟩ <;> first | exact ⟨_, rfl⟩ | cases h

theorem signExtend_eq_some {k : Nat} (h : (Op.signExtend k).check ss = some s) : ∃ w, ss = [.bv w] := by
  rcases ss with _ | ⟨_ | w | _, _ | ⟨_, _⟩⟩ <;> first | exact ⟨_, rfl⟩ | cases h

theorem accepts_logic {o : AstOp} {c : Prop} [Decidable c] {p q : Op} (hlogic : o = .and ∨ o = .or ∨ o = .xor)
    (hp : p.check ss = Op.boolBinSort ss) (hq : q.check ss = Op.bvBinSort ss)
    (h : (if c then p else q).check ss = some s) : o.Accepts ss := by
  split at h
  · obtain rfl := boolBinSort_eq_some (hp.symm.trans h)
    refine .boolBin ?_
    rcases hlogic with rfl | rfl | rfl <;> simp
  · obtain ⟨w, rfl⟩ := bvBinSort_eq_some (hq.symm.trans h)
    refine .bvBin w ?_
    rcases hlogic with rfl | rfl | rfl <;> rfl

theorem accepts_of_check {o : AstOp} {p : Op} (hp : o.smtOp (ss.map .ofSrt) = some p) (h : p.check ss = some s) :
    o.Accepts ss := by
  cases o with
  | neg =>
    obtain rfl := Option.some.inj hp
    obtain ⟨w, rfl⟩ := bvUnSort_eq_some h
    exact .bvUn w (.inl rfl)
  | compl =>
    obtain rfl := Option.some.inj hp
    obtain ⟨w, rfl⟩ := bvUnSort_eq_some h
    exact .bvUn w (.inr rfl)
  | not =>
    obtain rfl := Option.some.inj hp
    obtain rfl := not_eq_some h
    exact .not
  | and =>
    obtain rfl := Option.some.inj hp
    exact accepts_logic (.inl rfl) rfl rfl h
  | or =>
    obtain rfl := Option.some.inj hp
    exact accepts_logic (.inr (.inl rfl)) rfl rfl h
  | xor =>
    obtain rfl := Option.some.inj hp
    exact accepts_logic (.inr (.inr rfl)) rfl rfl h
  | shl | ashr | lshr | add | sub | div | srem | urem | smod | mul =>
    obtain rfl := Option.some.inj hp
    obtain ⟨w, rfl⟩ := bvBinSort_eq_some h
    exact .bvBin w rfl
  | lt | gt | ult | ugt =>
    obtain rfl := Option.some.inj hp
    obtain ⟨w, rfl⟩ := bvCmpSort_eq_some h
    exact .bvBin w rfl
  | eq =>
    obtain rfl := Option.some.inj hp
    obtain ⟨t, rfl⟩ := eq_eq_some h
    exact .eq t
  | load =>
    obtain rfl := Option.some.inj hp
    obtain ⟨a, d, rfl⟩ := select_eq_some h
    exact .load a d
  | store =>
    obtain rfl := Option.some.inj hp
    obtain ⟨a, d, rfl⟩ := store_eq_some h
    exact .store a d
  | concat =>
    obtain rfl := Option.some.inj hp
    obtain ⟨w, v, rfl⟩ := concat_eq_some h
    exact .concat w v
  | extract hi lo =>
    obtain ⟨i, hi', hp⟩ := Option.bind_eq_some_iff.mp hp
    obtain ⟨j, hj, rfl⟩ := Option.map_eq_some_iff.mp hp
    obtain ⟨w, rfl, hle, hlt⟩ := extract_eq_some h
    obtain rfl := index_eq_some.mp hi'
    obtain rfl := index_eq_some.mp hj
    exact .extract w (Int.natCast_nonneg j) (Int.ofNat_le.mpr hle) (Int.ofNat_lt.mpr hlt)
  | zext n =>
    obtain ⟨k, hk, rfl⟩ := Option.map_eq_some_iff.mp hp
    obtain ⟨w, rfl⟩ := zeroExtend_eq_some h
    have hdiff : n - (w : Int) = k := index_eq_some.mp hk
    exact .zext w (by omega)
  | sext n =>
    obtain ⟨k, hk, rfl⟩ := Option.map_eq_some_iff.mp hp
    obtain ⟨w, rfl⟩ := signExtend_eq_some h
    have hdiff : n - (w : Int) = k := index_eq_some.mp hk
    exact .sext w (by omega)
  | lRotate n =>
    obtain ⟨k, hk, rfl⟩ := Option.map_eq_some_iff.mp hp
    obtain ⟨w, rfl⟩ := bvUnSort_eq_some h
    exact .lRotate w (by rw [index_eq_some.mp hk]; exact Int.natCast_nonneg k)
  | rRotate n =>
    obtain ⟨k, hk, rfl⟩ := Option.map_eq_some_iff.mp hp
    obtain ⟨w, rfl⟩ := bvUnSort_eq_some h
    exact .rRotate w (by rw [index_eq_some.mp hk]; exact Int.natCast_nonneg k)
  | imply =>
    obtain rfl := Option.some.inj hp
    obtain rfl := boolBinSort_eq_some h
    exact .boolBin (.inr (.inr (.inr rfl)))
  | ite =>
    obtain rfl := Option.some.inj hp
    obtain ⟨t, rfl⟩ := ite_eq_some h
    exact .ite t

end Check

end AstOp

/-! ### Constants -/

namespace AstVal

/-- A memory constant, by how a number is read. -/
def contents (read : BvValType → Int) (a d : Nat) (x : BvValType) (m : List (BvValType × BvValType)) :
    BitVec a → BitVec d :=
  m.foldl (fun f p i => if i = BitVec.ofInt a (read p.1) then BitVec.ofInt d (read p.2) else f i)
    fun _ => BitVec.ofInt d (read x)

def value (read : BvValType → Int) : AstVal → Srt → Option Value
  | .bool b, .bool => some (.bool b)
  | .bv x, .bv w => some (.bv w (BitVec.ofInt w (read x)))
  | .mem x m, .mem a d => some (.mem a d (contents read a d x m))
  | _, _ => none

/-- It makes no difference whether the numbers in a constant are read as unsigned or as signed numbers of 64 bits. -/
def ReadsAlike : AstVal → Srt → Prop
  | .bool _, .bool => True
  | .bv x, .bv w => x.val < 2 ^ 63 ∨ w ≤ 64
  | .mem x m, .mem a d => contents (fun x => x.val) a d x m = contents int64 a d x m
  | _, _ => False

theorem foldl_store_eval {read : BvValType → Int} {M : Model} {a d : Nat} (m : List (BvValType × BvValType)) {e : Term}
    {f : BitVec a → BitVec d} (h : e.eval M = some (.mem a d f)) :
    (m.foldl (fun e p => Term.op .store [e, .bv a (BitVec.ofInt a (read p.1)), .bv d (BitVec.ofInt d (read p.2))]) e).eval M =
      some (.mem a d (m.foldl (fun f p i => if i = BitVec.ofInt a (read p.1) then BitVec.ofInt d (read p.2) else f i) f)) := by
  induction m generalizing e f with
  | nil => exact h
  | cons p m ih => exact ih (store_eval _ _ h)

theorem exists_term (read : BvValType → Int) {c : AstVal} {s : Srt} (hc : AstExpr.ConstOk c (.ofSrt s)) (hs : s.Pos) :
    ∃ t v, c.term read (.ofSrt s) = some t ∧ c.value read s = some v ∧ v.sort = s ∧ ∀ M, t.eval M = some v := by
  cases c with
  | bool b =>
    obtain rfl := AstSort.ofSrt_eq_bool.mp hc
    exact ⟨_, _, rfl, rfl, rfl, fun _ => rfl⟩
  | bv x =>
    obtain ⟨n, hn, -⟩ := hc
    cases s with
    | bv w => exact ⟨_, _, if_pos (Int.natCast_pos.mpr hs), rfl, rfl, fun _ => rfl⟩
    | bool => cases hn
    | mem a d => cases hn
  | mem x m =>
    obtain ⟨n, k, hn⟩ := hc
    cases s with
    | mem a d =>
      refine ⟨_, _, if_pos ⟨Int.natCast_pos.mpr hs.1, Int.natCast_pos.mpr hs.2⟩, rfl, rfl, fun M => ?_⟩
      have hdef : (Term.op (.constArray a) [.bv d (BitVec.ofInt d (read x))]).eval M =
          some (.mem a d fun _ => BitVec.ofInt d (read x)) := by
        simp [Term.eval, Term.evalList]
      exact foldl_store_eval m hdef
    | bool => cases hn
    | bv w => cases hn

theorem ofInt_int64 (x : BvValType) (w : Nat) :
    BitVec.ofInt w x.val = BitVec.ofInt w (int64 x) ↔ x.val < 2 ^ 63 ∨ w ≤ 64 := by
  rw [int64]
  split
  · rename_i hlt
    exact iff_of_true rfl (.inl hlt)
  · rename_i hge
    rw [or_iff_right hge]
    have hx : ((x.val : Nat) : Int) < 2 ^ 64 := by exact_mod_cast x.isLt
    have hx' : (2 ^ 63 : Int) ≤ (x.val : Int) := by exact_mod_cast Nat.le_of_not_lt hge
    constructor
    · intro h
      by_contra hw
      have hpow : (2 : Int) ^ 65 ≤ ((2 ^ w : Nat) : Int) := by
        exact_mod_cast Nat.pow_le_pow_right (by decide) (show 65 ≤ w by omega)
      have hsmall : (x.val : Int) % ((2 ^ w : Nat) : Int) = x.val := Int.emod_eq_of_lt (Int.natCast_nonneg _) (by omega)
      have hwrap : ((x.val : Int) - 2 ^ 64) % ((2 ^ w : Nat) : Int) = x.val - 2 ^ 64 + ((2 ^ w : Nat) : Int) := by
        rw [← Int.add_emod_right, Int.emod_eq_of_lt (by omega) (by omega)]
      have h := congrArg BitVec.toNat h
      rw [BitVec.toNat_ofInt, BitVec.toNat_ofInt, hsmall, hwrap] at h
      omega
    · intro hw
      have hpow : (2 : Int) ^ 64 = ((2 ^ w : Nat) : Int) * 2 ^ (64 - w) := by
        rw [Nat.cast_pow, Nat.cast_ofNat, ← pow_add, Nat.add_sub_cancel' hw]
      refine BitVec.eq_of_toNat_eq ?_
      rw [BitVec.toNat_ofInt, BitVec.toNat_ofInt, hpow, Int.sub_mul_emod_self_left]

theorem readsAlike_iff {c : AstVal} {s : Srt} (hc : AstExpr.ConstOk c (.ofSrt s)) :
    c.ReadsAlike s ↔ c.value (fun x => x.val) s = c.value int64 s := by
  cases c with
  | bool b =>
    obtain rfl := AstSort.ofSrt_eq_bool.mp hc
    exact iff_of_true trivial rfl
  | bv x =>
    obtain ⟨n, hn, -⟩ := hc
    cases s with
    | bv w => simp only [ReadsAlike, value, Option.some.injEq, Value.bv.injEq, heq_eq_eq, true_and, ofInt_int64]
    | bool => cases hn
    | mem a d => cases hn
  | mem x m =>
    obtain ⟨n, k, hn⟩ := hc
    cases s with
    | mem a d => simp only [ReadsAlike, value, Option.some.injEq, Value.mem.injEq, heq_eq_eq, true_and]
    | bool => cases hn
    | bv w => cases hn

end AstVal

end Ilang
