import Ilang.Util.StrUtil
import Ilang.Vtarget.AbcSound
import Ilang.Vtarget.WireNames

/-!
# The texts that the generators rewrite

The generators split and rewrite texts with the loops of `StrUtil`. Here the functions that stand for them elsewhere are shown to
be what the loops return.
-/

namespace Ilang

open Pieces
open StrUtil (Returns)

/-! ### A pattern of several characters -/

namespace Abc

variable {a s p r : VText}

theorem replaceAllAux_of_leftmostAt (b : VText) (ha : a ≠ []) (fuel : ℕ) (h : LeftmostAt a s p r) :
    replaceAllAux a b (p.length + 1 + fuel) s = p ++ b ++ replaceAllAux a b fuel r := by
  induction p generalizing s with
  | nil =>
    have hs : s = a ++ r := h.split
    have hpre : a.isPrefixOf s = true := List.isPrefixOf_iff_prefix.mpr ⟨r, hs.symm⟩
    have hdrop : s.drop a.length = r := by rw [hs, List.drop_left]
    cases s with
    | nil => exact absurd (List.append_eq_nil_iff.mp hs.symm).1 ha
    | cons c s => rw [List.length_nil, Nat.zero_add, Nat.add_comm 1, replaceAllAux, if_pos hpre, hdrop, List.nil_append]
  | cons c p ih =>
    cases s with
    | nil => exact absurd h.split (by simp)
    | cons c' s =>
      have hc : c' = c := (List.cons.inj h.split).1
      have htail := h.tail
      have hpre : ¬ a.isPrefixOf (c' :: s) = true := fun hp => h.not_prefix (List.isPrefixOf_iff_prefix.mp hp)
      have hfuel : (c :: p).length + 1 + fuel = p.length + 1 + fuel + 1 := by rw [List.length_cons]; omega
      rw [hfuel, replaceAllAux, if_neg hpre, ih htail, hc]
      rfl

theorem replaceAllAux_of_cuts (b : VText) (ha : a ≠ []) {ps : List VText} (h : Cuts a s ps) {fuel : ℕ} (hfuel : s.length ≤ fuel) :
    replaceAllAux a b fuel s = b.intercalate ps := by
  induction h generalizing fuel with
  | last habsent => rw [replaceAllAux_of_absent fuel habsent, List.intercalate_singleton]
  | @cut s p r ps hat hrest ih =>
    have hpos : 0 < a.length := List.length_pos_iff.mpr ha
    have hlen : s.length = p.length + a.length + r.length := by rw [hat.split, List.length_append, List.length_append]
    obtain ⟨k, rfl⟩ := Nat.exists_eq_add_of_le (show p.length + 1 ≤ fuel by omega)
    rw [replaceAllAux_of_leftmostAt b ha k hat, ih (by omega), List.intercalate_cons_of_ne_nil hrest.ne_nil]

theorem replaceAll_returns (s b : VText) (ha : a ≠ []) : Returns (StrUtil.replaceAll s a b) (replaceAll s a b) := by
  obtain ⟨ps, hps⟩ := Cuts.exists ha s
  have hvalue : replaceAll s a b = StrUtil.join ps b := by
    rw [StrUtil.join_eq]
    exact replaceAllAux_of_cuts b ha hps le_rfl
  rw [hvalue]
  exact StrUtil.replaceAll_returns b hps

end Abc

/-! ### A pattern of one character -/

namespace WireNames

theorem split_returns (s : Name) (c : Char) : Returns (StrUtil.split s [c]) (split s c) :=
  StrUtil.split_returns (List.cons_ne_nil c []) (cuts_splitOn c s)

theorem replaceAll_of_cuts {s : Name} {c : Char} (b : Name) {ps : List Name} (h : Cuts [c] s ps) :
    replaceAll s c b = b.intercalate ps := by
  induction h with
  | @last s habsent =>
    have hc : ∀ d ∈ s, (if d = c then b else [d]) = [d] := by
      intro d hd
      rw [if_neg]
      rintro rfl
      obtain ⟨u, v, rfl⟩ := List.append_of_mem hd
      exact habsent ⟨u, v, by simp⟩
    rw [replaceAll, List.flatMap_congr hc, List.intercalate_singleton]
    simp
  | @cut s p r ps hat hrest ih =>
    have hp : ∀ d ∈ p, (if d = c then b else [d]) = [d] := by
      intro d hd
      rw [if_neg]
      rintro rfl
      exact hat.not_mem hd
    have hcopy : p.flatMap (fun d => if d = c then b else [d]) = p := by
      rw [List.flatMap_congr hp]
      simp
    have hc : [c].flatMap (fun d => if d = c then b else [d]) = b := by simp
    rw [List.intercalate_cons_of_ne_nil hrest.ne_nil, ← ih, replaceAll, hat.split, List.flatMap_append, List.flatMap_append,
      hcopy, hc]
    rfl

theorem replaceAll_returns (s : Name) (c : Char) (b : Name) : Returns (StrUtil.replaceAll s [c] b) (replaceAll s c b) := by
  have hcuts := cuts_splitOn c s
  rw [replaceAll_of_cuts b hcuts, ← StrUtil.join_eq]
  exact StrUtil.replaceAll_returns b hcuts

end WireNames

end Ilang
