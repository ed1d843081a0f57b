import Mathlib.Data.Nat.Digits.Defs
import Mathlib.Data.Nat.Digits.Lemmas
import Mathlib.Logic.Function.Basic

/-!
# Blocks of words in a memory

A memory maps addresses to words of `d` bits. A block is a number of words at consecutive addresses, which wrap, and stands for one
bit-vector: its first word is the lowest or the highest part of it.
-/

namespace WordBlock

inductive Endian
  | little | big
  deriving DecidableEq, Repr

variable {a d w : ℕ}

/-- The address of a word of a block. -/
def addr (x : BitVec a) (i : ℕ) : BitVec a := x + BitVec.ofNat a i

/-- The part of a bit-vector, counted from its low end, that is a word of a block of so many. -/
def Endian.pos : Endian → ℕ → ℕ → ℕ
  | .little, _, i => i
  | .big, n, i => n - 1 - i

def wordAt (d : ℕ) (v : BitVec w) (k : ℕ) : BitVec d := BitVec.extractLsb' (k * d) d v

def words (f : BitVec a → BitVec d) (x : BitVec a) (n : ℕ) : List (BitVec d) := (List.range n).map fun i => f (addr x i)

/-- The words of a block from the low end. -/
def ordered {α : Type} : Endian → List α → List α
  | .little, l => l
  | .big, l => l.reverse

def join (ws : List (BitVec d)) : ℕ := Nat.ofDigits (2 ^ d) (ws.map BitVec.toNat)

def read (f : BitVec a → BitVec d) (x : BitVec a) (e : Endian) (n : ℕ) : BitVec (n * d) :=
  BitVec.ofNat (n * d) (join (ordered e (words f x n)))

/-- The first `k` words of a block of `n` are written. -/
def write (f : BitVec a → BitVec d) (x : BitVec a) (v : BitVec w) (e : Endian) (n k : ℕ) : BitVec a → BitVec d :=
  (List.range k).foldl (fun g i => Function.update g (addr x i) (wordAt d v (e.pos n i))) f

/-! ### Joining -/

theorem join_cons (x : BitVec d) (ws : List (BitVec d)) : join (x :: ws) = x.toNat + 2 ^ d * join ws := by
  unfold join
  rw [List.map_cons, Nat.ofDigits_cons]

theorem join_append (ws us : List (BitVec d)) : join (ws ++ us) = join ws + 2 ^ (ws.length * d) * join us := by
  unfold join
  rw [List.map_append, Nat.ofDigits_append, List.length_map, ← pow_mul, Nat.mul_comm d]

theorem join_singleton (x : BitVec d) : join [x] = x.toNat := by
  rw [join_cons, show join ([] : List (BitVec d)) = 0 from rfl, Nat.mul_zero, Nat.add_zero]

theorem join_lt (ws : List (BitVec d)) : join ws < 2 ^ (ws.length * d) := by
  induction ws with
  | nil =>
    show 0 < 2 ^ (0 * d)
    positivity
  | cons x ws ih =>
    rw [join_cons, List.length_cons, Nat.succ_mul, Nat.add_comm _ d, pow_add]
    calc x.toNat + 2 ^ d * join ws < 2 ^ d + 2 ^ d * join ws := Nat.add_lt_add_right x.isLt _
      _ = 2 ^ d * (join ws + 1) := by ring
      _ ≤ 2 ^ d * 2 ^ (ws.length * d) := Nat.mul_le_mul_left _ ih

theorem join_div_mod {ws : List (BitVec d)} {k : ℕ} {x : BitVec d} (h : ws[k]? = some x) :
    join ws / 2 ^ (k * d) % 2 ^ d = x.toNat := by
  induction ws generalizing k with
  | nil => exact nomatch h
  | cons y ws ih =>
    rw [join_cons]
    cases k with
    | zero =>
      obtain rfl : y = x := Option.some.inj h
      rw [Nat.zero_mul, pow_zero, Nat.div_one, Nat.add_mul_mod_self_left]
      exact Nat.mod_eq_of_lt y.isLt
    | succ k =>
      rw [Nat.succ_mul, Nat.add_comm (k * d) d, pow_add, ← Nat.div_div_eq_div_mul, Nat.add_mul_div_left _ _ (by positivity),
        Nat.div_eq_of_lt y.isLt, Nat.zero_add]
      exact ih (by rwa [List.getElem?_cons_succ] at h)

/-! ### Reading -/

section Read

variable (f : BitVec a → BitVec d) (x : BitVec a)

theorem length_words (n : ℕ) : (words f x n).length = n := by
  unfold words
  rw [List.length_map, List.length_range]

theorem words_succ (n : ℕ) : words f x (n + 1) = words f x n ++ [f (addr x n)] := by
  unfold words
  rw [List.range_succ, List.map_append, List.map_singleton]

theorem length_ordered {α : Type} (e : Endian) (l : List α) : (ordered e l).length = l.length := by
  cases e with
  | little => rfl
  | big => exact List.length_reverse

theorem toNat_read (e : Endian) (n : ℕ) : (read f x e n).toNat = join (ordered e (words f x n)) := by
  unfold read
  rw [BitVec.toNat_ofNat]
  refine Nat.mod_eq_of_lt ?_
  have hlt := join_lt (ordered e (words f x n))
  rwa [length_ordered, length_words] at hlt

theorem toNat_read_one (e : Endian) : (read f x e 1).toNat = (f (addr x 0)).toNat := by
  rw [toNat_read]
  have hword : ordered e (words f x 1) = [f (addr x 0)] := by cases e <;> rfl
  rw [hword, join_singleton]

theorem toNat_read_little (n : ℕ) :
    (read f x .little (n + 1)).toNat = (f (addr x n)).toNat * 2 ^ (n * d) + (read f x .little n).toNat := by
  rw [toNat_read, toNat_read, ordered, ordered, words_succ, join_append, join_singleton, length_words, Nat.add_comm, Nat.mul_comm]

theorem toNat_read_big (n : ℕ) :
    (read f x .big (n + 1)).toNat = (read f x .big n).toNat * 2 ^ d + (f (addr x n)).toNat := by
  rw [toNat_read, toNat_read, ordered, ordered, words_succ, List.reverse_append, List.reverse_singleton, List.singleton_append,
    join_cons, Nat.add_comm, Nat.mul_comm]

theorem wordAt_read {e : Endian} {n i : ℕ} (h : i < n) : wordAt d (read f x e n) (e.pos n i) = f (addr x i) := by
  have hget : ∀ {k : ℕ}, k < n → (words f x n)[k]? = some (f (addr x k)) := by
    intro k hk
    unfold words
    rw [List.getElem?_map, List.getElem?_range hk, Option.map_some]
  refine BitVec.eq_of_toNat_eq ?_
  unfold wordAt
  rw [BitVec.extractLsb'_toNat, toNat_read, Nat.shiftRight_eq_div_pow]
  cases e with
  | little => exact join_div_mod (hget h)
  | big =>
    refine join_div_mod ?_
    show (words f x n).reverse[n - 1 - i]? = some (f (addr x i))
    rw [List.getElem?_reverse (by rw [length_words]; omega), length_words]
    have hpos : n - 1 - (n - 1 - i) = i := by omega
    rw [hpos, hget h]

end Read

/-! ### Writing -/

section Write

variable (f : BitVec a → BitVec d) (x : BitVec a) (v : BitVec w) (e : Endian) (n : ℕ)

theorem write_succ (k : ℕ) :
    write f x v e n (k + 1) = Function.update (write f x v e n k) (addr x k) (wordAt d v (e.pos n k)) := by
  unfold write
  rw [List.range_succ, List.foldl_append, List.foldl_cons, List.foldl_nil]

theorem write_of_ne {k : ℕ} {y : BitVec a} (h : ∀ i < k, addr x i ≠ y) : write f x v e n k y = f y := by
  induction k with
  | zero => rfl
  | succ k ih =>
    rw [write_succ, Function.update_of_ne (h k (Nat.lt_succ_self k)).symm]
    exact ih fun i hi => h i (Nat.lt_succ_of_lt hi)

theorem addr_inj {i j : ℕ} (hi : i < 2 ^ a) (hj : j < 2 ^ a) (h : addr x i = addr x j) : i = j := by
  unfold addr at h
  have heq := congrArg BitVec.toNat (BitVec.add_right_inj x |>.mp h)
  rwa [BitVec.toNat_ofNat, BitVec.toNat_ofNat, Nat.mod_eq_of_lt hi, Nat.mod_eq_of_lt hj] at heq

theorem write_addr {k i : ℕ} (hk : k ≤ 2 ^ a) (hi : i < k) : write f x v e n k (addr x i) = wordAt d v (e.pos n i) := by
  induction k with
  | zero => exact absurd hi (Nat.not_lt_zero i)
  | succ k ih =>
    rw [write_succ]
    by_cases heq : i = k
    · rw [heq, Function.update_self]
    · have hlt : i < k := by omega
      rw [Function.update_of_ne fun h => heq (addr_inj x (by omega) (by omega) h)]
      exact ih (by omega) hlt

end Write

end WordBlock
