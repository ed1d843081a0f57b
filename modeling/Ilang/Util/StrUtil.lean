import Ilang.Util.Pieces

/-!
# `Split`, `Join` and `ReplaceAll`

The loops of `str_util.cc` work on positions. A position is below the sum of two lengths, which `size_t` holds, so positions are
natural numbers here. `substr` and `append` throw if they are asked for what begins behind the end of the text. A loop is run
for a number of rounds, and has no value while it is still running.
-/

namespace Ilang

namespace StrUtil

open Pieces

variable {α : Type*} [DecidableEq α]

/-! ### `std::string` -/

/-- The first position from `i` on at which `a` stands, in a text whose part from `i` on is the second argument. -/
def findFrom (a : List α) : List α → ℕ → Option ℕ
  | [], i => if a.isPrefixOf [] then some i else none
  | c :: t, i => if a.isPrefixOf (c :: t) then some i else findFrom a t (i + 1)

/-- `s.find(a, pos)`, where `none` is `npos`. -/
def find (s a : List α) (pos : ℕ) : Option ℕ := if pos ≤ s.length then findFrom a (s.drop pos) pos else none

/-- `s.substr(pos, n)`, or `none` if it throws. `append(s, pos, n)` appends the same. -/
def substr (s : List α) (pos n : ℕ) : Option (List α) := if pos ≤ s.length then some ((s.drop pos).take n) else none

/-! ### The loops -/

/-- The rounds of `Split`: without a value after too few rounds, and with `none` if the call ends by an exception. -/
def splitLoop (str delim : List α) : ℕ → ℕ → List (List α) → Option (Option (List (List α)))
  | 0, _, _ => none
  | fuel + 1, prev, tokens =>
    let pos := (find str delim prev).getD str.length
    match substr str prev (pos - prev) with
    | none => some none
    | some token =>
      let tokens := if token.isEmpty then tokens else tokens ++ [token]
      let prev := pos + delim.length
      if pos < str.length ∧ prev < str.length then splitLoop str delim fuel prev tokens else some (some tokens)

def split (str delim : List α) (fuel : ℕ) : Option (Option (List (List α))) := splitLoop str delim fuel 0 []

def join (ps : List (List α)) (delim : List α) : List α :=
  (ps.foldl (fun r s => (r.1 ++ (r.2 ++ s), delim)) (([] : List α), ([] : List α))).1

/-- The rounds of `ReplaceAll`. -/
def replaceAllLoop (str a b : List α) : ℕ → ℕ → List α → Option (Option (List α))
  | 0, _, _ => none
  | fuel + 1, from_, result =>
    match find str a from_ with
    | none => some ((substr str from_ str.length).map (result ++ ·))
    | some pos =>
      match substr str from_ (pos - from_) with
      | none => some none
      | some t => replaceAllLoop str a b fuel (pos + a.length) (result ++ t ++ b)

def replaceAll (str a b : List α) (fuel : ℕ) : Option (Option (List α)) := replaceAllLoop str a b fuel 0 []

/-- The call ends, and returns `v`. -/
def Returns {β : Type*} (call : ℕ → Option (Option β)) (v : β) : Prop := ∃ n, ∀ fuel ≥ n, call fuel = some (some v)

/-! ### What `find` finds -/

theorem findFrom_of_absent {a t : List α} (i : ℕ) (h : ¬ a <:+: t) : findFrom a t i = none := by
  induction t generalizing i with
  | nil =>
    have hpre : ¬ a.isPrefixOf [] = true := fun hp => h (List.isPrefixOf_iff_prefix.mp hp).isInfix
    rw [findFrom, if_neg hpre]
  | cons c t ih =>
    have hpre : ¬ a.isPrefixOf (c :: t) = true := fun hp => h (List.isPrefixOf_iff_prefix.mp hp).isInfix
    rw [findFrom, if_neg hpre]
    exact ih (i + 1) fun hin => h (hin.trans (List.suffix_cons c t).isInfix)

theorem findFrom_of_leftmostAt {a t p r : List α} (i : ℕ) (h : LeftmostAt a t p r) : findFrom a t i = some (i + p.length) := by
  induction p generalizing t i with
  | nil =>
    have hpre : a.isPrefixOf t = true := List.isPrefixOf_iff_prefix.mpr ⟨r, h.split.symm⟩
    cases t with
    | nil => rw [findFrom, if_pos hpre, List.length_nil, Nat.add_zero]
    | cons c t => rw [findFrom, if_pos hpre, List.length_nil, Nat.add_zero]
  | cons c p ih =>
    cases t with
    | nil => exact absurd h.split (by simp)
    | cons c' t =>
      have hpre : ¬ a.isPrefixOf (c' :: t) = true := fun hp => h.not_prefix (List.isPrefixOf_iff_prefix.mp hp)
      rw [findFrom, if_neg hpre, ih (i + 1) h.tail, List.length_cons]
      congr 1
      omega

theorem find_of_absent {a t : List α} (u : List α) (h : ¬ a <:+: t) : find (u ++ t) a u.length = none := by
  rw [find, if_pos (by simp), List.drop_left, findFrom_of_absent _ h]

theorem find_of_leftmostAt {a t p r : List α} (u : List α) (h : LeftmostAt a t p r) :
    find (u ++ t) a u.length = some (u ++ p).length := by
  rw [find, if_pos (by simp), List.drop_left, findFrom_of_leftmostAt _ h, List.length_append]

omit [DecidableEq α] in
theorem substr_append (u p t : List α) : substr (u ++ (p ++ t)) u.length ((u ++ p).length - u.length) = some p := by
  have hlen : (u ++ p).length - u.length = p.length := by simp
  rw [substr, if_pos (by simp), List.drop_left, hlen, List.take_left]

omit [DecidableEq α] in
theorem substr_rest (u t : List α) {n : ℕ} (hn : t.length ≤ n) : substr (u ++ t) u.length n = some t := by
  rw [substr, if_pos (by simp), List.drop_left, List.take_of_length_le hn]

/-! ### What the loops return -/

variable {a t : List α} {ps : List (List α)}

def keep (ps : List (List α)) : List (List α) := ps.filter fun p => !p.isEmpty

omit [DecidableEq α] in
theorem keep_cons (p : List α) : (if p.isEmpty then ([] : List (List α)) else [p]) ++ keep ps = keep (p :: ps) := by
  cases p <;> rfl

omit [DecidableEq α] in
theorem append_ite (tokens : List (List α)) (p : List α) :
    (if p.isEmpty then tokens else tokens ++ [p]) = tokens ++ (if p.isEmpty then [] else [p]) := by
  cases p <;> simp

/-- The loop from a position on: the text before it is `u`, and the pieces of what follows are appended to the tokens. -/
theorem splitLoop_of_cuts (ha : a ≠ []) (h : Cuts a t ps) (u : List α) (tokens : List (List α)) {fuel : ℕ} (hfuel : ps.length ≤ fuel) :
    splitLoop (u ++ t) a fuel u.length tokens = some (some (tokens ++ keep ps)) := by
  have hpos : 0 < a.length := List.length_pos_iff.mpr ha
  induction h generalizing u tokens fuel with
  | @last s habsent =>
    obtain ⟨fuel, rfl⟩ := Nat.exists_eq_succ_of_ne_zero (Nat.pos_iff_ne_zero.mp hfuel)
    have hsub : substr (u ++ s) u.length ((u ++ s).length - u.length) = some s := substr_rest u s (by simp)
    rw [splitLoop, find_of_absent u habsent]
    simp only [Option.getD_none, hsub, lt_irrefl, false_and, if_false]
    rw [append_ite, ← keep_cons, keep, List.filter_nil, List.append_nil]
  | @cut s p r ps hat hrest ih =>
    obtain ⟨fuel, rfl⟩ := Nat.exists_eq_succ_of_ne_zero (Nat.pos_iff_ne_zero.mp (Nat.lt_of_lt_of_le (Nat.succ_pos _) hfuel))
    have hs : u ++ s = u ++ p ++ a ++ r := by rw [hat.split]; simp only [List.append_assoc]
    have hsub : substr (u ++ s) u.length ((u ++ p).length - u.length) = some p := by
      rw [hat.split, List.append_assoc p a r]
      exact substr_append u p (a ++ r)
    have hnext : (u ++ p).length + a.length = (u ++ p ++ a).length := List.length_append.symm
    rw [splitLoop, find_of_leftmostAt u hat]
    simp only [Option.getD_some, hsub]
    rw [append_ite, hnext]
    by_cases hr : r = []
    · -- the text ends with the pattern: the loop stops, and the empty piece behind it is none of the tokens
      have hstop : ¬ ((u ++ p).length < (u ++ s).length ∧ (u ++ p ++ a).length < (u ++ s).length) := by
        rw [hs, hr, List.append_nil]
        exact fun hlt => lt_irrefl _ hlt.2
      have hps : ps = [[]] := Cuts.of_nil ha (hr ▸ hrest)
      rw [if_neg hstop, ← keep_cons p, hps]
      simp [keep]
    · have hgo : (u ++ p).length < (u ++ s).length ∧ (u ++ p ++ a).length < (u ++ s).length := by
        have hrpos : 0 < r.length := List.length_pos_iff.mpr hr
        rw [hs]
        simp only [List.length_append]
        omega
      rw [if_pos hgo, hs, ih (u ++ p ++ a) _ (Nat.le_of_succ_le_succ hfuel), ← keep_cons p, List.append_assoc]

omit [DecidableEq α] in
theorem join_of_ne_nil (b : List α) (p : List α) : join (p :: ps) b = b.intercalate (p :: ps) := by
  have hgen : ∀ (qs : List (List α)) (r : List α),
      (qs.foldl (fun r s => (r.1 ++ (r.2 ++ s), b)) (r, b)).1 = r ++ (qs.map (b ++ ·)).flatten := by
    intro qs
    induction qs with
    | nil => simp
    | cons q qs ih =>
      intro r
      rw [List.foldl_cons, ih, List.map_cons, List.flatten_cons]
      simp only [List.append_assoc]
  have hinter : ∀ (qs : List (List α)) (q : List α), b.intercalate (q :: qs) = q ++ (qs.map (b ++ ·)).flatten := by
    intro qs
    induction qs with
    | nil => simp
    | cons q' qs ih =>
      intro q
      rw [List.intercalate_cons_cons, ih, List.map_cons, List.flatten_cons]
      simp only [List.append_assoc]
  rw [join, List.foldl_cons, hgen, hinter, List.nil_append, List.nil_append]

omit [DecidableEq α] in
theorem join_eq (b : List α) (ps : List (List α)) : join ps b = b.intercalate ps := by
  cases ps with
  | nil => rfl
  | cons p ps => exact join_of_ne_nil b p

theorem replaceAllLoop_of_cuts (b : List α) (h : Cuts a t ps) (u result : List α) {fuel : ℕ} (hfuel : ps.length ≤ fuel) :
    replaceAllLoop (u ++ t) a b fuel u.length result = some (some (result ++ b.intercalate ps)) := by
  induction h generalizing u result fuel with
  | @last s habsent =>
    obtain ⟨fuel, rfl⟩ := Nat.exists_eq_succ_of_ne_zero (Nat.pos_iff_ne_zero.mp hfuel)
    have hsub : substr (u ++ s) u.length (u ++ s).length = some s := substr_rest u s (by simp)
    rw [replaceAllLoop, find_of_absent u habsent]
    simp only [hsub, Option.map_some, List.intercalate_singleton]
  | @cut s p r ps hat hrest ih =>
    obtain ⟨fuel, rfl⟩ := Nat.exists_eq_succ_of_ne_zero (Nat.pos_iff_ne_zero.mp (Nat.lt_of_lt_of_le (Nat.succ_pos _) hfuel))
    have hs : u ++ s = u ++ p ++ a ++ r := by rw [hat.split]; simp only [List.append_assoc]
    have hsub : substr (u ++ s) u.length ((u ++ p).length - u.length) = some p := by
      rw [hat.split, List.append_assoc p a r]
      exact substr_append u p (a ++ r)
    have hnext : (u ++ p).length + a.length = (u ++ p ++ a).length := List.length_append.symm
    rw [replaceAllLoop, find_of_leftmostAt u hat]
    simp only [hsub]
    rw [hnext, hs, ih (u ++ p ++ a) _ (Nat.le_of_succ_le_succ hfuel), List.intercalate_cons_of_ne_nil hrest.ne_nil]
    simp only [List.append_assoc]

theorem split_returns (ha : a ≠ []) (h : Cuts a t ps) : Returns (split t a) (keep ps) :=
  ⟨ps.length, fun _ hfuel => splitLoop_of_cuts ha h [] [] hfuel⟩

theorem replaceAll_returns (b : List α) (h : Cuts a t ps) : Returns (replaceAll t a b) (join ps b) :=
  ⟨ps.length, fun _ hfuel => by rw [join_eq]; exact replaceAllLoop_of_cuts b h [] [] hfuel⟩

/-- For every pattern that is not empty both loops end. There is one sequence of pieces between its leftmost occurrences:
`ReplaceAll` joins it with the replacement, and `Split` drops the empty ones. -/
theorem split_replaceAll_agree (s a : List α) (ha : a ≠ []) :
    (∃! ps, Cuts a s ps) ∧
      ∀ ps, Cuts a s ps →
        Returns (split s a) (ps.filter fun p => !p.isEmpty) ∧ (∀ b, Returns (replaceAll s a b) (join ps b)) ∧
          Returns (replaceAll s a a) s := by
  refine ⟨Cuts.existsUnique ha s, fun ps h => ⟨split_returns ha h, fun b => replaceAll_returns b h, ?_⟩⟩
  have hself : join ps a = s := by rw [join_eq, h.intercalate_self]
  have hret := replaceAll_returns a h
  rwa [hself] at hret

theorem twice_agree :
    Returns (split "aaabaa".toList "aa".toList) ["ab".toList] ∧
      Returns (replaceAll "aaabaa".toList "aa".toList "aaa".toList) "aaaabaaa".toList := by
  have h := split_replaceAll_agree "aaabaa".toList "aa".toList (by decide)
  have hcuts : Cuts "aa".toList "aaabaa".toList ["".toList, "ab".toList, "".toList] := by
    have hlast : Cuts "aa".toList [] [[]] := Cuts.nil (by decide)
    refine .cut (r := "abaa".toList) ⟨by decide, fun _ _ _ => Nat.zero_le _⟩ (.cut (r := []) ⟨by decide, ?_⟩ hlast)
    rintro (_ | ⟨c, _ | ⟨d, p'⟩⟩) r' hs
    · simp at hs
    · simp at hs
    · simp
  have hparts := h.2 _ hcuts
  exact ⟨hparts.1, hparts.2.1 "aaa".toList⟩

/-! ### The empty pattern -/

theorem find_nil_zero (s : List α) : find s [] 0 = some 0 := by
  cases s <;> rfl

theorem split_nil_runs {str : List α} (h : str ≠ []) (fuel : ℕ) : split str [] fuel = none := by
  have hpos : 0 < str.length := List.length_pos_iff.mpr h
  have hsub : substr str 0 0 = some [] := by simp [substr]
  have hloop : ∀ tokens : List (List α), splitLoop str [] fuel 0 tokens = none := by
    induction fuel with
    | zero => exact fun _ => rfl
    | succ fuel ih =>
      intro tokens
      rw [splitLoop, find_nil_zero]
      simp only [Option.getD_some, Nat.sub_self, hsub, List.length_nil, Nat.add_zero, hpos, and_self, if_true]
      exact ih _
  exact hloop []

theorem replaceAll_nil_runs (str b : List α) (fuel : ℕ) : replaceAll str [] b fuel = none := by
  have hsub : substr str 0 0 = some [] := by simp [substr]
  have hloop : ∀ result : List α, replaceAllLoop str [] b fuel 0 result = none := by
    induction fuel with
    | zero => exact fun _ => rfl
    | succ fuel ih =>
      intro result
      rw [replaceAllLoop, find_nil_zero]
      simp only [Nat.sub_self, hsub, List.length_nil, Nat.add_zero]
      exact ih _
  exact hloop []

end StrUtil

end Ilang
