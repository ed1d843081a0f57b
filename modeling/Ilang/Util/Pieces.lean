import Mathlib.Data.List.Basic
import Mathlib.Data.List.Infix
import Mathlib.Data.Nat.Find

/-!
# The pieces of a list between the occurrences of a pattern

A list is cut at the leftmost occurrence of a pattern, and what follows the occurrence is cut again. The pieces are what stands
before, between and behind the occurrences; they may be empty. For a pattern that is not empty there is exactly one sequence of
pieces, and putting the pattern back between them gives the list.
-/

namespace Pieces

variable {α : Type*} {a s p r : List α} {ps : List (List α)}

/-- `p` and `r` are what stands before and behind the leftmost occurrence of `a` in `s`. -/
structure LeftmostAt (a s p r : List α) : Prop where
  split : s = p ++ a ++ r
  least : ∀ p' r', s = p' ++ a ++ r' → p.length ≤ p'.length

/-- The pieces of `s` that are left when it is cut at the occurrences of `a`, each the leftmost one behind the last cut. -/
inductive Cuts (a : List α) : List α → List (List α) → Prop
  | last {s : List α} (habsent : ¬ a <:+: s) : Cuts a s [s]
  | cut {s p r : List α} {ps : List (List α)} (hat : LeftmostAt a s p r) (hrest : Cuts a r ps) : Cuts a s (p :: ps)

theorem LeftmostAt.unique {p' r' : List α} (h : LeftmostAt a s p r) (h' : LeftmostAt a s p' r') : p = p' ∧ r = r' := by
  have hlen : p.length = p'.length := Nat.le_antisymm (h.least p' r' h'.split) (h'.least p r h.split)
  have heq : p ++ (a ++ r) = p' ++ (a ++ r') := by
    rw [← List.append_assoc, ← List.append_assoc, ← h.split, h'.split]
  have hparts := List.append_inj heq hlen
  exact ⟨hparts.1, List.append_cancel_left hparts.2⟩

theorem LeftmostAt.isInfix (h : LeftmostAt a s p r) : a <:+: s := ⟨p, r, h.split.symm⟩

theorem LeftmostAt.length_lt (h : LeftmostAt a s p r) (ha : a ≠ []) : r.length < s.length := by
  have hpos : 0 < a.length := List.length_pos_iff.mpr ha
  have hlen := congrArg List.length h.split
  simp only [List.length_append] at hlen
  omega

theorem LeftmostAt.not_prefix {c : α} (h : LeftmostAt a s (c :: p) r) : ¬ a <+: s := by
  rintro ⟨r', hr'⟩
  have hle := h.least [] r' hr'.symm
  simp at hle

theorem LeftmostAt.tail {c d : α} (h : LeftmostAt a (d :: s) (c :: p) r) : LeftmostAt a s p r := by
  refine ⟨(List.cons.inj h.split).2, fun p' r' hs => ?_⟩
  have hle := h.least (d :: p') r' (by rw [hs, List.cons_append, List.cons_append])
  simpa using hle

theorem exists_leftmostAt (h : a <:+: s) : ∃ p r, LeftmostAt a s p r := by
  classical
  have hex : ∃ n p r, List.length p = n ∧ p ++ a ++ r = s := by
    obtain ⟨p, r, hs⟩ := h
    exact ⟨p.length, p, r, rfl, hs⟩
  obtain ⟨p, r, hlen, hs⟩ := Nat.find_spec hex
  refine ⟨p, r, hs.symm, fun p' r' hs' => ?_⟩
  rw [hlen]
  exact Nat.find_min' hex ⟨p', r', rfl, hs'.symm⟩

theorem Cuts.ne_nil (h : Cuts a s ps) : ps ≠ [] := by
  cases h with
  | last => exact List.cons_ne_nil _ _
  | cut => exact List.cons_ne_nil _ _

theorem Cuts.unique {qs : List (List α)} (h : Cuts a s ps) (h' : Cuts a s qs) : ps = qs := by
  induction h generalizing qs with
  | last habsent =>
    cases h' with
    | last => rfl
    | cut hat => exact absurd hat.isInfix habsent
  | cut hat _ ih =>
    cases h' with
    | last habsent => exact absurd hat.isInfix habsent
    | cut hat' hrest' =>
      have hparts := hat.unique hat'
      rw [hparts.1, ih (hparts.2 ▸ hrest')]

theorem Cuts.exists (ha : a ≠ []) (s : List α) : ∃ ps, Cuts a s ps := by
  by_cases h : a <:+: s
  · obtain ⟨p, r, hat⟩ := exists_leftmostAt h
    have hlt : r.length < s.length := hat.length_lt ha
    obtain ⟨ps, hps⟩ := Cuts.exists ha r
    exact ⟨p :: ps, .cut hat hps⟩
  · exact ⟨[s], .last h⟩
termination_by s.length

theorem Cuts.existsUnique (ha : a ≠ []) (s : List α) : ∃! ps, Cuts a s ps := by
  obtain ⟨ps, hps⟩ := Cuts.exists ha s
  exact ⟨ps, hps, fun qs hqs => hqs.unique hps⟩

theorem Cuts.nil (ha : a ≠ []) : Cuts a [] [[]] := .last fun h => ha (List.infix_nil.mp h)

theorem Cuts.of_nil (ha : a ≠ []) (h : Cuts a [] ps) : ps = [[]] := h.unique (Cuts.nil ha)

theorem Cuts.intercalate_self (h : Cuts a s ps) : a.intercalate ps = s := by
  induction h with
  | last => exact List.intercalate_singleton
  | cut hat hrest ih => rw [List.intercalate_cons_of_ne_nil hrest.ne_nil, ih, hat.split]

theorem LeftmostAt.not_mem {c : α} (h : LeftmostAt [c] s p r) : c ∉ p := by
  intro hc
  obtain ⟨u, v, rfl⟩ := List.append_of_mem hc
  have hle := h.least u (v ++ [c] ++ r) (by rw [h.split]; simp [List.append_assoc])
  rw [List.length_append, List.length_cons] at hle
  omega

theorem cuts_splitOn [DecidableEq α] (c : α) (s : List α) : Cuts [c] s (s.splitOn c) := by
  by_cases hc : c ∈ s
  · obtain ⟨p, r, hs, hp⟩ := List.eq_append_cons_of_mem hc
    have hlt : r.length < s.length := by rw [hs]; simp; omega
    have hat : LeftmostAt [c] s p r := by
      refine ⟨by rw [hs]; simp, fun p' r' hs' => ?_⟩
      by_contra hle
      -- an earlier occurrence would be an element of `p`
      have hpre : p' ++ [c] <+: p := by
        refine List.prefix_of_prefix_length_le ⟨r', hs'.symm⟩ ⟨c :: r, hs.symm⟩ ?_
        simp only [List.length_append, List.length_singleton]
        omega
      exact hp (hpre.subset (by simp))
    have hsplit : s.splitOn c = p :: r.splitOn c := by
      rw [hs, List.splitOn_append_cons_self_of_not_mem hp]
    rw [hsplit]
    exact .cut hat (cuts_splitOn c r)
  · have hsplit : s.splitOn c = [s] := List.splitOn_eq_singleton hc
    rw [hsplit]
    exact .last fun hin => hc (hin.subset (List.mem_singleton_self c))
termination_by s.length

end Pieces
