import Mathlib.Data.List.Count
import Mathlib.Data.List.Infix

/-!
# Brackets

A text in brackets is read by counting, up to where as many brackets are closed as are opened. What else the brackets may be part of
makes no difference.
-/

namespace Brackets

variable {α : Type} [DecidableEq α] (push pop : α)

/-- The brackets that are open behind a symbol. -/
def step (stack : ℕ) (c : α) : ℕ := if c = push then stack + 1 else if c = pop then stack - 1 else stack

/-- What is read until none is open, and the rest. -/
def read : ℕ → List α → Option (List α × List α)
  | _, [] => none
  | stack, c :: it =>
    if step push pop stack c = 0 then some ([c], it)
    else (read (step push pop stack c) it).map fun r => (c :: r.1, r.2)

/-- A text that closes the open brackets at its end and not before. -/
structure Closes (stack : ℕ) (b : List α) : Prop where
  ne_nil : b ≠ []
  balanced : b.count pop = stack + b.count push
  opened : ∀ p, p <+: b → p ≠ [] → p ≠ b → p.count pop < stack + p.count push

variable {push pop}

theorem read_append {stack : ℕ} {it p r : List α} (h : read push pop stack it = some (p, r)) : it = p ++ r ∧ p ≠ [] := by
  induction it generalizing stack p with
  | nil => cases h
  | cons c it ih =>
    unfold read at h
    split_ifs at h with hzero
    · obtain ⟨rfl, rfl⟩ := Prod.mk.inj (Option.some.inj h)
      exact ⟨rfl, List.cons_ne_nil c []⟩
    · obtain ⟨q, hq, heq⟩ := Option.map_eq_some_iff.mp h
      obtain ⟨rfl, rfl⟩ := Prod.mk.inj heq
      exact ⟨by rw [(ih hq).1, List.cons_append], List.cons_ne_nil c q.1⟩

section Step

variable {stack : ℕ} {c : α} (hne : push ≠ pop)

include hne

theorem count_step (hzero : step push pop stack c ≠ 0) (p : List α) :
    (c :: p).count pop + step push pop stack c + p.count push = p.count pop + (stack + (c :: p).count push) := by
  unfold step at hzero ⊢
  rw [List.count_cons, List.count_cons]
  by_cases hpush : c = push
  · subst hpush
    simp only [beq_iff_eq, hne, if_true, if_false]
    omega
  · by_cases hpop : c = pop
    · subst hpop
      simp only [beq_iff_eq, hne.symm, if_true, if_false] at hzero ⊢
      omega
    · simp only [beq_iff_eq, hpush, hpop, if_false]
      omega

theorem closes_cons {b : List α} (hzero : step push pop stack c ≠ 0) :
    Closes push pop stack (c :: b) ↔ Closes push pop (step push pop stack c) b := by
  constructor
  · intro h
    refine ⟨?_, ?_, ?_⟩
    · intro hnil
      have hcount := count_step hne hzero []
      have hbalanced := h.balanced
      rw [hnil] at hbalanced
      rw [hbalanced, List.count_nil, List.count_nil] at hcount
      omega
    · have hcount := count_step hne hzero b
      have hbalanced := h.balanced
      omega
    · intro p hp hpnil hpb
      have hcount := count_step hne hzero p
      have hopened := h.opened (c :: p) (List.cons_prefix_cons.mpr ⟨rfl, hp⟩) (List.cons_ne_nil c p)
        fun heq => hpb (List.cons.inj heq).2
      omega
  · intro h
    refine ⟨List.cons_ne_nil c b, ?_, ?_⟩
    · have hcount := count_step hne hzero b
      have hbalanced := h.balanced
      omega
    · intro p hp hpnil hpb
      obtain ⟨d, q, rfl⟩ := List.exists_cons_of_ne_nil hpnil
      obtain ⟨rfl, hq⟩ := List.cons_prefix_cons.mp hp
      have hcount := count_step hne hzero q
      by_cases hqnil : q = []
      · subst hqnil
        rw [List.count_nil, List.count_nil] at hcount
        omega
      · have hopened := h.opened q hq hqnil fun heq => hpb (congrArg (d :: ·) heq)
        omega

theorem closes_cons_zero {b : List α} (hstack : 0 < stack) (hzero : step push pop stack c = 0) :
    Closes push pop stack (c :: b) ↔ b = [] := by
  have hpush : c ≠ push := by
    intro heq
    rw [step, if_pos heq] at hzero
    omega
  have hpop : c = pop := by
    by_contra hcon
    rw [step, if_neg hpush, if_neg hcon] at hzero
    omega
  have hone : stack = 1 := by
    rw [step, if_neg hpush, if_pos hpop] at hzero
    omega
  subst hpop hone
  have hcount : [c].count c = 1 + [c].count push := by
    rw [List.count_singleton_self, List.count_eq_zero_of_not_mem (List.mem_singleton.not.mpr hne)]
  constructor
  · intro h
    by_contra hb
    have hopened := h.opened [c] (List.cons_prefix_cons.mpr ⟨rfl, List.nil_prefix⟩) (List.cons_ne_nil c [])
      fun heq => hb (List.cons.inj heq).2.symm
    omega
  · intro hb
    subst hb
    refine ⟨List.cons_ne_nil c [], hcount, ?_⟩
    intro p hp hpnil hpb
    obtain ⟨d, q, rfl⟩ := List.exists_cons_of_ne_nil hpnil
    obtain ⟨rfl, hq⟩ := List.cons_prefix_cons.mp hp
    exact absurd (congrArg (d :: ·) (List.prefix_nil.mp hq)) hpb

end Step

theorem read_closes_iff (hne : push ≠ pop) {b : List α} {stack : ℕ} (hstack : 0 < stack ∨ b.head? = some push) (rest : List α) :
    read push pop stack (b ++ rest) = some (b, rest) ↔ Closes push pop stack b := by
  induction b generalizing stack with
  | nil => exact iff_of_false (fun h => (read_append h).2 rfl) fun h => h.ne_nil rfl
  | cons c b ih =>
    rw [List.cons_append, read]
    by_cases hzero : step push pop stack c = 0
    · have hpos : 0 < stack := hstack.resolve_right fun hhead => by
        rw [step, if_pos (Option.some.inj hhead)] at hzero
        omega
      rw [if_pos hzero, closes_cons_zero hne hpos hzero]
      simp only [Option.some.injEq, Prod.mk.injEq, List.cons.injEq, true_and]
      constructor
      · exact fun h => h.1.symm
      · intro hb
        rw [hb]
        exact ⟨rfl, rfl⟩
    · rw [if_neg hzero, closes_cons hne hzero, ← ih (.inl (Nat.pos_of_ne_zero hzero)), Option.map_eq_some_iff]
      constructor
      · intro h
        obtain ⟨r, hr, heq⟩ := h
        obtain ⟨hb, hrest⟩ := Prod.mk.inj heq
        rw [hr, ← (List.cons.inj hb).2, ← hrest]
      · intro h
        exact ⟨_, h, rfl⟩

end Brackets
