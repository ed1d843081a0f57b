import Mathlib.Data.List.Basic
import Mathlib.Data.List.Nodup

/-!
# Positions in a list

The position of an element in a list without duplicates says what comes before it and what comes after it.
-/

namespace Ilang

namespace Position

variable {α : Type} {l pre post : List α} {a b : α}

theorem not_mem_pre (h : (pre ++ a :: post).Nodup) : a ∉ pre := fun hmem =>
  (List.nodup_append.mp h).2.2 a hmem a List.mem_cons_self rfl

theorem exists_foldlM {σ : Type} {f : σ → α → Option σ} {P : List α → σ → Prop} {s : σ} (hs : P [] s)
    (hstep : ∀ pre a post s, l = pre ++ a :: post → P pre s → ∃ s', f s a = some s' ∧ P (pre ++ [a]) s') :
    ∃ s', l.foldlM f s = some s' ∧ P l s' := by
  have hrest (post : List α) : ∀ pre s, l = pre ++ post → P pre s → ∃ s', post.foldlM f s = some s' ∧ P l s' := by
    induction post with
    | nil =>
      intro pre s hl hP
      rw [List.append_nil] at hl
      exact ⟨s, rfl, hl ▸ hP⟩
    | cons a post ih =>
      intro pre s hl hP
      obtain ⟨s₁, hs₁, hP₁⟩ := hstep pre a post s hl hP
      obtain ⟨s', hs', hP'⟩ := ih (pre ++ [a]) s₁ (by rw [hl, List.append_assoc, List.singleton_append]) hP₁
      exact ⟨s', by rw [List.foldlM_cons, hs₁]; exact hs', hP'⟩
  exact hrest l [] s rfl hs

theorem takeWhile_ne [DecidableEq α] (h : (pre ++ a :: post).Nodup) : (pre ++ a :: post).takeWhile (· ≠ a) = pre := by
  have hne : ∀ b ∈ pre, decide (b ≠ a) = true := by
    intro b hb
    apply decide_eq_true
    rintro rfl
    exact not_mem_pre h hb
  rw [List.takeWhile_append_of_pos hne, List.takeWhile_cons_of_neg (by simp), List.append_nil]

variable [BEq α] [LawfulBEq α]

theorem idxOf_lt_iff (hnodup : l.Nodup) (happ : l = pre ++ a :: post) : l.idxOf b < l.idxOf a ↔ b ∈ pre := by
  subst happ
  have ha : (pre ++ a :: post).idxOf a = pre.length := by
    rw [List.idxOf_append_of_notMem (not_mem_pre hnodup), List.idxOf_cons_self, Nat.add_zero]
  rw [ha]
  by_cases hmem : b ∈ pre
  · rw [List.idxOf_append_of_mem hmem]
    exact iff_of_true (List.idxOf_lt_length_of_mem hmem) hmem
  · rw [List.idxOf_append_of_notMem hmem]
    exact iff_of_false (by omega) hmem

theorem pairwise_idxOf (hnodup : l.Nodup) : l.Pairwise fun a b => l.idxOf a < l.idxOf b := by
  rw [List.pairwise_iff_getElem]
  intro i j hi hj hij
  rw [hnodup.idxOf_getElem i hi, hnodup.idxOf_getElem j hj]
  exact hij

end Position

end Ilang
