import Mathlib.Data.Nat.Find
import Mathlib.Tactic

/-!
# Longest matches and pieces of a text

A language is a predicate on texts, here that of an automaton. Its longest match at the start of a text is what a lexer reads. A
list of pieces covers a text, and a position of the text lies in one piece.
-/

namespace Ilang

section Longest

variable {α σ : Type*}

/-- Whether an automaton that is stuck where `next` answers `none` accepts a text. -/
def acceptsFrom (next : σ → α → Option σ) (ok : σ → Bool) : σ → List α → Bool
  | q, [] => ok q
  | q, c :: cs =>
    match next q c with
    | some q' => acceptsFrom next ok q' cs
    | none => false

theorem acceptsFrom_cons {next : σ → α → Option σ} {ok : σ → Bool} {q : σ} {c : α} {cs : List α} :
    acceptsFrom next ok q (c :: cs) = true ↔ ∃ q', next q c = some q' ∧ acceptsFrom next ok q' cs = true := by
  rw [acceptsFrom]
  cases next q c <;> simp

theorem acceptsFrom_letters {next : σ → α → Option σ} {ok : σ → Bool} {P : α → Prop}
    (hstep : ∀ q c q', next q c = some q' → P c) {q : σ} {cs : List α} (h : acceptsFrom next ok q cs = true) :
    ∀ c ∈ cs, P c := by
  induction cs generalizing q with
  | nil => simp
  | cons d cs ih =>
    obtain ⟨q', hq, hrest⟩ := acceptsFrom_cons.mp h
    intro c hc
    cases List.mem_cons.mp hc with
    | inl hhead => exact hhead ▸ hstep q d q' hq
    | inr htail => exact ih hrest c htail

/-- The longest match of a language at the start of a text. -/
structure Longest (p : List α → Bool) (w s : List α) : Prop where
  matched : p w = true
  isPrefix : w <+: s
  longest : ∀ w', p w' = true → w' <+: s → w'.length ≤ w.length

theorem longest_of_take {p : List α → Bool} {w r : List α} (hmatch : p w = true)
    (h : ∀ n < r.length, p (w ++ r.take (n + 1)) = false) : Longest p w (w ++ r) := by
  refine ⟨hmatch, List.prefix_append w r, fun w' hw' hpre => ?_⟩
  by_contra hlong
  have htake : w' = (w ++ r).take w'.length := List.prefix_iff_eq_take.mp hpre
  have hle : w'.length ≤ w.length + r.length := by simpa using hpre.length_le
  have hsplit : w' = w ++ r.take (w'.length - w.length - 1 + 1) := by
    rw [htake, List.take_append, List.take_of_length_le (by omega)]
    congr 2
    simp only [List.length_append, List.length_take]
    omega
  have hfalse := h (w'.length - w.length - 1) (by omega)
  rw [← hsplit, hw'] at hfalse
  cases hfalse

theorem exists_longest {p : List α → Bool} {w s : List α} (hmatch : p w = true) (hpre : w <+: s) :
    ∃ w', Longest p w' s ∧ w.length ≤ w'.length := by
  have hw : p (s.take w.length) = true := by rwa [← List.prefix_iff_eq_take.mp hpre]
  have hle := hpre.length_le
  let n := Nat.findGreatest (fun n => p (s.take n) = true) s.length
  have hn : n ≤ s.length := Nat.findGreatest_le s.length
  have hlen : (s.take n).length = n := by simp [hn]
  refine ⟨s.take n, ⟨?_, List.take_prefix n s, ?_⟩, ?_⟩
  · exact Nat.findGreatest_spec (P := fun n => p (s.take n) = true) hle hw
  · intro w' hw' hpre'
    rw [hlen]
    apply Nat.le_findGreatest hpre'.length_le
    rwa [← List.prefix_iff_eq_take.mp hpre']
  · rw [hlen]
    exact Nat.le_findGreatest hle hw

theorem Longest.unique {p : List α → Bool} {w w' s : List α} (h : Longest p w s) (h' : Longest p w' s) : w = w' := by
  have hle := h'.longest w h.matched h.isPrefix
  have hpre := List.prefix_of_prefix_length_le h.isPrefix h'.isPrefix hle
  exact hpre.eq_of_length_le (h.longest w' h'.matched h'.isPrefix)

end Longest

section Pieces

variable {τ : Type*} (len : τ → Nat)

/-- The piece `t` of `ts` starts at the position `i`. -/
def StartsAt (ts : List τ) (t : τ) (i : Nat) : Prop :=
  ∃ before after, ts = before ++ t :: after ∧ i = (before.map len).sum

variable {len}

theorem startsAt_append (before : List τ) (t : τ) (after : List τ) :
    StartsAt len (before ++ t :: after) t (before.map len).sum := ⟨before, after, rfl, rfl⟩

theorem StartsAt.unique {ts : List τ} {t t' : τ} {i i' p : Nat} (h : StartsAt len ts t i) (h' : StartsAt len ts t' i')
    (hp : i ≤ p ∧ p < i + len t) (hp' : i' ≤ p ∧ p < i' + len t') : t = t' ∧ i = i' := by
  obtain ⟨before, after, hts, hi⟩ := h
  obtain ⟨before', after', hts', hi'⟩ := h'
  have heq : before ++ t :: after = before' ++ t' :: after' := hts.symm.trans hts'
  cases List.append_eq_append_iff.mp heq with
  | inl hlong =>
    obtain ⟨mid, hbefore, hafter⟩ := hlong
    cases mid with
    | nil =>
      have hcons := List.cons.inj (by simpa using hafter)
      exact ⟨hcons.1, by rw [hi, hi', hbefore, List.append_nil]⟩
    | cons d mid =>
      have hd : t = d := (List.cons.inj (by simpa using hafter)).1
      rw [hbefore, ← hd] at hi'
      simp only [List.map_append, List.map_cons, List.sum_append, List.sum_cons] at hi'
      omega
  | inr hlong =>
    obtain ⟨mid, hbefore, hafter⟩ := hlong
    cases mid with
    | nil =>
      have hcons := List.cons.inj (by simpa using hafter)
      exact ⟨hcons.1.symm, by rw [hi, hi', hbefore, List.append_nil]⟩
    | cons d mid =>
      have hd : t' = d := (List.cons.inj (by simpa using hafter)).1
      rw [hbefore, ← hd] at hi
      simp only [List.map_append, List.map_cons, List.sum_append, List.sum_cons] at hi
      omega

theorem StartsAt.not_across {pre ts : List τ} {t : τ} {i : Nat} (h : StartsAt len ts t i) (hpre : pre <+: ts) :
    i + len t ≤ (pre.map len).sum ∨ (pre.map len).sum ≤ i := by
  obtain ⟨before, after, hts, hi⟩ := h
  obtain ⟨post, hpost⟩ := hpre
  cases List.append_eq_append_iff.mp (hpost.trans hts) with
  | inl hlong =>
    obtain ⟨mid, hbefore, _⟩ := hlong
    right
    rw [hi, hbefore]
    simp
  | inr hlong =>
    obtain ⟨mid, hbefore, hafter⟩ := hlong
    cases mid with
    | nil =>
      right
      rw [hi, hbefore, List.append_nil]
    | cons d mid =>
      have hd : t = d := (List.cons.inj (by simpa using hafter)).1
      left
      rw [hi, hbefore, ← hd]
      simp only [List.map_append, List.map_cons, List.sum_append, List.sum_cons]
      omega

end Pieces

end Ilang
