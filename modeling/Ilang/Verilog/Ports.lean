import Mathlib.Tactic

/-!
# Write ports of a memory

A clock edge executes the writes of a memory in the order of their statements, and the last write to an address
wins. The address and the data of every write are read before the edge, so the memory after the edge is a fold of
updates. A nest of stores is the same fold from the inside out, and the question is when the order matters.
-/

namespace Verilog

variable {A D : Type} [DecidableEq A]

/-- The memory after a list of writes, the last one last. -/
def commit (ws : List (A × D)) (m : A → D) : A → D := ws.foldl (fun m w => Function.update m w.1 w.2) m

@[simp] theorem commit_nil (m : A → D) : commit [] m = m := rfl

@[simp] theorem commit_cons (w : A × D) (ws : List (A × D)) (m : A → D) :
    commit (w :: ws) m = commit ws (Function.update m w.1 w.2) := rfl

theorem commit_append (ws ws' : List (A × D)) (m : A → D) : commit (ws ++ ws') m = commit ws' (commit ws m) :=
  List.foldl_append

/-- What the first write to an address writes. -/
def firstAt (ws : List (A × D)) (i : A) : Option D := (ws.find? fun w => w.1 = i).map Prod.snd

/-- What the last write to an address writes. -/
def lastAt (ws : List (A × D)) (i : A) : Option D := firstAt ws.reverse i

theorem firstAt_cons (w : A × D) (ws : List (A × D)) (i : A) :
    firstAt (w :: ws) i = if w.1 = i then some w.2 else firstAt ws i := by
  unfold firstAt
  rw [List.find?_cons]
  split <;> rename_i h
  · rw [if_pos (of_decide_eq_true h), Option.map_some]
  · rw [if_neg (of_decide_eq_false h)]

theorem commit_reverse_apply (ws : List (A × D)) (m : A → D) (i : A) :
    commit ws.reverse m i = (firstAt ws i).getD (m i) := by
  induction ws with
  | nil => rfl
  | cons w ws ih =>
    rw [List.reverse_cons, commit_append, commit_cons, commit_nil, firstAt_cons]
    by_cases h : w.1 = i
    · rw [if_pos h, ← h, Function.update_self, Option.getD_some]
    · rw [if_neg h, Function.update_of_ne (Ne.symm h), ih]

theorem commit_apply (ws : List (A × D)) (m : A → D) (i : A) : commit ws m i = (lastAt ws i).getD (m i) := by
  rw [lastAt, ← commit_reverse_apply, List.reverse_reverse]

theorem firstAt_isSome (ws : List (A × D)) (i : A) : (firstAt ws i).isSome ↔ ∃ w ∈ ws, w.1 = i := by
  simp [firstAt]

theorem lastAt_isSome_iff (ws : List (A × D)) (i : A) : (lastAt ws i).isSome ↔ (firstAt ws i).isSome := by
  rw [lastAt, firstAt_isSome, firstAt_isSome]
  simp

/-! ### Variables without a word at every address -/

/-- The memory after a list of writes, of which those to other addresses are lost. -/
def commitIn (p : A → Bool) (ws : List (A × D)) (m : A → D) : A → D := commit (ws.filter fun w => p w.1) m

theorem firstAt_filter (p : A → Bool) (ws : List (A × D)) {i : A} (hi : p i = true) :
    firstAt (ws.filter fun w => p w.1) i = firstAt ws i := by
  induction ws with
  | nil => rfl
  | cons w ws ih =>
    rw [List.filter_cons]
    by_cases hw : p w.1 = true
    · rw [if_pos hw, firstAt_cons, firstAt_cons, ih]
    · have hne : w.1 ≠ i := fun h => hw (h ▸ hi)
      rw [if_neg hw, firstAt_cons, if_neg hne, ih]

theorem commitIn_apply (p : A → Bool) (ws : List (A × D)) (m : A → D) (i : A) :
    commitIn p ws m i = if p i then (lastAt ws i).getD (m i) else m i := by
  rw [commitIn, commit_apply]
  by_cases hi : p i = true
  · rw [if_pos hi, lastAt, lastAt, ← List.filter_reverse, firstAt_filter p _ hi]
  · rw [if_neg hi]
    have hnone : lastAt (ws.filter fun w => p w.1) i = none := by
      rw [← Option.not_isSome_iff_eq_none, lastAt_isSome_iff, firstAt_isSome]
      rintro ⟨w, hw, rfl⟩
      exact hi (List.mem_filter.mp hw).2
    rw [hnone, Option.getD_none]

variable {a d : Nat}

/-- A vector with one bit written. A bit out of range is not there to be written. -/
def setBit (x : BitVec d) (i : Nat) (b : Bool) : BitVec d := if b then x ||| .twoPow d i else x &&& ~~~.twoPow d i

/-- A vector whose bits are written, each by the lowest bit of the data. -/
def commitBits (ws : List (BitVec a × BitVec d)) (x : BitVec d) : BitVec d :=
  ws.foldl (fun x w => setBit x w.1.toNat (w.2.getLsbD 0)) x

/-- What the last write to a bit writes. -/
def lastBit (ws : List (BitVec a × BitVec d)) (i : Nat) : Option Bool :=
  lastAt (ws.map fun w => (w.1.toNat, w.2.getLsbD 0)) i

theorem getLsbD_setBit (x : BitVec d) (i : Nat) (b : Bool) {j : Nat} (hj : j < d) :
    (setBit x i b).getLsbD j = if j = i then b else x.getLsbD j := by
  cases b with
  | true =>
    rw [setBit, if_pos rfl, BitVec.getLsbD_or, BitVec.getLsbD_twoPow]
    by_cases h : j = i
    · subst h
      simp [hj]
    · simp [h, Ne.symm h]
  | false =>
    rw [setBit, if_neg Bool.false_ne_true, BitVec.getLsbD_and, BitVec.getLsbD_not, BitVec.getLsbD_twoPow]
    by_cases h : j = i
    · subst h
      simp [hj]
    · simp [h, Ne.symm h, hj]

theorem getLsbD_commitBits (ws : List (BitVec a × BitVec d)) (x : BitVec d) {j : Nat} (hj : j < d) :
    (commitBits ws x).getLsbD j = (lastBit ws j).getD (x.getLsbD j) := by
  rw [lastBit, ← commit_apply _ x.getLsbD]
  have hfold : ∀ (y : BitVec d) (f : Nat → Bool), y.getLsbD j = f j →
      (commitBits ws y).getLsbD j = commit (ws.map fun w => (w.1.toNat, w.2.getLsbD 0)) f j := by
    induction ws with
    | nil => exact fun y f h => h
    | cons w ws ih =>
      intro y f h
      refine ih _ _ ?_
      change _ = Function.update f w.1.toNat (w.2.getLsbD 0) j
      rw [getLsbD_setBit y _ _ hj, Function.update_apply, h]
  exact hfold x x.getLsbD rfl

end Verilog
