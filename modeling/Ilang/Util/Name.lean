import Mathlib.Data.List.Basic

/-!
# Names with a numbered tail

A name made of a base, a separator and a decimal number can be read back: the digits stop at the
separator's last character, so two such names are equal only if the bases and the numbers are. This
is what keeps the copies of one symbol for different moments of time apart.
-/

namespace Name

theorem cut_unique {α : Type} {c : α} {l₁ l₂ d₁ d₂ : List α} (h : l₁ ++ c :: d₁ = l₂ ++ c :: d₂)
    (h₁ : c ∉ d₁) (h₂ : c ∉ d₂) : l₁ = l₂ ∧ d₁ = d₂ := by
  induction l₁ generalizing l₂ with
  | nil =>
    cases l₂ with
    | nil => exact ⟨rfl, (List.cons.inj h).2⟩
    | cons a l₂ =>
      have htail : d₁ = l₂ ++ c :: d₂ := (List.cons.inj h).2
      exact absurd (htail ▸ List.mem_append_right l₂ List.mem_cons_self) h₁
  | cons a l₁ ih =>
    cases l₂ with
    | nil =>
      have htail : l₁ ++ c :: d₁ = d₂ := (List.cons.inj h).2
      exact absurd (htail ▸ List.mem_append_right l₁ List.mem_cons_self) h₂
    | cons b l₂ =>
      obtain ⟨hhead, htail⟩ := List.cons.inj h
      obtain ⟨hl, hd⟩ := ih htail
      exact ⟨by rw [hhead, hl], hd⟩

theorem exists_cut {α : Type} {c : α} {l : List α} (h : c ∈ l) : ∃ l₁ d, l = l₁ ++ c :: d ∧ c ∉ d := by
  obtain ⟨d, l₁, hl, hd⟩ := List.eq_append_cons_of_mem (List.mem_reverse.mpr h)
  refine ⟨l₁.reverse, d.reverse, ?_, by simpa using hd⟩
  have hrev := congrArg List.reverse hl
  simpa using hrev

theorem underscore_notMem_toString (t : Int) : '_' ∉ (toString t).toList := by
  have hnat : ∀ n : Nat, '_' ∉ (toString n).toList := by
    intro n h
    rw [show toString n = n.repr from rfl, Nat.toList_repr] at h
    exact Nat.underscore_not_in_toDigits h
  cases t with
  | ofNat n => exact hnat n
  | negSucc n =>
    intro h
    rw [show toString (Int.negSucc n) = "-" ++ toString (n + 1) from rfl, String.toList_append,
      List.mem_append] at h
    rcases h with h | h
    · simp at h
    · exact hnat (n + 1) h

theorem toString_nat_inj {m n : Nat} (h : toString m = toString n) : m = n := by
  have hval := congrArg (fun s : String => Nat.ofDigitChars 10 s.toList 0) h
  simpa [Nat.toString_eq_ofList_toDigits] using hval

theorem toString_nat_ne_minus (m n : Nat) : toString m ≠ "-" ++ toString n := by
  intro h
  have hmem : '-' ∈ (toString m).toList := by rw [h, String.toList_append]; simp
  rw [show toString m = m.repr from rfl, Nat.toList_repr] at hmem
  simpa using Nat.isDigit_of_mem_toDigits (by decide) (by decide) hmem

theorem toString_int_inj {s t : Int} (h : toString s = toString t) : s = t := by
  cases s with
  | ofNat m =>
    cases t with
    | ofNat n => exact congrArg Int.ofNat (toString_nat_inj h)
    | negSucc n => exact absurd h (toString_nat_ne_minus m (n + 1))
  | negSucc m =>
    cases t with
    | ofNat n => exact absurd h.symm (toString_nat_ne_minus n (m + 1))
    | negSucc n =>
      have hdigits : toString (m + 1) = toString (n + 1) := by
        have hl := congrArg String.toList h
        rw [show toString (Int.negSucc m) = "-" ++ toString (m + 1) from rfl,
          show toString (Int.negSucc n) = "-" ++ toString (n + 1) from rfl,
          String.toList_append, String.toList_append] at hl
        exact String.toList_inj.mp (List.append_cancel_left hl)
      rw [Nat.succ.inj (toString_nat_inj hdigits)]

theorem numbered_inj {b₁ b₂ sep tail : String} {t₁ t₂ : Int}
    (h : b₁ ++ (sep ++ "_") ++ (toString t₁ ++ tail) = b₂ ++ (sep ++ "_") ++ (toString t₂ ++ tail)) :
    b₁ = b₂ ∧ t₁ = t₂ := by
  have hl := congrArg String.toList h
  simp only [String.toList_append] at hl
  have hl' : (b₁.toList ++ sep.toList) ++ '_' :: (toString t₁).toList =
      (b₂.toList ++ sep.toList) ++ '_' :: (toString t₂).toList := by
    have hcut : ((b₁.toList ++ sep.toList) ++ '_' :: (toString t₁).toList) ++ tail.toList =
        ((b₂.toList ++ sep.toList) ++ '_' :: (toString t₂).toList) ++ tail.toList := by
      simpa [List.append_assoc] using hl
    exact List.append_cancel_right hcut
  obtain ⟨hbase, hnum⟩ := cut_unique hl' (underscore_notMem_toString t₁) (underscore_notMem_toString t₂)
  exact ⟨String.toList_inj.mp (List.append_cancel_right hbase), toString_int_inj (String.toList_inj.mp hnum)⟩

theorem separated_inj {b₁ b₂ sep t₁ t₂ : String} {l : List Char} {c : Char} (hsep : sep.toList = l ++ [c])
    (h : b₁ ++ sep ++ t₁ = b₂ ++ sep ++ t₂) (h₁ : c ∉ t₁.toList) (h₂ : c ∉ t₂.toList) : b₁ = b₂ ∧ t₁ = t₂ := by
  have hl := congrArg String.toList h
  simp only [String.toList_append, hsep, List.append_assoc, List.singleton_append] at hl
  rw [← List.append_assoc, ← List.append_assoc] at hl
  obtain ⟨hb, ht⟩ := cut_unique hl h₁ h₂
  exact ⟨String.toList_inj.mp (List.append_cancel_right hb), String.toList_inj.mp ht⟩

theorem tagged_inj {b₁ b₂ t₁ t₂ : String} (h : b₁ ++ "_" ++ t₁ = b₂ ++ "_" ++ t₂) (h₁ : '_' ∉ t₁.toList)
    (h₂ : '_' ∉ t₂.toList) : b₁ = b₂ ∧ t₁ = t₂ :=
  separated_inj (l := []) rfl h h₁ h₂

theorem isDigit_of_mem_toString {n : Nat} {c : Char} (h : c ∈ (toString n).toList) : c.isDigit = true := by
  rw [show toString n = n.repr from rfl, Nat.toList_repr] at h
  exact Nat.isDigit_of_mem_toDigits (by decide) (by decide) h

/-- Numbers with commas between them. -/
def joinNat (l : List Nat) : String := ",".intercalate (l.map toString)

theorem joinNat_cons_cons (m n : Nat) (l : List Nat) :
    (joinNat (m :: n :: l)).toList = (toString m).toList ++ ',' :: (joinNat (n :: l)).toList := by
  simp [joinNat, String.intercalate_cons_cons]

theorem isDigit_of_mem_joinNat {l : List Nat} {c : Char} (h : c ∈ (joinNat l).toList) : c.isDigit = true ∨ c = ',' := by
  induction l with
  | nil => simp [joinNat] at h
  | cons m l ih =>
    cases l with
    | nil => exact .inl (isDigit_of_mem_toString (by simpa [joinNat] using h))
    | cons n l =>
      rw [joinNat_cons_cons, List.mem_append, List.mem_cons] at h
      rcases h with h | h | h
      · exact .inl (isDigit_of_mem_toString h)
      · exact .inr h
      · exact ih h

theorem comma_notMem_toString (n : Nat) : ',' ∉ (toString n).toList := fun h => by
  simpa using isDigit_of_mem_toString h

theorem joinNat_cons_ne_empty (n : Nat) (l : List Nat) : (joinNat (n :: l)).toList ≠ [] := by
  cases l with
  | nil => simp [joinNat]
  | cons m l => simp [joinNat_cons_cons]

theorem joinNat_inj {l₁ l₂ : List Nat} (h : joinNat l₁ = joinNat l₂) : l₁ = l₂ := by
  induction l₁ generalizing l₂ with
  | nil =>
    cases l₂ with
    | nil => rfl
    | cons n l₂ => exact absurd (congrArg String.toList h).symm (joinNat_cons_ne_empty n l₂)
  | cons m l₁ ih =>
    cases l₂ with
    | nil => exact absurd (congrArg String.toList h) (joinNat_cons_ne_empty m l₁)
    | cons n l₂ =>
      have hl := congrArg String.toList h
      cases l₁ with
      | nil =>
        cases l₂ with
        | nil =>
          have hnum : m = n := toString_nat_inj (by simpa [joinNat] using h)
          rw [hnum]
        | cons n' l₂ =>
          rw [joinNat_cons_cons] at hl
          have hmem : ',' ∈ (joinNat [m]).toList := by rw [hl]; simp
          exact absurd (by simpa [joinNat] using hmem) (comma_notMem_toString m)
      | cons m' l₁ =>
        cases l₂ with
        | nil =>
          rw [joinNat_cons_cons] at hl
          have hmem : ',' ∈ (joinNat [n]).toList := by rw [← hl]; simp
          exact absurd (by simpa [joinNat] using hmem) (comma_notMem_toString n)
        | cons n' l₂ =>
          rw [joinNat_cons_cons, joinNat_cons_cons] at hl
          -- The first comma ends the first number, so the cut is made on the reversed texts.
          have hrev := congrArg List.reverse hl
          simp only [List.reverse_append, List.reverse_cons, List.append_assoc, List.singleton_append] at hrev
          obtain ⟨hrest, hnum⟩ := cut_unique hrev (by simpa using comma_notMem_toString m)
            (by simpa using comma_notMem_toString n)
          have hrest' := ih (String.toList_inj.mp (List.reverse_injective hrest))
          rw [toString_nat_inj (String.toList_inj.mp (List.reverse_injective hnum)), hrest']

theorem toString_ne_of_letter {t : Int} {s : String} {c : Char} (hc : c ∈ s.toList) (hdigit : c.isDigit = false)
    (hminus : c ≠ '-') : toString t ≠ s := by
  have hnat : ∀ n : Nat, c ∉ (toString n).toList := by
    intro n hmem
    rw [show toString n = n.repr from rfl, Nat.toList_repr] at hmem
    have := Nat.isDigit_of_mem_toDigits (by decide) (by decide) hmem
    rw [hdigit] at this
    cases this
  rintro rfl
  cases t with
  | ofNat n => exact hnat n hc
  | negSucc n =>
    rw [show toString (Int.negSucc n) = "-" ++ toString (n + 1) from rfl, String.toList_append, List.mem_append] at hc
    rcases hc with hc | hc
    · exact hminus (by simpa using hc)
    · exact hnat (n + 1) hc

end Name
