import Mathlib.Algebra.Ring.Int.Defs
import Mathlib.Algebra.Ring.Nat
import Mathlib.Data.Bool.AllAny
import Mathlib.Data.List.Basic
import Mathlib.Data.Char
import Mathlib.Data.Int.Cast.Basic

/-!
# Formatted input

A text as the input streams of C++ read it. An extraction skips blanks, takes what fits the type, and leaves the rest; when
nothing fits, the stream fails, and a stream that has failed gives nothing any more. A variable is assigned by an extraction that
finds a character, even if that character does not fit, and keeps the value it had otherwise. So an extraction gives the value
that is assigned, or `none`, and a reader that uses a variable which was never assigned is `none` as a whole.

The lemmas are about texts that were written by the output streams: numbers in decimal, and items behind line breaks.
-/

structure IStream where
  text : List Char
  failed : Bool
  deriving DecidableEq, Repr

namespace IStream

/-- `isspace` of the C locale. -/
def isSpace (c : Char) : Bool := [' ', '\t', '\n', '\x0b', '\x0c', '\r'].contains c

def ofText (t : List Char) : IStream := ⟨t, false⟩

/-- A string: the characters up to the next blank. -/
def word (s : IStream) : Option (List Char) × IStream :=
  if s.failed then (none, s)
  else
    match s.text.dropWhile isSpace with
    | [] => (none, ⟨[], true⟩)
    | c :: t => (some ((c :: t).takeWhile fun c => !isSpace c), ⟨(c :: t).dropWhile fun c => !isSpace c, false⟩)

/-- The digits of a number, and what the type makes of their value, which may be out of its range. -/
def digits {α : Type} (zero : α) (accept : ℕ → α × Bool) (t : List Char) : Option α × IStream :=
  if t.takeWhile Char.isDigit = [] then (some zero, ⟨t.dropWhile Char.isDigit, true⟩)
  else
    let r := accept (Nat.ofDigitChars 10 (t.takeWhile Char.isDigit) 0)
    (some r.1, ⟨t.dropWhile Char.isDigit, !r.2⟩)

/-- A number: a sign and digits. -/
def number {α : Type} (zero : α) (accept : Bool → ℕ → α × Bool) (s : IStream) : Option α × IStream :=
  if s.failed then (none, s)
  else
    match s.text.dropWhile isSpace with
    | [] => (none, ⟨[], true⟩)
    | c :: t =>
      if c = '-' then digits zero (accept true) t
      else if c = '+' then digits zero (accept false) t
      else digits zero (accept false) (c :: t)

def acceptUnsigned (neg : Bool) (n : ℕ) : ℕ × Bool :=
  if n < 2 ^ 32 then (if neg then (2 ^ 32 - n) % 2 ^ 32 else n, true) else (2 ^ 32 - 1, false)

def acceptInt (neg : Bool) (n : ℕ) : ℤ × Bool :=
  if neg then if n ≤ 2 ^ 31 then (-n, true) else (-2 ^ 31, false)
  else if n < 2 ^ 31 then (n, true) else (2 ^ 31 - 1, false)

def acceptBool (neg : Bool) (n : ℕ) : Bool × Bool :=
  if n = 0 then (false, true) else (true, !neg && n == 1)

def unsigned (s : IStream) : Option ℕ × IStream := s.number 0 acceptUnsigned

def int (s : IStream) : Option ℤ × IStream := s.number 0 acceptInt

def bool (s : IStream) : Option Bool × IStream := s.number false acceptBool

/-- `getline`. -/
def line (s : IStream) : Option (List Char) × IStream :=
  if s.failed then (none, s)
  else if s.text = [] then (none, ⟨[], true⟩)
  else (some (s.text.takeWhile (· ≠ '\n')), ⟨(s.text.dropWhile (· ≠ '\n')).tail, false⟩)

section Many

variable {α : Type} {read : IStream → Option (α × IStream)}

/-- A loop that reads one item in each round. -/
def many (read : IStream → Option (α × IStream)) : ℕ → IStream → Option (List α × IStream)
  | 0, s => some ([], s)
  | n + 1, s => (read s).bind fun r => (many read n r.2).map fun q => (r.1 :: q.1, q.2)

theorem length_many {n : ℕ} {s : IStream} {r : List α × IStream} (h : many read n s = some r) : r.1.length = n := by
  induction n generalizing s r with
  | zero =>
    obtain rfl := Option.some.inj h
    rfl
  | succ n ih =>
    rw [many, Option.bind_eq_some_iff] at h
    obtain ⟨x, -, h⟩ := h
    rw [Option.map_eq_some_iff] at h
    obtain ⟨q, hq, rfl⟩ := h
    rw [List.length_cons, ih hq]

theorem forall_mem_many {P : α → Prop} (hread : ∀ s r, read s = some r → P r.1) {n : ℕ} {s : IStream}
    {r : List α × IStream} (h : many read n s = some r) : ∀ x ∈ r.1, P x := by
  induction n generalizing s r with
  | zero =>
    obtain rfl := Option.some.inj h
    exact List.forall_mem_nil _
  | succ n ih =>
    rw [many, Option.bind_eq_some_iff] at h
    obtain ⟨x, hx, h⟩ := h
    rw [Option.map_eq_some_iff] at h
    obtain ⟨q, hq, rfl⟩ := h
    exact List.forall_mem_cons.mpr ⟨hread s x hx, ih hq⟩

theorem many_flatMap {P : List Char → Prop} {print : α → List Char} {xs : List α}
    (hread : ∀ x ∈ xs, ∀ rest, P rest → P (print x ++ rest) ∧ read (ofText (print x ++ rest)) = some (x, ofText rest))
    {rest : List Char} (hrest : P rest) :
    many read xs.length (ofText (xs.flatMap print ++ rest)) = some (xs, ofText rest) ∧ P (xs.flatMap print ++ rest) := by
  induction xs with
  | nil => exact ⟨rfl, hrest⟩
  | cons x xs ih =>
    obtain ⟨hx, hxs⟩ := List.forall_mem_cons.mp hread
    obtain ⟨hmany, hP⟩ := ih hxs
    obtain ⟨hnext, heq⟩ := hx _ hP
    rw [List.flatMap_cons, List.append_assoc]
    refine ⟨?_, hnext⟩
    rw [List.length_cons, many, heq, Option.bind_some, hmany, Option.map_some]

end Many

/-! ### Texts that were written -/

/-- What stands behind an item: the text is at its end or goes on with a blank. -/
def Ends (rest : List Char) : Prop := ∀ c ∈ rest.head?, isSpace c = true

theorem ends_cons {c : Char} (h : isSpace c = true) (rest : List Char) : Ends (c :: rest) := by
  intro d hd
  obtain rfl := Option.mem_some_iff.mp hd
  exact h

theorem isSpace_of_isDigit {c : Char} (h : c.isDigit = true) : isSpace c = false := by
  have hne : ∀ d ∈ [' ', '\t', '\n', '\x0b', '\x0c', '\r'], d.isDigit = false := List.all_iff_forall_prop.mp (by decide)
  refine Bool.eq_false_iff.mpr fun hspace => ?_
  rw [isSpace, List.contains_iff_mem] at hspace
  rw [hne c hspace] at h
  exact Bool.false_ne_true h

theorem isDigit_of_isSpace {c : Char} (h : isSpace c = true) : c.isDigit = false := by
  by_contra hdigit
  rw [isSpace_of_isDigit (Bool.not_eq_false _ ▸ hdigit)] at h
  exact Bool.false_ne_true h

theorem takeWhile_append_of_ends {p : Char → Bool} {w rest : List Char} (hw : ∀ c ∈ w, p c = true)
    (hrest : ∀ c ∈ rest.head?, p c = false) : (w ++ rest).takeWhile p = w ∧ (w ++ rest).dropWhile p = rest := by
  have htail : rest.takeWhile p = [] ∧ rest.dropWhile p = rest := by
    cases rest with
    | nil => exact ⟨rfl, rfl⟩
    | cons c rest =>
      have hc : p c = false := hrest c rfl
      exact ⟨List.takeWhile_cons_of_neg (Bool.not_eq_true _ ▸ hc), List.dropWhile_cons_of_neg (Bool.not_eq_true _ ▸ hc)⟩
  rw [List.takeWhile_append_of_pos hw, List.dropWhile_append_of_pos hw, htail.1, htail.2, List.append_nil]
  exact ⟨rfl, rfl⟩

theorem dropWhile_isSpace {gap w : List Char} (hgap : ∀ c ∈ gap, isSpace c = true) (hw : ∀ c ∈ w, isSpace c = false)
    (hne : w ≠ []) (rest : List Char) : (gap ++ (w ++ rest)).dropWhile isSpace = w ++ rest := by
  obtain ⟨c, w, rfl⟩ := List.exists_cons_of_ne_nil hne
  rw [List.dropWhile_append_of_pos hgap, List.cons_append, List.dropWhile_cons_of_neg]
  rw [hw c List.mem_cons_self]
  exact Bool.false_ne_true

theorem word_written {gap w rest : List Char} (hgap : ∀ c ∈ gap, isSpace c = true) (hw : ∀ c ∈ w, isSpace c = false)
    (hne : w ≠ []) (hrest : Ends rest) : (ofText (gap ++ (w ++ rest))).word = (some w, ofText rest) := by
  have hskip := dropWhile_isSpace hgap hw hne rest
  have htake : (w ++ rest).takeWhile (fun c => !isSpace c) = w ∧ (w ++ rest).dropWhile (fun c => !isSpace c) = rest :=
    takeWhile_append_of_ends (fun c hc => by rw [hw c hc]; rfl) fun c hc => by rw [hrest c hc]; rfl
  obtain ⟨c, w, rfl⟩ := List.exists_cons_of_ne_nil hne
  rw [List.cons_append] at hskip htake
  simp only [word, ofText, Bool.false_eq_true, if_false, List.cons_append, hskip, htake.1, htake.2]

section Number

variable {α : Type} {zero : α} {accept : Bool → ℕ → α × Bool}

theorem toDigits_spec (n : ℕ) : ∃ c cs, Nat.toDigits 10 n = c :: cs ∧ c ≠ '-' ∧ c ≠ '+' := by
  obtain ⟨c, cs, hcons⟩ := List.exists_cons_of_ne_nil (Nat.toDigits_ne_nil (b := 10) (n := n))
  have hc : c.isDigit = true := by
    refine Nat.isDigit_of_mem_toDigits (b := 10) (n := n) (by decide) (by decide) ?_
    rw [hcons]
    exact List.mem_cons_self
  exact ⟨c, cs, hcons, fun h => absurd (h ▸ hc) (by decide), fun h => absurd (h ▸ hc) (by decide)⟩

theorem isDigit_toDigits {n : ℕ} {c : Char} (h : c ∈ Nat.toDigits 10 n) : c.isDigit = true :=
  Nat.isDigit_of_mem_toDigits (by decide) (by decide) h

theorem digits_toDigits {f : ℕ → α × Bool} (n : ℕ) {rest : List Char} (hrest : Ends rest) :
    digits zero f (Nat.toDigits 10 n ++ rest) = (some (f n).1, ⟨rest, !(f n).2⟩) := by
  have hdigits : ∀ d ∈ Nat.toDigits 10 n, d.isDigit = true := fun _ => isDigit_toDigits
  have htake := takeWhile_append_of_ends hdigits fun d hd => isDigit_of_isSpace (hrest d hd)
  have hvalue : Nat.ofDigitChars 10 (Nat.toDigits 10 n) 0 = n := Nat.ofDigitChars_ten_toDigits
  simp only [digits, htake.1, htake.2, if_neg Nat.toDigits_ne_nil, hvalue]

theorem number_digits {gap rest : List Char} (hgap : ∀ c ∈ gap, isSpace c = true) (n : ℕ) (hrest : Ends rest) :
    (ofText (gap ++ (Nat.toDigits 10 n ++ rest))).number zero accept =
      (some (accept false n).1, ⟨rest, !(accept false n).2⟩) := by
  obtain ⟨c, cs, hcons, hminus, hplus⟩ := toDigits_spec n
  have hspace : ∀ d ∈ Nat.toDigits 10 n, isSpace d = false := fun d hd => isSpace_of_isDigit (isDigit_toDigits hd)
  have hskip := dropWhile_isSpace hgap hspace Nat.toDigits_ne_nil rest
  have hread := @digits_toDigits α zero (accept false) n rest hrest
  rw [hcons, List.cons_append] at hskip hread ⊢
  simp only [number, ofText, Bool.false_eq_true, if_false, hskip, if_neg hminus, if_neg hplus, hread]

theorem number_eq_some {s t : IStream} {a : α} (h : s.number zero accept = (some a, t)) :
    a = zero ∨ ∃ neg n, a = (accept neg n).1 := by
  have hdigits : ∀ (neg : Bool) (u : List Char), digits zero (accept neg) u = (some a, t) →
      a = zero ∨ ∃ neg n, a = (accept neg n).1 := by
    intro neg u hu
    unfold digits at hu
    split at hu
    · exact .inl (Option.some.inj (Prod.mk.inj hu).1).symm
    · exact .inr ⟨neg, _, (Option.some.inj (Prod.mk.inj hu).1).symm⟩
  unfold number at h
  split at h
  · cases h
  · split at h
    · cases h
    · split at h
      · exact hdigits true _ h
      · split at h
        · exact hdigits false _ h
        · exact hdigits false _ h

end Number

section Written

variable {gap rest : List Char} (hgap : ∀ c ∈ gap, isSpace c = true) (hrest : Ends rest)

include hgap hrest

theorem unsigned_digits {n : ℕ} (hn : n < 2 ^ 32) :
    (ofText (gap ++ (Nat.toDigits 10 n ++ rest))).unsigned = (some n, ofText rest) := by
  rw [unsigned, number_digits hgap n hrest, acceptUnsigned, if_pos hn]
  rfl

theorem unsigned_digits_of_le {n : ℕ} (hn : 2 ^ 32 ≤ n) :
    (ofText (gap ++ (Nat.toDigits 10 n ++ rest))).unsigned = (some (2 ^ 32 - 1), ⟨rest, true⟩) := by
  rw [unsigned, number_digits hgap n hrest, acceptUnsigned, if_neg (Nat.not_lt.mpr hn)]
  rfl

theorem bool_digits (b : Bool) : (ofText (gap ++ ((if b then '1' else '0') :: rest))).bool = (some b, ofText rest) := by
  have hdigits : Nat.toDigits 10 b.toNat = [if b then '1' else '0'] := by cases b <;> rfl
  have hread := @number_digits Bool false acceptBool gap rest hgap b.toNat hrest
  rw [hdigits, List.singleton_append] at hread
  rw [bool, hread]
  cases b <;> rfl

end Written

theorem unsigned_lt {s t : IStream} {n : ℕ} (h : s.unsigned = (some n, t)) : n < 2 ^ 32 := by
  rcases number_eq_some h with rfl | ⟨neg, k, rfl⟩
  · decide
  · unfold acceptUnsigned
    split
    · rename_i hk
      cases neg with
      | true => exact Nat.mod_lt _ (by decide)
      | false => exact hk
    · decide

theorem int_range {s t : IStream} {z : ℤ} (h : s.int = (some z, t)) : -2 ^ 31 ≤ z ∧ z < 2 ^ 31 := by
  rcases number_eq_some h with rfl | ⟨neg, k, rfl⟩
  · decide
  · unfold acceptInt
    split_ifs <;> dsimp only <;> omega

/-- How an integer is written. -/
def intText : ℤ → List Char
  | .ofNat n => Nat.toDigits 10 n
  | .negSucc n => '-' :: Nat.toDigits 10 (n + 1)

theorem int_written {gap rest : List Char} (hgap : ∀ c ∈ gap, isSpace c = true) (hrest : Ends rest) {z : ℤ}
    (hlo : -2 ^ 31 ≤ z) (hhi : z < 2 ^ 31) : (ofText (gap ++ (intText z ++ rest))).int = (some z, ofText rest) := by
  cases z with
  | ofNat n =>
    have hn : n < 2 ^ 31 := by
      rw [Int.ofNat_eq_natCast] at hhi
      exact_mod_cast hhi
    have haccept : acceptInt false n = ((n : ℤ), true) := by
      rw [acceptInt, if_neg Bool.false_ne_true, if_pos hn]
    rw [intText, int, number_digits hgap n hrest, haccept]
    rfl
  | negSucc n =>
    have hn : n + 1 ≤ 2 ^ 31 := by omega
    have hskip : (gap ++ ('-' :: (Nat.toDigits 10 (n + 1) ++ rest))).dropWhile isSpace =
        '-' :: (Nat.toDigits 10 (n + 1) ++ rest) := by
      rw [List.dropWhile_append_of_pos hgap]
      exact List.dropWhile_cons_of_neg (by decide)
    have haccept : acceptInt true (n + 1) = (-((n + 1 : ℕ) : ℤ), true) := by
      rw [acceptInt, if_pos rfl, if_pos hn]
    rw [intText, List.cons_append]
    simp only [int, number, ofText, Bool.false_eq_true, if_false, hskip, if_true, digits_toDigits _ hrest, haccept,
      Bool.not_true]
    rw [Int.negSucc_eq, Int.natCast_add, Int.natCast_one]

theorem line_written {l rest : List Char} (hl : '\n' ∉ l) : (ofText (l ++ '\n' :: rest)).line = (some l, ofText rest) := by
  have htake := @takeWhile_append_of_ends (fun c => decide (c ≠ '\n')) l ('\n' :: rest)
    (fun c hc => decide_eq_true fun h => hl (h ▸ hc)) fun c hc => by
      obtain rfl := Option.mem_some_iff.mp hc
      rfl
  have hne : l ++ '\n' :: rest ≠ [] := by simp
  simp only [line, ofText, Bool.false_eq_true, if_false, hne, htake.1, htake.2, List.tail_cons]

theorem cons_flatMap_concat {α : Type} (c : Char) (f : α → List Char) (xs : List α) :
    c :: (xs.flatMap fun x => f x ++ [c]) = (xs.flatMap fun x => c :: f x) ++ [c] := by
  induction xs with
  | nil => rfl
  | cons x xs ih =>
    rw [List.flatMap_cons, List.flatMap_cons, List.append_assoc, List.append_assoc, ← ih]
    rfl

/-! ### Streams that have failed -/

section Failed

variable {s : IStream} (h : s.failed = true)

include h

theorem word_failed : s.word = (none, s) := if_pos h

theorem unsigned_failed : s.unsigned = (none, s) := if_pos h

theorem int_failed : s.int = (none, s) := if_pos h

end Failed

end IStream
