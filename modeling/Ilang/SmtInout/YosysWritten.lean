import Ilang.SmtInout.YosysReader

/-!
# Yosys files as they are written

Items stand on lines of their own, with blanks between their parts. What a function has after the name, its arguments and its body,
is some text in parentheses, whatever comments and quoted names it has in it; a body can be an atom as well.
-/

namespace Ilang

open YText

/-! ### Items -/

/-- What follows an item on its line, and the line breaks and blanks behind it. -/
structure Ending where
  gap : YText
  comment : Option YText
  blank : YText
  deriving DecidableEq, Repr

namespace Ending

def text (e : Ending) : YText := e.gap ++ (e.comment.elim [] (';' :: ·) ++ e.blank)

/-- The line ends behind an item, unless the text does. -/
structure Ok (e : Ending) (last : Prop) : Prop where
  gap : ∀ c ∈ e.gap, c = ' ' ∨ c = '\t'
  comment : ∀ t ∈ e.comment, ∀ c ∈ t, isEol c = false
  blank : ∀ c ∈ e.blank, c ∈ YText.blanks
  line : (∃ c s, e.blank = c :: s ∧ isEol c = true) ∨ (e.blank = [] ∧ last)

end Ending

/-- A type that has a text. -/
def YType.Writable : YType → Prop
  | .array none => False
  | .datatype m => '|' ∉ m
  | _ => True

def YType.text (t : YType) : YText := t.toText.getD []

/-- A text of blanks. -/
def Gap (g : YText) : Prop := ∀ c ∈ g, c ∈ YText.blanks

structure WrittenMember where
  name : YText
  typeGap : YText
  type : YType
  closeGap : YText
  ending : Ending
  deriving DecidableEq, Repr

namespace WrittenMember

def quoted (v : WrittenMember) : YText := '|' :: v.name ++ ['|']

def text (v : WrittenMember) : YText :=
  '(' :: (v.quoted ++ (v.typeGap ++ (v.type.text ++ (v.closeGap ++ ')' :: v.ending.text))))

structure Ok (v : WrittenMember) : Prop where
  name : '|' ∉ v.name
  typeGap : Gap v.typeGap
  type : v.type.Writable
  closeGap : Gap v.closeGap
  ending : v.ending.Ok False

end WrittenMember

/-- A symbol or a literal, or a quoted symbol. -/
def IsAtom (b : YText) : Prop :=
  (b ≠ [] ∧ ∀ c ∈ b, c ∉ [' ', '\t', '\n', '\r', '(', ')', ';', '|']) ∨ ∃ x, '|' ∉ x ∧ b = '|' :: x ++ ['|']

structure WrittenFunc where
  name : YText
  argsGap : YText
  args : YText
  typeGap : YText
  type : YType
  bodyGap : YText
  body : YText
  closeGap : YText
  deriving DecidableEq, Repr

namespace WrittenFunc

def quoted (f : WrittenFunc) : YText := '|' :: f.name ++ ['|']

def text (f : WrittenFunc) : YText :=
  "(define-fun ".toList ++ (f.quoted ++ (f.argsGap ++ (f.args ++ (f.typeGap ++ (f.type.text ++ (f.bodyGap ++ (f.body ++
    (f.closeGap ++ [')']))))))))

structure Ok (f : WrittenFunc) : Prop where
  name : '|' ∉ f.name
  argsGap : Gap f.argsGap
  args : "((state ".toList <+: f.args
  typeGap : Gap f.typeGap
  type : f.type.Writable
  bodyGap : Gap f.bodyGap
  body : f.body.head? = some '(' ∨ IsAtom f.body
  closeGap : Gap f.closeGap

end WrittenFunc

inductive WrittenItem where
  | comment (text blank : YText)
  | datatype (name openGap memberGap : YText) (members : List WrittenMember) (ending : Ending)
  | func (f : WrittenFunc) (ending : Ending)
  deriving DecidableEq, Repr

namespace WrittenItem

def text : WrittenItem → YText
  | .comment t b => Ending.text ⟨[], some t, b⟩
  | .datatype m g h l e =>
    "(declare-datatype ".toList ++ ('|' :: (m ++ "_s|".toList) ++ (g ++ ("((|".toList ++ m ++ "_mk|".toList ++ (h ++
      (l.flatMap WrittenMember.text ++ (")))".toList ++ e.text))))))
  | .func f e => f.text ++ e.text

def Ok (last : Prop) : WrittenItem → Prop
  | .comment t b => Ending.Ok ⟨[], some t, b⟩ last
  | .datatype m g h l e => '|' ∉ m ∧ Gap g ∧ Gap h ∧ (∀ v ∈ l, v.Ok) ∧ e.Ok last
  | .func f e => f.Ok ∧ e.Ok last

end WrittenItem

def itemsText (items : List WrittenItem) : YText := items.flatMap WrittenItem.text

/-- Every item but the last ends its line. -/
def ItemsOk : List WrittenItem → Prop
  | [] => True
  | i :: is => i.Ok (is = []) ∧ ItemsOk is

/-! ### Blanks and lines -/

namespace YText

theorem skip_gap {g : YText} (hg : Gap g) (it : YText) : skip (g ++ it) = skip it := by
  unfold skip
  rw [List.dropWhile_append_of_pos]
  exact fun c hc => List.contains_iff_mem.mpr (hg c hc)

/-- The text does not begin with a blank. -/
def Starts (it : YText) : Prop := ∀ c ∈ it.head?, c ∉ YText.blanks

theorem skip_starts {it : YText} (h : Starts it) : skip it = it := by
  cases it with
  | nil => rfl
  | cons c it => exact skip_cons (h c rfl) it

theorem blank_of_isEol {c : Char} (h : isEol c = true) : c ∈ YText.blanks := by
  unfold isEol at h
  rw [Bool.or_eq_true, decide_eq_true_eq, decide_eq_true_eq] at h
  cases h with
  | inl h => exact h ▸ by decide
  | inr h => exact h ▸ by decide

/-- The text is at the end of a line. -/
def EndsLine (it : YText) : Prop := ∀ c ∈ it.head?, isEol c = true

theorem readlineNoEol_append {t tail : YText} (ht : ∀ c ∈ t, isEol c = false) (htail : EndsLine tail) :
    readlineNoEol (t ++ tail) = (t, tail.dropWhile isEol) := by
  have hends := @IStream.takeWhile_append_of_ends (fun c => !isEol c) t tail (fun c hc => by rw [ht c hc]; rfl)
    fun c hc => by rw [htail c hc]; rfl
  unfold readlineNoEol
  rw [hends.1, hends.2]

theorem skip_dropWhile_isEol (it : YText) : skip (it.dropWhile isEol) = skip it := by
  induction it with
  | nil => rfl
  | cons c it ih =>
    by_cases hc : isEol c = true
    · rw [List.dropWhile_cons_of_pos hc, ih]
      exact (skip_gap (g := [c]) (List.forall_mem_singleton.mpr (blank_of_isEol hc)) it).symm
    · rw [List.dropWhile_cons_of_neg hc]

theorem next_self (c : Char) (it : YText) : next c (c :: it) = 0 := by
  unfold next
  rw [List.findIdx_cons, decide_eq_true rfl]
  rfl

theorem next_of_ne {c d : Char} (h : d ≠ c) (it : YText) : next c (d :: it) = next c it + 1 := by
  unfold next
  rw [List.findIdx_cons, decide_eq_false h]
  rfl

theorem next_append {c : Char} {g : YText} (hg : c ∉ g) (it : YText) : next c (g ++ it) = g.length + next c it := by
  induction g with
  | nil => exact (Nat.zero_add _).symm
  | cons d g ih =>
    rw [List.mem_cons, not_or] at hg
    rw [List.cons_append, next_of_ne (Ne.symm hg.1), ih hg.2, List.length_cons]
    omega

theorem jumpToNext_append {c : Char} {g : YText} (hg : c ∉ g) (it : YText) : jumpToNext c (g ++ it) = jumpToNext c it := by
  unfold jumpToNext
  rw [List.dropWhile_append_of_pos]
  intro d hd
  exact decide_eq_true fun heq => hg (heq ▸ hd)

theorem jumpToNext_self (c : Char) (it : YText) : jumpToNext c (c :: it) = some (c :: it) := by
  have hdrop : (c :: it).dropWhile (fun d => decide (d ≠ c)) = c :: it :=
    List.dropWhile_cons_of_neg fun h => (of_decide_eq_true h : c ≠ c) rfl
  unfold jumpToNext
  rw [hdrop]

end YText

/-! ### Comments behind an item -/

namespace Ending

variable {e : Ending} {rest : YText}

theorem gap_notMem (he : e.Ok (rest = [])) {c : Char} (hc : c ∉ [' ', '\t']) : c ∉ e.gap := by
  intro hmem
  apply hc
  simp only [List.mem_cons, List.not_mem_nil, or_false]
  exact he.gap c hmem

theorem gap_blank (he : e.Ok (rest = [])) : Gap e.gap := by
  intro c hc
  cases he.gap c hc with
  | inl h => exact h ▸ by decide
  | inr h => exact h ▸ by decide

theorem endsLine (he : e.Ok (rest = [])) : EndsLine (e.blank ++ rest) := by
  cases he.line with
  | inl h =>
    obtain ⟨c, s, hblank, hc⟩ := h
    rw [hblank]
    exact fun d hd => Option.some.inj hd ▸ hc
  | inr h =>
    rw [h.1, h.2]
    exact fun d hd => nomatch hd

theorem skip_blank (he : e.Ok (rest = [])) (hrest : Starts rest) : skip (e.blank ++ rest) = rest :=
  (skip_gap he.blank rest).trans (skip_starts hrest)

theorem noComment_none (he : e.Ok (rest = [])) (hcomment : e.comment = none) :
    noComment (e.text ++ rest) = decide (e.blank ≠ []) ∧ (e.blank = [] → jumpToNext ';' (e.text ++ rest) = none) := by
  have htext : e.text ++ rest = e.gap ++ (e.blank ++ rest) := by
    unfold text
    rw [hcomment, Option.elim_none, List.nil_append, List.append_assoc]
  unfold noComment
  rw [htext, jumpToNext_append (gap_notMem he (by decide)), next_append (gap_notMem he (by decide)),
    next_append (gap_notMem he (by decide)), next_append (gap_notMem he (by decide))]
  cases he.line with
  | inl h =>
    obtain ⟨c, s, hblank, hc⟩ := h
    have hne : c ≠ ';' := fun heq => by
      subst heq
      exact absurd hc (by decide)
    have hzero : next '\n' (c :: (s ++ rest)) = 0 ∨ next '\r' (c :: (s ++ rest)) = 0 := by
      unfold isEol at hc
      rw [Bool.or_eq_true, decide_eq_true_eq, decide_eq_true_eq] at hc
      cases hc with
      | inl h => exact .inl (h ▸ next_self _ _)
      | inr h => exact .inr (h ▸ next_self _ _)
    rw [hblank, List.cons_append, next_of_ne hne]
    refine ⟨?_, fun h => nomatch h⟩
    rw [decide_eq_true (List.cons_ne_nil c s), decide_eq_true_eq]
    omega
  | inr h =>
    have hnext : ∀ c, next c ([] ++ []) = 0 := fun _ => rfl
    rw [h.1, h.2, hnext, hnext, hnext, Nat.min_self]
    exact ⟨(decide_eq_false (Nat.lt_irrefl _)).trans (decide_eq_false fun h => h rfl).symm, fun _ => rfl⟩

theorem noComment_some (he : e.Ok (rest = [])) {t : YText} (hcomment : e.comment = some t) :
    noComment (e.text ++ rest) = false ∧ jumpToNext ';' (e.text ++ rest) = some (';' :: (t ++ (e.blank ++ rest))) := by
  have htext : e.text ++ rest = e.gap ++ (';' :: (t ++ (e.blank ++ rest))) := by
    unfold text
    rw [hcomment, Option.elim_some, List.append_assoc, List.append_assoc, List.cons_append]
  unfold noComment
  rw [htext, jumpToNext_append (gap_notMem he (by decide)), next_append (gap_notMem he (by decide)),
    next_append (gap_notMem he (by decide)), next_append (gap_notMem he (by decide)), jumpToNext_self, next_self]
  refine ⟨decide_eq_false ?_, rfl⟩
  omega

end Ending

/-! ### Types -/

namespace YType

def fit (w : Nat) : Nat := if w < 2 ^ 31 then w else 0

/-- What is read for a type. -/
def read : YType → YType
  | .bv w => .bv (fit w)
  | .array (some (a, d)) => .array (some (fit a, fit d))
  | t => t

theorem fit_eq_iff {w : Nat} : fit w = w ↔ w < 2 ^ 31 := by
  unfold fit
  split <;> omega

theorem parse_skip (g it : YText) (hg : Gap g) : parseFromString (g ++ it) = parseFromString it := by
  unfold parseFromString
  rw [skip_gap hg]

theorem parse_text {t : YType} (ht : t.Writable) {g : YText} (hg : Gap g) (rest : YText) :
    parseFromString (g ++ (t.text ++ rest)) = some (t.read, rest) := by
  rw [parse_skip g _ hg]
  cases t with
  | bool => rfl
  | bv w => exact parse_bitVecText w rest
  | array widths =>
    cases widths with
    | none => exact absurd ht id
    | some widths => exact parse_arrayText widths.1 widths.2 rest
  | datatype m => exact parse_datatypeText ht rest

theorem read_eq_iff {t : YType} (ht : t.Writable) : t.read = t ↔ t.Printable := by
  cases t with
  | bool => exact iff_of_true rfl trivial
  | bv w => simp only [read, YType.bv.injEq, fit_eq_iff, Printable]
  | array widths =>
    cases widths with
    | none => exact absurd ht id
    | some widths => simp only [read, YType.array.injEq, Option.some.injEq, Prod.ext_iff, fit_eq_iff, Printable]
  | datatype m => exact iff_of_true rfl ht

theorem read_copy_eq_iff {t : YType} (ht : t.Writable) : t.read.copy = t ↔ t.Printable ∧ ∀ widths, t ≠ .array widths := by
  cases t with
  | bool => exact iff_of_true rfl ⟨trivial, fun _ h => by cases h⟩
  | bv w =>
    have hne : ∀ widths, YType.bv w ≠ .array widths := fun _ h => by cases h
    simp only [read, copy, YType.bv.injEq, fit_eq_iff, Printable, hne, ne_eq, not_false_eq_true, implies_true, and_true]
  | array widths =>
    cases widths with
    | none => exact absurd ht id
    | some widths => exact iff_of_false (fun h => by cases h) fun h => h.2 _ rfl
  | datatype m => exact iff_of_true rfl ⟨ht, fun _ h => by cases h⟩

end YType

end Ilang
