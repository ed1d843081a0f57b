import Ilang.Util.Lexing

/-!
# Numbers and names of Verilog

The numbers and the hierarchical names of IEEE 1364 as automata, and the lexing of a text into numbers, names and other letters,
where each number and each name is as long as possible.
-/

namespace Verilog

open Ilang

/-- Where the reader of a number is: a size, a base and the digits after it, or the parts of a real number. -/
inductive NumberAt
  | start | size | sized | quote | sign | unknown | point | fraction | exponent | exponentSign | exponentDigits
  | base (b : Char)
  | value (b : Char)
  deriving DecidableEq

def isBlank (c : Char) : Bool := c == ' ' || c == '\t' || c == '\n' || c == '\r'

def baseOf (c : Char) : Option Char :=
  if c == 'b' || c == 'o' || c == 'd' || c == 'h' || c == 'B' || c == 'O' || c == 'D' || c == 'H' then some c.toLower else none

def isUnknownDigit (c : Char) : Bool := c == 'x' || c == 'X' || c == 'z' || c == 'Z' || c == '?'

/-- The digits of a base. Those of decimal numbers are known. -/
def isBaseDigit (b c : Char) : Bool :=
  if b == 'd' then c.isDigit
  else if b == 'b' then isUnknownDigit c || c == '0' || c == '1'
  else if b == 'o' then isUnknownDigit c || (c.isDigit && c != '8' && c != '9')
  else isUnknownDigit c || c.isDigit || (c.isAlpha && decide (c.toLower ≤ 'f'))

def NumberAt.next (q : NumberAt) (c : Char) : Option NumberAt :=
  match q with
  | .start => if c.isDigit then some .size else if c == '\'' then some .quote else none
  | .size =>
    if c.isDigit || c == '_' then some .size
    else if isBlank c then some .sized
    else if c == '\'' then some .quote
    else if c == '.' then some .point
    else if c == 'e' || c == 'E' then some .exponent else none
  | .sized => if isBlank c then some .sized else if c == '\'' then some .quote else none
  | .quote => if c == 's' || c == 'S' then some .sign else (baseOf c).map .base
  | .sign => (baseOf c).map .base
  | .base b =>
    if isBlank c then some (.base b)
    else if isBaseDigit b c then some (.value b)
    else if isUnknownDigit c then some .unknown else none
  | .value b => if isBaseDigit b c || c == '_' then some (.value b) else none
  | .unknown => if c == '_' then some .unknown else none
  | .point => if c.isDigit then some .fraction else none
  | .fraction =>
    if c.isDigit || c == '_' then some .fraction else if c == 'e' || c == 'E' then some .exponent else none
  | .exponent =>
    if c == '+' || c == '-' then some .exponentSign else if c.isDigit then some .exponentDigits else none
  | .exponentSign => if c.isDigit then some .exponentDigits else none
  | .exponentDigits => if c.isDigit || c == '_' then some .exponentDigits else none

def NumberAt.done : NumberAt → Bool
  | .size | .value _ | .unknown | .fraction | .exponentDigits => true
  | _ => false

/-- A number of Verilog: decimal, based or real. -/
def isNumber : List Char → Bool := acceptsFrom NumberAt.next NumberAt.done .start

/-- Where the reader of a hierarchical name is: in a plain or an escaped part of it, or in a constant index of a part. -/
inductive NameAt
  | start | plain | escape | escaped | blank | bracket | index | closed
  deriving DecidableEq

def NameAt.next (q : NameAt) (c : Char) : Option NameAt :=
  match q with
  | .start => if c.isAlpha || c == '_' then some .plain else if c == '\\' then some .escape else none
  | .plain =>
    if c.isAlphanum || c == '_' || c == '$' then some .plain
    else if c == '.' then some .start
    else if c == '[' then some .bracket else none
  | .escape => if isBlank c then none else some .escaped
  | .escaped => if isBlank c then some .blank else some .escaped
  | .blank => if c == '.' then some .start else if c == '[' then some .bracket else none
  | .bracket => if c.isDigit then some .index else none
  | .index => if c.isDigit || c == '_' then some .index else if c == ']' then some .closed else none
  | .closed => if c == '.' then some .start else if c == '[' then some .bracket else none

def NameAt.done : NameAt → Bool
  | .plain | .blank => true
  | _ => false

/-- A hierarchical identifier of Verilog. The parts before the last can have constant indices, and the blank after an escaped part
belongs to it. -/
def isName : List Char → Bool := acceptsFrom NameAt.next NameAt.done .start

inductive Lexeme
  | number (w : List Char)
  | name (w : List Char)
  | other (c : Char)

def Lexeme.text : Lexeme → List Char
  | .number w => w
  | .name w => w
  | .other c => [c]

def lexemesText (xs : List Lexeme) : List Char := (xs.map Lexeme.text).flatten

/-- The numbers and names of a text, each as long as possible. -/
inductive Lexes : List Char → List Lexeme → Prop
  | nil : Lexes [] []
  | number {w s : List Char} {xs : List Lexeme} :
      Longest isNumber w (w ++ s) → Lexes s xs → Lexes (w ++ s) (.number w :: xs)
  | name {w s : List Char} {xs : List Lexeme} :
      Longest isName w (w ++ s) → Lexes s xs → Lexes (w ++ s) (.name w :: xs)
  | other {c : Char} {s : List Char} {xs : List Lexeme} :
      (∀ w, isNumber w = true ∨ isName w = true → ¬ w <+: c :: s) → Lexes s xs → Lexes (c :: s) (.other c :: xs)

/-! ### Letters of numbers and names -/

theorem isAlpha_of_isDigit {c : Char} (h : c.isDigit = true) : c.isAlpha = false := by
  obtain ⟨hlow, hhigh⟩ := Char.isDigit_iff_toNat.mp h
  have hlow' : 48 ≤ c.toNat := hlow
  have hhigh' : c.toNat ≤ 57 := hhigh
  have hc : c = Char.ofNat c.toNat := (Char.ofNat_toNat c).symm
  rw [hc]
  interval_cases c.toNat <;> rfl

theorem isAlphanum_iff {c : Char} : c.isAlphanum = true ↔ c.isAlpha = true ∨ c.isDigit = true := by
  rw [show c.isAlphanum = (c.isAlpha || c.isDigit) from rfl, Bool.or_eq_true]

theorem NumberAt.next_ne (q : NumberAt) : q.next '[' = none ∧ q.next ']' = none ∧ q.next '$' = none := by
  cases q with
  | base b =>
    simp +decide [NumberAt.next, isBaseDigit, isUnknownDigit]
  | value b =>
    simp +decide [NumberAt.next, isBaseDigit, isUnknownDigit]
  | _ => exact ⟨rfl, rfl, rfl⟩

theorem number_letters {w : List Char} (h : isNumber w = true) : ∀ c ∈ w, c ≠ '[' ∧ c ≠ ']' ∧ c ≠ '$' := by
  refine acceptsFrom_letters (P := fun c => c ≠ '[' ∧ c ≠ ']' ∧ c ≠ '$') (fun q c q' hq => ?_) h
  refine ⟨?_, ?_, ?_⟩
  · rintro rfl
    rw [q.next_ne.1] at hq
    cases hq
  · rintro rfl
    rw [q.next_ne.2.1] at hq
    cases hq
  · rintro rfl
    rw [q.next_ne.2.2] at hq
    cases hq

theorem number_head {c : Char} {v : List Char} (h : isNumber (c :: v) = true) : c.isDigit = true ∨ c = '\'' := by
  obtain ⟨q, hq, _⟩ := acceptsFrom_cons.mp h
  rw [NumberAt.next] at hq
  by_cases hd : c.isDigit = true
  · exact .inl hd
  · rw [if_neg hd] at hq
    by_cases hquote : c = '\''
    · exact .inr hquote
    · simp [hquote] at hq

theorem name_head {c : Char} {v : List Char} (h : isName (c :: v) = true) :
    (c.isAlpha = true ∨ c = '_') ∧ acceptsFrom NameAt.next NameAt.done .plain v = true ∨ c = '\\' := by
  obtain ⟨q, hq, hrest⟩ := acceptsFrom_cons.mp h
  rw [NameAt.next] at hq
  by_cases hletter : (c.isAlpha || c == '_') = true
  · rw [if_pos hletter] at hq
    left
    refine ⟨by simpa using hletter, ?_⟩
    rwa [Option.some.inj hq]
  · rw [if_neg hletter] at hq
    by_cases hback : c = '\\'
    · exact .inr hback
    · simp [hback] at hq

theorem not_colon_first {q : NameAt} {v r : List Char} (hq : q = .bracket ∨ q = .index)
    (h : acceptsFrom NameAt.next NameAt.done q v = true) : ¬ (v ++ r).idxOf ':' < (v ++ r).idxOf ']' := by
  induction v generalizing q with
  | nil =>
    cases hq with
    | inl hq => rw [hq] at h; cases h
    | inr hq => rw [hq] at h; cases h
  | cons c v ih =>
    obtain ⟨q', hnext, hrest⟩ := acceptsFrom_cons.mp h
    have hcases : c ≠ ':' ∧ (c = ']' ∨ (q' = .bracket ∨ q' = .index)) := by
      cases hq with
      | inl hq =>
        rw [hq, NameAt.next] at hnext
        split at hnext
        · rename_i hd
          refine ⟨?_, .inr (.inr (Option.some.inj hnext).symm)⟩
          rintro rfl
          cases hd
        · cases hnext
      | inr hq =>
        rw [hq, NameAt.next] at hnext
        split at hnext
        · rename_i hd
          refine ⟨?_, .inr (.inr (Option.some.inj hnext).symm)⟩
          rintro rfl
          cases hd
        · split at hnext
          · rename_i hclose
            have heq : c = ']' := by simpa using hclose
            exact ⟨by rw [heq]; decide, .inl heq⟩
          · cases hnext
    obtain ⟨hcolon, hclose⟩ := hcases
    rw [List.cons_append, List.idxOf_cons, List.idxOf_cons]
    cases hclose with
    | inl hclose => simp [hclose]
    | inr hgo =>
      have hle := ih hgo hrest
      have hc : (c == ':') = false := beq_false_of_ne hcolon
      cases hb : c == ']' with
      | true => simp
      | false =>
        rw [hc]
        simpa using hle

/-- The part of a name that is read is not escaped. -/
def NameAt.Bare (q : NameAt) : Prop := q = .start ∨ q = .plain ∨ q = .bracket ∨ q = .index ∨ q = .closed

/-- A letter that goes on with a name wherever it stands. -/
def isNameLetter (c : Char) : Prop := c.isAlphanum = true ∨ c = '.' ∨ c = '_' ∨ c = ']' ∨ c = '$'

theorem NameAt.next_bare {q q' : NameAt} {c : Char} (hq : q.Bare) (hc : c ≠ '\\') (h : q.next c = some q') :
    q'.Bare ∧ (isNameLetter c ∨ c = '[' ∧ q' = .bracket) := by
  have hdot : c = '.' → isNameLetter c := fun h => .inr (.inl h)
  have hopen : ∀ q₀ : Option NameAt,
      (if c == '.' then some NameAt.start else if c == '[' then some .bracket else none) = q₀ → q₀ = some q' →
        q'.Bare ∧ (isNameLetter c ∨ c = '[' ∧ q' = .bracket) := by
    rintro q₀ rfl h
    split at h
    · rename_i hc
      cases h
      exact ⟨.inl rfl, .inl (hdot (by simpa using hc))⟩
    · split at h
      · rename_i hc
        cases h
        exact ⟨.inr (.inr (.inl rfl)), .inr ⟨by simpa using hc, rfl⟩⟩
      · cases h
  obtain rfl | rfl | rfl | rfl | rfl := hq
  · rw [NameAt.next] at h
    split at h
    · rename_i hletter
      cases h
      refine ⟨.inr (.inl rfl), .inl ?_⟩
      rw [isNameLetter, isAlphanum_iff]
      simp only [Bool.or_eq_true, beq_iff_eq] at hletter
      tauto
    · simp [hc] at h
  · rw [NameAt.next] at h
    split at h
    · rename_i hletter
      cases h
      refine ⟨.inr (.inl rfl), .inl ?_⟩
      rw [isNameLetter]
      simp only [Bool.or_eq_true, beq_iff_eq] at hletter
      tauto
    · exact hopen _ rfl h
  · rw [NameAt.next] at h
    split at h
    · rename_i hdigit
      cases h
      exact ⟨.inr (.inr (.inr (.inl rfl))), .inl (.inl (isAlphanum_iff.mpr (.inr hdigit)))⟩
    · cases h
  · rw [NameAt.next] at h
    split at h
    · rename_i hdigit
      cases h
      refine ⟨.inr (.inr (.inr (.inl rfl))), .inl ?_⟩
      rw [isNameLetter, isAlphanum_iff]
      simp only [Bool.or_eq_true, beq_iff_eq] at hdigit
      tauto
    · split at h
      · rename_i hclose
        cases h
        exact ⟨.inr (.inr (.inr (.inr rfl))), .inl (.inr (.inr (.inr (.inl (by simpa using hclose)))))⟩
      · cases h
  · rw [NameAt.next] at h
    exact hopen _ rfl h

theorem name_letters {v : List Char} {q : NameAt} (hq : q.Bare) (hv : '\\' ∉ v)
    (h : acceptsFrom NameAt.next NameAt.done q v = true) : ∀ c ∈ v, isNameLetter c ∨ c = '[' := by
  induction v generalizing q with
  | nil => simp
  | cons c v ih =>
    obtain ⟨hc, hv⟩ := not_or.mp (mt List.mem_cons.mpr hv)
    obtain ⟨q', hnext, hrest⟩ := acceptsFrom_cons.mp h
    obtain ⟨hbare, hletter⟩ := NameAt.next_bare hq (Ne.symm hc) hnext
    intro d hd
    cases List.mem_cons.mp hd with
    | inl hhead => exact hhead ▸ hletter.imp id And.left
    | inr htail => exact ih hbare hv hrest d htail

/-! ### Lexemes of a text -/

theorem Lexes.text {s : List Char} {xs : List Lexeme} (h : Lexes s xs) : lexemesText xs = s := by
  induction h with
  | nil => rfl
  | number _ _ ih => rw [lexemesText, List.map_cons, List.flatten_cons, ← lexemesText, ih]; rfl
  | name _ _ ih => rw [lexemesText, List.map_cons, List.flatten_cons, ← lexemesText, ih]; rfl
  | other _ _ ih => rw [lexemesText, List.map_cons, List.flatten_cons, ← lexemesText, ih]; rfl

theorem other_letter {c : Char} {s : List Char} (h : ∀ w, isNumber w = true ∨ isName w = true → ¬ w <+: c :: s) :
    c.isAlphanum = false ∧ c ≠ '_' := by
  have hone : [c] <+: c :: s := List.prefix_append [c] s
  have hname : ¬ (c.isAlpha || c == '_') = true := by
    intro hc
    refine h [c] (.inr ?_) hone
    refine acceptsFrom_cons.mpr ⟨.plain, ?_, rfl⟩
    rw [NameAt.next, if_pos hc]
  have hdigit : ¬ c.isDigit = true := by
    intro hc
    refine h [c] (.inl ?_) hone
    refine acceptsFrom_cons.mpr ⟨.size, ?_, rfl⟩
    rw [NumberAt.next, if_pos hc]
  have hletter : ¬ c.isAlpha = true ∧ ¬ c = '_' := by simpa using hname
  refine ⟨?_, hletter.2⟩
  rw [← Bool.not_eq_true, isAlphanum_iff]
  exact not_or.mpr ⟨hletter.1, hdigit⟩

theorem Lexes.punctuation {c : Char} {s : List Char} {xs : List Lexeme}
    (hc : c.isDigit = false ∧ c ≠ '\'' ∧ c.isAlpha = false ∧ c ≠ '_' ∧ c ≠ '\\') (h : Lexes s xs) :
    Lexes (c :: s) (.other c :: xs) := by
  obtain ⟨hdigit, hquote, halpha, hscore, hescape⟩ := hc
  refine .other (fun w hw hpre => ?_) h
  cases w with
  | nil => exact hw.elim (by decide) (by decide)
  | cons d v =>
    have hd : d = c := (List.cons_prefix_cons.mp hpre).1
    rw [hd] at hw
    cases hw with
    | inl hw =>
      have hhead := number_head hw
      simp [hdigit, hquote] at hhead
    | inr hw =>
      have hhead := name_head hw
      simp [halpha, hscore, hescape] at hhead

theorem exists_lexes (s : List Char) : ∃ xs, Lexes s xs := by
  induction hn : s.length using Nat.strong_induction_on generalizing s with
  | _ n ih =>
    cases s with
    | nil => exact ⟨[], .nil⟩
    | cons c s =>
      have hrest : ∀ {p : List Char → Bool} {w : List Char}, p [] = false → Longest p w (c :: s) →
          ∃ r xs, c :: s = w ++ r ∧ Lexes r xs := by
        intro p w hp hlong
        obtain ⟨r, hr⟩ := hlong.isPrefix
        have hpos : 0 < w.length := by
          apply List.length_pos_of_ne_nil
          rintro rfl
          have hmatch := hlong.matched
          rw [hp] at hmatch
          cases hmatch
        have hlen := congrArg List.length hr
        rw [List.length_append] at hlen
        obtain ⟨xs, hxs⟩ := ih r.length (by omega) r rfl
        exact ⟨r, xs, hr.symm, hxs⟩
      by_cases hnumber : ∃ w, isNumber w = true ∧ w <+: c :: s
      · obtain ⟨w, hw, hpre⟩ := hnumber
        obtain ⟨w', hlong, _⟩ := exists_longest hw hpre
        obtain ⟨r, xs, hr, hxs⟩ := hrest rfl hlong
        rw [hr] at hlong ⊢
        exact ⟨_, .number hlong hxs⟩
      · by_cases hname : ∃ w, isName w = true ∧ w <+: c :: s
        · obtain ⟨w, hw, hpre⟩ := hname
          obtain ⟨w', hlong, _⟩ := exists_longest hw hpre
          obtain ⟨r, xs, hr, hxs⟩ := hrest rfl hlong
          rw [hr] at hlong ⊢
          exact ⟨_, .name hlong hxs⟩
        · obtain ⟨xs, hxs⟩ := ih s.length (by rw [← hn, List.length_cons]; omega) s rfl
          refine ⟨.other c :: xs, .other ?_ hxs⟩
          intro w hw hpre
          cases hw with
          | inl hw => exact hnumber ⟨w, hw, hpre⟩
          | inr hw => exact hname ⟨w, hw, hpre⟩

theorem Lexes.first {t : List Char} {ys : List Lexeme} (h : Lexes t ys) :
    t = [] ∧ ys = [] ∨ (∃ w s zs, t = w ++ s ∧ ys = .number w :: zs ∧ Longest isNumber w t ∧ Lexes s zs) ∨
      (∃ w s zs, t = w ++ s ∧ ys = .name w :: zs ∧ Longest isName w t ∧ Lexes s zs) ∨
      ∃ c s zs, t = c :: s ∧ ys = .other c :: zs ∧ (∀ w, isNumber w = true ∨ isName w = true → ¬ w <+: t) ∧ Lexes s zs := by
  cases h with
  | nil => exact .inl ⟨rfl, rfl⟩
  | number hlong hrest => exact .inr (.inl ⟨_, _, _, rfl, rfl, hlong, hrest⟩)
  | name hlong hrest => exact .inr (.inr (.inl ⟨_, _, _, rfl, rfl, hlong, hrest⟩))
  | other hnone hrest => exact .inr (.inr (.inr ⟨_, _, _, rfl, rfl, hnone, hrest⟩))

theorem not_number_and_name {w v s : List Char} (hw : isNumber w = true) (hv : isName v = true) (hpre : w <+: s) :
    ¬ v <+: s := by
  intro hpre'
  cases w with
  | nil => cases hw
  | cons c w =>
    cases v with
    | nil => cases hv
    | cons d v =>
      obtain ⟨r, hr⟩ := hpre
      obtain ⟨r', hr'⟩ := hpre'
      have hcd : c = d := (List.cons.inj (hr.trans hr'.symm)).1
      have hhead := number_head hw
      cases name_head hv with
      | inl hletter =>
        rw [← hcd] at hletter
        cases hhead with
        | inl hdigit =>
          cases hletter.1 with
          | inl halpha => exact absurd halpha (by simp [isAlpha_of_isDigit hdigit])
          | inr hscore => exact absurd hdigit (by rw [hscore]; decide)
        | inr hquote => exact absurd hletter.1 (by rw [hquote]; decide)
      | inr hescape =>
        rw [hcd, hescape] at hhead
        exact absurd hhead (by decide)

theorem Lexes.unique {s : List Char} {xs ys : List Lexeme} (h : Lexes s xs) (h' : Lexes s ys) : xs = ys := by
  induction h generalizing ys with
  | nil =>
    obtain ⟨_, rfl⟩ | ⟨w, s, zs, hs, _, hlong, _⟩ | ⟨w, s, zs, hs, _, hlong, _⟩ | ⟨c, s, zs, hs, _⟩ := h'.first
    · rfl
    · rw [(List.append_eq_nil_iff.mp hs.symm).1] at hlong
      cases hlong.matched
    · rw [(List.append_eq_nil_iff.mp hs.symm).1] at hlong
      cases hlong.matched
    · cases hs
  | @number w r xs hlong _ ih =>
    obtain ⟨hs, _⟩ | ⟨w', s, zs, hs, rfl, hlong', hrest⟩ | ⟨w', s, zs, _, _, hlong', _⟩ | ⟨_, _, _, _, _, hnone, _⟩ := h'.first
    · rw [(List.append_eq_nil_iff.mp hs).1] at hlong
      cases hlong.matched
    · have heq : w = w' := hlong.unique hlong'
      subst heq
      rw [List.append_cancel_left hs] at ih
      rw [ih hrest]
    · exact absurd hlong'.isPrefix (not_number_and_name hlong.matched hlong'.matched hlong.isPrefix)
    · exact absurd hlong.isPrefix (hnone w (.inl hlong.matched))
  | @name w r xs hlong _ ih =>
    obtain ⟨hs, _⟩ | ⟨w', s, zs, _, _, hlong', _⟩ | ⟨w', s, zs, hs, rfl, hlong', hrest⟩ | ⟨_, _, _, _, _, hnone, _⟩ := h'.first
    · rw [(List.append_eq_nil_iff.mp hs).1] at hlong
      cases hlong.matched
    · exact absurd hlong.isPrefix (not_number_and_name hlong'.matched hlong.matched hlong'.isPrefix)
    · have heq : w = w' := hlong.unique hlong'
      subst heq
      rw [List.append_cancel_left hs] at ih
      rw [ih hrest]
    · exact absurd hlong.isPrefix (hnone w (.inr hlong.matched))
  | @other c r xs hnone _ ih =>
    obtain ⟨hs, _⟩ | ⟨w, s, zs, _, _, hlong, _⟩ | ⟨w, s, zs, _, _, hlong, _⟩ | ⟨d, s, zs, hs, rfl, _, hrest⟩ := h'.first
    · cases hs
    · exact absurd hlong.isPrefix (hnone w (.inl hlong.matched))
    · exact absurd hlong.isPrefix (hnone w (.inr hlong.matched))
    · obtain ⟨rfl, rfl⟩ := List.cons.inj hs
      rw [ih hrest]

end Verilog
