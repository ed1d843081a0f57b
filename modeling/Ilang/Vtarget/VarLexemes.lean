import Ilang.Vtarget.VarExtract

/-!
# Numbers and names in a refinement expression

The tokens of a scan respect the numbers and names of a text where numbers have no underscores, points, signs and blanks, and names
do not continue numbers.
-/

namespace Ilang.VarExtract

open Verilog

/-! ### Tokens and lexemes -/

/-- The lexeme of length `n` at `pos` lies in one token. -/
def InOneToken (tokens : List Token) (pos n : Nat) : Prop :=
  ∃ t i, StartsAt (fun t : Token => t.2.length) tokens t i ∧ i ≤ pos ∧ pos + n ≤ i + t.2.length

/-- The same, and no part of the lexeme is looked up. -/
def InOneTokenUnread (tokens : List Token) (pos n : Nat) : Prop :=
  ∃ t i, StartsAt (fun t : Token => t.2.length) tokens t i ∧ i ≤ pos ∧ pos + n ≤ i + t.2.length ∧
    (isLookedUp t.1 = true → i + (checkName t.2).length ≤ pos)

/-- Each number and each name of a text that starts at `pos` lies in one token, and no part of a number is looked up. -/
def TokensRespect (tokens : List Token) : Nat → List Lexeme → Prop
  | _, [] => True
  | pos, .number w :: xs => InOneTokenUnread tokens pos w.length ∧ TokensRespect tokens (pos + w.length) xs
  | pos, .name w :: xs => InOneToken tokens pos w.length ∧ TokensRespect tokens (pos + w.length) xs
  | pos, .other _ :: xs => TokensRespect tokens (pos + 1) xs

/-- The tokens of a text give it back, also after a replacement that changes none, and respect its numbers and names. -/
structure Faithful (E : VarExtractor) (forceVlgStatename : Bool) (s : List Char) (xs : List Lexeme) : Prop where
  lossless : joined (E.parseToExtract forceVlgStatename s) = s
  identity : E.replace s forceVlgStatename Prod.snd = s
  respect : TokensRespect (E.parseToExtract forceVlgStatename s) 0 xs

/-- What stands directly before a lexeme: text that continues a number or a name, the latter with a bracket or without. -/
inductive Context
  | plain | number | name | index
  deriving DecidableEq

/-- After a letter that belongs to no number and to no name. -/
def Context.after (ctx : Context) (c : Char) (rest : List Char) : Context :=
  if c = '\'' then .number
  else if c = '$' then (if ctx = .index then .index else .name)
  else if ctx = .name ∨ ctx = .index then
    if c = '.' ∨ c = ']' then ctx
    else if c = '[' ∧ ¬ rest.idxOf ':' < rest.idxOf ']' then .index else .plain
  else .plain

def startsWithDigit (w : List Char) : Bool := w.head?.any Char.isDigit

/-- Numbers have only digits, letters and quotes, except in the index of a name, where they have no quotes but can have points and
underscores, and none continues a name. Escaped names have no letters, and a name that continues a number only letters and
digits. -/
def Plainly : Context → List Lexeme → Prop
  | _, [] => True
  | ctx, .number w :: xs =>
    if ctx = .index ∧ startsWithDigit w = true then (∀ c ∈ w, c.isAlphanum = true ∨ c = '.' ∨ c = '_') ∧ Plainly .index xs
    else ¬ (ctx = .name ∧ startsWithDigit w = true) ∧ (∀ c ∈ w, c.isAlphanum = true ∨ c = '\'') ∧ Plainly .number xs
  | ctx, .name w :: xs =>
    if '\\' ∈ w then (∀ c ∈ w, c.isAlphanum = false ∧ c ≠ '_' ∧ c ≠ '$' ∧ c ≠ '\'') ∧ Plainly .plain xs
    else if ctx = .number ∧ w.head? ≠ some '_' then (∀ c ∈ w, c.isAlphanum = true) ∧ Plainly .number xs
    else Plainly (if ctx = .index ∨ '[' ∈ w then .index else .name) xs
  | ctx, .other c :: xs => Plainly (ctx.after c (lexemesText xs)) xs

instance Plainly.decidable : ∀ ctx xs, Decidable (Plainly ctx xs)
  | _, [] => inferInstanceAs (Decidable True)
  | ctx, .number w :: xs =>
    have := Plainly.decidable .index xs
    have := Plainly.decidable .number xs
    have : Decidable (∀ c ∈ w, c.isAlphanum = true ∨ c = '.' ∨ c = '_') := List.decidableBAll _ w
    have : Decidable (∀ c ∈ w, c.isAlphanum = true ∨ c = '\'') := List.decidableBAll _ w
    inferInstanceAs (Decidable (if ctx = .index ∧ startsWithDigit w = true then _ ∧ _ else _ ∧ _ ∧ _))
  | ctx, .name w :: xs =>
    have := Plainly.decidable .plain xs
    have := Plainly.decidable .number xs
    have := Plainly.decidable (if ctx = .index ∨ '[' ∈ w then .index else .name) xs
    have : Decidable (∀ c ∈ w, c.isAlphanum = false ∧ c ≠ '_' ∧ c ≠ '$' ∧ c ≠ '\'') := List.decidableBAll _ w
    have : Decidable (∀ c ∈ w, c.isAlphanum = true) := List.decidableBAll _ w
    inferInstanceAs (Decidable (if '\\' ∈ w then _ ∧ _ else if ctx = .number ∧ w.head? ≠ some '_' then _ ∧ _ else _))
  | ctx, .other c :: xs => Plainly.decidable (ctx.after c (lexemesText xs)) xs

/-! ### One lexeme -/

/-- The matching goes on over the letters `v`, which `r` follows. -/
def StaysOver (m : Matching) (s r : List Char) : List Char → Prop
  | [] => True
  | d :: v => stays m d (d :: v ++ r) s = true ∧ StaysOver m s r v

def tokensLength (tokens : List Token) : Nat := (tokens.map fun t => t.2.length).sum

theorem tokensLength_append_singleton (tokens : List Token) (t : Token) :
    tokensLength (tokens ++ [t]) = tokensLength tokens + t.2.length := by simp [tokensLength]

namespace VarExtractor

variable (E : VarExtractor) (force : Bool)

theorem scan_of_staysOver {s r v : List Char} {st : Scan} (h : StaysOver st.matching s r v) :
    E.scan force s st (v ++ r) = E.scan force s { st with cur := st.cur ++ v } r := by
  induction v generalizing st with
  | nil => simp
  | cons d v ih =>
    have hstep : E.scanStep force s st d (v ++ r) = { st with cur := st.cur ++ [d] } := E.scanStep_of_stays force h.1
    have hrest := @ih { st with cur := st.cur ++ [d] } h.2
    rw [List.cons_append, scan, hstep, hrest]
    simp

theorem exists_of_not_staysOver {s r v : List Char} {st : Scan} (hcur : '#' ∉ st.cur) (hv : '#' ∉ v)
    (h : ¬ StaysOver st.matching s r v) :
    ∃ tokens, tokens <+: E.scan force s st (v ++ r) ∧ tokensLength st.tokens + st.cur.length ≤ tokensLength tokens ∧
      tokensLength tokens < tokensLength st.tokens + st.cur.length + v.length := by
  induction v generalizing st with
  | nil => exact absurd trivial h
  | cons d v ih =>
    obtain ⟨hd, hv⟩ := not_or.mp (mt List.mem_cons.mpr hv)
    rw [List.cons_append, scan]
    cases hstay : stays st.matching d (d :: v ++ r) s with
    | true =>
      have hstep : E.scanStep force s st d (v ++ r) = { st with cur := st.cur ++ [d] } := E.scanStep_of_stays force hstay
      obtain ⟨tokens, hpre, hlow, hhigh⟩ := @ih { st with cur := st.cur ++ [d] } (by simp [hcur, hd]) hv
        (fun hover => h ⟨hstay, hover⟩)
      refine ⟨tokens, by rwa [hstep], ?_, ?_⟩
      · simp only [List.length_append, List.length_singleton] at hlow
        omega
      · simp only [List.length_append, List.length_singleton] at hhigh
        simp only [List.length_cons]
        omega
    | false =>
      have hstep : E.scanStep force s st d (v ++ r) = _ := E.scanStep_of_leaves force (Ne.symm hd) hstay
      refine ⟨st.tokens ++ [E.closeToken force st.matching st.cur], ?_, ?_, ?_⟩
      · have hpre := E.tokens_prefix_scan force s (E.scanStep force s st d (v ++ r)) (v ++ r)
        rwa [hstep] at hpre ⊢
      · rw [tokensLength_append_singleton, E.closeToken_snd force hcur]
      · rw [tokensLength_append_singleton, E.closeToken_snd force hcur, List.length_cons]
        omega

theorem startsAt_open (s : List Char) {r : List Char} (st : Scan) (hcur : '#' ∉ st.cur) (hr : '#' ∉ r) :
    ∃ more, '#' ∉ st.cur ++ more ∧ StartsAt (fun t : Token => t.2.length) (E.scan force s st r)
      (E.closeToken force st.matching (st.cur ++ more)) (tokensLength st.tokens) := by
  obtain ⟨more, after, hmore, hscan⟩ := E.exists_scan_eq force s st r
  refine ⟨more, ?_, ?_⟩
  · intro hmem
    cases List.mem_append.mp hmem with
    | inl hin => exact hcur hin
    | inr hin => exact hr (hmore.subset hin)
  · rw [hscan]
    exact startsAt_append _ _ _

theorem inOneToken_iff {s r v pre : List Char} {c : Char} {st : Scan} (hst : st.cur = pre ++ [c]) (hcur : '#' ∉ st.cur)
    (hv : '#' ∉ v) (hr : '#' ∉ r) :
    InOneToken (E.scan force s st (v ++ r)) (tokensLength st.tokens + pre.length) (v.length + 1) ↔
      StaysOver st.matching s r v := by
  have hlen : st.cur.length = pre.length + 1 := by rw [hst, List.length_append, List.length_singleton]
  constructor
  · rintro ⟨t, i, hstarts, hfrom, hto⟩
    by_contra hleave
    obtain ⟨tokens, hpre, hlow, hhigh⟩ := E.exists_of_not_staysOver force hcur hv hleave
    have hacross : i + t.2.length ≤ tokensLength tokens ∨ tokensLength tokens ≤ i := hstarts.not_across hpre
    omega
  · intro hover
    have hread : '#' ∉ st.cur ++ v := by simp [hcur, hv]
    obtain ⟨more, hmore, hstarts⟩ := E.startsAt_open force s { st with cur := st.cur ++ v } hread hr
    rw [E.scan_of_staysOver force hover]
    refine ⟨_, _, hstarts, Nat.le_add_right _ _, ?_⟩
    rw [E.closeToken_snd force hmore]
    simp only [List.length_append]
    omega

theorem length_checkName_le {pre more : List Char} {c : Char} (hc : c ≠ '[') :
    (checkName (pre ++ c :: more)).length ≤ pre.length ↔ '[' ∈ pre := by
  rw [checkName]
  induction pre with
  | nil => simp [hc]
  | cons d pre ih =>
    by_cases hd : d = '['
    · simp [hd]
    · simp [hd, Ne.symm hd, ih]

theorem inOneTokenUnread_iff {s r v pre : List Char} {c : Char} {st : Scan} (hst : st.cur = pre ++ [c])
    (hcur : '#' ∉ st.cur) (hv : '#' ∉ v) (hr : '#' ∉ r) (hc : c ≠ '[') :
    InOneTokenUnread (E.scan force s st (v ++ r)) (tokensLength st.tokens + pre.length) (v.length + 1) ↔
      StaysOver st.matching s r v ∧ (st.matching = .state → '[' ∈ pre) := by
  have hlen : st.cur.length = pre.length + 1 := by rw [hst, List.length_append, List.length_singleton]
  have hvr : '#' ∉ v ++ r := by simp [hv, hr]
  obtain ⟨more, hmore, hstarts⟩ := E.startsAt_open force s st hcur hvr
  have htext := E.closeToken_snd force (m := st.matching) hmore
  have hcheck : (checkName (st.cur ++ more)).length ≤ pre.length ↔ '[' ∈ pre := by
    rw [hst, List.append_assoc]
    exact length_checkName_le hc
  constructor
  · rintro ⟨t, i, hat, hfrom, hto, hread⟩
    refine ⟨(E.inOneToken_iff force hst hcur hv hr).mp ⟨t, i, hat, hfrom, hto⟩, fun hstate => ?_⟩
    have hsame := hstarts.unique (p := tokensLength st.tokens + pre.length) hat
      (by rw [htext, List.length_append]; omega) (by omega)
    rw [← hsame.1, ← hsame.2, htext] at hread
    have hle := hread ((E.isLookedUp_closeToken force hmore).mpr hstate)
    exact hcheck.mp (by omega)
  · rintro ⟨hover, hstate⟩
    obtain ⟨t, i, hat, hfrom, hto⟩ := (E.inOneToken_iff force hst hcur hv hr).mpr hover
    have hsame := hstarts.unique (p := tokensLength st.tokens + pre.length) hat
      (by rw [htext, List.length_append]; omega) (by omega)
    refine ⟨t, i, hat, hfrom, hto, fun hread => ?_⟩
    rw [← hsame.1] at hread
    rw [← hsame.1, ← hsame.2, htext]
    have hle := hcheck.mpr (hstate ((E.isLookedUp_closeToken force hmore).mp hread))
    omega

end VarExtractor

/-! ### Letters of numbers and names -/

theorem isNumCont_iff {c : Char} : isNumCont c = true ↔ c.isAlphanum = true ∨ c = '\'' := by
  rw [isAlphanum_iff, isNumCont]
  simp only [Bool.or_eq_true, beq_iff_eq]
  tauto

theorem staysOver_iff {m : Matching} {s r v : List Char} {P : Char → Prop}
    (h : ∀ d ∈ v, ∀ upto, stays m d upto s = true ↔ P d) : StaysOver m s r v ↔ ∀ d ∈ v, P d := by
  induction v with
  | nil => simp [StaysOver]
  | cons d v ih =>
    rw [StaysOver, h d List.mem_cons_self, ih fun e he => h e (List.mem_cons_of_mem d he), List.forall_mem_cons]

theorem staysOver_number {s r v : List Char} : StaysOver .number s r v ↔ ∀ d ∈ v, d.isAlphanum = true ∨ d = '\'' :=
  staysOver_iff fun _ _ _ => isNumCont_iff

theorem isStateCont_iff {c : Char} {upto s : List Char} (h : c ≠ '[') (hhash : c ≠ '#') :
    isStateCont c upto s = true ↔ c.isAlphanum = true ∨ c = '.' ∨ c = '_' ∨ c = ']' ∨ c = '$' := by
  have hbracket : (c == '[') = false := beq_false_of_ne h
  have hh : (c == '#') = false := beq_false_of_ne hhash
  rw [isAlphanum_iff, isStateCont, hbracket, hh]
  simp only [Bool.and_false, Bool.false_eq_true, if_false, Bool.if_false_right, Bool.and_true, Bool.or_eq_true, beq_iff_eq]
  simp
  tauto

theorem staysOver_state_number {s r w : List Char} (h : isNumber w = true) (hhash : '#' ∉ w) {v : List Char}
    (hv : ∀ d ∈ v, d ∈ w) :
    StaysOver .state s r v ↔ ∀ d ∈ v, d.isAlphanum = true ∨ d = '.' ∨ d = '_' := by
  apply staysOver_iff
  intro d hd upto
  obtain ⟨hopen, hclose, hdollar⟩ := number_letters h d (hv d hd)
  have hne : d ≠ '#' := fun heq => hhash (heq ▸ hv d hd)
  rw [stays, isStateCont_iff hopen hne]
  tauto

theorem isStateCont_of_nameLetter {c : Char} {upto s : List Char} (h : isNameLetter c) : isStateCont c upto s = true := by
  rw [isNameLetter, isAlphanum_iff] at h
  rw [isStateCont, if_pos]
  simp only [Bool.or_eq_true, beq_iff_eq]
  tauto

theorem isStateCont_bracket (upto s : List Char) :
    isStateCont '[' upto s = !decide (upto.idxOf ':' < upto.idxOf ']') := by
  have hhash : ('[' == '#') = false := rfl
  rw [isStateCont, hhash, Bool.and_false]
  rfl

theorem staysOver_state_name {s r v : List Char} {q : NameAt} (hq : q.Bare) (hv : '\\' ∉ v)
    (h : acceptsFrom NameAt.next NameAt.done q v = true) : StaysOver .state s r v := by
  induction v generalizing q with
  | nil => trivial
  | cons c v ih =>
    obtain ⟨hc, hv⟩ := not_or.mp (mt List.mem_cons.mpr hv)
    obtain ⟨q', hnext, hrest⟩ := acceptsFrom_cons.mp h
    obtain ⟨hbare, hletter⟩ := NameAt.next_bare hq (Ne.symm hc) hnext
    refine ⟨?_, ih hbare hv hrest⟩
    cases hletter with
    | inl hletter => exact isStateCont_of_nameLetter hletter
    | inr hopen =>
      obtain ⟨rfl, rfl⟩ := hopen
      have hcolon := not_colon_first (r := r) (.inl rfl) hrest
      have hshift : ¬ ('[' :: v ++ r).idxOf ':' < ('[' :: v ++ r).idxOf ']' := by
        rw [List.cons_append, List.idxOf_cons, List.idxOf_cons]
        simpa using hcolon
      rw [stays, isStateCont_bracket, decide_eq_false hshift]
      rfl


/-! ### Lexemes in their contexts -/

def Context.matching : Context → Matching
  | .plain => .nothing
  | .number => .number
  | .name | .index => .state

def contextOf (st : Scan) : Context :=
  match st.matching with
  | .nothing => .plain
  | .number => .number
  | .state => if '[' ∈ st.cur then .index else .name

/-- The state after the first letter `c` of a lexeme, with the text `pre` before it in the open token: the matching went on at the
letter, or something new has begun. -/
structure Entered (ctx : Context) (c : Char) (upto s : List Char) (st : Scan) (pre : List Char) : Prop where
  cur : st.cur = pre ++ [c]
  clean : '#' ∉ st.cur
  how : (stays ctx.matching c upto s = true ∧ st.matching = ctx.matching ∧
      (st.matching = .state → ('[' ∈ pre ↔ ctx = .index))) ∨
    ((stays ctx.matching c upto s = false ∨ ctx = .plain) ∧ st.matching = begun c ∧ pre = [])

variable (E : VarExtractor) (force : Bool)

/-- The tokens come from a scan that is at `pos`, before the text `r`. -/
def Reading (s : List Char) (ctx : Context) (pos : Nat) (tokens : List Token) : List Char → Prop
  | [] => True
  | c :: rest => ∃ st pre, Entered ctx c (c :: rest) s st pre ∧ pos = tokensLength st.tokens + pre.length ∧
      tokens = E.scan force s st rest

theorem contextOf_matching (st : Scan) : (contextOf st).matching = st.matching := by
  rw [contextOf]
  cases st.matching with
  | nothing => rfl
  | number => rfl
  | state =>
    dsimp only
    split
    · rfl
    · rfl

theorem contextOf_nothing (st : Scan) (h : st.matching = .nothing) : contextOf st = .plain := by rw [contextOf, h]

theorem contextOf_number (st : Scan) (h : st.matching = .number) : contextOf st = .number := by rw [contextOf, h]

theorem contextOf_state (st : Scan) {P : Prop} [Decidable P] (h : st.matching = .state) (hP : '[' ∈ st.cur ↔ P) :
    contextOf st = if P then .index else .name := by
  rw [contextOf, h]
  simp only [hP]

theorem contextOf_eq_index (st : Scan) (h : st.matching = .state) : contextOf st = .index ↔ '[' ∈ st.cur := by
  rw [contextOf, h]
  by_cases hmem : '[' ∈ st.cur <;> simp [hmem]

theorem reading_scan (s : List Char) {r : List Char} (st : Scan) (hcur : '#' ∉ st.cur) (hr : '#' ∉ r) :
    Reading E force s (contextOf st) (tokensLength st.tokens + st.cur.length) (E.scan force s st r) r := by
  cases r with
  | nil => trivial
  | cons c rest =>
    obtain ⟨hc, hrest⟩ := not_or.mp (mt List.mem_cons.mpr hr)
    cases hstay : stays st.matching c (c :: rest) s with
    | true =>
      have hstep := E.scanStep_of_stays force hstay
      refine ⟨{ st with cur := st.cur ++ [c] }, st.cur, ⟨rfl, by simp [hcur, hc], ?_⟩, rfl, ?_⟩
      · refine .inl ⟨?_, (contextOf_matching st).symm, fun hstate => (contextOf_eq_index st hstate).symm⟩
        rwa [contextOf_matching]
      · rw [VarExtractor.scan, hstep]
    | false =>
      have hstep := E.scanStep_of_leaves force (Ne.symm hc) hstay
      have hclean : '#' ∉ [c] := by simpa using hc
      refine ⟨⟨begun c, [c], st.tokens ++ [E.closeToken force st.matching st.cur]⟩, [],
        ⟨rfl, hclean, .inr ⟨.inl ?_, rfl, rfl⟩⟩, ?_, by rw [VarExtractor.scan, hstep]⟩
      · rwa [contextOf_matching]
      · rw [tokensLength_append_singleton, E.closeToken_snd force hcur]
        rfl

theorem Entered.number {ctx : Context} {c : Char} {upto s pre : List Char} {st : Scan} (h : Entered ctx c upto s st pre)
    (hc : c.isDigit = true ∨ c = '\'') :
    st.matching = .state ∧ (ctx = .name ∨ ctx = .index) ∧ c.isDigit = true ∧ ('[' ∈ pre ↔ ctx = .index) ∨
      st.matching = .number ∧ ¬ ((ctx = .name ∨ ctx = .index) ∧ c.isDigit = true) := by
  have hnum : isNumBegin c = true := by simpa [isNumBegin] using hc
  have hbegun : begun c = .number := by rw [begun, matchingFrom, if_pos hnum]
  have hquote : ¬ isStateCont '\'' upto s = true := fun hcont =>
    absurd ((isStateCont_iff (by decide) (by decide)).mp hcont) (by decide)
  cases h.how with
  | inl hstay =>
    obtain ⟨hstay, hm, hpre⟩ := hstay
    cases ctx with
    | plain => simp [Context.matching, stays, hnum] at hstay
    | number => exact .inr ⟨hm, by simp⟩
    | name =>
      have hdigit : c.isDigit = true := hc.resolve_right fun heq => hquote (heq ▸ hstay)
      exact .inl ⟨hm, .inl rfl, hdigit, hpre hm⟩
    | index =>
      have hdigit : c.isDigit = true := hc.resolve_right fun heq => hquote (heq ▸ hstay)
      exact .inl ⟨hm, .inr rfl, hdigit, hpre hm⟩
  | inr hleave =>
    obtain ⟨hleave, hm, _⟩ := hleave
    refine .inr ⟨hm.trans hbegun, ?_⟩
    rintro ⟨hctx, hdigit⟩
    have hletter : isStateCont c upto s = true := isStateCont_of_nameLetter (.inl (isAlphanum_iff.mpr (.inr hdigit)))
    cases hctx with
    | inl hctx => simp [hctx, Context.matching, stays, hletter] at hleave
    | inr hctx => simp [hctx, Context.matching, stays, hletter] at hleave

theorem Entered.name {ctx : Context} {c : Char} {upto s pre : List Char} {st : Scan} (h : Entered ctx c upto s st pre)
    (hc : c.isAlpha = true ∨ c = '_') :
    st.matching = .state ∧ ¬ (ctx = .number ∧ c ≠ '_') ∧ ('[' ∈ pre ↔ ctx = .index) ∨
      st.matching = .number ∧ ctx = .number ∧ c ≠ '_' := by
  have hletter : isStateCont c upto s = true := by
    apply isStateCont_of_nameLetter
    rw [isNameLetter, isAlphanum_iff]
    tauto
  have hstate : isStateBegin c = true := by
    simp only [isStateBegin, Bool.or_eq_true, beq_iff_eq]
    tauto
  have hnum : isNumBegin c = false := by
    by_contra hnum
    rw [isStateBegin_of_numBegin (by simpa using hnum)] at hstate
    cases hstate
  have hbegun : begun c = .state := by
    rw [begun, matchingFrom, hnum, if_neg (by simp), if_pos hstate]
  cases h.how with
  | inl hstay =>
    obtain ⟨hstay, hm, hpre⟩ := hstay
    cases ctx with
    | plain => simp [Context.matching, stays, hstate] at hstay
    | number =>
      refine .inr ⟨hm, rfl, ?_⟩
      rintro rfl
      cases hstay
    | name => exact .inl ⟨hm, by simp, hpre hm⟩
    | index => exact .inl ⟨hm, by simp, hpre hm⟩
  | inr hleave =>
    obtain ⟨hleave, hm, hpre⟩ := hleave
    refine .inl ⟨hm.trans hbegun, ?_, ?_⟩
    · rintro ⟨rfl, hne⟩
      have hgoes : isNumCont c = true := isNumCont_iff.mpr (.inl (isAlphanum_iff.mpr (.inl (hc.resolve_right hne))))
      simp [Context.matching, stays, hgoes] at hleave
    · rw [hpre]
      refine iff_of_false (by simp) ?_
      rintro rfl
      simp [Context.matching, stays, hletter] at hleave

theorem Entered.escape {ctx : Context} {upto s pre : List Char} {st : Scan} (h : Entered ctx '\\' upto s st pre) :
    st.matching = .nothing := by
  have hstate : ¬ isStateCont '\\' upto s = true := fun hcont =>
    absurd ((isStateCont_iff (by decide) (by decide)).mp hcont) (by decide)
  cases h.how with
  | inl hstay =>
    obtain ⟨hstay, hm, _⟩ := hstay
    cases ctx with
    | plain => exact hm
    | number => cases hstay
    | name => exact absurd hstay hstate
    | index => exact absurd hstay hstate
  | inr hleave => exact hleave.2.1

theorem Entered.other {ctx : Context} {c : Char} {rest s pre : List Char} {st : Scan}
    (h : Entered ctx c (c :: rest) s st pre) (halnum : c.isAlphanum = false) (hscore : c ≠ '_') (hhash : c ≠ '#') :
    contextOf st = ctx.after c rest := by
  have hbracket : c = '[' → (isStateCont c (c :: rest) s = true ↔ ¬ rest.idxOf ':' < rest.idxOf ']') := by
    rintro rfl
    rw [isStateCont_bracket, List.idxOf_cons, List.idxOf_cons]
    simp
  have hstate : isStateCont c (c :: rest) s = true ↔
      c = '.' ∨ c = ']' ∨ c = '$' ∨ c = '[' ∧ ¬ rest.idxOf ':' < rest.idxOf ']' := by
    by_cases hopen : c = '['
    · rw [hbracket hopen, hopen]
      simp
    · rw [isStateCont_iff hopen hhash, halnum]
      simp [hopen, hscore]
  have hnum : isNumCont c = true ↔ c = '\'' := by
    rw [isNumCont_iff, halnum]
    simp
  have hcur : '[' ∈ st.cur ↔ '[' ∈ pre ∨ c = '[' := by
    rw [h.cur, List.mem_append, List.mem_singleton]
    exact or_congr_right eq_comm
  have hbegins : (isNumBegin c = true ↔ c = '\'') ∧ (isStateBegin c = true ↔ c = '$') := by
    have hnot := not_or.mp (mt isAlphanum_iff.mpr (by simp [halnum] : ¬ c.isAlphanum = true))
    simp [isNumBegin, isStateBegin, hnot.1, hnot.2, hscore, hhash]
  cases h.how with
  | inl hstay =>
    obtain ⟨hstay, hm, hpre⟩ := hstay
    cases ctx with
    | plain =>
      rw [contextOf_nothing st hm]
      simp only [Context.matching, stays, Bool.and_eq_true, Bool.not_eq_true', ← Bool.not_eq_true, hbegins.1,
        hbegins.2] at hstay
      simp [Context.after, hstay.1, hstay.2]
    | number =>
      rw [contextOf_number st hm, hnum.mp hstay]
      rfl
    | name =>
      have hgoes := hstate.mp hstay
      rw [contextOf_state st hm (hcur.trans (or_congr_left (hpre hm)))]
      obtain rfl | rfl | rfl | ⟨rfl, hcolon⟩ := hgoes
      · rfl
      · rfl
      · rfl
      · simp [Context.after, hcolon]
    | index =>
      have hgoes := hstate.mp hstay
      rw [contextOf_state st hm (hcur.trans (or_congr_left (hpre hm)))]
      obtain rfl | rfl | rfl | ⟨rfl, hcolon⟩ := hgoes
      · rfl
      · rfl
      · rfl
      · simp [Context.after, hcolon]
  | inr hleave =>
    obtain ⟨hleave, hm, hpre⟩ := hleave
    by_cases hquote : c = '\''
    · rw [contextOf_number st (hm.trans (by rw [hquote]; rfl)), Context.after, if_pos hquote]
    · by_cases hdollar : c = '$'
      · have hne : ctx ≠ .name ∧ ctx ≠ .index := by
          have hgoes := hstate.mpr (.inr (.inr (.inl hdollar)))
          constructor
          · rintro rfl
            simp [Context.matching, stays, hgoes] at hleave
          · rintro rfl
            simp [Context.matching, stays, hgoes] at hleave
        have hstate' : st.matching = .state := hm.trans (by rw [hdollar]; rfl)
        have hopen : '[' ∈ st.cur ↔ False := by rw [hcur, hpre, hdollar]; simp
        rw [contextOf_state st hstate' hopen, Context.after, if_neg hquote, if_pos hdollar, if_neg hne.2, if_false]
      · have hbegun : begun c = .nothing := by
          rw [begun, matchingFrom, if_neg (mt hbegins.1.mp hquote), if_neg (mt hbegins.2.mp hdollar)]
        rw [contextOf_nothing st (hm.trans hbegun), Context.after, if_neg hquote, if_neg hdollar]
        split
        · rename_i hctx
          have hstop : ¬ isStateCont c (c :: rest) s = true := by
            obtain rfl | rfl := hctx
            · simpa [Context.matching, stays] using hleave
            · simpa [Context.matching, stays] using hleave
          rw [hstate] at hstop
          have hplain : ¬ (c = '.' ∨ c = ']') := fun hc => hstop (hc.imp id .inl)
          have hindex : ¬ (c = '[' ∧ ¬ rest.idxOf ':' < rest.idxOf ']') := fun hc => hstop (.inr (.inr (.inr hc)))
          rw [if_neg hplain, if_neg hindex]
        · rfl

/-! ### All lexemes -/

theorem not_staysOver {m : Matching} {s r v : List Char} {d : Char} (hd : ∀ upto, stays m d upto s = false) (hmem : d ∈ v) :
    ¬ StaysOver m s r v := by
  induction v with
  | nil => cases hmem
  | cons e v ih =>
    intro hover
    cases List.mem_cons.mp hmem with
    | inl hhead =>
      have hstay := hover.1
      rw [← hhead, hd] at hstay
      cases hstay
    | inr htail => exact ih htail hover.2

theorem staysOver_nothing {s r v : List Char} (hv : '#' ∉ v) :
    StaysOver .nothing s r v ↔ ∀ d ∈ v, d.isAlphanum = false ∧ d ≠ '_' ∧ d ≠ '$' ∧ d ≠ '\'' := by
  apply staysOver_iff
  intro d hd upto
  have hne : d ≠ '#' := fun heq => hv (heq ▸ hd)
  rw [← Bool.not_eq_true d.isAlphanum, isAlphanum_iff]
  simp only [stays, isNumBegin, isStateBegin, Bool.and_eq_true, Bool.not_eq_true', Bool.or_eq_false_iff,
    beq_eq_false_iff_ne]
  simp only [← Bool.not_eq_true, not_or, ne_eq]
  tauto

theorem escape_leaves {m : Matching} (hm : m ≠ .nothing) (upto s : List Char) : stays m '\\' upto s = false := by
  cases m with
  | nothing => exact absurd rfl hm
  | number => rfl
  | state =>
    rw [stays, ← Bool.not_eq_true, isStateCont_iff (by decide) (by decide)]
    decide

theorem reading_after {s r v pre : List Char} {c : Char} {st : Scan} (hst : st.cur = pre ++ [c]) (hcur : '#' ∉ st.cur)
    (hv : '#' ∉ v) (hr : '#' ∉ r) (hover : StaysOver st.matching s r v) :
    Reading E force s (contextOf { st with cur := st.cur ++ v }) (tokensLength st.tokens + pre.length + (v.length + 1))
      (E.scan force s st (v ++ r)) r := by
  have hread : '#' ∉ st.cur ++ v := by simp [hcur, hv]
  have hreading := reading_scan E force s { st with cur := st.cur ++ v } hread hr
  have hpos : tokensLength st.tokens + pre.length + (v.length + 1) = tokensLength st.tokens + (st.cur ++ v).length := by
    rw [hst]
    simp only [List.length_append, List.length_singleton]
    omega
  rw [E.scan_of_staysOver force hover, hpos]
  exact hreading

section Steps

variable {E force} {s r v : List Char} {c : Char} {xs : List Lexeme} {ctx : Context} {pos : Nat} {tokens : List Token}
  (hclean : '#' ∉ c :: v ++ r)
  (ih : ∀ ctx pos tokens, Reading E force s ctx pos tokens r → (TokensRespect tokens pos xs ↔ Plainly ctx xs))

include hclean ih

theorem respect_number (hw : isNumber (c :: v) = true) (hread : Reading E force s ctx pos tokens (c :: v ++ r)) :
    TokensRespect tokens pos (.number (c :: v) :: xs) ↔ Plainly ctx (.number (c :: v) :: xs) := by
  rw [List.cons_append] at hread
  obtain ⟨st, pre, hent, rfl, rfl⟩ := hread
  have hw' : '#' ∉ c :: v := fun hmem => hclean (List.mem_append_left r hmem)
  have hv : '#' ∉ v := fun hmem => hw' (List.mem_cons_of_mem c hmem)
  have hr : '#' ∉ r := fun hmem => hclean (List.mem_append_right _ hmem)
  have hopen : c ≠ '[' := (number_letters hw c List.mem_cons_self).1
  have hdigit : startsWithDigit (c :: v) = true ↔ c.isDigit = true := by simp [startsWithDigit]
  have hnext := fun hover => ih _ _ _ (reading_after E force hent.cur hent.clean hv hr hover)
  rw [TokensRespect, List.length_cons, E.inOneTokenUnread_iff force hent.cur hent.clean hv hr hopen]
  cases hent.number (number_head hw) with
  | inl hstate =>
    obtain ⟨hm, hctx, hd, hpre⟩ := hstate
    by_cases hindex : ctx = .index
    · have hin : '[' ∈ st.cur ++ v := by
        rw [hent.cur]
        simp [hpre.mpr hindex]
      rw [Plainly, if_pos ⟨hindex, hdigit.mpr hd⟩, List.forall_mem_cons,
        ← staysOver_state_number (s := s) (r := r) hw hw' fun d hd => List.mem_cons_of_mem c hd, ← hm]
      have hcontext := (contextOf_eq_index { st with cur := st.cur ++ v } hm).mpr hin
      rw [hcontext] at hnext
      constructor
      · rintro ⟨⟨hover, _⟩, hrest⟩
        exact ⟨⟨.inl (isAlphanum_iff.mpr (.inr hd)), hover⟩, (hnext hover).mp hrest⟩
      · rintro ⟨⟨_, hover⟩, hrest⟩
        exact ⟨⟨hover, fun _ => hpre.mpr hindex⟩, (hnext hover).mpr hrest⟩
    · have hname : ctx = .name := hctx.resolve_right hindex
      rw [Plainly, if_neg fun h => hindex h.1]
      constructor
      · rintro ⟨⟨_, hin⟩, _⟩
        exact absurd (hpre.mp (hin hm)) hindex
      · rintro ⟨hnot, _⟩
        exact absurd ⟨hname, hdigit.mpr hd⟩ hnot
  | inr hnumber =>
    obtain ⟨hm, hnot⟩ := hnumber
    have hhead : c.isAlphanum = true ∨ c = '\'' := (number_head hw).imp_left fun hd => isAlphanum_iff.mpr (.inr hd)
    rw [Plainly, if_neg fun h => hnot ⟨.inr h.1, hdigit.mp h.2⟩, List.forall_mem_cons,
      ← staysOver_number (s := s) (r := r), ← hm]
    rw [contextOf_number { st with cur := st.cur ++ v } hm] at hnext
    constructor
    · rintro ⟨⟨hover, _⟩, hrest⟩
      exact ⟨fun h => hnot ⟨.inl h.1, hdigit.mp h.2⟩, ⟨hhead, hover⟩, (hnext hover).mp hrest⟩
    · rintro ⟨_, ⟨_, hover⟩, hrest⟩
      exact ⟨⟨hover, fun hstate => absurd (hm.symm.trans hstate) (by decide)⟩, (hnext hover).mpr hrest⟩

theorem respect_name (hw : isName (c :: v) = true) (hread : Reading E force s ctx pos tokens (c :: v ++ r)) :
    TokensRespect tokens pos (.name (c :: v) :: xs) ↔ Plainly ctx (.name (c :: v) :: xs) := by
  rw [List.cons_append] at hread
  obtain ⟨st, pre, hent, rfl, rfl⟩ := hread
  have hw' : '#' ∉ c :: v := fun hmem => hclean (List.mem_append_left r hmem)
  have hv : '#' ∉ v := fun hmem => hw' (List.mem_cons_of_mem c hmem)
  have hr : '#' ∉ r := fun hmem => hclean (List.mem_append_right _ hmem)
  have hnext := fun hover => ih _ _ _ (reading_after E force hent.cur hent.clean hv hr hover)
  rw [TokensRespect, List.length_cons, E.inOneToken_iff force hent.cur hent.clean hv hr]
  cases name_head hw with
  | inr hescape =>
    subst hescape
    have hm := hent.escape
    rw [contextOf_nothing { st with cur := st.cur ++ v } hm, hm] at hnext
    rw [Plainly, if_pos List.mem_cons_self, List.forall_mem_cons, ← staysOver_nothing (s := s) (r := r) hv, hm]
    constructor
    · rintro ⟨hover, hrest⟩
      exact ⟨⟨by decide, hover⟩, (hnext hover).mp hrest⟩
    · rintro ⟨⟨_, hover⟩, hrest⟩
      exact ⟨hover, (hnext hover).mpr hrest⟩
  | inl hplain =>
    obtain ⟨hc, haccept⟩ := hplain
    by_cases hesc : '\\' ∈ v
    · have hm : st.matching ≠ .nothing := by
        cases hent.name hc with
        | inl hstate => simp [hstate.1]
        | inr hnumber => simp [hnumber.1]
      rw [Plainly, if_pos (List.mem_cons_of_mem c hesc), List.forall_mem_cons]
      constructor
      · rintro ⟨hover, _⟩
        exact absurd hover (not_staysOver (fun upto => escape_leaves hm upto s) hesc)
      · rintro ⟨⟨⟨halnum, hscore, _⟩, _⟩, _⟩
        cases hc with
        | inl halpha => exact absurd (isAlphanum_iff.mpr (.inl halpha)) (by simp [halnum])
        | inr heq => exact absurd heq hscore
    · have hne : '\\' ∉ c :: v := by
        intro hmem
        cases List.mem_cons.mp hmem with
        | inl hhead => exact absurd hc (by rw [← hhead]; decide)
        | inr htail => exact hesc htail
      have hbare : NameAt.plain.Bare := .inr (.inl rfl)
      cases hent.name hc with
      | inl hstate =>
        obtain ⟨hm, hnot, hpre⟩ := hstate
        have hover : StaysOver st.matching s r v := by
          rw [hm]
          exact staysOver_state_name hbare hesc haccept
        have hin : '[' ∈ st.cur ++ v ↔ ctx = .index ∨ '[' ∈ c :: v := by
          rw [hent.cur, List.append_assoc, List.mem_append, hpre]
          rfl
        have hhead : ¬ (ctx = .number ∧ (c :: v).head? ≠ some '_') := by simpa using hnot
        rw [Plainly, if_neg hne, if_neg hhead, hnext hover,
          contextOf_state { st with cur := st.cur ++ v } hm hin]
        exact and_iff_right hover
      | inr hnumber =>
        obtain ⟨hm, hctx, hscore⟩ := hnumber
        have hhead : ctx = .number ∧ (c :: v).head? ≠ some '_' := ⟨hctx, by simpa using hscore⟩
        have hletters : StaysOver st.matching s r v ↔ ∀ d ∈ v, d.isAlphanum = true := by
          rw [hm, staysOver_number]
          refine forall₂_congr fun d hd => or_iff_left ?_
          rintro rfl
          have hletter := name_letters hbare hesc haccept _ hd
          rw [isNameLetter] at hletter
          exact absurd hletter (by decide)
        rw [contextOf_number { st with cur := st.cur ++ v } hm] at hnext
        rw [Plainly, if_neg hne, if_pos hhead, List.forall_mem_cons, ← hletters]
        constructor
        · rintro ⟨hover, hrest⟩
          exact ⟨⟨isAlphanum_iff.mpr (.inl (hc.resolve_right hscore)), hover⟩, (hnext hover).mp hrest⟩
        · rintro ⟨⟨_, hover⟩, hrest⟩
          exact ⟨hover, (hnext hover).mpr hrest⟩

end Steps

theorem respect_iff {s r : List Char} {xs : List Lexeme} (hlex : Lexes r xs) (hr : '#' ∉ r) :
    ∀ ctx pos tokens, Reading E force s ctx pos tokens r → (TokensRespect tokens pos xs ↔ Plainly ctx xs) := by
  induction hlex with
  | nil => exact fun _ _ _ _ => Iff.rfl
  | @number w r xs hlong _ ih =>
    intro ctx pos tokens hread
    cases w with
    | nil => cases hlong.matched
    | cons c v => exact respect_number hr (ih fun hmem => hr (List.mem_append_right _ hmem)) hlong.matched hread
  | @name w r xs hlong _ ih =>
    intro ctx pos tokens hread
    cases w with
    | nil => cases hlong.matched
    | cons c v => exact respect_name hr (ih fun hmem => hr (List.mem_append_right _ hmem)) hlong.matched hread
  | @other c r xs hnone hlex ih =>
    intro ctx pos tokens hread
    obtain ⟨st, pre, hent, rfl, rfl⟩ := hread
    obtain ⟨hc, hr⟩ := not_or.mp (mt List.mem_cons.mpr hr)
    have hreading := reading_after E force (s := s) (v := []) hent.cur hent.clean (by simp) hr trivial
    obtain ⟨halnum, hscore⟩ := other_letter hnone
    rw [List.append_nil, List.length_nil, List.nil_append] at hreading
    rw [TokensRespect, Plainly, hlex.text, ← hent.other halnum hscore (Ne.symm hc)]
    exact ih hr _ _ _ hreading

theorem respect_parse_iff {s : List Char} {xs : List Lexeme} (hs : s ≠ []) (hhash : '#' ∉ s) (hlex : Lexes s xs) :
    TokensRespect (E.parseToExtract force s) 0 xs ↔ Plainly .plain xs := by
  cases s with
  | nil => exact absurd rfl hs
  | cons c rest =>
    apply respect_iff E force hlex hhash
    have hclean : '#' ∉ [c] := fun hmem => hhash (List.mem_singleton.mp hmem ▸ List.mem_cons_self)
    exact ⟨⟨begun c, [c], []⟩, [], ⟨rfl, hclean, .inr ⟨.inr rfl, rfl, rfl⟩⟩, rfl, rfl⟩

/-- A text without `#` is read back from its tokens, and they respect its numbers and names exactly if these are plain. -/
theorem faithful_iff_plainly {s : List Char} {xs : List Lexeme} (hs : s ≠ []) (hhash : '#' ∉ s) (hlex : Lexes s xs) :
    Faithful E force s xs ↔ Plainly .plain xs := by
  have hjoined := E.joined_parseToExtract force hhash
  have hrespect := respect_parse_iff E force hs hhash hlex
  constructor
  · exact fun h => hrespect.mp h.respect
  · exact fun h => ⟨hjoined, (E.replace_snd force s).trans hjoined, hrespect.mpr h⟩

def vlgNames : VarExtractor := ⟨fun _ => false, fun _ => false, fun _ => true⟩

/-- A comparison of a register with a number. -/
theorem equation_faithful : Faithful vlgNames false "cnt[3] == 8'hff".toList
    [.name "cnt".toList, .other '[', .number ['3'], .other ']', .other ' ', .other '=', .other '=', .other ' ',
      .number "8'hff".toList] := by
  refine (faithful_iff_plainly vlgNames false (by decide) (by decide) ?_).mpr (by decide +kernel)
  refine .name (w := "cnt".toList) (longest_of_take (r := "[3] == 8'hff".toList) (by decide) (by decide)) ?_
  refine .punctuation (by decide) ?_
  refine .number (w := ['3']) (longest_of_take (r := "] == 8'hff".toList) (by decide) (by decide)) ?_
  refine .punctuation (by decide) (.punctuation (by decide) (.punctuation (by decide) (.punctuation (by decide)
    (.punctuation (by decide) ?_))))
  exact .number (w := "8'hff".toList) (longest_of_take (r := []) (by decide) (by decide)) .nil

/-- What follows the underscore of a number is looked up as a name. -/
theorem underscore_split : Lexes "8'b1010_1010".toList [.number "8'b1010_1010".toList] ∧
    ¬ Faithful vlgNames false "8'b1010_1010".toList [.number "8'b1010_1010".toList] := by
  have hlex : Lexes "8'b1010_1010".toList [.number "8'b1010_1010".toList] :=
    .number (w := "8'b1010_1010".toList) (longest_of_take (r := []) (by decide) (by decide)) .nil
  refine ⟨hlex, fun h => ?_⟩
  have hplain := (respect_parse_iff _ false (by decide) (by decide) hlex).mp h.respect
  exact absurd hplain (by decide +kernel)

end Ilang.VarExtract
