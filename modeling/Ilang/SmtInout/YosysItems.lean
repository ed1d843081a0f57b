import Ilang.SmtInout.YosysWritten

/-!
# Reading functions and datatypes

Parentheses are counted in comments and in quoted names as well, an atom cannot be quoted, and a function at the very end of the text
needs a line break. A function is read as it is written exactly if none of this matters, and the members of a datatype if their types
survive the copy.
-/

namespace Ilang

open YText Brackets

/-! ### Texts in parentheses -/

/-- What is read as it is written: a text whose parentheses are first closed at its end, wherever they stand, or an atom without bars. -/
def TextKept (b : YText) : Prop := b.head? ≠ some '|' ∧ (b.head? = some '(' → Closes '(' ')' 0 b)

theorem read_iff {b : YText} (hb : b.head? = some '(') (rest : YText) :
    Brackets.read '(' ')' 0 (b ++ rest) = some (b, rest) ↔ Closes '(' ')' 0 b :=
  read_closes_iff (by decide) (.inr hb) rest

section Extract

variable {b rest : YText}

theorem extract_paren (hb : b.head? = some '(') : extract (b ++ rest) = Brackets.read '(' ')' 0 (b ++ rest) := by
  obtain ⟨s, rfl⟩ : ∃ s, b = '(' :: s := List.head?_eq_some_iff.mp hb
  have hskip : skip ('(' :: s ++ rest) = '(' :: s ++ rest := skip_cons (by decide) _
  unfold extract
  rw [hskip]
  exact (if_neg (List.cons_ne_nil _ _)).trans (if_pos rfl)

theorem extract_bar (hb : b.head? = some '|') : extract (b ++ rest) = none := by
  obtain ⟨s, rfl⟩ : ∃ s, b = '|' :: s := List.head?_eq_some_iff.mp hb
  have hskip : skip ('|' :: s ++ rest) = '|' :: s ++ rest := skip_cons (by decide) _
  have hparen : ('|' :: s ++ rest).head? ≠ some '(' := fun h => nomatch h
  unfold extract
  rw [hskip]
  exact (if_neg (List.cons_ne_nil _ _)).trans ((if_neg hparen).trans (if_pos rfl))

theorem extract_atom (hb : b ≠ []) (hall : ∀ c ∈ b, c ∉ [' ', '\t', '\n', '\r', '(', ')', ';', '|'])
    (hrest : ∀ c ∈ rest.head?, c ∈ atomEnds) : extract (b ++ rest) = some (b, rest) := by
  obtain ⟨c, s, rfl⟩ := List.exists_cons_of_ne_nil hb
  have hends : ∀ d ∈ c :: s, ¬atomEnds.contains d = true := by
    intro d hd hmem
    have hsub : atomEnds ⊆ [' ', '\t', '\n', '\r', '(', ')', ';', '|'] := by decide
    exact hall d hd (hsub (List.contains_iff_mem.mp hmem))
  have hblank : c ∉ YText.blanks := by
    intro hmem
    have hsub : YText.blanks ⊆ [' ', '\t', '\n', '\r', '(', ')', ';', '|'] := by decide
    exact hall c List.mem_cons_self (hsub hmem)
  have hword : headWord atomEnds (c :: s ++ rest) = c :: s := by
    unfold headWord
    rw [List.cons_append, List.dropWhile_cons_of_neg (hends c List.mem_cons_self)]
    refine (@IStream.takeWhile_append_of_ends (fun c => !atomEnds.contains c) (c :: s) rest (fun d hd => ?_) fun d hd => ?_).1
    · rw [Bool.eq_false_iff.mpr (hends d hd)]
      rfl
    · rw [List.contains_iff_mem.mpr (hrest d hd)]
      rfl
  have hskip : skip (c :: s ++ rest) = c :: s ++ rest := skip_cons hblank _
  have hhead : ∀ d ∈ ['(', '|'], (c :: s ++ rest).head? ≠ some d := by
    intro d hd heq
    have hsub : ['(', '|'] ⊆ [' ', '\t', '\n', '\r', '(', ')', ';', '|'] := by decide
    obtain rfl := Option.some.inj heq
    exact hall c List.mem_cons_self (hsub hd)
  have hskipM : skipM (c :: s) (c :: s ++ rest) = rest := skipM_append (c := c) rfl hblank rest
  unfold extract
  rw [hskip]
  refine (if_neg (List.cons_ne_nil _ _)).trans ((if_neg (hhead '(' (by decide))).trans ((if_neg (hhead '|' (by decide))).trans ?_))
  rw [hword, hskipM]

/-- A text that is read from here: in parentheses, or an atom that ends here. -/
def Readable (b rest : YText) : Prop := b.head? = some '(' ∨ IsAtom b ∧ ∀ c ∈ rest.head?, c ∈ atomEnds

theorem extract_iff (hb : Readable b rest) : extract (b ++ rest) = some (b, rest) ↔ TextKept b := by
  by_cases hparen : b.head? = some '('
  · rw [extract_paren hparen, read_iff hparen]
    constructor
    · exact fun h => ⟨fun hbar => absurd (hparen.symm.trans hbar) (by decide), fun _ => h⟩
    · exact fun h => h.2 hparen
  · obtain ⟨hatom, hrest⟩ := hb.resolve_left hparen
    cases hatom with
    | inl h =>
      refine iff_of_true (extract_atom h.1 h.2 hrest) ⟨fun hbar => ?_, fun h => absurd h hparen⟩
      obtain ⟨s, rfl⟩ := List.head?_eq_some_iff.mp hbar
      exact h.2 '|' List.mem_cons_self (by decide)
    | inr h =>
      obtain ⟨x, -, rfl⟩ := h
      rw [extract_bar rfl]
      exact iff_of_false (fun h => nomatch h) fun h => h.1 rfl

theorem rest_of_extract (hb : Readable b rest) {r : YText} (h : extract (b ++ rest) = some (b, r)) : r = rest := by
  by_cases hparen : b.head? = some '('
  · rw [extract_paren hparen] at h
    exact (List.append_cancel_left (read_append h).1).symm
  · obtain ⟨hatom, hrest⟩ := hb.resolve_left hparen
    cases hatom with
    | inl hatom =>
      rw [extract_atom hatom.1 hatom.2 hrest] at h
      exact (Prod.mk.inj (Option.some.inj h)).2.symm
    | inr hatom =>
      obtain ⟨x, -, rfl⟩ := hatom
      rw [extract_bar rfl] at h
      cases h

end Extract

/-! ### Functions -/

theorem expect_append (s rest : YText) : expect s (s ++ rest) = some () :=
  if_pos (List.isPrefixOf_iff_prefix.mpr (List.prefix_append _ _))

theorem starts_append {s : YText} {c : Char} (hs : s.head? = some c) (hc : c ∉ YText.blanks) (rest : YText) : Starts (s ++ rest) := by
  obtain ⟨t, rfl⟩ := List.head?_eq_some_iff.mp hs
  exact fun d hd => Option.some.inj hd ▸ hc

theorem atomEnds_gap {g : YText} (hg : Gap g) (it : YText) : ∀ c ∈ (g ++ ')' :: it).head?, c ∈ atomEnds := by
  intro c hc
  cases g with
  | nil => exact Option.some.inj hc ▸ by decide
  | cons d g =>
    have hsub : YText.blanks ⊆ atomEnds := by decide
    exact Option.some.inj hc ▸ hsub (hg d List.mem_cons_self)

theorem notMem_gap {g : YText} (hg : Gap g) {c : Char} (hc : c ∉ YText.blanks) : c ∉ g := fun hmem => hc (hg c hmem)

theorem readComment_text {e : Ending} {rest : YText} (he : e.Ok (rest = [])) (hrest : Starts rest) :
    (e.comment = none ∧ e.blank = [] → FuncDef.readComment (e.text ++ rest) = none) ∧
      (e.comment ≠ none ∨ e.blank ≠ [] → ∃ r, FuncDef.readComment (e.text ++ rest) = some (e.comment.getD [], r) ∧ skip r = rest) := by
  unfold FuncDef.readComment
  cases hcomment : e.comment with
  | none =>
    obtain ⟨hno, hjump⟩ := Ending.noComment_none he hcomment
    rw [hno]
    constructor
    · intro h
      rw [decide_eq_false fun hblank => hblank h.2, hjump h.2]
      rfl
    · intro h
      have hblank := h.resolve_left fun h => h rfl
      rw [decide_eq_true hblank]
      refine ⟨_, rfl, ?_⟩
      unfold Ending.text
      rw [hcomment, Option.elim_none, List.nil_append, List.append_assoc, skip_gap (Ending.gap_blank he)]
      exact Ending.skip_blank he hrest
  | some t =>
    obtain ⟨hno, hjump⟩ := Ending.noComment_some he hcomment
    rw [hno, hjump]
    refine ⟨fun h => absurd h.1 (Option.some_ne_none t), fun _ => ⟨(e.blank ++ rest).dropWhile isEol, ?_, ?_⟩⟩
    · rw [if_neg Bool.false_ne_true, Option.bind_some, show ';' :: (t ++ (e.blank ++ rest)) = [';'] ++ (t ++ (e.blank ++ rest)) from rfl,
        accept_append (c := ';') rfl (by decide), Option.map_some, readlineNoEol_append (he.comment t hcomment) (Ending.endsLine he)]
      rfl
    · rw [skip_dropWhile_isEol, Ending.skip_blank he hrest]

namespace WrittenFunc

/-- What is read for a function with some comment. -/
def read (f : WrittenFunc) (comment : YText) : FuncDef :=
  ⟨f.quoted, FuncDef.moduleOf f.quoted, f.args, f.type.read, f.body, comment⟩

/-- What a function is read as: its texts and its type are kept, and there is something behind it. -/
structure Kept (f : WrittenFunc) (e : Ending) : Prop where
  args : TextKept f.args
  type : f.type.Printable
  body : TextKept f.body
  ending : e.comment ≠ none ∨ e.blank ≠ []

variable {f : WrittenFunc} {rest : YText}

/-- The part from the arguments on. -/
def argsText (f : WrittenFunc) (rest : YText) : YText :=
  f.args ++ (f.typeGap ++ (f.type.text ++ (f.bodyGap ++ (f.body ++ (f.closeGap ++ ')' :: rest)))))

theorem head_args (hf : f.Ok) : f.args.head? = some '(' := by
  obtain ⟨s, hs⟩ := hf.args
  rw [← hs]
  rfl

theorem parse_text (hf : f.Ok) : FuncDef.parseFromString (f.text ++ rest) = (extract (argsText f rest)).bind fun a =>
    (YType.parseFromString a.2).bind fun t => (extract (skip t.2)).bind fun b =>
      ((jumpToNext ')' b.2).bind (accept [')'])).bind fun it => (FuncDef.readComment it).map fun c =>
        (⟨f.quoted, FuncDef.moduleOf f.quoted, a.1, t.1, b.1, c.1⟩, c.2) := by
  have htext : f.text ++ rest = "(define-fun ".toList ++ (f.quoted ++ (f.argsGap ++ argsText f rest)) := by
    unfold text argsText
    generalize "(define-fun ".toList = s
    simp only [List.append_assoc, List.singleton_append]
  have hskip : skip ("(define-fun ".toList ++ (f.quoted ++ (f.argsGap ++ argsText f rest))) =
      "(define-fun ".toList ++ (f.quoted ++ (f.argsGap ++ argsText f rest)) :=
    skip_starts (starts_append (s := "(define-fun ".toList) (c := '(') rfl (by decide) _)
  have hquoted : f.quoted ++ (f.argsGap ++ argsText f rest) = '|' :: f.name ++ '|' :: (f.argsGap ++ argsText f rest) := by
    unfold quoted
    rw [List.append_assoc, List.singleton_append]
  have hname : skip (f.quoted ++ (f.argsGap ++ argsText f rest)) = f.quoted ++ (f.argsGap ++ argsText f rest) :=
    skip_starts (starts_append (c := '|') rfl (by decide) _)
  have hbar : expect ['|'] (f.quoted ++ (f.argsGap ++ argsText f rest)) = some () := expect_append ['|'] _
  have hread : acceptCurrentAndReadUntil ['|'] (f.quoted ++ (f.argsGap ++ argsText f rest)) =
      (f.quoted, f.argsGap ++ argsText f rest) := by
    rw [hquoted]
    exact YType.read_until_bar hf.name _
  obtain ⟨s, hs⟩ := hf.args
  have hargs : skip (f.argsGap ++ argsText f rest) = argsText f rest := by
    rw [skip_gap hf.argsGap]
    exact skip_starts (starts_append (c := '(') (head_args hf) (by decide) _)
  have hstate : expect "((state ".toList (argsText f rest) = some () := by
    unfold argsText
    rw [← hs, List.append_assoc]
    exact expect_append _ _
  unfold FuncDef.parseFromString
  simp only [htext, hskip, accept_append (s := "(define-fun ".toList) (c := '(') rfl (by decide), hname, hbar, hread, hargs, hstate,
    Option.bind_eq_bind, Option.bind_some, Option.map_eq_bind]
  rfl

/-- The part from the type on. -/
def typeText (f : WrittenFunc) (rest : YText) : YText :=
  f.typeGap ++ (f.type.text ++ (f.bodyGap ++ (f.body ++ (f.closeGap ++ ')' :: rest))))

theorem readable_args (hf : f.Ok) : Readable f.args (typeText f rest) := .inl (head_args hf)

theorem readable_body (hf : f.Ok) : Readable f.body (f.closeGap ++ ')' :: rest) :=
  hf.body.imp_right fun h => ⟨h, atomEnds_gap hf.closeGap rest⟩

theorem starts_body (hf : f.Ok) (it : YText) : Starts (f.body ++ it) := by
  cases hf.body with
  | inl h => exact starts_append h (by decide) it
  | inr h =>
    cases h with
    | inl h =>
      obtain ⟨c, s, hbody⟩ := List.exists_cons_of_ne_nil h.1
      have hc : c ∉ YText.blanks := by
        have hsub : YText.blanks ⊆ [' ', '\t', '\n', '\r', '(', ')', ';', '|'] := by decide
        exact fun hmem => h.2 c (hbody ▸ List.mem_cons_self) (hsub hmem)
      exact starts_append (c := c) (by rw [hbody]; rfl) hc it
    | inr h =>
      obtain ⟨x, -, hbody⟩ := h
      exact starts_append (c := '|') (by rw [hbody]; rfl) (by decide) it

theorem parse_typeText (hf : f.Ok) : YType.parseFromString (typeText f rest) =
    some (f.type.read, f.bodyGap ++ (f.body ++ (f.closeGap ++ ')' :: rest))) := YType.parse_text hf.type hf.typeGap _

theorem skip_bodyGap (hf : f.Ok) (it : YText) : skip (f.bodyGap ++ (f.body ++ it)) = f.body ++ it :=
  (skip_gap hf.bodyGap _).trans (skip_starts (starts_body hf it))

theorem jump_close (hf : f.Ok) : (jumpToNext ')' (f.closeGap ++ ')' :: rest)).bind (accept [')']) = some rest := by
  rw [jumpToNext_append (notMem_gap hf.closeGap (by decide)), jumpToNext_self, Option.bind_some]
  exact accept_append (s := [')']) (c := ')') rfl (by decide) rest

theorem parse_kept {e : Ending} (hf : f.Ok) (he : e.Ok (rest = [])) (hrest : Starts rest) (hk : f.Kept e) :
    ∃ r, FuncDef.parseFromString (f.text ++ (e.text ++ rest)) = some (f.read (e.comment.getD []), r) ∧ skip r = rest := by
  have hargs : extract (argsText f (e.text ++ rest)) = some (f.args, typeText f (e.text ++ rest)) :=
    (extract_iff (readable_args hf)).mpr hk.args
  have hbody : extract (f.body ++ (f.closeGap ++ ')' :: (e.text ++ rest))) = some (f.body, f.closeGap ++ ')' :: (e.text ++ rest)) :=
    (extract_iff (readable_body hf)).mpr hk.body
  obtain ⟨r, hr, hskip⟩ := (readComment_text he hrest).2 hk.ending
  refine ⟨r, ?_, hskip⟩
  rw [parse_text hf, hargs, Option.bind_some, parse_typeText hf, Option.bind_some, skip_bodyGap hf, hbody, Option.bind_some,
    jump_close hf, Option.bind_some, hr, Option.map_some]
  rfl

theorem kept_of_parse {e : Ending} (hf : f.Ok) (he : e.Ok (rest = [])) (hrest : Starts rest) {d : FuncDef} {r : YText}
    (h : FuncDef.parseFromString (f.text ++ (e.text ++ rest)) = some (d, r)) (hargs : d.argsText = f.args)
    (htype : d.retType = f.type) (hbody : d.funcBody = f.body) : f.Kept e := by
  rw [parse_text hf] at h
  obtain ⟨⟨args, r₁⟩, ha, h⟩ := Option.bind_eq_some_iff.mp h
  obtain ⟨⟨t, r₂⟩, ht, h⟩ := Option.bind_eq_some_iff.mp h
  obtain ⟨⟨body, r₃⟩, hb, h⟩ := Option.bind_eq_some_iff.mp h
  obtain ⟨r₄, hclose, h⟩ := Option.bind_eq_some_iff.mp h
  obtain ⟨⟨c, r₅⟩, hc, heq⟩ := Option.map_eq_some_iff.mp h
  obtain ⟨rfl, rfl⟩ := Prod.mk.inj heq
  obtain rfl : args = f.args := hargs
  obtain rfl : body = f.body := hbody
  obtain rfl := rest_of_extract (readable_args hf) ha
  obtain ⟨rfl, rfl⟩ := Prod.mk.inj (Option.some.inj ((parse_typeText hf).symm.trans ht))
  rw [skip_bodyGap hf] at hb
  obtain rfl := rest_of_extract (readable_body hf) hb
  obtain rfl := Option.some.inj ((jump_close hf).symm.trans hclose)
  refine ⟨(extract_iff (readable_args hf)).mp ha, (YType.read_eq_iff hf.type).mp htype, (extract_iff (readable_body hf)).mp hb, ?_⟩
  by_contra hnone
  rw [not_or, not_not, not_not] at hnone
  rw [(readComment_text he hrest).1 hnone] at hc
  cases hc

end WrittenFunc

/-! ### Members -/

/-- The comments that a Verilog name is taken from. -/
def CommentKept (t : YText) : Prop :=
  "; $".toList <+: ';' :: t ∨ "; \x7b".toList <+: ';' :: t ∨ "; \\".toList <+: ';' :: t

section Comment

variable {t tail : YText}

theorem accept_comment (ht : ∀ c ∈ t, isEol c = false) (htail : EndsLine tail) {p u : YText} (hp : p.head? = some ';')
    (hpu : ';' :: t = p ++ u) : (accept p (';' :: (t ++ tail))).map readlineNoEol = some (u, tail.dropWhile isEol) := by
  have hu : ∀ c ∈ u, isEol c = false := by
    intro c hc
    have hmem : c ∈ ';' :: t := hpu ▸ List.mem_append_right p hc
    cases List.mem_cons.mp hmem with
    | inl h => exact h ▸ rfl
    | inr h => exact ht c h
  rw [show ';' :: (t ++ tail) = (';' :: t) ++ tail from rfl, hpu, List.append_assoc, accept_append hp (by decide), Option.map_some,
    readlineNoEol_append hu htail]

theorem headWord_comment (ht : ∀ c ∈ t, isEol c = false) (htail : EndsLine tail) :
    headWord ['\n', '\r'] (';' :: (t ++ tail)) = ';' :: t := by
  have hcontains : ∀ c, ['\n', '\r'].contains c = isEol c := by
    intro c
    unfold isEol
    rw [Bool.eq_iff_iff, List.contains_iff_mem, Bool.or_eq_true, decide_eq_true_eq, decide_eq_true_eq, List.mem_pair]
  have hnot : ¬['\n', '\r'].contains ';' = true := by decide
  unfold headWord
  rw [List.dropWhile_cons_of_neg hnot]
  refine (@IStream.takeWhile_append_of_ends (fun c => !(['\n', '\r'].contains c)) (';' :: t) tail (fun c hc => ?_) fun c hc => ?_).1
  · rw [hcontains]
    cases List.mem_cons.mp hc with
    | inl h => exact h ▸ rfl
    | inr h => rw [ht c h]; rfl
  · rw [hcontains, htail c hc]
    rfl

theorem readComment_member (ht : ∀ c ∈ t, isEol c = false) (htail : EndsLine tail) :
    (∀ r, YMember.readComment (';' :: (t ++ tail)) = some r → CommentKept t) ∧
      (CommentKept t → ∃ name, YMember.readComment (';' :: (t ++ tail)) = some (name, tail.dropWhile isEol)) := by
  unfold YMember.readComment CommentKept
  rw [headWord_comment ht htail]
  simp only [List.isPrefixOf_iff_prefix]
  by_cases hdollar : "; $".toList <+: ';' :: t
  · obtain ⟨u, hu⟩ := hdollar
    rw [if_pos ⟨u, hu⟩, accept_comment ht htail rfl hu.symm]
    exact ⟨fun _ _ => .inl ⟨u, hu⟩, fun _ => ⟨u, rfl⟩⟩
  · rw [if_neg hdollar, or_iff_right hdollar]
    by_cases hbrace : "; \x7b".toList <+: ';' :: t
    · obtain ⟨u, hu⟩ := hbrace
      have haccept := @accept_comment t tail ht htail "; ".toList ('{' :: u) rfl hu.symm
      obtain ⟨it, hit, hline⟩ := Option.map_eq_some_iff.mp haccept
      rw [if_pos ⟨u, hu⟩, hit, Option.map_some, hline]
      exact ⟨fun _ _ => .inl ⟨u, hu⟩, fun _ => ⟨_, rfl⟩⟩
    · rw [if_neg hbrace, or_iff_right hbrace]
      by_cases hslash : "; \\".toList <+: ';' :: t
      · obtain ⟨u, hu⟩ := hslash
        rw [if_pos ⟨u, hu⟩, accept_comment ht htail rfl hu.symm]
        exact ⟨fun _ _ => ⟨u, hu⟩, fun _ => ⟨u, rfl⟩⟩
      · rw [if_neg hslash]
        exact ⟨fun r h => (nomatch h), fun h => absurd h hslash⟩

end Comment

theorem Ending.Ok.weaken {e : Ending} {p : Prop} (h : e.Ok False) : e.Ok p :=
  ⟨h.gap, h.comment, h.blank, h.line.imp_right fun h => h.2.elim⟩

namespace WrittenMember

variable {v : WrittenMember} {rest : YText}

/-- A member whose module can be told, and whose comment has a Verilog name. -/
structure Named (v : WrittenMember) : Prop where
  module : (∃ m, v.type = .datatype m) ∨ (YMember.moduleOf v.quoted).isSome
  comment : ∀ t ∈ v.ending.comment, CommentKept t

def var (v : WrittenMember) : StateVar := ⟨v.quoted, v.type⟩

/-- What a member is recorded as. -/
def readVar (v : WrittenMember) : StateVar := ⟨v.quoted, v.type.read.copy⟩

theorem readVar_eq_iff (hv : v.Ok) : v.readVar = v.var ↔ v.type.Printable ∧ ∀ widths, v.type ≠ .array widths := by
  rw [← YType.read_copy_eq_iff hv.type]
  unfold readVar var
  rw [StateVar.mk.injEq, and_iff_right rfl]

theorem comment_text (hv : v.Ok) (hrest : Starts rest) :
    (∀ r, YMember.readVerilogName (v.ending.text ++ rest) = some r → ∀ t ∈ v.ending.comment, CommentKept t) ∧
      ((∀ t ∈ v.ending.comment, CommentKept t) →
        ∃ name r, YMember.readVerilogName (v.ending.text ++ rest) = some (name, r) ∧ skip r = rest) := by
  unfold YMember.readVerilogName
  have he : v.ending.Ok (rest = []) := hv.ending.weaken
  cases hcomment : v.ending.comment with
  | none =>
    have hblank : v.ending.blank ≠ [] := by
      cases hv.ending.line with
      | inl h =>
        obtain ⟨c, s, hblank, -⟩ := h
        exact hblank ▸ List.cons_ne_nil c s
      | inr h => exact h.2.elim
    rw [(Ending.noComment_none he hcomment).1, decide_eq_true hblank, if_pos rfl]
    refine ⟨fun _ _ t ht => (nomatch ht), fun _ => ⟨_, _, rfl, ?_⟩⟩
    unfold Ending.text
    rw [hcomment, Option.elim_none, List.nil_append, List.append_assoc, skip_gap (Ending.gap_blank he)]
    exact Ending.skip_blank he hrest
  | some t =>
    obtain ⟨hno, hjump⟩ := Ending.noComment_some he hcomment
    obtain ⟨hnec, hsuf⟩ := readComment_member (he.comment t hcomment) (Ending.endsLine he)
    rw [hno, hjump, if_neg Bool.false_ne_true, Option.bind_some]
    constructor
    · exact fun r hr u hu => Option.some.inj hu ▸ hnec r hr
    · intro h
      obtain ⟨name, hname⟩ := hsuf (h t rfl)
      exact ⟨name, _, hname, by rw [skip_dropWhile_isEol, Ending.skip_blank he hrest]⟩

theorem parse_text (hv : v.Ok) (m : YText) : YMember.parseFromString (v.text ++ rest) m =
    (YMember.moduleFor m v.quoted v.type.read).bind fun moduleName =>
      (YMember.readVerilogName (v.ending.text ++ rest)).map fun c => (⟨v.quoted, moduleName, c.1, v.type.read⟩, c.2) := by
  have htext : v.text ++ rest =
      ['('] ++ (v.quoted ++ (v.typeGap ++ (v.type.text ++ (v.closeGap ++ ([')'] ++ (v.ending.text ++ rest)))))) := by
    unfold text
    simp only [List.append_assoc, List.cons_append, List.nil_append]
  have hskip : ∀ it, skip (['('] ++ it) = ['('] ++ it := fun it => skip_cons (by decide) it
  have hname : ∀ it, skip (v.quoted ++ it) = v.quoted ++ it := fun it =>
    skip_starts (starts_append (s := v.quoted) (c := '|') rfl (by decide) it)
  have hhead : ∀ it, (v.quoted ++ it).head? = some '|' := fun _ => rfl
  have hread : ∀ it, acceptCurrentAndReadUntil ['|'] (v.quoted ++ it) = (v.quoted, it) := by
    intro it
    have hquoted : v.quoted ++ it = '|' :: v.name ++ '|' :: it := by
      unfold quoted
      rw [List.append_assoc, List.singleton_append]
    rw [hquoted]
    exact YType.read_until_bar hv.name _
  have hclose : ∀ it, skip (v.closeGap ++ ([')'] ++ it)) = [')'] ++ it := fun it =>
    (skip_gap hv.closeGap _).trans (skip_cons (by decide) it)
  unfold YMember.parseFromString
  simp only [htext, hskip, accept_append (s := ['(']) (c := '(') rfl (by decide), hname, hhead, hread, if_true,
    YType.parse_text hv.type hv.typeGap, hclose, accept_append (s := [')']) (c := ')') rfl (by decide), Option.bind_eq_bind,
    Option.bind_some, Option.map_eq_bind]
  rfl

theorem moduleFor_isSome (m : YText) : (YMember.moduleFor m v.quoted v.type.read).isSome ↔
    (∃ n, v.type = .datatype n) ∨ (YMember.moduleOf v.quoted).isSome := by
  have hplain : ∀ {t : YType}, v.type = t → (∀ n, t ≠ .datatype n) → ((∃ n, v.type = .datatype n) ∨ (YMember.moduleOf v.quoted).isSome ↔
      (YMember.moduleOf v.quoted).isSome) := by
    intro t ht hne
    exact or_iff_right fun h => hne _ (ht.symm.trans h.choose_spec)
  cases htype : v.type with
  | bool => exact (htype ▸ hplain htype fun n h => nomatch h).symm
  | bv w => exact (htype ▸ hplain htype fun n h => nomatch h).symm
  | array widths =>
    cases widths with
    | none => exact (htype ▸ hplain htype fun n h => nomatch h).symm
    | some widths => exact (htype ▸ hplain htype fun n h => nomatch h).symm
  | datatype n => exact iff_of_true rfl (.inl ⟨n, rfl⟩)

theorem named_of_parse (hv : v.Ok) (hrest : Starts rest) {m : YText} {p : YMember × YText}
    (h : YMember.parseFromString (v.text ++ rest) m = some p) : v.Named := by
  rw [parse_text hv] at h
  obtain ⟨n, hn, h⟩ := Option.bind_eq_some_iff.mp h
  obtain ⟨c, hc, -⟩ := Option.map_eq_some_iff.mp h
  exact ⟨(moduleFor_isSome m).mp (hn ▸ rfl), (comment_text hv hrest).1 c hc⟩

theorem parse_named (hv : v.Ok) (hrest : Starts rest) (hnamed : v.Named) (m : YText) : ∃ d r,
    YMember.parseFromString (v.text ++ rest) m = some (d, r) ∧ d.internalName = v.quoted ∧ d.type = v.type.read ∧ skip r = rest := by
  obtain ⟨n, hn⟩ := Option.isSome_iff_exists.mp ((moduleFor_isSome m).mpr hnamed.module)
  obtain ⟨name, r, hr, hskip⟩ := (comment_text hv hrest).2 hnamed.comment
  exact ⟨_, r, by rw [parse_text hv, hn, Option.bind_some, hr, Option.map_some], rfl, rfl, hskip⟩

end WrittenMember

/-- The name and the type of a member. -/
def YMember.var (d : YMember) : StateVar := ⟨d.internalName, d.type⟩

section Members

variable {x : YText}

theorem starts_members (hx : Starts x) (l : List WrittenMember) : Starts (l.flatMap WrittenMember.text ++ x) := by
  cases l with
  | nil => exact hx
  | cons v l => exact fun c hc => Option.some.inj hc ▸ (by decide : '(' ∉ YText.blanks)

theorem members_append (v : WrittenMember) (l : List WrittenMember) :
    (v :: l).flatMap WrittenMember.text ++ x = v.text ++ (l.flatMap WrittenMember.text ++ x) := by
  rw [List.flatMap_cons, List.append_assoc]

theorem parseAll_member (m : YText) (fuel : Nat) (v : WrittenMember) (it : YText) : YMember.parseAll m (fuel + 1) (v.text ++ it) =
    (YMember.parseFromString (v.text ++ it) m).bind fun d => (YMember.parseAll m fuel (skip d.2)).bind fun q =>
      some ({ d.1 with type := d.1.type.copy } :: q.1, q.2) := by
  have hne : v.text ++ it ≠ [] := fun h => nomatch h
  have hhead : (v.text ++ it).head? = some '(' := rfl
  rw [YMember.parseAll, if_neg hne, if_pos hhead]
  rfl

theorem named_of_parseAll (hx : Starts x) {m : YText} {fuel : Nat} {l : List WrittenMember} (hl : ∀ v ∈ l, v.Ok)
    {p : List YMember × YText} (h : YMember.parseAll m fuel (l.flatMap WrittenMember.text ++ x) = some p) : ∀ v ∈ l, v.Named := by
  induction l generalizing fuel p with
  | nil => exact fun v hv => nomatch hv
  | cons v l ih =>
    obtain ⟨hv, hl⟩ := List.forall_mem_cons.mp hl
    have hrest := starts_members hx l
    rw [members_append] at h
    cases fuel with
    | zero => cases h
    | succ fuel =>
      rw [parseAll_member] at h
      obtain ⟨d, hd, h⟩ := Option.bind_eq_some_iff.mp h
      obtain ⟨q, hq, -⟩ := Option.bind_eq_some_iff.mp h
      have hnamed := v.named_of_parse hv hrest hd
      obtain ⟨d', r, hd', -, -, hskip⟩ := v.parse_named hv hrest hnamed m
      obtain rfl := Option.some.inj (hd.symm.trans hd')
      rw [hskip] at hq
      exact List.forall_mem_cons.mpr ⟨hnamed, ih hl hq⟩

theorem parseAll_named (hx : Starts x) (hne : x ≠ []) (hhead : x.head? ≠ some '(') (m : YText) {fuel : Nat} {l : List WrittenMember}
    (hl : ∀ v ∈ l, v.Ok) (hnamed : ∀ v ∈ l, v.Named) (hfuel : l.length < fuel) :
    ∃ vars, YMember.parseAll m fuel (l.flatMap WrittenMember.text ++ x) = some (vars, x) ∧
      vars.map YMember.var = l.map WrittenMember.readVar := by
  induction l generalizing fuel with
  | nil =>
    cases fuel with
    | zero => exact absurd hfuel (Nat.not_lt_zero _)
    | succ fuel => exact ⟨[], (if_neg hne).trans (if_neg hhead), rfl⟩
  | cons v l ih =>
    obtain ⟨hv, hl⟩ := List.forall_mem_cons.mp hl
    obtain ⟨hvn, hln⟩ := List.forall_mem_cons.mp hnamed
    cases fuel with
    | zero => exact absurd hfuel (Nat.not_lt_zero _)
    | succ fuel =>
      obtain ⟨d, r, hd, hname, htype, hskip⟩ := v.parse_named hv (starts_members hx l) hvn m
      obtain ⟨vars, hvars, hmap⟩ := @ih fuel hl hln (Nat.lt_of_succ_lt_succ hfuel)
      refine ⟨{ d with type := d.type.copy } :: vars, ?_, ?_⟩
      · rw [members_append, parseAll_member, hd, Option.bind_some, hskip, hvars, Option.bind_some]
      · rw [List.map_cons, List.map_cons, hmap, YMember.var, hname, htype]
        rfl

end Members

/-! ### Datatypes -/

section Datatype

variable {m g h : YText} {l : List WrittenMember} {e : Ending} {rest : YText}

/-- The members of a datatype and what follows. -/
def membersText (l : List WrittenMember) (rest : YText) : YText := l.flatMap WrittenMember.text ++ (")))".toList ++ rest)

theorem starts_close (rest : YText) : Starts (")))".toList ++ rest) := starts_append (c := ')') rfl (by decide) rest

theorem parseDatatype_text (hm : '|' ∉ m) (hg : Gap g) (hh : Gap h) :
    parseDatatype ((WrittenItem.datatype m g h l e).text ++ rest) =
      (YMember.parseAll m ((membersText l (e.text ++ rest)).length + 1) (membersText l (e.text ++ rest))).bind fun p =>
        (accept ")))".toList p.2).map fun it => (m, p.1, it) := by
  have htext : (WrittenItem.datatype m g h l e).text ++ rest = "(declare-datatype ".toList ++ ('|' :: (m ++ "_s".toList) ++ '|' :: (g ++
      (("((".toList ++ ('|' :: m ++ ['_']) ++ "mk|".toList) ++ (h ++ membersText l (e.text ++ rest))))) := by
    have hs : "_s|".toList = "_s".toList ++ ['|'] := rfl
    have hmk : "_mk|".toList = '_' :: "mk|".toList := rfl
    have hopen : "((|".toList = "((".toList ++ ['|'] := rfl
    unfold WrittenItem.text membersText
    rw [hs, hmk, hopen]
    generalize "(declare-datatype ".toList = d, "_s".toList = s, "mk|".toList = k, "((".toList = o, ")))".toList = c
    simp only [List.append_assoc, List.cons_append, List.nil_append]
  have hskip : ∀ it, skip ("(declare-datatype ".toList ++ it) = "(declare-datatype ".toList ++ it := fun it =>
    skip_starts (starts_append (s := "(declare-datatype ".toList) (c := '(') rfl (by decide) it)
  have hbar : '|' ∉ m ++ "_s".toList := by
    rw [List.mem_append, not_or]
    exact ⟨hm, by decide⟩
  have hread : ∀ it, acceptCurrentAndReadUntil ['|'] ('|' :: (m ++ "_s".toList) ++ '|' :: it) =
      ('|' :: (m ++ "_s".toList) ++ ['|'], it) := YType.read_until_bar hbar
  have hhead : ∀ it, ('|' :: (m ++ "_s".toList) ++ '|' :: it).head? = some '|' := fun _ => rfl
  have hlen : ('|' :: (m ++ "_s".toList) ++ ['|']).length = m.length + 4 := by
    simp only [List.length_append, List.length_cons, List.length_nil]
    rfl
  have hmodule : YType.moduleOf ('|' :: (m ++ "_s".toList) ++ ['|']) = m := by
    rw [YType.moduleOf, hlen, if_neg (by omega), Nat.add_sub_cancel, List.cons_append, List.drop_one, List.tail_cons, List.append_assoc,
      List.take_left]
  have hprefix : (if ('|' :: (m ++ "_s".toList) ++ ['|']).length < 2 then '|' :: (m ++ "_s".toList) ++ ['|']
      else ('|' :: (m ++ "_s".toList) ++ ['|']).take (('|' :: (m ++ "_s".toList) ++ ['|']).length - 2)) = '|' :: m ++ ['_'] := by
    have hsplit : '|' :: (m ++ "_s".toList) ++ ['|'] = ('|' :: m ++ ['_']) ++ ['s', '|'] := by
      rw [show "_s".toList = ['_', 's'] from rfl]
      simp only [List.append_assoc, List.cons_append, List.nil_append]
    have hlen' : m.length + 4 - 2 = ('|' :: m ++ ['_']).length := by
      simp only [List.length_append, List.length_cons, List.length_nil]
      omega
    rw [hlen, if_neg (by omega), hsplit, hlen', List.take_left]
  have hopen : ∀ it, skip (g ++ (("((".toList ++ ('|' :: m ++ ['_']) ++ "mk|".toList) ++ it)) =
      ("((".toList ++ ('|' :: m ++ ['_']) ++ "mk|".toList) ++ it := fun it =>
    (skip_gap hg _).trans (skip_starts (starts_append (s := "((".toList ++ ('|' :: m ++ ['_']) ++ "mk|".toList) (c := '(') rfl (by decide) it))
  have hmembers : skip (h ++ membersText l (e.text ++ rest)) = membersText l (e.text ++ rest) :=
    (skip_gap hh _).trans (skip_starts (starts_members (starts_close _) l))
  unfold parseDatatype
  rw [htext]
  simp only [hskip, accept_append (s := "(declare-datatype ".toList) (c := '(') rfl (by decide), hread, hhead, if_true, hmodule, hprefix,
    hopen, accept_append (s := "((".toList ++ ('|' :: m ++ ['_']) ++ "mk|".toList) (c := '(') rfl (by decide), hmembers,
    Option.bind_eq_bind, Option.bind_some, Option.map_eq_bind]
  rfl

theorem length_members (l : List WrittenMember) (it : YText) : l.length ≤ (membersText l it).length := by
  unfold membersText
  induction l with
  | nil => exact Nat.zero_le _
  | cons v l ih =>
    have hv : 0 < v.text.length := Nat.succ_pos _
    rw [members_append, List.length_append, List.length_cons]
    omega

theorem parseDatatype_named (hm : '|' ∉ m) (hg : Gap g) (hh : Gap h) (hl : ∀ v ∈ l, v.Ok) (hnamed : ∀ v ∈ l, v.Named) :
    ∃ vars, parseDatatype ((WrittenItem.datatype m g h l e).text ++ rest) = some (m, vars, e.text ++ rest) ∧
      vars.map YMember.var = l.map WrittenMember.readVar := by
  have hclose : (")))".toList ++ (e.text ++ rest)).head? ≠ some '(' := fun h => absurd (Option.some.inj h) (by decide)
  have hne : ")))".toList ++ (e.text ++ rest) ≠ [] := fun h => nomatch h
  obtain ⟨vars, hvars, hmap⟩ := parseAll_named (starts_close (e.text ++ rest)) hne hclose m hl hnamed
    (Nat.lt_succ_of_le (length_members l (e.text ++ rest)))
  refine ⟨vars, ?_, hmap⟩
  rw [parseDatatype_text hm hg hh]
  unfold membersText at hvars ⊢
  rw [hvars, Option.bind_some, accept_append (s := ")))".toList) (c := ')') rfl (by decide), Option.map_some]

theorem named_of_parseDatatype (hm : '|' ∉ m) (hg : Gap g) (hh : Gap h) (hl : ∀ v ∈ l, v.Ok) {p : YText × List YMember × YText}
    (h : parseDatatype ((WrittenItem.datatype m g h l e).text ++ rest) = some p) : ∀ v ∈ l, v.Named := by
  rw [parseDatatype_text hm hg hh] at h
  obtain ⟨q, hq, -⟩ := Option.bind_eq_some_iff.mp h
  exact named_of_parseAll (starts_close (e.text ++ rest)) hl hq

end Datatype

end Ilang
