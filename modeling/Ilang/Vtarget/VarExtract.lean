import Ilang.Verilog.Lexical

/-!
# Extracting names from a refinement expression

`VarExtractor` cuts an expression into tokens and looks the names among them up. The scanner knows names and numbers by their
letters. Joined again, the tokens give the expression back.
-/

namespace Ilang.VarExtract

open Verilog

inductive TokenType
  | keep | ilaS | ilaIn | vlgS | unknS | num
  deriving DecidableEq, Repr

abbrev Token := TokenType × List Char

/-- The text that tokens give back when they are joined. -/
def joined (tokens : List Token) : List Char := (tokens.map Prod.snd).flatten

def isStateBegin (c : Char) : Bool := c.isAlpha || c == '#' || c == '_' || c == '$'

/-- Here `upto` is the text from the letter `c` on, and `s` the whole text. -/
def isStateCont (c : Char) (upto s : List Char) : Bool :=
  if c.isAlpha || c.isDigit || c == '.' || c == '_' || c == ']' || c == '$' then true
  else if !s.isEmpty && s.head? == some '#' && c == '#' then true
  else if c == '[' then
    -- `find` is past the end where it finds nothing
    let rp := upto.idxOf ']'
    let rc := upto.idxOf ':'
    !(decide (rc < rp))
  else false

def isNumBegin (c : Char) : Bool := c.isDigit || c == '\''

def isNumCont (c : Char) : Bool := c.isDigit || c.isAlpha || c == '\''

/-- `is_num` and `is_state`, which are never both set. -/
inductive Matching
  | nothing | number | state
  deriving DecidableEq, Repr

def matchingFrom (isNum isState : Bool) : Matching :=
  if isNum then .number else if isState then .state else .nothing

/-- The tokens so far, and the text from `left` to `idx`. -/
structure Scan where
  matching : Matching
  cur : List Char
  tokens : List Token

structure VarExtractor where
  isIlaState : List Char → Bool
  isIlaInput : List Char → Bool
  isVlgSig : List Char → Bool

/-- Names are looked up. -/
def isLookedUp (k : TokenType) : Bool :=
  match k with
  | .keep | .num => false
  | .ilaS | .ilaIn | .vlgS | .unknS => true

/-- What a name is looked up by: the text up to a bracket. -/
def checkName (subs : List Char) : List Char := subs.takeWhile fun c => c != '['

namespace VarExtractor

variable (E : VarExtractor) (forceVlgStatename : Bool)

def stateToken (subs : List Char) : Token :=
  if !subs.isEmpty && subs.head? == some '#' && subs.tail.contains '#' then (.keep, subs.filter fun c => c != '#')
  else
    let checkS := checkName subs
    if E.isIlaState checkS && !forceVlgStatename then (.ilaS, subs)
    else if E.isIlaInput checkS && !forceVlgStatename then (.ilaIn, subs)
    else if E.isVlgSig checkS then (.vlgS, subs)
    else (.unknS, subs)

/-- The token that ends where the matching ends. -/
def closeToken (m : Matching) (subs : List Char) : Token :=
  match m with
  | .number => (.num, subs)
  | .state => E.stateToken forceVlgStatename subs
  | .nothing => (.keep, subs)

/-- One round of the loop of `ParseToExtract`, at the letter `c` of `s` that `rest` follows. -/
def scanStep (s : List Char) (st : Scan) (c : Char) (rest : List Char) : Scan :=
  let isNumNew := (decide (st.matching = .number) && isNumCont c) || isNumBegin c
  let isStateNew := (decide (st.matching = .state) && isStateCont c (c :: rest) s) || isStateBegin c
  let leave : Scan :=
    { matching := matchingFrom isNumNew isStateNew, cur := [c]
      tokens := st.tokens ++ [E.closeToken forceVlgStatename st.matching st.cur] }
  let stay : Scan := { st with cur := st.cur ++ [c] }
  match st.matching with
  | .number => if !isNumNew then leave else stay
  | .state => if !isStateNew then leave else stay
  | .nothing => if isNumNew || isStateNew then leave else stay

def scan (s : List Char) : Scan → List Char → List Token
  | st, [] => st.tokens ++ [E.closeToken forceVlgStatename st.matching st.cur]
  | st, c :: rest => scan s (E.scanStep forceVlgStatename s st c rest) rest

/-- `ParseToExtract`, which leaves no tokens for an empty text. -/
def parseToExtract (s : List Char) : List Token :=
  match s with
  | [] => []
  | c :: rest => E.scan forceVlgStatename s ⟨matchingFrom (isNumBegin c) (isStateBegin c), [c], []⟩ rest

end VarExtractor

def forEachTokenReplace (replacer : Token → List Char) (tokens : List Token) : List Token :=
  tokens.map fun p => if replacer p = p.2 then p else (p.1, replacer p)

/-- `Replace`: the three steps at once. -/
def VarExtractor.replace (E : VarExtractor) (s : List Char) (forceVlgStatename : Bool) (replacer : Token → List Char) :
    List Char :=
  joined (forEachTokenReplace replacer (E.parseToExtract forceVlgStatename s))

/-! ### One letter -/

/-- Whether the matching goes on at a letter. -/
def stays (m : Matching) (c : Char) (upto s : List Char) : Bool :=
  match m with
  | .number => isNumCont c
  | .state => isStateCont c upto s
  | .nothing => !isNumBegin c && !isStateBegin c

/-- What starts with a letter. -/
def begun (c : Char) : Matching := matchingFrom (isNumBegin c) (isStateBegin c)

theorem isNumCont_of_begin {c : Char} (h : isNumBegin c = true) : isNumCont c = true := by
  simp only [isNumBegin, Bool.or_eq_true] at h
  simp only [isNumCont, Bool.or_eq_true]
  tauto

theorem isStateCont_of_begin {c : Char} {upto s : List Char} (hc : c ≠ '#') (h : isStateBegin c = true) :
    isStateCont c upto s = true := by
  simp only [isStateBegin, Bool.or_eq_true, beq_iff_eq] at h
  rw [isStateCont, if_pos]
  simp only [Bool.or_eq_true, beq_iff_eq]
  tauto

theorem isStateBegin_of_numBegin {c : Char} (h : isNumBegin c = true) : isStateBegin c = false := by
  simp only [isNumBegin, Bool.or_eq_true, beq_iff_eq] at h
  cases h with
  | inl hdigit =>
    have hne : ∀ d : Char, d.isDigit = false → (c == d) = false := by
      intro d hd
      apply beq_false_of_ne
      rintro rfl
      rw [hdigit] at hd
      cases hd
    rw [isStateBegin, isAlpha_of_isDigit hdigit, hne '#' rfl, hne '_' rfl, hne '$' rfl]
    rfl
  | inr hquote =>
    rw [hquote]
    rfl

namespace VarExtractor

variable (E : VarExtractor) (force : Bool)

theorem scanStep_of_stays {s : List Char} {st : Scan} {c : Char} {rest : List Char}
    (h : stays st.matching c (c :: rest) s = true) :
    E.scanStep force s st c rest = { st with cur := st.cur ++ [c] } := by
  cases hm : st.matching with
  | number =>
    rw [hm, stays] at h
    simp [scanStep, hm, h]
  | state =>
    rw [hm, stays] at h
    simp [scanStep, hm, h]
  | nothing =>
    rw [hm, stays] at h
    obtain ⟨hnum, hstate⟩ := by simpa using h
    simp [scanStep, hm, hnum, hstate]

theorem scanStep_of_leaves {s : List Char} {st : Scan} {c : Char} {rest : List Char} (hc : c ≠ '#')
    (h : stays st.matching c (c :: rest) s = false) :
    E.scanStep force s st c rest = ⟨begun c, [c], st.tokens ++ [E.closeToken force st.matching st.cur]⟩ := by
  cases hm : st.matching with
  | number =>
    rw [hm, stays] at h
    have hnum : isNumBegin c = false := by
      by_contra hbegin
      rw [isNumCont_of_begin (by simpa using hbegin)] at h
      cases h
    simp [scanStep, hm, h, begun, hnum]
  | state =>
    rw [hm, stays] at h
    have hstate : isStateBegin c = false := by
      by_contra hbegin
      rw [isStateCont_of_begin hc (by simpa using hbegin)] at h
      cases h
    simp [scanStep, hm, h, begun, hstate]
  | nothing =>
    rw [hm, stays] at h
    have hbegin : (isNumBegin c || isStateBegin c) = true := by
      cases hn : isNumBegin c <;> simp_all
    simp [scanStep, hm, hbegin, begun]

theorem scanStep_tokens (s : List Char) (st : Scan) (c : Char) (rest : List Char) :
    E.scanStep force s st c rest = { st with cur := st.cur ++ [c] } ∨
      ∃ m, E.scanStep force s st c rest = ⟨m, [c], st.tokens ++ [E.closeToken force st.matching st.cur]⟩ := by
  rw [scanStep]
  cases st.matching with
  | number =>
    dsimp only
    split
    · exact .inr ⟨_, rfl⟩
    · exact .inl rfl
  | state =>
    dsimp only
    split
    · exact .inr ⟨_, rfl⟩
    · exact .inl rfl
  | nothing =>
    dsimp only
    split
    · exact .inr ⟨_, rfl⟩
    · exact .inl rfl

/-! ### The whole text -/

theorem tokens_prefix_scan (s : List Char) (st : Scan) (r : List Char) : st.tokens <+: E.scan force s st r := by
  induction r generalizing st with
  | nil => exact List.prefix_append _ _
  | cons c rest ih =>
    rw [scan]
    have hstep : st.tokens <+: (E.scanStep force s st c rest).tokens := by
      cases E.scanStep_tokens force s st c rest with
      | inl hstay => rw [hstay]
      | inr hleave =>
        obtain ⟨m, hleave⟩ := hleave
        rw [hleave]
        exact List.prefix_append _ _
    exact hstep.trans (ih _)

theorem exists_scan_eq (s : List Char) (st : Scan) (r : List Char) :
    ∃ more after, more <+: r ∧
      E.scan force s st r = st.tokens ++ E.closeToken force st.matching (st.cur ++ more) :: after := by
  induction r generalizing st with
  | nil => exact ⟨[], [], List.prefix_rfl, by rw [scan, List.append_nil]⟩
  | cons c rest ih =>
    rw [scan]
    cases E.scanStep_tokens force s st c rest with
    | inl hstay =>
      obtain ⟨more, after, hmore, hscan⟩ := ih { st with cur := st.cur ++ [c] }
      refine ⟨c :: more, after, (List.prefix_cons_inj c).mpr hmore, ?_⟩
      rw [hstay, hscan, List.append_assoc]
      rfl
    | inr hleave =>
      obtain ⟨m, hleave⟩ := hleave
      obtain ⟨after, hafter⟩ := E.tokens_prefix_scan force s
        ⟨m, [c], st.tokens ++ [E.closeToken force st.matching st.cur]⟩ rest
      refine ⟨[], after, List.nil_prefix, ?_⟩
      rw [hleave, ← hafter, List.append_nil, List.append_assoc]
      rfl

theorem closeToken_snd {m : Matching} {subs : List Char} (h : '#' ∉ subs) : (E.closeToken force m subs).2 = subs := by
  have hhead : (subs.head? == some '#') = false := by
    apply beq_false_of_ne
    intro hhead
    exact h (List.mem_of_mem_head? hhead)
  cases m with
  | number => rfl
  | nothing => rfl
  | state =>
    rw [closeToken, stateToken, hhead]
    simp only [Bool.and_false, Bool.false_and, Bool.false_eq_true, if_false]
    split
    · rfl
    · split
      · rfl
      · split
        · rfl
        · rfl

theorem isLookedUp_closeToken {m : Matching} {subs : List Char} (h : '#' ∉ subs) :
    isLookedUp (E.closeToken force m subs).1 = true ↔ m = .state := by
  have hhead : (subs.head? == some '#') = false := by
    apply beq_false_of_ne
    intro hhead
    exact h (List.mem_of_mem_head? hhead)
  cases m with
  | number => simp [closeToken, isLookedUp]
  | nothing => simp [closeToken, isLookedUp]
  | state =>
    rw [closeToken, stateToken, hhead]
    simp only [Bool.and_false, Bool.false_and, Bool.false_eq_true, if_false]
    split
    · simp [isLookedUp]
    · split
      · simp [isLookedUp]
      · split
        · simp [isLookedUp]
        · simp [isLookedUp]

theorem joined_append_singleton (tokens : List Token) (t : Token) : joined (tokens ++ [t]) = joined tokens ++ t.2 := by
  simp [joined]

theorem joined_scan {s r : List Char} {st : Scan} (hcur : '#' ∉ st.cur) (hr : '#' ∉ r) :
    joined (E.scan force s st r) = joined st.tokens ++ st.cur ++ r := by
  induction r generalizing st with
  | nil => rw [scan, joined_append_singleton, E.closeToken_snd force hcur, List.append_nil]
  | cons c rest ih =>
    obtain ⟨hc, hrest⟩ := not_or.mp (mt List.mem_cons.mpr hr)
    rw [scan]
    cases E.scanStep_tokens force s st c rest with
    | inl hstay =>
      have hmem : '#' ∉ st.cur ++ [c] := by simp [hcur, hc]
      rw [hstay, ih hmem hrest]
      simp
    | inr hleave =>
      obtain ⟨m, hleave⟩ := hleave
      have hmem : '#' ∉ [c] := by simp [hc]
      rw [hleave, ih hmem hrest]
      simp only [joined_append_singleton, E.closeToken_snd force hcur, List.append_assoc, List.singleton_append]

theorem joined_parseToExtract {s : List Char} (h : '#' ∉ s) : joined (E.parseToExtract force s) = s := by
  cases s with
  | nil => rfl
  | cons c rest =>
    obtain ⟨hc, hrest⟩ := not_or.mp (mt List.mem_cons.mpr h)
    rw [parseToExtract, E.joined_scan force (by simpa using hc) hrest]
    rfl

theorem replace_snd (s : List Char) : E.replace s force Prod.snd = joined (E.parseToExtract force s) := by
  rw [replace, forEachTokenReplace]
  congr 1
  simp

end VarExtractor

end Ilang.VarExtract
