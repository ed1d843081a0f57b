import Ilang.Vtarget.AbcParse

/-!
# What ABC proved

A state gives a value to every register, and so to every latch that ABC knows: the latch of an inverted register has the
inverted value, and the latch behind the last register of the map is 1. If no cube holds of the latches then the parsed
expression is true, since every cube that is kept is the cube of the result and dropping a cube makes the expression weaker. The
clauses that are put into the CNF are the cubes that are kept.
-/

namespace Ilang

namespace Abc

/-! ### States -/

abbrev VState := VText → Bool

/-- How Verilog refers to a latch of a BLIF file: a bit selection is a range of one bit. -/
def verilogRef (name : VText) : VText :=
  match splitLast '[' name with
  | none => name
  | some (pre, post) =>
    if post.getLast? = some ']' ∧ ':' ∉ post then pre ++ '[' :: (post.dropLast ++ ':' :: (post.dropLast ++ [']'])) else name

/-- The registers behind the latches, the latches that are inverted, and the latches behind the flops of an abstraction. -/
structure Latches where
  refs : List VText
  inv : Nat → Bool
  old : Option (List Nat)

def Latches.index (L : Latches) (n : Nat) : Option Nat :=
  match L.old with
  | none => some n
  | some ids => ids[n]?

/-- The value of a flop in a state. -/
def Latches.value (L : Latches) (σ : VState) (n : Nat) : Bool :=
  match L.index n with
  | none => false
  | some k =>
    match L.refs[k]? with
    | some ref => σ ref ^^ L.inv k
    | none => true

def aigerLatches (m : AigerMap) (old : Option (List Nat)) : Latches :=
  ⟨m.order.map fun s => rangeRef s.1 s.2, fun k => decide (k ∈ m.inv), old⟩

def blifLatches (blif : List BlifLatch) (old : Option (List Nat)) : Latches :=
  ⟨blif.map fun l => verilogRef l.name, fun k => (blif[k]?).any fun l => decide (l.init ≠ 0), old⟩

def Input.latches (i : Input) : Option Latches :=
  match i.aiger with
  | some map => do
    let m ← readAigerMap i.blif map
    match i.gla with
    | none => some (aigerLatches m none)
    | some g => (readGla g fun id => decide (id ≤ m.order.length)).map fun ids => aigerLatches m (some ids)
  | none =>
    match i.gla with
    | none => some (blifLatches i.blif none)
    | some g => (readGla g fun id => decide (id < i.blif.length)).map fun ids => blifLatches i.blif (some ids)

def litHolds (L : Latches) (σ : VState) (flop : Nat) : Bool := L.value σ (flop / 2) ^^ isNeg flop

def cubeHolds (L : Latches) (σ : VState) (line : List Nat) : Bool := line.all (litHolds L σ)

/-! ### Expressions -/

section Eval

variable (refs : List VText) (σ : VState)

/-- A literal of the expression. A text that is neither a constant nor a register means nothing. -/
def evalLit (l : Bool × VText) : Option Bool :=
  if l.2 = zeroText then some l.1
  else if l.2 = oneText then some !l.1
  else if l.2 ∈ refs then some (σ l.2 ^^ l.1)
  else none

def evalCube : List (Bool × VText) → Option Bool
  | [] => some true
  | l :: ls => (evalLit refs σ l).bind fun b => (evalCube ls).map (b && ·)

/-- Some cube holds. -/
def evalCubes : List (List (Bool × VText)) → Option Bool
  | [] => some false
  | c :: cs => (evalCube refs σ c).bind fun b => (evalCubes cs).map (b || ·)

def evalExpr (cubes : List (List (Bool × VText))) : Option Bool := (evalCubes refs σ cubes).map (!·)

def CnfLit.holds (l : CnfLit) : Bool := σ (rangeRef l.name l.bit) ^^ l.complement

def clauseHolds (c : List CnfLit) : Bool := c.all (CnfLit.holds σ)

end Eval

/-- The states that are meant: `__all_assumed_reg__` is 0, and where references to outside variables are replaced in a BLIF file,
the registers outside whose names start with `committed_inst` are 1. -/
structure Reads (o : Options) (i : Input) (σ : VState) : Prop where
  assumed : σ allAssumedReg = false
  committed : i.aiger = none → o.replaceOutsideVarRef = true → ∀ l ∈ i.blif, o.inDut l.name = false →
    l.name ≠ allAssumedReg → committedInst.isPrefixOf l.name = true → σ (verilogRef l.name) = true

/-- A literal of the result is about the latch. -/
def Input.Refers (i : Input) (L : Latches) (k : Nat) : Prop := ∃ flop ∈ i.lines.flatten, L.index (flop / 2) = some k

/-- Inputs that the parser does not stumble over. Of the latches that the result is about, the text that is replaced at the end
is the text of one register and no part of others; brackets in a BLIF name are a bit selection; and the latch behind the last
register is not marked as inverted, if there is an abstraction. -/
structure Clean (i : Input) : Prop where
  whole : ∀ L, i.latches = some L → ∀ k, i.Refers L k → ∀ ref ∈ L.refs[k]?, allAssumedReg <:+: ref → ref = allAssumedReg
  brackets : i.aiger = none → ∀ L, i.latches = some L → ∀ k, i.Refers L k → ∀ l ∈ i.blif[k]?, '[' ∈ l.name →
    l.name.getLast? = some ']'
  constants : i.aiger = none → ∀ L, i.latches = some L → ∀ k, i.Refers L k → ∀ l ∈ i.blif[k]?,
    l.name ≠ zeroText ∧ l.name ≠ oneText
  extra : i.aiger.isSome = true → i.gla.isSome = true → ∀ L, i.latches = some L → i.Refers L L.refs.length →
    L.inv L.refs.length = false

/-! ### Texts -/

section Texts

theorem replaceAllAux_of_absent {a b : VText} (fuel : Nat) {s : VText} (h : ¬ a <:+: s) :
    replaceAllAux a b fuel s = s := by
  induction fuel generalizing s with
  | zero => rfl
  | succ fuel ih =>
    cases s with
    | nil => rfl
    | cons c s =>
      have hpre : ¬ a.isPrefixOf (c :: s) = true := fun hpre => h (List.isPrefixOf_iff_prefix.mp hpre).isInfix
      rw [replaceAllAux, if_neg hpre, ih fun hin => h (hin.trans (List.suffix_cons c s).isInfix)]

theorem replaceAll_of_absent {s a b : VText} (h : ¬ a <:+: s) : replaceAll s a b = s :=
  replaceAllAux_of_absent s.length h

theorem replaceAll_assumed : replaceAll allAssumedReg allAssumedReg zeroText = zeroText := by decide

theorem rangeRef_getLast? (name : VText) (bit : Nat) : (rangeRef name bit).getLast? = some ']' := by
  have happ : rangeRef name bit = (name ++ '[' :: (digits bit ++ ':' :: digits bit)) ++ [']'] := by
    simp [rangeRef]
  rw [happ, List.getLast?_concat]

theorem rangeRef_ne_constants (name : VText) (bit : Nat) : rangeRef name bit ≠ zeroText ∧ rangeRef name bit ≠ oneText := by
  have hlast := rangeRef_getLast? name bit
  refine ⟨fun heq => ?_, fun heq => ?_⟩
  · rw [heq] at hlast
    exact absurd hlast (by decide)
  · rw [heq] at hlast
    exact absurd hlast (by decide)

variable {refs : List VText} {σ : VState} {ref : VText}

theorem evalLit_ref (hassumed : σ allAssumedReg = false) (hwhole : allAssumedReg <:+: ref → ref = allAssumedReg)
    (hconst : ref ≠ zeroText ∧ ref ≠ oneText) (hmem : ref ∈ refs) (s : Bool) :
    evalLit refs σ (s, replaceAll ref allAssumedReg zeroText) = some (σ ref ^^ s) := by
  by_cases hin : allAssumedReg <:+: ref
  · rw [hwhole hin, replaceAll_assumed, evalLit, if_pos rfl, hassumed, Bool.false_xor]
  · rw [replaceAll_of_absent hin, evalLit, if_neg hconst.1, if_neg hconst.2, if_pos hmem]

theorem evalLit_zero (s : Bool) : evalLit refs σ (s, replaceAll zeroText allAssumedReg zeroText) = some s := by
  have htext : replaceAll zeroText allAssumedReg zeroText = zeroText := by decide
  rw [htext, evalLit, if_pos rfl]

theorem evalLit_one (s : Bool) : evalLit refs σ (s, replaceAll oneText allAssumedReg zeroText) = some !s := by
  have htext : replaceAll oneText allAssumedReg zeroText = oneText := by decide
  have hne : oneText ≠ zeroText := by decide
  rw [htext, evalLit, if_neg hne, if_pos rfl]

theorem splitLast_none {c : Char} {s : VText} (h : c ∉ s) : splitLast c s = none := if_neg h

theorem splitLast_concat (c : Char) (s : VText) : splitLast c (s ++ [c]) = some (s, []) := by
  rw [splitLast, if_pos (by simp), List.reverse_append, List.reverse_singleton, List.singleton_append,
    List.dropWhile_cons_of_neg (by simp), List.takeWhile_cons_of_neg (by simp), List.tail_cons, List.reverse_reverse]
  rfl

theorem handleRangeRef_eq {name ref : VText} (hbrackets : '[' ∈ name → name.getLast? = some ']')
    (h : handleRangeRef name = some ref) : ref = verilogRef name := by
  unfold handleRangeRef at h
  unfold verilogRef
  cases hsplit : splitLast '[' name with
  | none =>
    rw [hsplit] at h
    exact (Option.some.inj h).symm
  | some p =>
    obtain ⟨pre, post⟩ := p
    have hmem : '[' ∈ name := by
      by_contra hnot
      rw [splitLast_none hnot] at hsplit
      cases hsplit
    have hlast := hbrackets hmem
    obtain ⟨init, rfl⟩ : ∃ init, name = init ++ [']'] := by
      refine ⟨name.dropLast, ?_⟩
      rw [List.dropLast_append_getLast?]
      exact hlast
    obtain ⟨mid, rfl⟩ : ∃ mid, post = mid ++ [']'] := by
      refine ⟨(init.reverse.takeWhile (· ≠ '[')).reverse, ?_⟩
      rw [splitLast, if_pos hmem, List.reverse_append, List.reverse_singleton, List.singleton_append,
        List.takeWhile_cons_of_pos (by decide), List.reverse_cons] at hsplit
      exact (congrArg Prod.snd (Option.some.inj hsplit)).symm
    rw [hsplit] at h
    dsimp only at h ⊢
    rw [splitLast_concat] at h
    dsimp only at h
    by_cases hcolon : ':' ∈ mid
    · rw [if_pos hcolon] at h
      cases h
    · rw [if_neg hcolon] at h
      have hnot : ':' ∉ mid ++ [']'] := by simpa using hcolon
      rw [if_pos ⟨List.getLast?_concat, hnot⟩, List.dropLast_concat]
      exact (Option.some.inj h).symm

theorem verilogRef_ne_constants {name : VText} (h : name ≠ zeroText ∧ name ≠ oneText) :
    verilogRef name ≠ zeroText ∧ verilogRef name ≠ oneText := by
  unfold verilogRef
  split
  · exact h
  · rename_i pre post _
    split
    · have hne : ∀ c : VText, '[' ∉ c → pre ++ '[' :: (post.dropLast ++ ':' :: (post.dropLast ++ [']'])) ≠ c := by
        intro c hc heq
        exact hc (heq ▸ by simp)
      exact ⟨hne zeroText (by decide), hne oneText (by decide)⟩
    · exact h

theorem verilogRef_assumed : verilogRef allAssumedReg = allAssumedReg := by decide

end Texts

/-! ### Literals -/

/-- A literal that is kept means what it should. -/
def LitOk (refs : List VText) (σ : VState) (l : LitOut) (b : Bool) : Prop :=
  l.remove = false → ∃ s t, l.text = some (s, t) ∧ evalLit refs σ (s, replaceAll t allAssumedReg zeroText) = some b

/-- The clause has the literal, or the literal is true. -/
def CnfOk (σ : VState) (l : LitOut) (b : Bool) : Prop :=
  l.remove = false → (l.cnf.all fun c => c.holds σ) = b

section Literals

variable {o : Options} {refs : List VText} {σ : VState}

theorem extraLiteral_ok {neg : Bool} : LitOk refs σ (extraLiteral neg) (true ^^ neg) := by
  intro hremove
  refine ⟨neg, oneText, rfl, ?_⟩
  rw [evalLit_one, Bool.true_xor]

theorem extraLiteral_cnf {neg : Bool} : CnfOk σ (extraLiteral neg) (true ^^ neg) := by
  intro hremove
  have hneg : neg = false := hremove
  rw [hneg]
  rfl

theorem aigerLiteral_ok {name : VText} {bit : Nat} {neg : Bool} (hassumed : σ allAssumedReg = false)
    (hwhole : allAssumedReg <:+: rangeRef name bit → rangeRef name bit = allAssumedReg) (hmem : rangeRef name bit ∈ refs) :
    LitOk refs σ (aigerLiteral o name bit neg) (σ (rangeRef name bit) ^^ neg) := by
  have href := evalLit_ref hassumed hwhole (rangeRef_ne_constants name bit) hmem neg
  unfold aigerLiteral
  dsimp only
  intro hremove
  split at hremove
  · rw [if_pos (by assumption)]
    exact ⟨neg, _, rfl, href⟩
  · rw [if_neg (by assumption)]
    split at hremove
    · rw [if_pos (by assumption)]
      split at hremove
      · rename_i hreg
        rw [if_pos hreg, hreg, hassumed, Bool.false_xor]
        exact ⟨neg, _, rfl, evalLit_zero neg⟩
      · split at hremove
        · cases hremove
        · cases hremove
    · rw [if_neg (by assumption)]
      exact ⟨neg, _, rfl, href⟩

theorem aigerLiteral_cnf {name : VText} {bit : Nat} {neg : Bool} (hassumed : σ allAssumedReg = false) :
    CnfOk σ (aigerLiteral o name bit neg) (σ (rangeRef name bit) ^^ neg) := by
  unfold aigerLiteral
  dsimp only
  intro hremove
  split at hremove
  · rw [if_pos (by assumption)]
    rfl
  · rw [if_neg (by assumption)]
    split at hremove
    · rw [if_pos (by assumption)]
      split at hremove
      · rename_i hreg
        have hneg : neg = true := by simpa using hremove
        rw [if_pos hreg, hreg, hassumed, hneg]
        rfl
      · split at hremove
        · cases hremove
        · cases hremove
    · rw [if_neg (by assumption)]
      rfl

theorem blifLiteral_ok {name : VText} {neg : Bool} {l : LitOut} (h : blifLiteral o name neg = some l)
    (hassumed : σ allAssumedReg = false) (hbrackets : '[' ∈ name → name.getLast? = some ']')
    (hconst : name ≠ zeroText ∧ name ≠ oneText)
    (hwhole : allAssumedReg <:+: verilogRef name → verilogRef name = allAssumedReg) (hmem : verilogRef name ∈ refs)
    (hcommitted : o.replaceOutsideVarRef = true → o.inDut name = false → name ≠ allAssumedReg →
      committedInst.isPrefixOf name = true → σ (verilogRef name) = true) :
    LitOk refs σ l (σ (verilogRef name) ^^ neg) := by
  have hkept : ∀ {r : Bool}, ((handleRangeRef name).map fun ref => (⟨some (neg, ref), r, none⟩ : LitOut)) = some l →
      LitOk refs σ l (σ (verilogRef name) ^^ neg) := by
    intro r hl
    obtain ⟨ref, href, rfl⟩ := Option.map_eq_some_iff.mp hl
    intro _
    refine ⟨neg, ref, rfl, ?_⟩
    rw [handleRangeRef_eq hbrackets href]
    exact evalLit_ref hassumed hwhole (verilogRef_ne_constants hconst) hmem neg
  unfold blifLiteral at h
  split at h
  · exact hkept h
  · rename_i hdut
    split at h
    · rename_i hreplace
      split at h
      · rename_i hreg
        cases h
        intro _
        refine ⟨neg, zeroText, rfl, ?_⟩
        rw [evalLit_zero, hreg, verilogRef_assumed, hassumed, Bool.false_xor]
      · rename_i hreg
        split at h
        · rename_i hpre
          cases h
          intro _
          refine ⟨neg, oneText, rfl, ?_⟩
          rw [evalLit_one, hcommitted hreplace (Bool.eq_false_iff.mpr hdut) hreg hpre, Bool.true_xor]
        · split at h
          · exact hkept h
          · cases h
            intro hremove
            cases hremove
    · exact hkept h

end Literals

/-! ### Flops -/

/-- Every one of the literal numbers that is decoded means the literal of the result. -/
def DecodeOk (flops : List Nat) (L : Latches) (σ : VState) (decode : Nat → Option LitOut) : Prop :=
  ∀ flop ∈ flops, ∀ l, decode flop = some l → LitOk L.refs σ l (litHolds L σ flop)

def DecodeCnf (flops : List Nat) (L : Latches) (σ : VState) (decode : Nat → Option LitOut) : Prop :=
  ∀ flop ∈ flops, ∀ l, decode flop = some l → CnfOk σ l (litHolds L σ flop)

section Flops

variable {o : Options} {σ : VState} {m : AigerMap} {blif : List BlifLatch} {flops : List Nat}

theorem aigerLatches_ref {old : Option (List Nat)} {k : Nat} {s : VText × Nat} (hs : m.order[k]? = some s) :
    (aigerLatches m old).refs[k]? = some (rangeRef s.1 s.2) := by
  rw [aigerLatches, List.getElem?_map, hs, Option.map_some]

theorem aigerLatches_value {old : Option (List Nat)} {n k : Nat} (hindex : (aigerLatches m old).index n = some k)
    {s : VText × Nat} (hs : m.order[k]? = some s) :
    (aigerLatches m old).value σ n = (σ (rangeRef s.1 s.2) ^^ decide (k ∈ m.inv)) := by
  rw [Latches.value, hindex]
  dsimp only
  rw [aigerLatches_ref hs]
  rfl

theorem aigerLatches_extra {old : Option (List Nat)} {n : Nat}
    (hindex : (aigerLatches m old).index n = some m.order.length) : (aigerLatches m old).value σ n = true := by
  have href : (aigerLatches m old).refs[m.order.length]? = none := by
    rw [List.getElem?_eq_none_iff, aigerLatches, List.length_map]
  rw [Latches.value, hindex]
  dsimp only
  rw [href]

theorem xor_comm_sign (a b c : Bool) : ((a ^^ b) ^^ c) = (a ^^ (c ^^ b)) := by
  cases a <;> cases b <;> cases c <;> rfl

theorem aigerLatch_ok {old : Option (List Nat)} (hassumed : σ allAssumedReg = false) {flop k : Nat}
    (hwhole : ∀ ref ∈ (aigerLatches m old).refs[k]?, allAssumedReg <:+: ref → ref = allAssumedReg)
    (hindex : (aigerLatches m old).index (flop / 2) = some k) {s : VText × Nat} (hs : m.order[k]? = some s) :
    LitOk (aigerLatches m old).refs σ (aigerLiteral o s.1 s.2 (isNeg flop ^^ decide (k ∈ m.inv)))
        (litHolds (aigerLatches m old) σ flop) ∧
      CnfOk σ (aigerLiteral o s.1 s.2 (isNeg flop ^^ decide (k ∈ m.inv))) (litHolds (aigerLatches m old) σ flop) := by
  have hmem : rangeRef s.1 s.2 ∈ (aigerLatches m old).refs :=
    List.mem_map.mpr ⟨s, List.mem_of_getElem? hs, rfl⟩
  rw [litHolds, aigerLatches_value hindex hs, xor_comm_sign]
  exact ⟨aigerLiteral_ok hassumed (hwhole _ (aigerLatches_ref hs)) hmem, aigerLiteral_cnf hassumed⟩

theorem aigerFlop_ok (hassumed : σ allAssumedReg = false)
    (hwhole : ∀ flop ∈ flops, ∀ ref ∈ (aigerLatches m none).refs[flop / 2]?, allAssumedReg <:+: ref → ref = allAssumedReg) :
    DecodeOk flops (aigerLatches m none) σ (aigerFlop o m) ∧ DecodeCnf flops (aigerLatches m none) σ (aigerFlop o m) := by
  have hboth : ∀ flop ∈ flops, ∀ l, aigerFlop o m flop = some l →
      LitOk (aigerLatches m none).refs σ l (litHolds (aigerLatches m none) σ flop) ∧
        CnfOk σ l (litHolds (aigerLatches m none) σ flop) := by
    intro flop hflop l hl
    unfold aigerFlop at hl
    split at hl
    · rename_i hextra
      cases hl
      have hindex : (aigerLatches m none).index (flop / 2) = some m.order.length := congrArg some hextra
      rw [litHolds, aigerLatches_extra hindex]
      exact ⟨extraLiteral_ok, extraLiteral_cnf⟩
    · obtain ⟨s, hs, rfl⟩ := Option.map_eq_some_iff.mp hl
      exact aigerLatch_ok hassumed (hwhole flop hflop) rfl hs
  exact ⟨fun flop hflop l hl => (hboth flop hflop l hl).1, fun flop hflop l hl => (hboth flop hflop l hl).2⟩

theorem aigerGlaFlop_ok {gla : List Nat} (hassumed : σ allAssumedReg = false)
    (hwhole : ∀ flop ∈ flops, ∀ k ∈ gla[flop / 2]?, ∀ ref ∈ (aigerLatches m (some gla)).refs[k]?, allAssumedReg <:+: ref →
      ref = allAssumedReg)
    (hextra : ∀ flop ∈ flops, gla[flop / 2]? = some m.order.length → decide (m.order.length ∈ m.inv) = false) :
    DecodeOk flops (aigerLatches m (some gla)) σ (aigerGlaFlop o m gla) ∧
      DecodeCnf flops (aigerLatches m (some gla)) σ (aigerGlaFlop o m gla) := by
  have hboth : ∀ flop ∈ flops, ∀ l, aigerGlaFlop o m gla flop = some l →
      LitOk (aigerLatches m (some gla)).refs σ l (litHolds (aigerLatches m (some gla)) σ flop) ∧
        CnfOk σ l (litHolds (aigerLatches m (some gla)) σ flop) := by
    intro flop hflop l hl
    obtain ⟨k, hk, hl⟩ := Option.bind_eq_some_iff.mp hl
    dsimp only at hl
    split at hl
    · rename_i hlast
      cases hl
      have hindex : (aigerLatches m (some gla)).index (flop / 2) = some m.order.length := hlast ▸ hk
      rw [litHolds, aigerLatches_extra hindex, hlast, hextra flop hflop (hlast ▸ hk), Bool.xor_false]
      exact ⟨extraLiteral_ok, extraLiteral_cnf⟩
    · obtain ⟨s, hs, rfl⟩ := Option.map_eq_some_iff.mp hl
      exact aigerLatch_ok hassumed (hwhole flop hflop k hk) hk hs
  exact ⟨fun flop hflop l hl => (hboth flop hflop l hl).1, fun flop hflop l hl => (hboth flop hflop l hl).2⟩

/-- What is needed of a latch of a BLIF file. -/
structure BlifOk (o : Options) (σ : VState) (l : BlifLatch) : Prop where
  assumed : σ allAssumedReg = false
  brackets : '[' ∈ l.name → l.name.getLast? = some ']'
  constants : l.name ≠ zeroText ∧ l.name ≠ oneText
  whole : allAssumedReg <:+: verilogRef l.name → verilogRef l.name = allAssumedReg
  committed : o.replaceOutsideVarRef = true → o.inDut l.name = false → l.name ≠ allAssumedReg →
    committedInst.isPrefixOf l.name = true → σ (verilogRef l.name) = true

theorem blifLatch_ok {old : Option (List Nat)} {flop k : Nat} {b : BlifLatch} (h : BlifOk o σ b)
    (hindex : (blifLatches blif old).index (flop / 2) = some k) (hb : blif[k]? = some b) {l : LitOut}
    (hl : blifLiteral o b.name (isNeg flop ^^ decide (b.init ≠ 0)) = some l) :
    LitOk (blifLatches blif old).refs σ l (litHolds (blifLatches blif old) σ flop) := by
  have hmem : b ∈ blif := List.mem_of_getElem? hb
  have href : (blifLatches blif old).refs[k]? = some (verilogRef b.name) := by
    rw [blifLatches, List.getElem?_map, hb, Option.map_some]
  have hvalue : (blifLatches blif old).value σ (flop / 2) = (σ (verilogRef b.name) ^^ decide (b.init ≠ 0)) := by
    rw [Latches.value, hindex]
    dsimp only
    rw [href]
    dsimp only [blifLatches]
    rw [hb, Option.any_some]
  rw [litHolds, hvalue, xor_comm_sign]
  exact blifLiteral_ok hl h.assumed h.brackets h.constants h.whole (List.mem_map.mpr ⟨b, hmem, rfl⟩) h.committed

theorem blifFlop_ok (h : ∀ flop ∈ flops, ∀ b ∈ blif[flop / 2]?, BlifOk o σ b) :
    DecodeOk flops (blifLatches blif none) σ (blifFlop o blif) := by
  intro flop hflop l hl
  obtain ⟨b, hb, hl⟩ := Option.bind_eq_some_iff.mp hl
  exact blifLatch_ok (h flop hflop b hb) rfl hb hl

theorem blifGlaFlop_ok {gla : List Nat} (h : ∀ flop ∈ flops, ∀ k ∈ gla[flop / 2]?, ∀ b ∈ blif[k]?, BlifOk o σ b) :
    DecodeOk flops (blifLatches blif (some gla)) σ (blifGlaFlop o blif gla) := by
  intro flop hflop l hl
  obtain ⟨k, hk, hl⟩ := Option.bind_eq_some_iff.mp hl
  obtain ⟨b, hb, hl⟩ := Option.bind_eq_some_iff.mp hl
  have hindex : (blifLatches blif (some gla)).index (flop / 2) = some k := hk
  exact blifLatch_ok (h flop hflop k hk b hb) hindex hb hl

end Flops

/-! ### Cubes -/

section Cubes

variable {L : Latches} {σ : VState} {decode : Nat → Option LitOut} {flops : List Nat}

theorem foldlM_add {line : List Nat} (hline : ∀ flop ∈ line, flop ∈ flops) {c c' : Cube} (h : line.foldlM (fun c flop => (decode flop).map c.add) c = some c')
    (hkeep : c'.remove = false) :
    c.remove = false ∧
      (DecodeOk flops L σ decode → ∃ lits, c'.lits = c.lits ++ lits ∧
        evalCube L.refs σ (replaced lits) = some (cubeHolds L σ line)) ∧
      (DecodeCnf flops L σ decode → ∃ clause, c'.clause = c.clause ++ clause ∧ clauseHolds σ clause = cubeHolds L σ line) := by
  induction line generalizing c with
  | nil =>
    cases h
    exact ⟨hkeep, fun _ => ⟨[], (List.append_nil _).symm, rfl⟩, fun _ => ⟨[], (List.append_nil _).symm, rfl⟩⟩
  | cons flop line ih =>
    rw [List.foldlM_cons] at h
    obtain ⟨d, hd, h⟩ := Option.bind_eq_some_iff.mp h
    obtain ⟨l, hl, rfl⟩ := Option.map_eq_some_iff.mp hd
    obtain ⟨hflop, hline⟩ := List.forall_mem_cons.mp hline
    obtain ⟨hremove, htext, hcnf⟩ := ih hline h
    have hremove : (c.remove || l.remove) = false := hremove
    rw [Bool.or_eq_false_iff] at hremove
    refine ⟨hremove.1, fun hok => ?_, fun hok => ?_⟩
    · obtain ⟨lits, hlits, heval⟩ := htext hok
      obtain ⟨s, t, hst, hlit⟩ := hok flop hflop l hl hremove.2
      refine ⟨(s, t) :: lits, ?_, ?_⟩
      · rw [hlits]
        simp [Cube.add, hst]
      · have heval' : evalCube L.refs σ (replaced lits) = some (cubeHolds L σ line) := heval
        rw [replaced, List.map_cons, evalCube, hlit, Option.bind_some, ← replaced, heval', Option.map_some, cubeHolds,
          cubeHolds, List.all_cons]
    · obtain ⟨clause, hclause, hholds⟩ := hcnf hok
      have hlit := hok flop hflop l hl hremove.2
      refine ⟨l.cnf.toList ++ clause, ?_, ?_⟩
      · rw [hclause]
        simp [Cube.add]
      · have hfirst : clauseHolds σ l.cnf.toList = litHolds L σ flop := by
          rw [← hlit]
          cases l.cnf with
          | none => rfl
          | some a => simp [clauseHolds]
        rw [clauseHolds, List.all_append, ← clauseHolds, ← clauseHolds, hfirst, hholds, cubeHolds, cubeHolds, List.all_cons]

theorem readCube_ok {line : List Nat} (hline : ∀ flop ∈ line, flop ∈ flops) {c : Cube} (h : readCube decode line = some c)
    (hkeep : c.remove = false) (hok : DecodeOk flops L σ decode) :
    evalCube L.refs σ (replaced c.lits) = some (cubeHolds L σ line) := by
  obtain ⟨-, htext, -⟩ := foldlM_add (L := L) hline h hkeep
  obtain ⟨lits, hlits, heval⟩ := htext hok
  rw [hlits]
  exact heval

theorem readCube_cnf {line : List Nat} (hline : ∀ flop ∈ line, flop ∈ flops) {c : Cube} (h : readCube decode line = some c)
    (hkeep : c.remove = false) (hok : DecodeCnf flops L σ decode) : clauseHolds σ c.clause = cubeHolds L σ line := by
  obtain ⟨-, -, hcnf⟩ := foldlM_add (L := L) hline h hkeep
  obtain ⟨clause, hclause, hholds⟩ := hcnf hok
  rw [hclause]
  exact hholds

theorem exists_line {lines : List (List Nat)} {cubes : List Cube} (h : readResult decode lines = some cubes) :
    ∀ c ∈ cubes, c.remove = false ∧ ∃ line ∈ lines, readCube decode line = some c := by
  obtain ⟨all, hall, rfl⟩ := Option.map_eq_some_iff.mp h
  intro c hc
  rw [List.mem_filter, Bool.not_eq_true'] at hc
  refine ⟨hc.2, ?_⟩
  exact MapM.exists_of_mem hall hc.1

theorem evalExpr_true {refs : List VText} {e : List (List (Bool × VText))}
    (h : ∀ c ∈ e, evalCube refs σ c = some false) : evalExpr refs σ e = some true := by
  have hnone : evalCubes refs σ e = some false := by
    induction e with
    | nil => rfl
    | cons c e ih =>
      rw [evalCubes, h c List.mem_cons_self, Option.bind_some, ih fun d hd => h d (List.mem_cons_of_mem c hd)]
      rfl
  rw [evalExpr, hnone]
  rfl

end Cubes

/-! ### Clauses -/

section Clauses

variable {σ : VState}

theorem digits_notMem (n : Nat) {c : Char} (hc : c.isDigit = false) : c ∉ digits n := by
  intro hmem
  rw [Nat.isDigit_of_mem_toDigits (by decide) (by decide) hmem] at hc
  cases hc

theorem digits_injective {n n' : Nat} (h : digits n = digits n') : n = n' := by
  have hvalue := congrArg (fun l => Nat.ofDigitChars 10 l 0) h
  simpa [digits] using hvalue

theorem append_cons_inj {c : Char} {s s' t t' : VText} (hs : c ∉ s) (hs' : c ∉ s') (h : s ++ c :: t = s' ++ c :: t') :
    s = s' ∧ t = t' := by
  induction s generalizing s' with
  | nil =>
    cases s' with
    | nil => exact ⟨rfl, (List.cons.inj h).2⟩
    | cons a s' => exact absurd (List.cons.inj h).1 fun heq => hs' (heq ▸ List.mem_cons_self)
  | cons a s ih =>
    cases s' with
    | nil => exact absurd (List.cons.inj h).1 fun heq => hs (heq ▸ List.mem_cons_self)
    | cons a' s' =>
      obtain ⟨ha, h⟩ := List.cons.inj h
      obtain ⟨hs₁, ht⟩ := ih (fun hmem => hs (List.mem_cons_of_mem _ hmem)) (fun hmem => hs' (List.mem_cons_of_mem _ hmem)) h
      exact ⟨by rw [ha, hs₁], ht⟩

theorem rangeRef_injective {name name' : VText} {bit bit' : Nat} (h : rangeRef name bit = rangeRef name' bit') :
    name = name' ∧ bit = bit' := by
  have hrev := congrArg List.reverse h
  have hform : ∀ (n : VText) (b : Nat), (rangeRef n b).reverse =
      ']' :: ((digits b).reverse ++ ':' :: ((digits b).reverse ++ '[' :: n.reverse)) := by
    intro n b
    simp [rangeRef]
  have hnot : ∀ (b : Nat) (c : Char), c.isDigit = false → c ∉ (digits b).reverse := fun b c hc hmem =>
    digits_notMem b hc (List.mem_reverse.mp hmem)
  rw [hform, hform] at hrev
  obtain ⟨hbit, hrest⟩ := append_cons_inj (hnot bit ':' rfl) (hnot bit' ':' rfl) (List.cons.inj hrev).2
  obtain ⟨-, hname⟩ := append_cons_inj (hnot bit '[' rfl) (hnot bit' '[' rfl) hrest
  exact ⟨List.reverse_injective hname, digits_injective (List.reverse_injective hbit)⟩

/-- No name of the clause has a blank in it. -/
def Tokens (c : List CnfLit) : Prop := ∀ l ∈ c, ' ' ∉ l.name

theorem rangeRef_notMem_blank {name : VText} (h : ' ' ∉ name) (bit : Nat) : ' ' ∉ rangeRef name bit := by
  have hdigits : ' ' ∉ digits bit := digits_notMem bit rfl
  simp [rangeRef, h, hdigits]

theorem clause2Str_injective {c c' : List CnfLit} (hc : Tokens c) (hc' : Tokens c') (h : clause2Str c = clause2Str c') :
    c = c' := by
  induction c generalizing c' with
  | nil =>
    cases c' with
    | nil => rfl
    | cons l' c' => cases h
  | cons l c ih =>
    cases c' with
    | nil => cases h
    | cons l' c' =>
      have hl := rangeRef_notMem_blank (hc l List.mem_cons_self) l.bit
      have hl' := rangeRef_notMem_blank (hc' l' List.mem_cons_self) l'.bit
      have hrest : ∀ d : List CnfLit, clause2Str d ++ [' '] = ' ' :: (clause2Str d ++ [' ']).tail := by
        intro d
        cases d with
        | nil => rfl
        | cons a d => rfl
      have htext : ∀ (a : CnfLit) (d : List CnfLit), clause2Str (a :: d) =
          ' ' :: (if a.complement then '~' else ' ') :: (rangeRef a.name a.bit ++ clause2Str d) := fun a d => rfl
      rw [htext, htext, List.cons.injEq, List.cons.injEq] at h
      -- a blank is put behind both texts, so that the first range ends with a blank in every case
      have hblank := congrArg (· ++ [' ']) h.2.2
      simp only [List.append_assoc] at hblank
      rw [hrest c, hrest c'] at hblank
      obtain ⟨hrange, htail⟩ := append_cons_inj hl hl' hblank
      have hsame : clause2Str c = clause2Str c' := by
        have happ : clause2Str c ++ [' '] = clause2Str c' ++ [' '] := by rw [hrest c, hrest c', htail]
        exact List.append_cancel_right happ
      obtain ⟨hname, hbit⟩ := rangeRef_injective hrange
      have hcompl : l.complement = l'.complement := by
        have hsign := h.2.1
        cases h₁ : l.complement with
        | true =>
          cases h₂ : l'.complement with
          | true => rfl
          | false => rw [h₁, h₂] at hsign; exact absurd hsign (by decide)
        | false =>
          cases h₂ : l'.complement with
          | true => rw [h₁, h₂] at hsign; exact absurd hsign (by decide)
          | false => rfl
      have hlit : l = l' := by
        obtain ⟨a, b, d⟩ := l
        obtain ⟨a', b', d'⟩ := l'
        cases hcompl
        cases hname
        cases hbit
        rfl
      rw [hlit, ih (fun a ha => hc a (List.mem_cons_of_mem l ha)) (fun a ha => hc' a (List.mem_cons_of_mem l' ha)) hsame]

theorem mem_canonicalizeClause {c : List CnfLit} {l : CnfLit} : l ∈ canonicalizeClause c ↔ l ∈ c := List.mem_insertionSort _

theorem clauseHolds_canonicalize (c : List CnfLit) : clauseHolds σ (canonicalizeClause c) = clauseHolds σ c := by
  rw [Bool.eq_iff_iff, clauseHolds, clauseHolds, List.all_eq_true, List.all_eq_true]
  exact ⟨fun h l hl => h l (mem_canonicalizeClause.mpr hl), fun h l hl => h l (mem_canonicalizeClause.mp hl)⟩

/-- Clauses under their own texts. -/
def Cnf.Ok (cnf : Cnf) : Prop := ∀ p ∈ cnf, p.1 = clause2Str p.2 ∧ Tokens p.2

def Cnf.clauses (cnf : Cnf) : List (List CnfLit) := cnf.map Prod.snd

theorem Cnf.Ok.mem_iff {cnf : Cnf} (h : cnf.Ok) {c : List CnfLit} (hc : Tokens c) :
    clause2Str c ∈ cnf.map Prod.fst ↔ c ∈ cnf.clauses := by
  refine ⟨fun hmem => ?_, fun hmem => ?_⟩
  · obtain ⟨p, hp, heq⟩ := List.mem_map.mp hmem
    obtain ⟨htext, htokens⟩ := h p hp
    rw [clause2Str_injective hc htokens (by rw [← heq, htext])]
    exact List.mem_map_of_mem hp
  · obtain ⟨p, hp, rfl⟩ := List.mem_map.mp hmem
    rw [← (h p hp).1]
    exact List.mem_map_of_mem hp

theorem insertClause_ok {ref cnf : Cnf} (hcnf : cnf.Ok) {c : List CnfLit} (hc : Tokens c) :
    (insertClauseNewerFromReference ref cnf c).Ok := by
  have hcanon : Tokens (canonicalizeClause c) := fun l hl => hc l (mem_canonicalizeClause.mp hl)
  unfold insertClauseNewerFromReference
  dsimp only
  split
  · exact hcnf
  · split
    · exact hcnf
    · intro p hp
      rcases List.mem_append.mp hp with hp | hp
      · exact hcnf p hp
      · rw [List.mem_singleton.mp hp]
        exact ⟨rfl, hcanon⟩

theorem mem_insertClause {ref cnf : Cnf} (href : ref.Ok) (hcnf : cnf.Ok) {c : List CnfLit} (hc : Tokens c)
    (d : List CnfLit) : d ∈ (insertClauseNewerFromReference ref cnf c).clauses ↔
      d ∈ cnf.clauses ∨ (d = canonicalizeClause c ∧ d ∉ ref.clauses) := by
  have hcanon : Tokens (canonicalizeClause c) := fun l hl => hc l (mem_canonicalizeClause.mp hl)
  unfold insertClauseNewerFromReference
  dsimp only
  split
  · rename_i hmem
    rw [href.mem_iff hcanon] at hmem
    refine ⟨.inl, fun h => h.elim id fun hd => ?_⟩
    exact absurd (hd.1 ▸ hmem) hd.2
  · rename_i hnot
    rw [href.mem_iff hcanon] at hnot
    split
    · rename_i hmem
      rw [hcnf.mem_iff hcanon] at hmem
      exact ⟨.inl, fun h => h.elim id fun hd => hd.1 ▸ hmem⟩
    · rw [Cnf.clauses, List.map_append, List.mem_append, List.map_singleton, List.mem_singleton]
      exact ⟨fun h => h.imp id fun hd => ⟨hd, hd ▸ hnot⟩, fun h => h.imp id And.left⟩

theorem mem_insertAll {ref cnf : Cnf} (href : ref.Ok) (hcnf : cnf.Ok) {cubes : List Cube}
    (hcubes : ∀ c ∈ cubes, Tokens c.clause) (d : List CnfLit) :
    d ∈ Cnf.clauses (cubes.foldl (fun cnf c => insertClauseNewerFromReference ref cnf c.clause) cnf) ↔
      d ∈ cnf.clauses ∨ ∃ c ∈ cubes, d = canonicalizeClause c.clause ∧ d ∉ ref.clauses := by
  induction cubes generalizing cnf with
  | nil => simp
  | cons c cubes ih =>
    have hc := hcubes c List.mem_cons_self
    rw [List.foldl_cons, ih (insertClause_ok hcnf hc) fun c' hc' => hcubes c' (List.mem_cons_of_mem c hc'),
      mem_insertClause href hcnf hc, or_assoc, List.exists_mem_cons_iff]

end Clauses

/-! ### Names in clauses -/

section Names

variable {o : Options} {decode : Nat → Option LitOut}

theorem readCube_tokens (hdecode : ∀ flop l, decode flop = some l → Tokens l.cnf.toList) {line : List Nat} {c : Cube}
    (h : readCube decode line = some c) : Tokens c.clause := by
  have hfold : ∀ (line : List Nat) (c c' : Cube), line.foldlM (fun c flop => (decode flop).map c.add) c = some c' →
      Tokens c.clause → Tokens c'.clause := by
    intro line
    induction line with
    | nil =>
      intro c c' h hc
      cases h
      exact hc
    | cons flop line ih =>
      intro c c' h hc
      rw [List.foldlM_cons] at h
      obtain ⟨d, hd, h⟩ := Option.bind_eq_some_iff.mp h
      obtain ⟨l, hl, rfl⟩ := Option.map_eq_some_iff.mp hd
      refine ih _ c' h fun a ha => ?_
      rcases List.mem_append.mp ha with ha | ha
      · exact hc a ha
      · exact hdecode flop l hl a ha
  exact hfold line _ c h fun l hl => absurd hl List.not_mem_nil

theorem readAigerMap_names {blif : List BlifLatch} {lines : List MapLine} {m : AigerMap}
    (h : readAigerMap blif lines = some m) : ∀ s ∈ m.order, ∃ l ∈ lines, l.name = s.1 := by
  have hfold : ∀ (lines : List MapLine) (m m' : AigerMap), lines.foldlM (readMapLine blif) m = some m' →
      ∀ s ∈ m'.order, s ∈ m.order ∨ ∃ l ∈ lines, l.name = s.1 := by
    intro lines
    induction lines with
    | nil =>
      intro m m' h s hs
      cases h
      exact .inl hs
    | cons l lines ih =>
      intro m m' h s hs
      rw [List.foldlM_cons] at h
      obtain ⟨d, hd, h⟩ := Option.bind_eq_some_iff.mp h
      rcases ih d m' h s hs with hmem | ⟨l', hl', heq⟩
      · have hd' : d.order = m.order ∨ d.order = m.order ++ [(l.name, l.bit)] := by
          unfold readMapLine at hd
          dsimp only at hd
          split at hd
          · split at hd
            · split at hd
              · cases hd
                exact .inr rfl
              · cases hd
            · cases hd
              exact .inl rfl
          · cases hd
        rcases hd' with hd' | hd'
        · exact .inl (hd' ▸ hmem)
        · rw [hd', List.mem_append, List.mem_singleton] at hmem
          rcases hmem with hmem | rfl
          · exact .inl hmem
          · exact .inr ⟨l, List.mem_cons_self, rfl⟩
      · exact .inr ⟨l', List.mem_cons_of_mem l hl', heq⟩
  intro s hs
  exact (hfold lines _ m h s hs).resolve_left List.not_mem_nil

theorem aigerLiteral_tokens {name : VText} (hname : ' ' ∉ name) (bit : Nat) (neg : Bool) :
    Tokens (aigerLiteral o name bit neg).cnf.toList := by
  have hlit : ∀ l ∈ (aigerLiteral o name bit neg).cnf.toList, l.name = name := by
    intro l hl
    unfold aigerLiteral at hl
    dsimp only at hl
    split at hl
    · rw [List.mem_singleton.mp hl]
    · split at hl
      · split at hl
        · cases hl
        · split at hl
          · cases hl
          · cases hl
      · rw [List.mem_singleton.mp hl]
  exact fun l hl => hlit l hl ▸ hname

variable {m : AigerMap}

theorem aigerFlop_tokens (hm : ∀ s ∈ m.order, ' ' ∉ s.1) (flop : Nat) (l : LitOut) (hl : aigerFlop o m flop = some l) :
    Tokens l.cnf.toList := by
  unfold aigerFlop at hl
  split at hl
  · cases hl
    exact fun a ha => absurd ha List.not_mem_nil
  · obtain ⟨s, hs, rfl⟩ := Option.map_eq_some_iff.mp hl
    exact aigerLiteral_tokens (hm s (List.mem_of_getElem? hs)) _ _

theorem aigerGlaFlop_tokens (hm : ∀ s ∈ m.order, ' ' ∉ s.1) (gla : List Nat) (flop : Nat) (l : LitOut)
    (hl : aigerGlaFlop o m gla flop = some l) : Tokens l.cnf.toList := by
  obtain ⟨k, -, hl⟩ := Option.bind_eq_some_iff.mp hl
  dsimp only at hl
  split at hl
  · cases hl
    exact fun a ha => absurd ha List.not_mem_nil
  · obtain ⟨s, hs, rfl⟩ := Option.map_eq_some_iff.mp hl
    exact aigerLiteral_tokens (hm s (List.mem_of_getElem? hs)) _ _

end Names

/-! ### The parser -/

/-- A decoder of the literal numbers in the result that is right for all states that are meant. -/
structure Decoder (o : Options) (i : Input) (L : Latches) (decode : Nat → Option LitOut) : Prop where
  ok : ∀ σ, Reads o i σ → DecodeOk i.lines.flatten L σ decode
  cnf : i.aiger.isSome = true → ∀ σ, Reads o i σ → DecodeCnf i.lines.flatten L σ decode
  tokens : i.aiger.isSome = true → ∀ flop l, decode flop = some l → Tokens l.cnf.toList

theorem blifOk_of_clean {o : Options} {i : Input} (hclean : Clean i) (haiger : i.aiger = none) {L : Latches}
    (hL : i.latches = some L) (hrefs : L.refs = i.blif.map fun l => verilogRef l.name) {σ : VState} (hread : Reads o i σ)
    {k : Nat} (hk : i.Refers L k) {l : BlifLatch} (hl : i.blif[k]? = some l) : BlifOk o σ l where
  assumed := hread.assumed
  brackets := hclean.brackets haiger L hL k hk l hl
  constants := hclean.constants haiger L hL k hk l hl
  whole := by
    refine hclean.whole L hL k hk _ ?_
    rw [hrefs, List.getElem?_map, hl]
    rfl
  committed hreplace := hread.committed haiger hreplace l (List.mem_of_getElem? hl)

theorem exists_decoder {o : Options} {i : Input} (hclean : Clean i)
    (hnames : ∀ map, i.aiger = some map → ∀ l ∈ map, ' ' ∉ l.name) {cubes : List Cube} (h : parse o i = some cubes) :
    ∃ L decode, i.latches = some L ∧ Decoder o i L decode ∧ readResult decode i.lines = some cubes := by
  unfold parse at h
  split at h
  · rename_i map haiger hgla
    obtain ⟨m, hm, h⟩ := Option.bind_eq_some_iff.mp h
    have hL : i.latches = some (aigerLatches m none) := by
      rw [Input.latches, haiger]
      dsimp only
      rw [hm, hgla]
      rfl
    have hok : ∀ σ, Reads o i σ → DecodeOk i.lines.flatten (aigerLatches m none) σ (aigerFlop o m) ∧
        DecodeCnf i.lines.flatten (aigerLatches m none) σ (aigerFlop o m) :=
      fun σ hread => aigerFlop_ok hread.assumed fun flop hflop => hclean.whole _ hL (flop / 2) ⟨flop, hflop, rfl⟩
    refine ⟨_, _, hL, ⟨fun σ hread => (hok σ hread).1, fun _ σ hread => (hok σ hread).2, fun _ => ?_⟩, h⟩
    refine aigerFlop_tokens fun s hs => ?_
    obtain ⟨l, hl, heq⟩ := readAigerMap_names hm s hs
    exact heq ▸ hnames map haiger l hl
  · rename_i map g haiger hgla
    obtain ⟨m, hm, h⟩ := Option.bind_eq_some_iff.mp h
    obtain ⟨ids, hids, h⟩ := Option.bind_eq_some_iff.mp h
    have hL : i.latches = some (aigerLatches m (some ids)) := by
      rw [Input.latches, haiger]
      dsimp only
      rw [hm, hgla]
      dsimp only [Option.bind_eq_bind, Option.bind_some]
      rw [hids]
      rfl
    have hextra : ∀ flop ∈ i.lines.flatten, ids[flop / 2]? = some m.order.length → decide (m.order.length ∈ m.inv) = false := by
      intro flop hflop hlast
      have hlength : (aigerLatches m (some ids)).refs.length = m.order.length := by rw [aigerLatches, List.length_map]
      have hinv := hclean.extra (by rw [haiger]; rfl) (by rw [hgla]; rfl) _ hL ⟨flop, hflop, hlength ▸ hlast⟩
      rwa [hlength] at hinv
    have hok : ∀ σ, Reads o i σ → DecodeOk i.lines.flatten (aigerLatches m (some ids)) σ (aigerGlaFlop o m ids) ∧
        DecodeCnf i.lines.flatten (aigerLatches m (some ids)) σ (aigerGlaFlop o m ids) :=
      fun σ hread => aigerGlaFlop_ok hread.assumed (fun flop hflop k hk => hclean.whole _ hL k ⟨flop, hflop, hk⟩) hextra
    refine ⟨_, _, hL, ⟨fun σ hread => (hok σ hread).1, fun _ σ hread => (hok σ hread).2, fun _ => ?_⟩, h⟩
    refine aigerGlaFlop_tokens (fun s hs => ?_) ids
    obtain ⟨l, hl, heq⟩ := readAigerMap_names hm s hs
    exact heq ▸ hnames map haiger l hl
  · rename_i haiger hgla
    have hL : i.latches = some (blifLatches i.blif none) := by
      rw [Input.latches, haiger]
      dsimp only
      rw [hgla]
    refine ⟨_, _, hL, ⟨fun σ hread => blifFlop_ok fun flop hflop b hb =>
      blifOk_of_clean hclean haiger hL rfl hread ⟨flop, hflop, rfl⟩ hb, ?_, ?_⟩, h⟩
    · rw [haiger]
      exact fun hsome => absurd hsome (by decide)
    · rw [haiger]
      exact fun hsome => absurd hsome (by decide)
  · rename_i g haiger hgla
    obtain ⟨ids, hids, h⟩ := Option.bind_eq_some_iff.mp h
    have hL : i.latches = some (blifLatches i.blif (some ids)) := by
      rw [Input.latches, haiger]
      dsimp only
      rw [hgla]
      dsimp only
      rw [hids]
      rfl
    refine ⟨_, _, hL, ⟨fun σ hread => blifGlaFlop_ok fun flop hflop k hk b hb =>
      blifOk_of_clean hclean haiger hL rfl hread ⟨flop, hflop, hk⟩ hb, ?_, ?_⟩, h⟩
    · rw [haiger]
      exact fun hsome => absurd hsome (by decide)
    · rw [haiger]
      exact fun hsome => absurd hsome (by decide)

/-- The parsed expression is true in every state in which no cube of the result holds. In AIGER mode the clauses that are put
into the CNF are the cubes of the expression, without those of the reference. -/
theorem parse_sound {o : Options} {i : Input} (hclean : Clean i)
    (hnames : ∀ map, i.aiger = some map → ∀ l ∈ map, ' ' ∉ l.name) {cubes : List Cube} (h : parse o i = some cubes)
    {e : List (List (Bool × VText))} (he : parseResult cubes = some e) :
    ∃ L, i.latches = some L ∧
      (∀ σ, Reads o i σ → (∀ line ∈ i.lines, cubeHolds L σ line = false) → evalExpr L.refs σ e = some true) ∧
      (i.aiger.isSome = true → ∃ clauses,
        List.Forall₂ (fun cube clause => ∀ σ, Reads o i σ → evalCube L.refs σ cube = some (clauseHolds σ clause)) e clauses ∧
        ∀ ref cnf : Cnf, ref.Ok → cnf.Ok → ∀ d, d ∈ (parseCnf i ref cnf cubes).clauses ↔
          d ∈ cnf.clauses ∨ (d ∈ clauses ∧ d ∉ ref.clauses)) := by
  obtain ⟨L, decode, hL, hdecode, hread⟩ := exists_decoder hclean hnames h
  have hlines := exists_line hread
  have hflops : ∀ line ∈ i.lines, ∀ flop ∈ line, flop ∈ i.lines.flatten :=
    fun line hline flop hflop => List.mem_flatten_of_mem hline hflop
  have hmap : e = cubes.map fun c => replaced c.lits := by
    unfold parseResult at he
    split at he
    · cases he
    · exact (Option.some.inj he).symm
  refine ⟨L, hL, fun σ hσ hnone => ?_, fun haiger => ⟨cubes.map fun c => canonicalizeClause c.clause, ?_, ?_⟩⟩
  · refine evalExpr_true fun cube hcube => ?_
    rw [hmap] at hcube
    obtain ⟨c, hc, rfl⟩ := List.mem_map.mp hcube
    obtain ⟨hkeep, line, hline, hcube⟩ := hlines c hc
    rw [readCube_ok (hflops line hline) hcube hkeep (hdecode.ok σ hσ), hnone line hline]
  · rw [hmap, List.forall₂_map_left_iff, List.forall₂_map_right_iff, List.forall₂_same]
    intro c hc σ hσ
    obtain ⟨hkeep, line, hline, hcube⟩ := hlines c hc
    rw [readCube_ok (hflops line hline) hcube hkeep (hdecode.ok σ hσ), clauseHolds_canonicalize,
      readCube_cnf (hflops line hline) hcube hkeep (hdecode.cnf haiger σ hσ)]
  · intro ref cnf href hcnf d
    have htokens : ∀ c ∈ cubes, Tokens c.clause := by
      intro c hc
      obtain ⟨-, line, -, hcube⟩ := hlines c hc
      exact readCube_tokens (hdecode.tokens haiger) hcube
    rw [parseCnf, if_pos haiger, mem_insertAll href hcnf htokens]
    refine or_congr_right ⟨?_, ?_⟩
    · rintro ⟨c, hc, rfl, hnot⟩
      exact ⟨List.mem_map.mpr ⟨c, hc, rfl⟩, hnot⟩
    · rintro ⟨hmem, hnot⟩
      obtain ⟨c, hc, rfl⟩ := List.mem_map.mp hmem
      exact ⟨c, hc, rfl, hnot⟩

/-- Two registers, the second inverted, behind an abstraction that also has the extra register. -/
def glaInput : Input where
  blif := [⟨"m1.x".toList, 0⟩, ⟨"m1.y[1]".toList, 1⟩]
  aiger := some [⟨false, 0, 0, "m1.x".toList⟩, ⟨true, 1, 1, "m1.y".toList⟩]
  gla := some ⟨1, 1, [(2, 1), (3, 2), (4, 3)]⟩
  lines := [[0, 3, 4]]

def glaCubes : List Cube :=
  [⟨[(false, "m1.x[0:0]".toList), (false, "m1.y[1:1]".toList), (false, oneText)], false,
    [⟨false, "m1.x".toList, 0⟩, ⟨false, "m1.y".toList, 1⟩]⟩]

theorem glaInput_parse : parse ⟨"m1".toList, true⟩ glaInput = some glaCubes := by decide +kernel

theorem glaInput_latches : glaInput.latches = some (aigerLatches ⟨[("m1.x".toList, 0), ("m1.y".toList, 1)], [1]⟩
    (some [0, 1, 2])) := rfl

theorem glaInput_clean : Clean glaInput where
  whole L hL k _ ref href := by
    have hrefs : ∀ ref ∈ L.refs, allAssumedReg <:+: ref → ref = allAssumedReg := by
      cases hL.symm.trans glaInput_latches
      decide +kernel
    exact hrefs ref (List.mem_of_getElem? href)
  brackets h := by cases h
  constants h := by cases h
  extra _ _ L hL _ := by
    cases hL.symm.trans glaInput_latches
    decide

theorem parse_sound_gla : parse ⟨"m1".toList, true⟩ glaInput = some glaCubes ∧
    ∃ L, glaInput.latches = some L ∧ ∀ σ, Reads ⟨"m1".toList, true⟩ glaInput σ →
      (∀ line ∈ glaInput.lines, cubeHolds L σ line = false) →
        evalExpr L.refs σ (glaCubes.map fun c => replaced c.lits) = some true := by
  obtain ⟨L, hL, htrue, -⟩ := parse_sound glaInput_clean
    (fun map hmap => by cases hmap; decide) glaInput_parse (e := glaCubes.map fun c => replaced c.lits) rfl
  exact ⟨glaInput_parse, L, hL, htrue⟩

/-- A BLIF file with a register `committed_inst`. -/
def committedInput : Input where
  blif := [⟨"committed_inst".toList, 0⟩, ⟨"m1.x".toList, 0⟩]
  aiger := none
  gla := none
  lines := [[0, 2]]

theorem committedInput_clean : Clean committedInput where
  whole L hL k _ ref href := by
    have hrefs : ∀ ref ∈ L.refs, allAssumedReg <:+: ref → ref = allAssumedReg := by
      cases hL
      decide +kernel
    exact hrefs ref (List.mem_of_getElem? href)
  brackets _ L _ k _ l hl := by
    have hall : ∀ l ∈ committedInput.blif, '[' ∈ l.name → l.name.getLast? = some ']' := by decide
    exact hall l (List.mem_of_getElem? hl)
  constants _ L _ k _ l hl := by
    have hall : ∀ l ∈ committedInput.blif, l.name ≠ zeroText ∧ l.name ≠ oneText := by decide
    exact hall l (List.mem_of_getElem? hl)
  extra h := by cases h

/-- The literal of `committed_inst` is taken to be true, so that the expression says more than ABC has proved. -/
theorem committed_inst_dropped : ¬ ∀ (o : Options) (i : Input) (cubes : List Cube) (e : List (List (Bool × VText))) (L : Latches),
    Clean i → parse o i = some cubes → parseResult cubes = some e → i.latches = some L →
      ∀ σ : VState, σ allAssumedReg = false → (∀ line ∈ i.lines, cubeHolds L σ line = false) →
        evalExpr L.refs σ e = some true := by
  intro h
  have htrue := h ⟨"m1".toList, true⟩ committedInput [⟨[(false, oneText), (false, "m1.x".toList)], false, []⟩]
    [[(false, oneText), (false, "m1.x".toList)]] (blifLatches committedInput.blif none) committedInput_clean
    (by decide +kernel) (by decide +kernel) rfl (fun t => t == "m1.x".toList) (by decide) (by decide +kernel)
  exact absurd htrue (by decide +kernel)

end Abc

end Ilang
