import Ilang.Util.Container
import Ilang.Vtarget.EmbedExpr

/-!
# When an expression keeps its meaning in the wrapper

A pasted expression is one operand if its operators bind tighter than those around it, and the bitwise negations of the wrapper are
logical ones for conditions that are zero or have all bits set.
-/

namespace Ilang.EmbedExpr

open Verilog Precedence

abbrev UserExpr := {t : ExprTree // t.WF operators}

def UserExpr.toks (t : UserExpr) : List Token := t.1.toks operators

/-! ### Connectives -/

section Wraps

variable {α : Type}

def landAll (w : Wrap α) (ws : List (Wrap α)) : Wrap α := ws.foldl .land w

def notArg (a : α) : Wrap α := .not (.group (.arg a))

def implies (c : Wrap α) (m : α) : Wrap α := .lor (.not (.group c)) (.group (.arg m))

/-- Whether a condition is the first one that holds, with the conditions before it. -/
def testWrap : List α → α → Wrap α
  | [], c => .group (.arg c)
  | b :: bs, c => landAll (notArg b) (bs.map notArg ++ [.group (.arg c)])

def mappingWraps : List α → List (α × α) → List (Wrap α)
  | _, [] => []
  | before, (c, m) :: ps => implies (testWrap before c) m :: mappingWraps (before ++ [c]) ps

def listWrap (one : α) (ps : List (α × α)) : Wrap α :=
  match mappingWraps [] ps with
  | [] => .arg one
  | w :: ws => landAll (.group w) (ws.map .group)

def startWrap (start c : α) : Wrap α := .lor (.group (.not (.arg start))) (.arg c)

def prepWrap (one : α) (args : List (α × α)) : Wrap α :=
  landAll (.arg one) (args.map fun p => .group (implies (.arg p.1) p.2))

def functionWrap (one c r : α) (args : List (α × α)) : Wrap α :=
  .lor (.not (.group (prepWrap one args))) (.group (implies (.arg c) r))

end Wraps

theorem toks_landAll (w : Wrap ExprTree) (ws : List (Wrap ExprTree)) : (landAll w ws).tree.toks operators =
    w.tree.toks operators ++ ws.flatMap fun w => .op .land :: w.tree.toks operators := by
  induction ws generalizing w with
  | nil => exact (List.append_nil _).symm
  | cons v ws ih =>
    have hstep := ih (.land w v)
    rw [landAll] at hstep ⊢
    rw [List.foldl_cons, hstep, Wrap.tree, Tree.toks, List.flatMap_cons, List.append_assoc]

theorem wf_landAll {w : Wrap ExprTree} {ws : List (Wrap ExprTree)} (hw : w.tree.WF operators ∧ w.tree.AtLeast operators 3)
    (hws : ∀ v ∈ ws, v.tree.WF operators ∧ v.tree.AtLeast operators 4) :
    (landAll w ws).tree.WF operators ∧ (landAll w ws).tree.AtLeast operators 3 := by
  induction ws generalizing w with
  | nil => exact hw
  | cons v ws ih =>
    have hv := hws v List.mem_cons_self
    apply ih (w := .land w v)
    · exact ⟨⟨3, rfl, hw.2, hv.2, hw.1, hv.1⟩, 3, rfl, Nat.le_refl 3⟩
    · exact fun u hu => hws u (List.mem_cons_of_mem v hu)

theorem wf_notArg {t : ExprTree} (ht : t.WF operators) (n : Nat) :
    (notArg t).tree.WF operators ∧ (notArg t).tree.AtLeast operators n := ⟨⟨rfl, rfl, ht⟩, trivial⟩

theorem wf_group {w : Wrap ExprTree} (hw : w.tree.WF operators) (n : Nat) :
    (Wrap.group w).tree.WF operators ∧ (Wrap.group w).tree.AtLeast operators n := ⟨hw, trivial⟩

theorem wf_implies {w : Wrap ExprTree} {t : ExprTree} (hw : w.tree.WF operators) (ht : t.WF operators) :
    (implies w t).tree.WF operators := ⟨2, rfl, trivial, trivial, ⟨rfl, rfl, hw⟩, ht⟩

theorem wf_testWrap {before : List ExprTree} {c : ExprTree} (hb : ∀ b ∈ before, b.WF operators) (hc : c.WF operators) :
    (testWrap before c).tree.WF operators := by
  cases before with
  | nil => exact hc
  | cons b bs =>
    refine (wf_landAll (wf_notArg (hb b List.mem_cons_self) 3) fun v hv => ?_).1
    cases List.mem_append.mp hv with
    | inl hin =>
      obtain ⟨b', hb', rfl⟩ := List.mem_map.mp hin
      exact wf_notArg (hb b' (List.mem_cons_of_mem b hb')) 4
    | inr hin =>
      rw [List.mem_singleton.mp hin]
      exact wf_group (w := .arg c) hc 4

theorem wf_mappingWraps {before : List ExprTree} {ps : List (ExprTree × ExprTree)} (hb : ∀ b ∈ before, b.WF operators)
    (hps : ∀ p ∈ ps, p.1.WF operators ∧ p.2.WF operators) : ∀ w ∈ mappingWraps before ps, w.tree.WF operators := by
  induction ps generalizing before with
  | nil => exact fun w hw => absurd hw List.not_mem_nil
  | cons p ps ih =>
    obtain ⟨hc, hm⟩ := hps p List.mem_cons_self
    intro w hw
    cases List.mem_cons.mp hw with
    | inl heq =>
      rw [heq]
      exact wf_implies (wf_testWrap hb hc) hm
    | inr hin =>
      refine ih (fun b hbin => ?_) (fun q hq => hps q (List.mem_cons_of_mem p hq)) w hin
      cases List.mem_append.mp hbin with
      | inl hold => exact hb b hold
      | inr hnew =>
        rw [List.mem_singleton.mp hnew]
        exact hc

theorem wf_listWrap {one : ExprTree} {ps : List (ExprTree × ExprTree)} (hone : one.WF operators)
    (hps : ∀ p ∈ ps, p.1.WF operators ∧ p.2.WF operators) : (listWrap one ps).tree.WF operators := by
  have hall := @wf_mappingWraps [] ps (fun b hb => absurd hb List.not_mem_nil) hps
  rw [listWrap]
  cases hws : mappingWraps [] ps with
  | nil => exact hone
  | cons w ws =>
    rw [hws] at hall
    refine (wf_landAll (wf_group (hall w List.mem_cons_self) 3) fun v hv => ?_).1
    obtain ⟨u, hu, rfl⟩ := List.mem_map.mp hv
    exact wf_group (hall u (List.mem_cons_of_mem w hu)) 4

/-! ### Lists of conditions and maps -/

theorem flatMap_cons_append {β γ : Type} (f : β → List γ) (sep : γ) (bs : List β) (r : List γ) :
    bs.flatMap (fun b => sep :: f b) ++ sep :: r = sep :: (bs.flatMap (fun b => f b ++ [sep]) ++ r) := by
  induction bs with
  | nil => rfl
  | cons b bs ih =>
    rw [List.flatMap_cons, List.append_assoc, ih, List.flatMap_cons]
    simp only [List.append_assoc, List.cons_append, List.nil_append]

theorem intercalate_cons {γ : Type} (sep : List γ) (m : List γ) (ms : List (List γ)) :
    sep.intercalate (m :: ms) = m ++ ms.flatMap fun m => sep ++ m := by
  induction ms generalizing m with
  | nil => simp
  | cons m' ms ih =>
    rw [List.intercalate_cons_of_ne_nil (List.cons_ne_nil m' ms), ih, List.flatMap_cons, List.append_assoc, List.append_assoc]

theorem toks_testWrap (before : List ExprTree) (c : ExprTree) : (testWrap before c).tree.toks operators =
    before.flatMap (fun b => negation (b.toks operators)) ++ [.opn .paren] ++ c.toks operators ++ [.cls .paren] := by
  cases before with
  | nil => rfl
  | cons b bs =>
    have hneg : ∀ b : ExprTree, (notArg b).tree.toks operators ++ [.op .land] = negation (b.toks operators) := by
      intro b
      simp [notArg, Wrap.tree, Tree.toks, negation]
    have hjoin := flatMap_cons_append (fun b : ExprTree => (notArg b).tree.toks operators) (.op .land) bs
      (.opn .paren :: (c.toks operators ++ [.cls .paren]))
    rw [testWrap, toks_landAll, List.flatMap_append, List.flatMap_map, List.flatMap_singleton, List.flatMap_cons, ← hneg b]
    simp only [hneg] at hjoin
    rw [Wrap.tree, Wrap.tree, Tree.toks, hjoin]
    simp only [List.append_assoc, List.cons_append, List.nil_append]

theorem toks_mapping (before : List ExprTree) (c m : ExprTree) : (implies (testWrap before c) m).tree.toks operators =
    pairMapping (before.flatMap fun b => negation (b.toks operators)) (c.toks operators) (m.toks operators) := by
  rw [implies, Wrap.tree, Wrap.tree, Wrap.tree, Wrap.tree, Wrap.tree, Tree.toks, Tree.toks, Tree.toks, Tree.toks, toks_testWrap,
    pairMapping]
  simp only [List.append_assoc, List.cons_append, List.nil_append]

namespace Wrapper

variable (W : Wrapper)

abbrev UserPair := Option UserExpr × Option UserExpr

def items (ps : List UserPair) : List Item := ps.map fun p => .pair (p.1.map UserExpr.toks) (p.2.map UserExpr.toks)

/-- What is written for a condition, as a tree. -/
def condTree (c : Option UserExpr) : ExprTree := c.elim (.atom "`true".toList) fun t => t.1.map (W.replName false)

theorem condText_toks (c : Option UserExpr) : W.condText (c.map UserExpr.toks) = (W.condTree c).toks operators := by
  cases c with
  | none => rfl
  | some t => exact (Tree.toks_map (W.replName false) t.1).symm

theorem condTree_wf (c : Option UserExpr) : (W.condTree c).WF operators := by
  cases c with
  | none => trivial
  | some t => exact (Tree.wf_map (W.replName false) t.1).mpr t.2

/-- What is written for the maps of the pairs. -/
def vmapTexts (name : Text) : Nat → List UserPair → List (List Token)
  | _, [] => []
  | n, p :: ps =>
    let (m, n') := W.vmapResult name n (p.2.map UserExpr.toks)
    m :: vmapTexts name n' ps

theorem allMappings_eq (name : Text) (before : List ExprTree) (n : Nat) (ps : List UserPair) {ms : List ExprTree}
    (hms : List.Forall₂ Spells (W.vmapTexts name n ps) ms) :
    W.allMappings name (before.flatMap fun b => negation (b.toks operators)) n (items ps) =
      (mappingWraps before ((ps.map fun p => W.condTree p.1).zip ms)).map fun w => w.tree.toks operators := by
  induction ps generalizing before n ms with
  | nil => rfl
  | cons p ps ih =>
    rw [vmapTexts] at hms
    obtain ⟨m, ms, hm, hrest, rfl⟩ := List.forall₂_cons_left_iff.mp hms
    have hnext : (before.flatMap fun b => negation (b.toks operators)) ++ negation ((W.condTree p.1).toks operators) =
        (before ++ [W.condTree p.1]).flatMap fun b => negation (b.toks operators) := by
      rw [List.flatMap_append, List.flatMap_singleton]
    rw [List.map_cons, List.zip_cons_cons, mappingWraps, List.map_cons, toks_mapping, hm.2, ← ih (before ++ [W.condTree p.1]) _ hrest,
      ← hnext, ← W.condText_toks]
    rfl

def trueTree : ExprTree := .atom "`true".toList

/-- The pairs as they are written. -/
def pairTrees (ps : List UserPair) (ms : List ExprTree) : List (ExprTree × ExprTree) := (ps.map fun p => W.condTree p.1).zip ms

theorem wf_of_spells {tss : List (List Token)} {ms : List ExprTree} (h : List.Forall₂ Spells tss ms) :
    ∀ m ∈ ms, m.WF operators := by
  intro m hm
  obtain ⟨ts, -, hspells⟩ := Pointwise.exists_left h hm
  exact hspells.1

theorem getStateVarMapExpr_spells (name : Text) (n : Nat) (ps : List UserPair) {ms : List ExprTree}
    (hms : List.Forall₂ Spells (W.vmapTexts name n ps) ms) :
    Spells (W.getStateVarMapExpr name n (items ps)) (listWrap trueTree (W.pairTrees ps ms)).tree := by
  constructor
  · refine wf_listWrap (show trueTree.WF operators from trivial) fun q hq => ?_
    obtain ⟨hc, hm⟩ := List.of_mem_zip hq
    obtain ⟨p, _, hp⟩ := List.mem_map.mp hc
    exact ⟨hp ▸ W.condTree_wf p.1, wf_of_spells hms q.2 hm⟩
  · have hall := W.allMappings_eq name [] n ps hms
    rw [List.flatMap_nil] at hall
    rw [getStateVarMapExpr, hall, listWrap, pairTrees]
    cases mappingWraps [] ((ps.map fun p => W.condTree p.1).zip ms) with
    | nil => rfl
    | cons w ws =>
      rw [List.map_cons, intercalate_cons, List.flatMap_map]
      simp only [toks_landAll, List.flatMap_map, Wrap.tree, Tree.toks]
      have hjoin := flatMap_cons_append (fun v : Wrap ExprTree => sym .land :: lparen :: v.tree.toks operators) rparen ws []
      rw [List.append_nil] at hjoin
      simp only [List.isEmpty_cons, Bool.false_eq_true, if_false, List.append_assoc, List.cons_append, List.nil_append, hjoin]

end Wrapper

/-! ### Values -/

theorem isNonzero_landAll (w : Wrap Value) (ws : List (Wrap Value)) :
    (landAll w ws).value.isNonzero = (w.value.isNonzero && ws.all fun v => v.value.isNonzero) := by
  induction ws generalizing w with
  | nil => exact (Bool.and_true _).symm
  | cons v ws ih =>
    have hstep := ih (.land w v)
    rw [landAll] at hstep ⊢
    rw [List.foldl_cons, hstep, Wrap.value, Value.isNonzero_ofBool, List.all_cons, Bool.and_assoc]

theorem isOnes_landAll {w : Wrap Value} (hw : w.value.isOnes = w.value.isNonzero) (ws : List (Wrap Value)) :
    (landAll w ws).value.isOnes = (landAll w ws).value.isNonzero := by
  induction ws generalizing w with
  | nil => exact hw
  | cons v ws ih =>
    apply ih (w := .land w v)
    rw [Wrap.value, Value.isOnes_ofBool, Value.isNonzero_ofBool]

theorem isNonzero_implies (w : Wrap Value) (m : Value) :
    (implies w m).value.isNonzero = (!w.value.isOnes || m.isNonzero) := by
  rw [implies, Wrap.value, Value.isNonzero_ofBool, Wrap.value, Value.isNonzero_not, Wrap.value, Wrap.value, Wrap.value]

theorem isOnes_testWrap (before : List Value) (c : Value) : (testWrap before c).value.isOnes =
    if before.isEmpty then c.isOnes else (before.all fun b => !b.isOnes) && c.isNonzero := by
  cases before with
  | nil => rfl
  | cons b bs =>
    have hland : ∀ x xs, (landAll (notArg b) (x :: xs)).value.isOnes = (landAll (notArg b) (x :: xs)).value.isNonzero :=
      fun x xs => isOnes_landAll (w := .land (notArg b) x)
        (by rw [Wrap.value, Value.isOnes_ofBool, Value.isNonzero_ofBool]) xs
    have hnot : ∀ a : Value, (notArg a).value.isNonzero = !a.isOnes := fun a => Value.isNonzero_not a
    have hlast : (landAll (notArg b) (bs.map notArg ++ [.group (.arg c)])).value.isOnes =
        (landAll (notArg b) (bs.map notArg ++ [.group (.arg c)])).value.isNonzero := by
      cases bs with
      | nil => exact hland _ _
      | cons b' bs => exact hland _ _
    have hall : (bs.all ((fun v : Wrap Value => v.value.isNonzero) ∘ notArg)) = bs.all fun b => !b.isOnes := by
      congr 1
      funext a
      exact hnot a
    rw [testWrap, hlast, isNonzero_landAll, List.all_append, List.all_map, hnot, hall, List.isEmpty_cons, if_neg (by decide)]
    simp [Wrap.value, Bool.and_assoc]

theorem mappingWraps_all (before : List Value) (ps : List (Value × Value)) :
    ((mappingWraps before ps).all fun w => w.value.isNonzero) = true ↔
      ∀ pre q post, ps = pre ++ q :: post → (testWrap (before ++ pre.map Prod.fst) q.1).value.isOnes = true →
        q.2.isNonzero = true := by
  induction ps generalizing before with
  | nil => simp [mappingWraps]
  | cons p ps ih =>
    rw [mappingWraps, List.all_cons, Bool.and_eq_true, ih, isNonzero_implies]
    constructor
    · rintro ⟨hfirst, hrest⟩ pre q post heq htest
      cases pre with
      | nil =>
        obtain ⟨rfl, _⟩ := List.cons.inj heq
        rw [List.map_nil, List.append_nil] at htest
        simpa [htest] using hfirst
      | cons p' pre =>
        obtain ⟨rfl, htail⟩ := List.cons.inj heq
        apply hrest pre q post htail
        rwa [List.append_assoc, List.singleton_append, ← List.map_cons]
    · intro hall
      constructor
      · have hfirst := hall [] p ps rfl
        rw [List.map_nil, List.append_nil] at hfirst
        cases htest : (testWrap before p.1).value.isOnes with
        | false => rfl
        | true => simpa using hfirst htest
      · intro pre q post heq htest
        apply hall (p :: pre) q post (by rw [heq]; rfl)
        rwa [List.append_assoc, List.singleton_append, ← List.map_cons] at htest

/-- The map of the first pair whose condition is not zero holds. -/
def FirstHolds (ps : List (Value × Value)) : Prop :=
  ∀ pre q post, ps = pre ++ q :: post → q.1.isNonzero = true → (∀ p ∈ pre, p.1.isNonzero = false) → q.2.isNonzero = true

/-- The negations of the wrapper find the first condition that is not zero: the first condition of all has all bits set if it is not
zero, and a later one that is not zero has one with all bits set before it, or none that is not zero. -/
structure Decisive (cs : List Value) : Prop where
  first : ∀ c post, cs = c :: post → c.isNonzero = true → c.isOnes = true
  later : ∀ pre c post, cs = pre ++ c :: post → c.isNonzero = true → (∃ b ∈ pre, b.isNonzero = true) →
    ∃ b ∈ pre, b.isOnes = true

theorem isNonzero_listWrap (ps : List (Value × Value)) :
    (listWrap (.ofBool true) ps).value.isNonzero = (mappingWraps [] ps).all fun w => w.value.isNonzero := by
  rw [listWrap]
  cases mappingWraps [] ps with
  | nil => rfl
  | cons w ws =>
    rw [isNonzero_landAll, List.all_map, List.all_cons]
    rfl

theorem zip_ones (pre post : List Value) (c v : Value) :
    (pre ++ c :: post).zip (List.replicate pre.length (.ofBool true) ++ v :: List.replicate post.length (.ofBool true)) =
      (pre.map fun b => (b, Value.ofBool true)) ++ (c, v) :: post.map fun b => (b, Value.ofBool true) := by
  have hzip : ∀ l : List Value, l.zip (List.replicate l.length (Value.ofBool true)) = l.map fun b => (b, Value.ofBool true) := by
    intro l
    induction l with
    | nil => rfl
    | cons b l ih => rw [List.length_cons, List.replicate_succ, List.zip_cons_cons, ih, List.map_cons]
  rw [List.zip_append (by simp), List.zip_cons_cons, hzip, hzip]

theorem eq_of_zero {pre post : List Value} {c : Value} {P Q : List (Value × Value)} {q : Value × Value}
    (heq : (pre.map fun b => (b, Value.ofBool true)) ++ (c, .ofBool false) :: (post.map fun b => (b, Value.ofBool true)) =
      P ++ q :: Q) (hq : q.2.isNonzero = false) : P = (pre.map fun b => (b, Value.ofBool true)) ∧ q.1 = c := by
  have hones : ∀ l : List Value, q ∉ l.map fun b => (b, Value.ofBool true) := by
    intro l hmem
    obtain ⟨b, _, rfl⟩ := List.mem_map.mp hmem
    cases hq
  rcases List.append_eq_append_iff.mp heq with ⟨t, hP, hrest⟩ | ⟨t, hpre, hrest⟩
  · cases t with
    | nil =>
      rw [List.append_nil] at hP
      exact ⟨hP, congrArg Prod.fst (List.cons.inj hrest).1.symm⟩
    | cons x t =>
      have hmem : q ∈ post.map fun b => (b, Value.ofBool true) := by
        rw [(List.cons.inj hrest).2]
        simp
      exact absurd hmem (hones post)
  · cases t with
    | nil =>
      rw [List.append_nil] at hpre
      exact ⟨hpre.symm, congrArg Prod.fst (List.cons.inj hrest).1⟩
    | cons x t =>
      have hmem : q ∈ pre.map fun b => (b, Value.ofBool true) := by
        rw [hpre, (List.cons.inj hrest).1]
        simp
      exact absurd hmem (hones pre)

/-- The wrapper asks for the map of a pair exactly if the condition is the first that is not zero. -/
def AsksFirst (cs : List Value) : Prop :=
  ∀ pre c post, cs = pre ++ c :: post →
    ((testWrap ([] ++ pre) c).value.isOnes = true ↔ c.isNonzero = true ∧ ∀ b ∈ pre, b.isNonzero = false)

theorem asksFirst_iff (cs : List Value) : AsksFirst cs ↔ Decisive cs := by
  have htest : ∀ (before : List Value) (c : Value), (testWrap ([] ++ before) c).value.isOnes =
      if before.isEmpty then c.isOnes else (before.all fun b => !b.isOnes) && c.isNonzero := isOnes_testWrap
  constructor
  · intro h
    refine ⟨fun c post hcs hc => ?_, fun pre c post hcs hc hsome => ?_⟩
    · have hhead := (h [] c post hcs).mpr ⟨hc, fun b hb => absurd hb List.not_mem_nil⟩
      rwa [htest] at hhead
    · by_contra hnone
      obtain ⟨b, hb, hnz⟩ := hsome
      have hasked : (testWrap ([] ++ pre) c).value.isOnes = true := by
        rw [htest, if_neg (by simpa using List.ne_nil_of_mem hb), hc, Bool.and_true, List.all_eq_true]
        intro b' hb'
        cases hones : b'.isOnes with
        | true => exact absurd ⟨b', hb', hones⟩ hnone
        | false => rfl
      have hzero := ((h pre c post hcs).mp hasked).2 b hb
      rw [hnz] at hzero
      cases hzero
  · intro h pre c post hcs
    rw [htest]
    cases pre with
    | nil =>
      rw [List.isEmpty_nil, if_pos rfl]
      exact ⟨fun hc => ⟨Value.isNonzero_of_isOnes hc, fun b hb => absurd hb List.not_mem_nil⟩, fun hc => h.first c post hcs hc.1⟩
    | cons b bs =>
      rw [List.isEmpty_cons, if_neg (by decide), Bool.and_eq_true, List.all_eq_true]
      constructor
      · rintro ⟨hnone, hc⟩
        refine ⟨hc, fun b' hb' => ?_⟩
        by_contra hnz
        obtain ⟨b₁, hb₁, hones⟩ := h.later (b :: bs) c post hcs hc ⟨b', hb', by simpa using hnz⟩
        have hnot := hnone b₁ hb₁
        rw [hones] at hnot
        cases hnot
      · rintro ⟨hc, hzero⟩
        refine ⟨fun b' hb' => ?_, hc⟩
        cases hones : b'.isOnes with
        | false => rfl
        | true =>
          have hnz := hzero b' hb'
          rw [Value.isNonzero_of_isOnes hones] at hnz
          cases hnz

theorem list_iff_asksFirst (cs : List Value) :
    (∀ ms : List Value, ms.length = cs.length →
      ((listWrap (.ofBool true) (cs.zip ms)).value.isNonzero = true ↔ FirstHolds (cs.zip ms))) ↔ AsksFirst cs := by
  simp only [isNonzero_listWrap, mappingWraps_all]
  constructor
  · intro hall pre c post hcs
    -- all maps hold but that of `c`, so each side says that the map of `c` is not asked for
    have h := hall (List.replicate pre.length (.ofBool true) ++ .ofBool false :: List.replicate post.length (.ofBool true))
      (by simp [hcs])
    rw [hcs, zip_ones] at h
    have hfst : (pre.map fun b => (b, Value.ofBool true)).map Prod.fst = pre := by
      rw [List.map_map]
      exact List.map_id pre
    have hasked : (∀ P q Q, (pre.map fun b => (b, Value.ofBool true)) ++ (c, .ofBool false) :: (post.map fun b =>
        (b, Value.ofBool true)) = P ++ q :: Q → (testWrap ([] ++ P.map Prod.fst) q.1).value.isOnes = true →
          q.2.isNonzero = true) ↔ ¬ (testWrap ([] ++ pre) c).value.isOnes = true := by
      constructor
      · intro hP htest
        have hzero := hP _ (c, .ofBool false) _ rfl (by rwa [hfst])
        cases hzero
      · intro hnot P q Q heq htest
        by_contra hq
        obtain ⟨rfl, hqc⟩ := eq_of_zero heq (by simpa using hq)
        rw [hfst, hqc] at htest
        exact hnot htest
    have hfirst : FirstHolds ((pre.map fun b => (b, Value.ofBool true)) ++ (c, .ofBool false) :: (post.map fun b =>
        (b, Value.ofBool true))) ↔ ¬ (c.isNonzero = true ∧ ∀ b ∈ pre, b.isNonzero = false) := by
      constructor
      · rintro hP ⟨hc, hpre⟩
        have hzero := hP _ (c, .ofBool false) _ rfl hc (List.forall_mem_map.mpr hpre)
        cases hzero
      · intro hnot P q Q heq hq hP
        by_contra hzero
        obtain ⟨rfl, hqc⟩ := eq_of_zero heq (by simpa using hzero)
        rw [hqc] at hq
        exact hnot ⟨hq, List.forall_mem_map.mp hP⟩
    rw [hasked, hfirst] at h
    exact not_iff_not.mp h
  · intro h ms hms
    have hsplit : ∀ pre q post, cs.zip ms = pre ++ q :: post → cs = pre.map Prod.fst ++ q.1 :: post.map Prod.fst := by
      intro pre q post heq
      rw [← List.map_fst_zip (show cs.length ≤ ms.length by omega), heq, List.map_append, List.map_cons]
    constructor
    · intro hall pre q post heq hq hpre
      apply hall pre q post heq
      apply (h _ _ _ (hsplit pre q post heq)).mpr ⟨hq, fun b hb => ?_⟩
      obtain ⟨p, hp, rfl⟩ := List.mem_map.mp hb
      exact hpre p hp
    · intro hall pre q post heq htest
      obtain ⟨hq, hpre⟩ := (h _ _ _ (hsplit pre q post heq)).mp htest
      exact hall pre q post heq hq fun p hp => hpre p.1 (List.mem_map_of_mem hp)

/-! ### Functions and start conditions -/

theorem isOnes_prepWrap (args : List (Value × Value)) : (prepWrap (.ofBool true) args).value.isOnes =
    args.all fun p => !p.1.isOnes || p.2.isNonzero := by
  rw [prepWrap, isOnes_landAll (by rfl), isNonzero_landAll, List.all_map]
  have hone : (Wrap.arg (Value.ofBool true)).value.isNonzero = true := rfl
  rw [hone, Bool.true_and]
  congr 1
  funext p
  exact isNonzero_implies (.arg p.1) p.2

theorem isNonzero_functionWrap (c r : Value) (args : List (Value × Value)) :
    (functionWrap (.ofBool true) c r args).value.isNonzero =
      (!(args.all fun p => !p.1.isOnes || p.2.isNonzero) || (!c.isOnes || r.isNonzero)) := by
  rw [functionWrap, Wrap.value, Value.isNonzero_ofBool, Wrap.value, Value.isNonzero_not, Wrap.value, isOnes_prepWrap, Wrap.value,
    isNonzero_implies, Wrap.value]

/-- If each argument has its mapped value where its condition is not zero, so has the result. -/
def ResultHolds (c r : Value) (args : List (Value × Value)) : Prop :=
  (∀ p ∈ args, p.1.isNonzero = true → p.2.isNonzero = true) → c.isNonzero = true → r.isNonzero = true

theorem function_iff (c : Value) (cs : List Value) :
    (∀ (r : Value) (es : List Value), es.length = cs.length →
      ((functionWrap (.ofBool true) c r (cs.zip es)).value.isNonzero = true ↔ ResultHolds c r (cs.zip es))) ↔
    (c.isNonzero = true → c.isOnes = true ∧ ∀ c' ∈ cs, c'.isNonzero = true → c'.isOnes = true) := by
  simp only [isNonzero_functionWrap]
  constructor
  · intro hall hc
    have hones : c.isOnes = true := by
      by_contra hnot
      have h := hall (.ofBool false) (List.replicate cs.length (.ofBool true)) (by simp)
      rw [Bool.not_eq_true _ |>.mp hnot] at h
      have hholds := h.mp (by simp) (fun p hp _ => ?_) hc
      · cases hholds
      · rw [List.eq_of_mem_replicate (List.of_mem_zip hp).2]
        rfl
    refine ⟨hones, fun c' hc' hnz => ?_⟩
    by_contra hnot
    obtain ⟨pre, post, hcs⟩ := List.append_of_mem hc'
    -- the result does not hold, and of the arguments only that of `c'`
    have h := hall (.ofBool false)
      (List.replicate pre.length (.ofBool true) ++ .ofBool false :: List.replicate post.length (.ofBool true)) (by simp [hcs])
    rw [hcs, zip_ones, hones] at h
    have hholds : ResultHolds c (.ofBool false) ((pre.map fun b => (b, Value.ofBool true)) ++ (c', .ofBool false) ::
        post.map fun b => (b, Value.ofBool true)) := by
      intro hargs
      have hzero := hargs (c', .ofBool false) (by simp) hnz
      cases hzero
    have hargs : (((pre.map fun b => (b, Value.ofBool true)) ++ (c', .ofBool false) :: post.map fun b =>
        (b, Value.ofBool true)).all fun p => !p.1.isOnes || p.2.isNonzero) = true := by
      rw [List.all_append, List.all_cons, List.all_map, List.all_map, Bool.not_eq_true _ |>.mp hnot]
      simp [Function.comp_def]
    rw [hargs] at h
    have hfalse := h.mpr hholds
    simp at hfalse
  · intro h r es hes
    rw [ResultHolds, Bool.or_eq_true, Bool.not_eq_true', Bool.or_eq_true, Bool.not_eq_true']
    by_cases hc : c.isNonzero = true
    · obtain ⟨hones, hcs⟩ := h hc
      have hsame : ((cs.zip es).all fun p => !p.1.isOnes || p.2.isNonzero) = true ↔
          ∀ p ∈ cs.zip es, p.1.isNonzero = true → p.2.isNonzero = true := by
        rw [List.all_eq_true]
        refine forall₂_congr fun p hp => ?_
        have hmem := (List.of_mem_zip hp).1
        rw [Bool.or_eq_true, Bool.not_eq_true', ← Bool.not_eq_true, ← imp_iff_not_or]
        exact ⟨fun himp hnz => himp (hcs p.1 hmem hnz), fun himp hon => himp (Value.isNonzero_of_isOnes hon)⟩
      rw [← hsame, hones, ← Bool.not_eq_true, ← imp_iff_not_or]
      simp [hc]
    · have hzero : c.isOnes = false := by
        cases hones : c.isOnes with
        | false => rfl
        | true => exact absurd (Value.isNonzero_of_isOnes hones) hc
      simp [hzero, hc]

theorem start_holds (start : Bool) (c : Value) :
    (startWrap (.ofBool start) c).value.isNonzero = true ↔ (start = true → c.isNonzero = true) := by
  have hvalue : (startWrap (.ofBool start) c).value.isNonzero = (!start || c.isNonzero) := by
    rw [startWrap, Wrap.value, Value.isNonzero_ofBool]
    change ((Value.ofBool start).not.isNonzero || c.isNonzero) = (!start || c.isNonzero)
    rw [Value.isNonzero_not, Value.isOnes_ofBool]
  rw [hvalue]
  cases start with
  | true => simp
  | false => simp

/-! ### Tokens -/

namespace Wrapper

variable (W : Wrapper)

/-- The names that a start condition can have are replaced. -/
def startTree (t : UserExpr) : ExprTree := (t.1.map W.placeholder).map (W.replName false)

theorem startCondition_spells (t : UserExpr) :
    Spells (W.startCondition t.toks) (startWrap (.atom "__START__".toList) (W.startTree t)).tree ↔ t.1.AtLeast operators 3 := by
  have htoks : (startWrap (.atom "__START__".toList) (W.startTree t)).tree.toks operators = W.startCondition t.toks := by
    rw [startCondition, replExpr, UserExpr.toks, ← Tree.toks_map, ← Tree.toks_map]
    rfl
  have hwf : (W.startTree t).WF operators := (Tree.wf_map _ _).mpr ((Tree.wf_map _ _).mpr t.2)
  constructor
  · rintro ⟨⟨l, hl, _, hlevel, _⟩, _⟩
    obtain rfl : 2 = l := Option.some.inj hl
    exact (Tree.atLeast_map _ _ _).mp ((Tree.atLeast_map _ _ _).mp hlevel)
  · intro hlevel
    exact ⟨⟨2, rfl, trivial, (Tree.atLeast_map _ _ _).mpr ((Tree.atLeast_map _ _ _).mpr hlevel), ⟨rfl, rfl, trivial⟩, hwf⟩,
      htoks⟩

def nameTree (force : Bool) (t : UserExpr) : ExprTree := t.1.map (W.replName force)

theorem nameTree_toks (force : Bool) (t : UserExpr) : (W.nameTree force t).toks operators = W.replExpr force t.toks :=
  Tree.toks_map (W.replName force) t.1

theorem nameTree_wf (force : Bool) (t : UserExpr) : (W.nameTree force t).WF operators :=
  (Tree.wf_map (W.replName force) t.1).mpr t.2

def resultTree (func : Text) (idx : Nat) (map : UserExpr) : ExprTree :=
  .bin .eq (.atom (funcReg func idx)) (W.nameTree true map)

/-- The conditions of the arguments, and the comparisons with what they are mapped to. -/
def argTrees (func : Text) (idx : Nat) : Nat → List (UserExpr × UserExpr) → List (ExprTree × ExprTree)
  | _, [] => []
  | k, (c, m) :: args =>
    (W.nameTree false c, .bin .eq (.group .paren (.atom (funcArg func idx k))) (.group .paren (W.nameTree true m))) ::
      argTrees func idx (k + 1) args

def argToks (args : List (UserExpr × UserExpr)) : List (List Token × List Token) := args.map fun p => (p.1.toks, p.2.toks)

theorem prepArgs_toks (func : Text) (idx k : Nat) (args : List (UserExpr × UserExpr)) :
    W.prepArgs func idx k (argToks args) = ((W.argTrees func idx k args).map fun p =>
      Wrap.group (implies (.arg p.1) p.2)).flatMap fun w => sym .land :: w.tree.toks operators := by
  induction args generalizing k with
  | nil => rfl
  | cons p args ih =>
    rw [argToks, List.map_cons, prepArgs, ← argToks, ih, argTrees, List.map_cons, List.flatMap_cons, ← W.nameTree_toks,
      ← W.nameTree_toks]
    simp [implies, Wrap.tree, Tree.toks]

theorem argTrees_wf (func : Text) (idx k : Nat) (args : List (UserExpr × UserExpr)) :
    ∀ p ∈ W.argTrees func idx k args, p.1.WF operators ∧ p.2.WF operators := by
  induction args generalizing k with
  | nil => exact fun p hp => absurd hp List.not_mem_nil
  | cons q args ih =>
    intro p hp
    cases List.mem_cons.mp hp with
    | inl heq =>
      rw [heq]
      exact ⟨W.nameTree_wf false q.1, 7, rfl, trivial, trivial, trivial, W.nameTree_wf true q.2⟩
    | inr hin => exact ih (k + 1) p hin

theorem ufConstraint_spells (func : Text) (idx : Nat) (val : UserExpr × UserExpr) (args : List (UserExpr × UserExpr)) :
    Spells (W.ufConstraint func idx (val.1.toks, val.2.toks) (argToks args))
      (functionWrap trueTree (W.nameTree false val.1) (W.resultTree func idx val.2) (W.argTrees func idx 0 args)).tree ↔
    val.2.1.AtLeast operators 8 := by
  have htoks : (functionWrap trueTree (W.nameTree false val.1) (W.resultTree func idx val.2)
      (W.argTrees func idx 0 args)).tree.toks operators = W.ufConstraint func idx (val.1.toks, val.2.toks) (argToks args) := by
    rw [ufConstraint, prepArgs_toks, ← W.nameTree_toks, ← W.nameTree_toks]
    simp [functionWrap, prepWrap, implies, Wrap.tree, Tree.toks, toks_landAll, resultTree, trueTree, vlgTrue]
  have hprep : (prepWrap trueTree (W.argTrees func idx 0 args)).tree.WF operators := by
    refine (wf_landAll (w := .arg trueTree) ⟨trivial, trivial⟩ fun v hv => ?_).1
    obtain ⟨p, hp, rfl⟩ := List.mem_map.mp hv
    obtain ⟨hc, hm⟩ := W.argTrees_wf func idx 0 args p hp
    exact wf_group (wf_implies (w := .arg p.1) hc hm) 4
  constructor
  · rintro ⟨⟨_, _, _, _, _, hgroup⟩, _⟩
    obtain ⟨_, _, _, _, _, hresult⟩ := hgroup
    obtain ⟨l, hl, _, hlevel, _⟩ := hresult
    obtain rfl : 7 = l := Option.some.inj hl
    exact (Tree.atLeast_map _ _ _).mp hlevel
  · intro hlevel
    have hresult : (W.resultTree func idx val.2).WF operators :=
      ⟨7, rfl, trivial, (Tree.atLeast_map _ _ _).mpr hlevel, trivial, W.nameTree_wf true val.2⟩
    exact ⟨⟨2, rfl, trivial, trivial, ⟨rfl, rfl, hprep⟩, wf_implies (w := .arg _) (W.nameTree_wf false val.1) hresult⟩, htoks⟩

/-! ### State maps -/

def stateTree (name : Text) (t : UserExpr) : ExprTree := .bin .eq (W.nameTree true t) (.atom (soName name))

def wordTree (name a : Text) (idx : Nat) : ExprTree :=
  .group .paren (.bin .eq (.atom (soName name ++ '_' :: digits idx)) (.atom (W.replName true (a ++ '[' :: digits idx ++ [']']))))

/-- The words of a memory up to the index `n`. -/
def memoryTree (name a : Text) : Nat → ExprTree
  | 0 => W.wordTree name a 0
  | n + 1 => .bin .land (memoryTree name a n) (W.wordTree name a (n + 1))

/-- How many words a memory has. -/
def wordNum (addrWidth entryNum : Nat) : Nat := if entryNum = 0 then 2 ^ addrWidth else entryNum

/-- The words of the memory can be counted in an `int`. -/
def Countable (addrWidth entryNum : Nat) : Prop := entryNum ≠ 0 ∨ addrWidth < 31

theorem wordNum_pos (addrWidth entryNum : Nat) : 0 < wordNum addrWidth entryNum := by
  rw [wordNum]
  split
  · exact Nat.two_pow_pos addrWidth
  · omega

theorem addrRange_eq {addrWidth entryNum : Nat} (h : Countable addrWidth entryNum) :
    (addrRange addrWidth entryNum).toNat = wordNum addrWidth entryNum := by
  rw [addrRange, wordNum]
  split
  · have hwidth : addrWidth < 31 := by
      cases h with
      | inl hentry => contradiction
      | inr hwidth => exact hwidth
    rw [if_pos hwidth]
    exact Int.toNat_natCast (2 ^ addrWidth)
  · exact Int.toNat_natCast entryNum

theorem addrRange_overflow {addrWidth entryNum : Nat} (h : ¬ Countable addrWidth entryNum) :
    (addrRange addrWidth entryNum).toNat = 0 := by
  obtain ⟨hentry, hwidth⟩ := not_or.mp h
  rw [addrRange, if_pos (not_not.mp hentry), if_neg hwidth]
  rfl

/-- The module name that is put before the text changes no name. -/
def NameFits (ts : List Token) : Prop :=
  find '.' ts = true ∨ find '#' ts = true ∨ ∃ a rest, ts = .atom a :: rest ∧ isNameStart a = true ∧
    W.replName true (W.vlgModInstName ++ '.' :: a) = W.replName true a

theorem toks_ne_nil (t : ExprTree) : t.toks operators ≠ [] := by
  induction t with
  | bin o a b iha _ => exact List.append_ne_nil_of_left_ne_nil iha _
  | cond c a b ihc _ _ => exact List.append_ne_nil_of_left_ne_nil ihc _
  | suffix p k t ihp _ => exact List.append_ne_nil_of_left_ne_nil ihp _
  | _ => exact List.cons_ne_nil _ _

theorem replExpr_addModuleName {ts : List Token} (hdot : find '.' ts = false) (hhash : find '#' ts = false) :
    W.replExpr true (addModuleName W.vlgModInstName ts) = W.replExpr true ts ↔ W.NameFits ts := by
  have hlong : ∀ x : Token, W.replExpr true (x :: ts) ≠ W.replExpr true ts := by
    intro x heq
    have hlen := congrArg List.length heq
    rw [replExpr, replExpr, List.length_map, List.length_map, List.length_cons] at hlen
    omega
  rw [NameFits, hdot, hhash]
  simp only [Bool.false_eq_true, false_or]
  unfold addModuleName
  split
  · rename_i a rest
    by_cases hname : isNameStart a = true
    · rw [if_pos hname, replExpr, List.map_cons, replExpr, List.map_cons]
      constructor
      · intro heq
        exact ⟨a, rest, rfl, hname, Tok.atom.inj (List.cons.inj heq).1⟩
      · rintro ⟨a', rest', heq, _, hsame⟩
        obtain ⟨hatom, rfl⟩ := List.cons.inj heq
        obtain rfl := Tok.atom.inj hatom
        rw [Tok.map, Tok.map, hsame]
    · rw [if_neg hname]
      constructor
      · exact fun heq => absurd heq (hlong _)
      · rintro ⟨a', rest', heq, hname', _⟩
        obtain rfl := Tok.atom.inj (List.cons.inj heq).1
        exact absurd hname' hname
  · rename_i hatom
    constructor
    · exact fun heq => absurd heq (hlong _)
    · rintro ⟨a, rest, heq, _⟩
      exact absurd heq (hatom a rest)

theorem mapping_text (p : Bool) (ts : List Token) : (if p then Mapping.direct ts else Mapping.wire ts).text = ts := by
  cases p with
  | true => rfl
  | false => rfl

theorem perStateMap_equation {name : Text} {t : UserExpr} (h : isEqu t.toks = true) :
    (W.perStateMap name t.toks).text = W.replExpr false t.toks := by
  have hne : t.toks.isEmpty = false := List.isEmpty_eq_false_iff.mpr (toks_ne_nil t.1)
  rw [perStateMap, hne, if_neg (by decide), if_pos h]
  exact mapping_text _ _

theorem perStateMap_bits {name : Text} {t : UserExpr} (h : isEqu t.toks = false) (hsort : W.stateSort name = some .bits) :
    (W.perStateMap name t.toks).text = W.replExpr true
      (if !find '.' t.toks && !find '#' t.toks then addModuleName W.vlgModInstName t.toks else t.toks) ++
        [sym .eq, .atom (soName name)] := by
  have hne : t.toks.isEmpty = false := List.isEmpty_eq_false_iff.mpr (toks_ne_nil t.1)
  rw [perStateMap, hne, if_neg (by decide), h, if_neg (by decide), hsort]
  exact mapping_text _ _

theorem stateTree_toks (name : Text) (t : UserExpr) :
    (W.stateTree name t).toks operators = W.replExpr true t.toks ++ [sym .eq, .atom (soName name)] := by
  rw [stateTree, Tree.toks, nameTree_toks]
  rfl

theorem perStateMap_spells_bits {name : Text} (t : UserExpr) (hsort : W.stateSort name = some .bits) :
    Spells (W.perStateMap name t.toks).text (W.stateTree name t) ↔
      isEqu t.toks = false ∧ t.1.AtLeast operators 7 ∧ W.NameFits t.toks := by
  have hwf : (W.stateTree name t).WF operators ↔ t.1.AtLeast operators 7 := by
    constructor
    · rintro ⟨l, hl, hlevel, _⟩
      obtain rfl : 7 = l := Option.some.inj hl
      exact (Tree.atLeast_map _ _ _).mp hlevel
    · intro hlevel
      exact ⟨7, rfl, (Tree.atLeast_map _ _ _).mpr hlevel, trivial, W.nameTree_wf true t, trivial⟩
  rw [Spells, hwf, stateTree_toks]
  cases hequ : isEqu t.toks with
  | true =>
    rw [W.perStateMap_equation hequ]
    constructor
    · rintro ⟨_, heq⟩
      have hlen := congrArg List.length heq
      rw [List.length_append, replExpr, replExpr, List.length_map, List.length_map, List.length_cons] at hlen
      omega
    · rintro ⟨hfalse, _⟩
      cases hfalse
  | false =>
    rw [W.perStateMap_bits hequ hsort, List.append_left_inj, eq_comm (a := W.replExpr true t.toks)]
    cases hdot : find '.' t.toks with
    | true => simp [NameFits, hdot]
    | false =>
      cases hhash : find '#' t.toks with
      | true => simp [NameFits, hhash]
      | false =>
        rw [Bool.not_false, Bool.true_and, if_pos rfl, W.replExpr_addModuleName hdot hhash]
        simp

theorem memoryTree_toks (name a : Text) (n : Nat) :
    W.expandMemory name [.atom a] (n + 1) = (W.memoryTree name a n).toks operators := by
  induction n with
  | zero => rfl
  | succ n ih =>
    have hne : ((W.memoryTree name a n).toks operators).isEmpty = false := List.isEmpty_eq_false_iff.mpr (toks_ne_nil _)
    rw [expandMemory, List.range_succ, List.foldl_append, ← expandMemory, ih, List.foldl_cons, List.foldl_nil, hne,
      if_neg (by decide), memoryTree, Tree.toks, List.append_assoc]
    rfl

theorem memoryTree_wf (name a : Text) (n : Nat) :
    (W.memoryTree name a n).WF operators ∧ (W.memoryTree name a n).AtLeast operators 3 := by
  induction n with
  | zero => exact ⟨⟨7, rfl, trivial, trivial, trivial, trivial⟩, trivial⟩
  | succ n ih => exact ⟨⟨3, rfl, ih.2, trivial, ih.1, 7, rfl, trivial, trivial, trivial, trivial⟩, 3, rfl, Nat.le_refl 3⟩

theorem length_memoryTree (name a : Text) (n : Nat) : 5 ≤ ((W.memoryTree name a n).toks operators).length := by
  cases n with
  | zero => exact Nat.le_refl 5
  | succ n =>
    have hword : ((W.wordTree name a (n + 1)).toks operators).length = 5 := rfl
    rw [memoryTree, Tree.toks, List.length_append, List.length_cons, hword]
    omega

theorem perStateMap_text_mem {name : Text} {t : UserExpr} {addrWidth entryNum : Nat}
    (hsort : W.stateSort name = some (.mem addrWidth entryNum)) (hin : W.isExternal name = false) (hequ : isEqu t.toks = false) :
    (W.perStateMap name t.toks).text = W.expandMemory name t.toks (addrRange addrWidth entryNum).toNat := by
  have hne : t.toks.isEmpty = false := List.isEmpty_eq_false_iff.mpr (toks_ne_nil t.1)
  rw [perStateMap, hne, if_neg (by decide), hequ, if_neg (by decide), hsort]
  dsimp only
  rw [hin, if_neg (by decide)]
  rfl

theorem perStateMap_spells_mem {name a : Text} {t : UserExpr} {addrWidth entryNum : Nat} (ht : t.1 = .atom a)
    (hsort : W.stateSort name = some (.mem addrWidth entryNum)) (hin : W.isExternal name = false) :
    Spells (W.perStateMap name t.toks).text (W.memoryTree name a (wordNum addrWidth entryNum - 1)) ↔
      isEqu t.toks = false ∧ Countable addrWidth entryNum := by
  have htoks : t.toks = [.atom a] := congrArg (Tree.toks operators) ht
  have hlong := W.length_memoryTree name a (wordNum addrWidth entryNum - 1)
  cases hequ : isEqu t.toks with
  | true =>
    rw [W.perStateMap_equation hequ, htoks]
    constructor
    · rintro ⟨_, heq⟩
      rw [heq, replExpr, List.length_map, List.length_singleton] at hlong
      omega
    · rintro ⟨hfalse, _⟩
      cases hfalse
  | false =>
    rw [W.perStateMap_text_mem hsort hin hequ]
    by_cases hcount : Countable addrWidth entryNum
    · have hpos := wordNum_pos addrWidth entryNum
      have hrange : wordNum addrWidth entryNum = wordNum addrWidth entryNum - 1 + 1 := by omega
      rw [addrRange_eq hcount, htoks, hrange, memoryTree_toks]
      exact ⟨fun _ => ⟨rfl, hcount⟩, fun _ => ⟨(W.memoryTree_wf name a _).1, rfl⟩⟩
    · rw [addrRange_overflow hcount]
      constructor
      · rintro ⟨_, heq⟩
        rw [heq] at hlong
        exact absurd hlong (Nat.not_succ_le_zero 4)
      · rintro ⟨_, hfalse⟩
        exact absurd hfalse hcount

/-! ### The whole -/

/-- The text that a state map becomes compares the map, as one operand, with the state. A memory is mapped to a name, and compared word
by word. -/
def StateMapKept (name : Text) (t : UserExpr) : Prop :=
  (W.stateSort name = some .bits → Spells (W.perStateMap name t.toks).text (W.stateTree name t)) ∧
    ∀ addrWidth entryNum, W.stateSort name = some (.mem addrWidth entryNum) → W.isExternal name = false →
      ∃ a, t.1 = .atom a ∧
        Spells (W.perStateMap name t.toks).text (W.memoryTree name a (wordNum addrWidth entryNum - 1))

/-- A state map has no equality sign, its operators bind at least as tight as an equation, and it has a module name or starts with a
name that can follow one. A map of a memory is a name, and the words of the memory can be counted. -/
def StateMapFits (name : Text) (t : UserExpr) : Prop :=
  (W.stateSort name = some .bits → isEqu t.toks = false ∧ t.1.AtLeast operators 7 ∧ W.NameFits t.toks) ∧
    ∀ addrWidth entryNum, W.stateSort name = some (.mem addrWidth entryNum) → W.isExternal name = false →
      isEqu t.toks = false ∧ Countable addrWidth entryNum ∧ ∃ a, t.1 = .atom a

/-- The start condition is one operand, and holds at the start. -/
def StartKept (t : UserExpr) : Prop :=
  Spells (W.startCondition t.toks) (startWrap (.atom "__START__".toList) (W.startTree t)).tree ∧
    ∀ (start : Bool) (c : Value), (startWrap (.ofBool start) c).value.isNonzero = true ↔ (start = true → c.isNonzero = true)

/-- In a list, conditions and maps are operands, and with the values `ρ` of the conditions the list holds if the map of the first
condition that is not zero does, whatever the maps are. -/
def ListKept (name : Text) (n : Nat) (ps : List UserPair) (ρ : ExprTree → Value) : Prop :=
  (∀ ms, List.Forall₂ Spells (W.vmapTexts name n ps) ms →
    Spells (W.getStateVarMapExpr name n (items ps)) (listWrap trueTree (W.pairTrees ps ms)).tree) ∧
  ∀ ms : List Value, ms.length = (ps.map fun p => ρ (W.condTree p.1)).length →
    ((listWrap (.ofBool true) ((ps.map fun p => ρ (W.condTree p.1)).zip ms)).value.isNonzero = true ↔
      FirstHolds ((ps.map fun p => ρ (W.condTree p.1)).zip ms))

/-- The maps of a function are operands, and with the values `ρ` of the conditions the constraint holds if the mapped arguments give
the mapped result, whatever the comparisons are. -/
def FunctionKept (func : Text) (idx : Nat) (val : UserExpr × UserExpr) (args : List (UserExpr × UserExpr))
    (ρ : ExprTree → Value) : Prop :=
  Spells (W.ufConstraint func idx (val.1.toks, val.2.toks) (argToks args))
    (functionWrap trueTree (W.nameTree false val.1) (W.resultTree func idx val.2) (W.argTrees func idx 0 args)).tree ∧
  ∀ (r : Value) (es : List Value), es.length = (args.map fun p => ρ (W.nameTree false p.1)).length →
    ((functionWrap (.ofBool true) (ρ (W.nameTree false val.1)) r
      ((args.map fun p => ρ (W.nameTree false p.1)).zip es)).value.isNonzero = true ↔
        ResultHolds (ρ (W.nameTree false val.1)) r ((args.map fun p => ρ (W.nameTree false p.1)).zip es))

/-- The condition of the result is zero, or it and the conditions of the arguments that are not zero have all bits set. -/
def FunctionFits (val : UserExpr × UserExpr) (args : List (UserExpr × UserExpr)) (ρ : ExprTree → Value) : Prop :=
  val.2.1.AtLeast operators 8 ∧ ((ρ (W.nameTree false val.1)).isNonzero = true → (ρ (W.nameTree false val.1)).isOnes = true ∧
    ∀ c ∈ args.map fun p => ρ (W.nameTree false p.1), c.isNonzero = true → c.isOnes = true)

/-- When expressions keep their meaning in the wrapper. -/
theorem embedded_iff : (∀ name t, W.StateMapKept name t ↔ W.StateMapFits name t) ∧
    (∀ t : UserExpr, W.StartKept t ↔ t.1.AtLeast operators 3) ∧
    (∀ name n ps ρ, W.ListKept name n ps ρ ↔ Decisive (ps.map fun p => ρ (W.condTree p.1))) ∧
    ∀ func idx val args ρ, W.FunctionKept func idx val args ρ ↔ W.FunctionFits val args ρ := by
  refine ⟨fun name t => ?_, fun t => ?_, fun name n ps ρ => ?_, fun func idx val args ρ => ?_⟩
  · apply and_congr
    · exact forall_congr' fun hsort => W.perStateMap_spells_bits t hsort
    · refine forall_congr' fun addrWidth => forall_congr' fun entryNum => forall_congr' fun hsort => forall_congr' fun hin => ?_
      constructor
      · rintro ⟨a, ha, hspells⟩
        obtain ⟨hequ, hcount⟩ := (W.perStateMap_spells_mem ha hsort hin).mp hspells
        exact ⟨hequ, hcount, a, ha⟩
      · rintro ⟨hequ, hcount, a, ha⟩
        exact ⟨a, ha, (W.perStateMap_spells_mem ha hsort hin).mpr ⟨hequ, hcount⟩⟩
  · rw [StartKept, W.startCondition_spells]
    exact ⟨fun h => h.1, fun h => ⟨h, start_holds⟩⟩
  · rw [← asksFirst_iff, ← list_iff_asksFirst]
    exact ⟨fun h => h.2, fun h => ⟨fun ms hms => W.getStateVarMapExpr_spells name n ps hms, h⟩⟩
  · rw [FunctionKept, FunctionFits, W.ufConstraint_spells, function_iff]

end Wrapper

/-- The map `m1.b | m1.c` becomes `m1.b | (m1.c == __ILA_SO_a)`. -/
theorem loose_map_regrouped :
    let W : Wrapper := ⟨"m1".toList, false, fun _ => some .bits, fun _ => false, fun _ a => a, [], []⟩
    let b : ExprTree := .atom "m1.b".toList
    let c : ExprTree := .atom "m1.c".toList
    let t : UserExpr := ⟨.bin .or b c, 4, rfl, trivial, trivial, trivial, trivial⟩
    Spells (W.perStateMap "a".toList t.toks).text (.bin .or b (.bin .eq c (.atom "__ILA_SO_a".toList))) ∧
      ¬ W.StateMapKept "a".toList t := by
  intro W b c t
  have hspells : Spells (W.perStateMap "a".toList t.toks).text (.bin .or b (.bin .eq c (.atom "__ILA_SO_a".toList))) :=
    ⟨⟨4, rfl, trivial, ⟨7, rfl, by omega⟩, trivial, 7, rfl, trivial, trivial, trivial, trivial⟩, rfl⟩
  refine ⟨hspells, fun hkept => ?_⟩
  have hsame := hspells.unique (hkept.1 rfl)
  cases hsame

end Ilang.EmbedExpr
