import Ilang.Util.IStream
import Ilang.Util.OrdMap
import Ilang.Vtarget.AbcSound

/-!
# The invariant object

An `InvariantObject` has the invariants of a design, as Verilog expressions and as SMT formulae side by side, with the definitions
of the variables that the expressions use. It can be saved to a file and loaded again: the numbers of items are in front, names and
widths are read as words, and expressions as lines, where an empty line is skipped once.
-/

namespace Ilang

/-- An `int`. -/
abbrev CInt := {w : ℤ // -2 ^ 31 ≤ w ∧ w < 2 ^ 31}

structure InvariantObject where
  invVlgExprs : List VText
  invExtraVlgVars : List (VText × VText × CInt)
  invExtraFreeVars : OrdMap VText CInt
  smtFormulaVec : List VText
  dutInstName : VText

namespace InvariantObject

open Abc (digits replaceAll)
open IStream (intText isSpace)

def empty : InvariantObject := ⟨[], [], .empty, [], []⟩

/-! ### Saving and loading -/

/-- What stands in the file for a formula that is not available. -/
def notAvailable : VText := "(get-info :name)".toList

def noLineBreak (smt : VText) : VText := replaceAll (replaceAll smt ['\n'] [' ']) ['\r'] [' ']

def vlgVarLine (v : VText × VText × CInt) : VText := v.1 ++ ' ' :: (intText v.2.2.1 ++ ' ' :: (v.2.1 ++ ['\n']))

def freeVarLine (v : VText × CInt) : VText := v.1 ++ ' ' :: (intText v.2.1 ++ ['\n'])

def smtLine (smt : VText) : VText := (if (noLineBreak smt).isEmpty then notAvailable else noLineBreak smt) ++ ['\n']

/-- `ExportToFile`, which aborts if there are not as many formulae as expressions. -/
def exportToFile (o : InvariantObject) (exportSmtEncoding : Bool) : Option VText :=
  if o.smtFormulaVec.length = o.invVlgExprs.length then
    some (digits o.invExtraVlgVars.length ++ ' ' :: (digits o.invExtraFreeVars.entries.length ++ ' ' ::
      (digits o.invVlgExprs.length ++ '\n' :: (o.invExtraVlgVars.flatMap vlgVarLine ++
        (o.invExtraFreeVars.entries.flatMap freeVarLine ++ (o.invVlgExprs.flatMap (fun e => e ++ ['\n']) ++
          if exportSmtEncoding then o.smtFormulaVec.flatMap smtLine else []))))))
  else none

def readCount (s : IStream) : Option (ℕ × IStream) := s.unsigned.1.map fun n => (n, s.unsigned.2)

def readWidth (s : IStream) : Option (CInt × IStream) :=
  match h : s.int with
  | (some w, t) => some (⟨w, IStream.int_range h⟩, t)
  | (none, _) => none

def importVlgVar (s : IStream) : Option ((VText × VText × CInt) × IStream) :=
  (readWidth s.word.2).map fun w => ((s.word.1.getD [], w.2.line.1.getD [], w.1), w.2.line.2)

def importFreeVar (s : IStream) : Option ((VText × CInt) × IStream) :=
  (readWidth s.word.2).map fun w => ((s.word.1.getD [], w.1), w.2)

/-- An empty line is skipped, but not a second one. -/
def importLine (s : IStream) : Option (VText × IStream) :=
  if (s.line.1.getD []).isEmpty then some (s.line.2.line.1.getD [], s.line.2.line.2)
  else some (s.line.1.getD [], s.line.2)

def smtOfLine (l : VText) : VText := if l = notAvailable then [] else l

/-- `ImportFromFile`. There is no result if a number or a width is used that nothing was read into. -/
def importFromFile (o : InvariantObject) (file : Option VText) : Option InvariantObject :=
  match file with
  | none => some o
  | some text =>
    (readCount (.ofText text)).bind fun numVlgVar => (readCount numVlgVar.2).bind fun numFreeVar =>
      (readCount numFreeVar.2).bind fun numExpr => (IStream.many importVlgVar numVlgVar.1 numExpr.2).bind fun vlgVars =>
        (IStream.many importFreeVar numFreeVar.1 vlgVars.2).bind fun freeVars =>
          (IStream.many importLine numExpr.1 freeVars.2).bind fun exprs =>
            (IStream.many importLine numExpr.1 exprs.2).map fun smts =>
              { o with
                invVlgExprs := o.invVlgExprs ++ exprs.1
                invExtraVlgVars := o.invExtraVlgVars ++ vlgVars.1
                invExtraFreeVars := freeVars.1.foldl (fun m v => m.emplace v.1 v.2) o.invExtraFreeVars
                smtFormulaVec := o.smtFormulaVec ++ smts.1.map smtOfLine }

/-! ### What can be loaded again -/

/-- Names without white-space, and expressions that are not empty and have no line breaks. -/
structure Plain (o : InvariantObject) : Prop where
  vlgVars : ∀ v ∈ o.invExtraVlgVars, (∀ c ∈ v.1, isSpace c = false) ∧ v.2.1 ≠ [] ∧ '\n' ∉ v.2.1 ∧ '\r' ∉ v.2.1
  freeVars : ∀ v ∈ o.invExtraFreeVars.entries, ∀ c ∈ v.1, isSpace c = false
  exprs : ∀ e ∈ o.invVlgExprs, e ≠ [] ∧ '\n' ∉ e ∧ '\r' ∉ e

/-- The same definitions and expressions, and the same formulae up to line breaks. -/
structure SameSaved (o o' : InvariantObject) : Prop where
  vlgVars : o'.invExtraVlgVars = o.invExtraVlgVars
  freeVars : o'.invExtraFreeVars = o.invExtraFreeVars
  exprs : o'.invVlgExprs = o.invVlgExprs
  smts : o'.smtFormulaVec = o.smtFormulaVec.map noLineBreak

/-- What the file keeps apart. -/
structure Loadable (o : InvariantObject) : Prop where
  vlgVars : o.invExtraVlgVars = []
  freeVars : ∀ v ∈ o.invExtraFreeVars.entries, v.1 ≠ []
  freeCount : o.invExtraFreeVars.entries.length < 2 ^ 32
  exprCount : o.invVlgExprs.length < 2 ^ 32
  smts : ∀ smt ∈ o.smtFormulaVec, noLineBreak smt ≠ notAvailable

/-! ### Lines -/

theorem replaceAll_char (a b : Char) (s : VText) : replaceAll s [a] [b] = s.map fun c => if c = a then b else c := by
  have haux : ∀ (fuel : ℕ) (s : VText), s.length ≤ fuel →
      Abc.replaceAllAux [a] [b] fuel s = s.map fun c => if c = a then b else c := by
    intro fuel
    induction fuel with
    | zero =>
      intro s hs
      rw [List.length_eq_zero_iff.mp (Nat.le_zero.mp hs)]
      rfl
    | succ fuel ih =>
      intro s hs
      cases s with
      | nil => rfl
      | cons c s =>
        have hrest := ih s (Nat.le_of_succ_le_succ hs)
        rw [Abc.replaceAllAux, List.map_cons]
        by_cases hc : c = a
        · rw [hc, if_pos rfl, if_pos (by simp), ← hrest]
          rfl
        · rw [if_neg hc, if_neg (by simpa using fun h => hc h.symm), hrest]
  exact haux _ _ (Nat.le_refl _)

theorem noLineBreak_eq (smt : VText) : noLineBreak smt = smt.map fun c => if c = '\n' ∨ c = '\r' then ' ' else c := by
  rw [noLineBreak, replaceAll_char, replaceAll_char, List.map_map]
  refine List.map_congr_left fun c _ => ?_
  by_cases hn : c = '\n'
  · rw [hn]
    rfl
  · by_cases hr : c = '\r'
    · rw [hr]
      rfl
    · rw [Function.comp_apply, if_neg hn, if_neg hr, if_neg (not_or.mpr ⟨hn, hr⟩)]

theorem noLineBreak_notMem (smt : VText) : '\n' ∉ noLineBreak smt := by
  rw [noLineBreak_eq]
  intro h
  obtain ⟨c, _, hc⟩ := List.mem_map.mp h
  split at hc
  · exact absurd hc (by decide)
  · rename_i hne
    exact hne (.inl hc)

theorem importLine_written {l rest : VText} (hne : l ≠ []) (hl : '\n' ∉ l) :
    importLine (.ofText (l ++ '\n' :: rest)) = some (l, .ofText rest) := by
  rw [importLine, IStream.line_written hl]
  dsimp only [Option.getD_some]
  rw [if_neg (mt List.isEmpty_iff.mp hne)]

theorem importLine_break {l rest : VText} (hl : '\n' ∉ l) :
    importLine (.ofText ('\n' :: (l ++ '\n' :: rest))) = some (l, .ofText rest) := by
  have hfirst := @IStream.line_written [] (l ++ '\n' :: rest) List.not_mem_nil
  rw [List.nil_append] at hfirst
  rw [importLine, hfirst]
  dsimp only [Option.getD_some]
  rw [if_pos List.isEmpty_nil, IStream.line_written hl]
  rfl

theorem many_importLine {ls : List VText} (hls : ∀ l ∈ ls, l ≠ [] ∧ '\n' ∉ l) (rest : VText) :
    IStream.many importLine ls.length (.ofText (ls.flatMap (fun l => l ++ ['\n']) ++ rest)) = some (ls, .ofText rest) := by
  refine (IStream.many_flatMap (P := fun _ => True) (fun l hl rest _ => ⟨trivial, ?_⟩) trivial).1
  rw [List.append_assoc]
  exact importLine_written (hls l hl).1 (hls l hl).2

theorem many_importLine_break {ls : List VText} (hls : ∀ l ∈ ls, l ≠ [] ∧ '\n' ∉ l) (rest : VText) :
    IStream.many importLine ls.length (.ofText ('\n' :: (ls.flatMap (fun l => l ++ ['\n']) ++ rest))) =
      some (ls, .ofText (if ls = [] then '\n' :: rest else rest)) := by
  cases ls with
  | nil => rfl
  | cons l ls =>
    obtain ⟨hl, hls⟩ := List.forall_mem_cons.mp hls
    rw [List.flatMap_cons, List.append_assoc, List.append_assoc, List.length_cons, IStream.many]
    simp only [List.singleton_append]
    rw [importLine_break hl.2, Option.bind_some, many_importLine hls, if_neg (List.cons_ne_nil _ _)]
    rfl

theorem readWidth_written {gap rest : VText} (hgap : ∀ c ∈ gap, isSpace c = true) (hrest : IStream.Ends rest) (w : CInt) :
    readWidth (.ofText (gap ++ (intText w.1 ++ rest))) = some (w, .ofText rest) := by
  have hread := IStream.int_written hgap hrest w.2.1 w.2.2
  unfold readWidth
  split
  · rename_i z t h
    obtain ⟨hz, rfl⟩ := Prod.mk.inj (h.symm.trans hread)
    obtain rfl := Option.some.inj hz
    rfl
  · rename_i h
    exact nomatch (Prod.mk.inj (h.symm.trans hread)).1

/-! ### The numbers in front -/

section Counts

variable {rest : VText} (hrest : IStream.Ends rest) {n : ℕ}

include hrest

theorem readCount_first (hn : n < 2 ^ 32) : readCount (.ofText (digits n ++ rest)) = some (n, .ofText rest) := by
  have hread := IStream.unsigned_digits (List.forall_mem_nil _) hrest hn
  rw [List.nil_append] at hread
  rw [digits, readCount, hread]
  rfl

theorem readCount_next (hn : n < 2 ^ 32) : readCount (.ofText (' ' :: (digits n ++ rest))) = some (n, .ofText rest) := by
  have hread := IStream.unsigned_digits (List.forall_mem_singleton.mpr (show isSpace ' ' = true from rfl)) hrest hn
  rw [List.singleton_append] at hread
  rw [digits, readCount, hread]
  rfl

theorem lt_of_next {gap : VText} (hgap : ∀ c ∈ gap, isSpace c = true) {k m : ℕ × IStream}
    (h : readCount (.ofText (gap ++ (digits n ++ rest))) = some k) (hnext : readCount k.2 = some m) : n < 2 ^ 32 := by
  by_contra hn
  rw [digits, readCount, IStream.unsigned_digits_of_le hgap hrest (Nat.le_of_not_lt hn), Option.map_some] at h
  obtain rfl := Option.some.inj h
  rw [readCount, IStream.unsigned_failed rfl] at hnext
  cases hnext

end Counts

theorem readCount_lt {s : IStream} {k : ℕ × IStream} (h : readCount s = some k) : k.1 < 2 ^ 32 := by
  obtain ⟨n, hn, rfl⟩ := Option.map_eq_some_iff.mp h
  exact IStream.unsigned_lt (t := s.unsigned.2) (Prod.ext hn rfl)

/-! ### Names -/

theorem word_ne_nil {s : IStream} {w : CInt × IStream} (h : readWidth s.word.2 = some w) : s.word.1.getD [] ≠ [] := by
  have hfailed : ∀ t : IStream, t.failed = true → readWidth t ≠ some w := by
    intro t ht
    unfold readWidth
    split
    · rename_i hint
      rw [IStream.int_failed ht] at hint
      cases hint
    · exact (Option.some_ne_none w).symm
  revert h
  unfold IStream.word
  split
  · rename_i hs
    exact fun h => absurd h (hfailed s hs)
  · split
    · exact fun h => absurd h (hfailed _ rfl)
    · rename_i c t hskip
      intro _
      have hc : isSpace c = false := by
        have hhead := List.head?_dropWhile_not isSpace s.text
        rw [hskip] at hhead
        exact (Bool.not_eq_true _).mp (by simpa using hhead)
      rw [Option.getD_some, List.takeWhile_cons_of_pos (by rw [hc]; rfl)]
      exact List.cons_ne_nil _ _

theorem importVlgVar_name (s : IStream) (r : (VText × VText × CInt) × IStream) (h : importVlgVar s = some r) : r.1.1 ≠ [] := by
  obtain ⟨w, hw, rfl⟩ := Option.map_eq_some_iff.mp h
  exact word_ne_nil hw

theorem importFreeVar_name (s : IStream) (r : (VText × CInt) × IStream) (h : importFreeVar s = some r) : r.1.1 ≠ [] := by
  obtain ⟨w, hw, rfl⟩ := Option.map_eq_some_iff.mp h
  exact word_ne_nil hw

theorem importVlgVar_written {v : VText × VText × CInt} (hne : v.1 ≠ []) (hname : ∀ c ∈ v.1, isSpace c = false)
    (hexpr : '\n' ∉ v.2.1) (rest : VText) :
    importVlgVar (.ofText ('\n' :: (vlgVarLine v ++ rest))) = some ((v.1, ' ' :: v.2.1, v.2.2), .ofText rest) := by
  have hgap : ∀ c ∈ ['\n'], isSpace c = true := List.forall_mem_singleton.mpr rfl
  have hblank : ∀ c ∈ [' '], isSpace c = true := List.forall_mem_singleton.mpr rfl
  have hword := IStream.word_written hgap hname hne
    (IStream.ends_cons (c := ' ') rfl (intText v.2.2.1 ++ ' ' :: (v.2.1 ++ '\n' :: rest)))
  have hwidth := readWidth_written hblank (IStream.ends_cons (c := ' ') rfl (v.2.1 ++ '\n' :: rest)) v.2.2
  have hline : '\n' ∉ ' ' :: v.2.1 := List.not_mem_cons_of_ne_of_not_mem (by decide) hexpr
  have htext : '\n' :: (vlgVarLine v ++ rest) =
      ['\n'] ++ (v.1 ++ ' ' :: (intText v.2.2.1 ++ ' ' :: (v.2.1 ++ '\n' :: rest))) := by
    simp [vlgVarLine]
  rw [List.singleton_append] at hwidth
  rw [importVlgVar, htext, hword]
  dsimp only
  rw [hwidth, Option.map_some]
  dsimp only [Option.getD_some]
  rw [← List.cons_append, IStream.line_written hline]
  rfl

theorem importVlgVars_ne {v : VText × VText × CInt} (hname : ∀ c ∈ v.1, isSpace c = false) (hexpr : '\n' ∉ v.2.1)
    {vs : List (VText × VText × CInt)} {rest : VText} {r : List (VText × VText × CInt) × IStream}
    (h : IStream.many importVlgVar (v :: vs).length (.ofText ('\n' :: ((v :: vs).flatMap vlgVarLine ++ rest))) = some r) :
    r.1 ≠ v :: vs := by
  intro heq
  have hnames : ∀ w ∈ r.1, w.1 ≠ [] := IStream.forall_mem_many importVlgVar_name h
  have hne : v.1 ≠ [] := hnames v (heq ▸ List.mem_cons_self)
  rw [List.length_cons, IStream.many, List.flatMap_cons, List.append_assoc, importVlgVar_written hne hname hexpr,
    Option.bind_some] at h
  obtain ⟨q, _, rfl⟩ := Option.map_eq_some_iff.mp h
  have hlength := congrArg (fun v : VText × VText × CInt => v.2.1.length) (List.cons.inj heq).1
  exact absurd hlength (Nat.succ_ne_self _)

theorem importFreeVar_written {v : VText × CInt} (hne : v.1 ≠ []) (hname : ∀ c ∈ v.1, isSpace c = false) {rest : VText}
    (hrest : IStream.Ends rest) :
    importFreeVar (.ofText ('\n' :: (v.1 ++ ' ' :: (intText v.2.1 ++ rest)))) = some (v, .ofText rest) := by
  have hgap : ∀ c ∈ ['\n'], isSpace c = true := List.forall_mem_singleton.mpr rfl
  have hblank : ∀ c ∈ [' '], isSpace c = true := List.forall_mem_singleton.mpr rfl
  have hword := IStream.word_written hgap hname hne (IStream.ends_cons (c := ' ') rfl (intText v.2.1 ++ rest))
  have hwidth := readWidth_written hblank hrest v.2
  rw [List.singleton_append] at hword hwidth
  rw [importFreeVar, hword]
  dsimp only
  rw [hwidth]
  rfl

/-! ### The whole file -/

/-- The formulae as lines. -/
def smtText (smt : VText) : VText := if (noLineBreak smt).isEmpty then notAvailable else noLineBreak smt

theorem smtText_spec (smt : VText) : smtText smt ≠ [] ∧ '\n' ∉ smtText smt := by
  unfold smtText
  split
  · decide
  · rename_i h
    exact ⟨mt List.isEmpty_iff.mpr h, noLineBreak_notMem smt⟩

theorem smtOfLine_smtText (smt : VText) : smtOfLine (smtText smt) = noLineBreak smt ↔ noLineBreak smt ≠ notAvailable := by
  unfold smtText
  split
  · rename_i h
    rw [List.isEmpty_iff.mp h]
    decide
  · rename_i h
    rw [smtOfLine]
    split
    · rename_i heq
      exact iff_of_false (fun hnil => h (List.isEmpty_iff.mpr hnil.symm)) fun hne => hne heq
    · rename_i hne
      exact iff_of_true rfl hne

section Reads

variable {o o' : InvariantObject} {text : VText}

theorem importFromFile_of_reads {a b c : ℕ × IStream} {vlgVars : List (VText × VText × CInt) × IStream}
    {freeVars : List (VText × CInt) × IStream} {exprs smts : List VText × IStream} (ha : readCount (.ofText text) = some a)
    (hb : readCount a.2 = some b) (hc : readCount b.2 = some c) (hvlg : IStream.many importVlgVar a.1 c.2 = some vlgVars)
    (hfree : IStream.many importFreeVar b.1 vlgVars.2 = some freeVars)
    (hexprs : IStream.many importLine c.1 freeVars.2 = some exprs) (hsmts : IStream.many importLine c.1 exprs.2 = some smts) :
    importFromFile o (some text) = some ⟨o.invVlgExprs ++ exprs.1, o.invExtraVlgVars ++ vlgVars.1,
      freeVars.1.foldl (fun m v => m.emplace v.1 v.2) o.invExtraFreeVars, o.smtFormulaVec ++ smts.1.map smtOfLine,
      o.dutInstName⟩ := by
  rw [importFromFile]
  simp only [ha, hb, hc, hvlg, hfree, hexprs, hsmts, Option.bind_some, Option.map_some]

theorem exists_reads (h : importFromFile o (some text) = some o') : ∃ a b c vlgVars freeVars exprs,
    readCount (.ofText text) = some a ∧ readCount a.2 = some b ∧ readCount b.2 = some c ∧
    IStream.many importVlgVar a.1 c.2 = some vlgVars ∧ IStream.many importFreeVar b.1 vlgVars.2 = some freeVars ∧
    IStream.many importLine c.1 freeVars.2 = some exprs ∧ o'.invExtraVlgVars = o.invExtraVlgVars ++ vlgVars.1 ∧
    o'.invExtraFreeVars = freeVars.1.foldl (fun m v => m.emplace v.1 v.2) o.invExtraFreeVars ∧
    o'.invVlgExprs = o.invVlgExprs ++ exprs.1 := by
  obtain ⟨a, ha, h⟩ := Option.bind_eq_some_iff.mp h
  obtain ⟨b, hb, h⟩ := Option.bind_eq_some_iff.mp h
  obtain ⟨c, hc, h⟩ := Option.bind_eq_some_iff.mp h
  obtain ⟨vlgVars, hvlg, h⟩ := Option.bind_eq_some_iff.mp h
  obtain ⟨freeVars, hfree, h⟩ := Option.bind_eq_some_iff.mp h
  obtain ⟨exprs, hexprs, h⟩ := Option.bind_eq_some_iff.mp h
  obtain ⟨smts, _, rfl⟩ := Option.map_eq_some_iff.mp h
  exact ⟨a, b, c, vlgVars, freeVars, exprs, ha, hb, hc, hvlg, hfree, hexprs, rfl, rfl, rfl⟩

end Reads

variable {o : InvariantObject}

/-- Without extra variables, and with names and numbers that can be read, everything but some formulae is loaded again. -/
theorem import_saved (hplain : o.Plain) (hlength : o.smtFormulaVec.length = o.invVlgExprs.length)
    (hvlg : o.invExtraVlgVars = []) (hnames : ∀ v ∈ o.invExtraFreeVars.entries, v.1 ≠ [])
    (hfree : o.invExtraFreeVars.entries.length < 2 ^ 32) (hexprs : o.invVlgExprs.length < 2 ^ 32) {text : VText}
    (h : o.exportToFile true = some text) : importFromFile empty (some text) =
      some ⟨o.invVlgExprs, [], o.invExtraFreeVars, o.smtFormulaVec.map fun smt => smtOfLine (smtText smt), []⟩ := by
  have hsmt : o.smtFormulaVec.flatMap smtLine = (o.smtFormulaVec.map smtText).flatMap (fun l => l ++ ['\n']) ++ [] := by
    rw [List.append_nil, List.flatMap_map]
    rfl
  have hlines : IStream.many importLine o.invVlgExprs.length (.ofText ('\n' ::
      (o.invVlgExprs.flatMap (fun e => e ++ ['\n']) ++ o.smtFormulaVec.flatMap smtLine))) =
      some (o.invVlgExprs, .ofText (if o.invVlgExprs = [] then '\n' :: o.smtFormulaVec.flatMap smtLine
        else o.smtFormulaVec.flatMap smtLine)) :=
    many_importLine_break (fun e he => ⟨(hplain.exprs e he).1, (hplain.exprs e he).2.1⟩) _
  have hsmts : (IStream.many importLine o.invVlgExprs.length (.ofText (if o.invVlgExprs = [] then
      '\n' :: o.smtFormulaVec.flatMap smtLine else o.smtFormulaVec.flatMap smtLine))).map Prod.fst =
      some (o.smtFormulaVec.map smtText) := by
    split_ifs with hnone
    · rw [hnone] at hlength ⊢
      rw [List.length_eq_zero_iff.mp hlength]
      rfl
    · have hwritten := @many_importLine (o.smtFormulaVec.map smtText) (fun l hl => by
        obtain ⟨smt, _, rfl⟩ := List.mem_map.mp hl
        exact smtText_spec smt) []
      rw [List.length_map, hlength] at hwritten
      rw [hsmt, hwritten]
      rfl
  have hfrees : IStream.many importFreeVar o.invExtraFreeVars.entries.length (.ofText ('\n' ::
      (o.invExtraFreeVars.entries.flatMap freeVarLine ++ (o.invVlgExprs.flatMap (fun e => e ++ ['\n']) ++
        o.smtFormulaVec.flatMap smtLine)))) = some (o.invExtraFreeVars.entries, .ofText ('\n' ::
      (o.invVlgExprs.flatMap (fun e => e ++ ['\n']) ++ o.smtFormulaVec.flatMap smtLine))) := by
    have hbreaks := IStream.cons_flatMap_concat '\n' (fun v : VText × CInt => v.1 ++ ' ' :: intText v.2.1)
      o.invExtraFreeVars.entries
    have hline : (fun v : VText × CInt => (v.1 ++ ' ' :: intText v.2.1) ++ ['\n']) = freeVarLine := by
      funext v
      rw [freeVarLine, List.append_assoc]
      rfl
    rw [hline] at hbreaks
    rw [← List.cons_append, hbreaks, List.append_assoc]
    refine (IStream.many_flatMap (P := IStream.Ends) (fun v hv rest hrest => ⟨IStream.ends_cons rfl _, ?_⟩)
      (IStream.ends_cons rfl _)).1
    rw [List.cons_append, List.append_assoc, List.cons_append]
    exact importFreeVar_written (hnames v hv) (hplain.freeVars v hv) hrest
  obtain ⟨smts, hread, heq⟩ := Option.map_eq_some_iff.mp hsmts
  rw [exportToFile, if_pos hlength, if_pos rfl, hvlg, List.length_nil, List.flatMap_nil, List.nil_append] at h
  obtain rfl := Option.some.inj h
  rw [importFromFile_of_reads (readCount_first (IStream.ends_cons rfl _) (by decide))
    (readCount_next (IStream.ends_cons rfl _) hfree) (readCount_next (IStream.ends_cons rfl _) hexprs) rfl hfrees hlines hread, heq, List.map_map]
  rw [empty, OrdMap.foldl_emplace_entries]
  rfl

/-- A saved object is loaded unchanged exactly if it has no extra variables, no empty names, numbers of items that fit, and no formula
that is taken for one that is not available. -/
theorem import_export_iff {text : VText} (hplain : o.Plain) (h : o.exportToFile true = some text) :
    (∃ o', importFromFile empty (some text) = some o' ∧ SameSaved o o') ↔ o.Loadable := by
  have hlength : o.smtFormulaVec.length = o.invVlgExprs.length := by
    by_contra hne
    rw [exportToFile, if_neg hne] at h
    cases h
  constructor
  · rintro ⟨o', hload, hsame⟩
    obtain ⟨a, b, c, vlgVars, freeVars, exprs, ha, hb, hc, hvlg, hfree, hexprs, hvlg', hfree', hexprs'⟩ := exists_reads hload
    rw [hsame.vlgVars, empty, List.nil_append] at hvlg'
    rw [hsame.freeVars, empty] at hfree'
    rw [hsame.exprs, empty, List.nil_append] at hexprs'
    have hexprCount : o.invVlgExprs.length < 2 ^ 32 := by
      rw [hexprs', IStream.length_many hexprs]
      exact readCount_lt hc
    have hnames : ∀ v ∈ o.invExtraFreeVars.entries, v.1 ≠ [] := by
      intro v hv
      have hread : ∀ w ∈ freeVars.1, w.1 ≠ [] := IStream.forall_mem_many importFreeVar_name hfree
      rw [hfree'] at hv
      exact hread v (OrdMap.mem_of_mem_foldl_emplace hv)
    have htext := h
    rw [exportToFile, if_pos hlength, if_pos rfl] at htext
    obtain rfl := Option.some.inj htext
    have hvlgCount : o.invExtraVlgVars.length < 2 ^ 32 := lt_of_next (IStream.ends_cons rfl _) (List.forall_mem_nil _) ha hb
    obtain rfl := Option.some.inj (ha.symm.trans (readCount_first (IStream.ends_cons rfl _) hvlgCount))
    have hfreeCount : o.invExtraFreeVars.entries.length < 2 ^ 32 :=
      lt_of_next (IStream.ends_cons rfl _) (show ∀ c ∈ [' '], isSpace c = true from List.forall_mem_singleton.mpr rfl) hb hc
    obtain rfl := Option.some.inj (hb.symm.trans (readCount_next (IStream.ends_cons rfl _) hfreeCount))
    obtain rfl := Option.some.inj (hc.symm.trans (readCount_next (IStream.ends_cons rfl _) hexprCount))
    have hnone : o.invExtraVlgVars = [] := by
      by_contra hne
      obtain ⟨v, vs, hvs⟩ := List.exists_cons_of_ne_nil hne
      obtain ⟨hname, _, hbreak, _⟩ := hplain.vlgVars v (hvs ▸ List.mem_cons_self)
      rw [hvs] at hvlg hvlg'
      exact importVlgVars_ne hname hbreak hvlg hvlg'.symm
    refine ⟨hnone, hnames, hfreeCount, hexprCount, fun smt hsmt => ?_⟩
    rw [import_saved hplain hlength hnone hnames hfreeCount hexprCount h] at hload
    have hsmts := hsame.smts
    rw [← Option.some.inj hload] at hsmts
    exact (smtOfLine_smtText smt).mp (List.map_inj_left.mp hsmts smt hsmt)
  · intro hok
    refine ⟨_, import_saved hplain hlength hok.vlgVars hok.freeVars hok.freeCount hok.exprCount h, ?_⟩
    exact ⟨hok.vlgVars.symm, rfl, rfl, List.map_congr_left fun smt hsmt => (smtOfLine_smtText smt).mpr (hok.smts smt hsmt)⟩

/-- An invariant with a free variable and two formulae, one of them not available. -/
def savedObject : InvariantObject where
  invVlgExprs := ["m1.x == f".toList, "m1.y".toList]
  invExtraVlgVars := []
  invExtraFreeVars := OrdMap.empty.emplace "f".toList ⟨4, by decide⟩
  smtFormulaVec := ["(= x\nf)".toList, []]
  dutInstName := "m1".toList

def extraVarObject : InvariantObject where
  invVlgExprs := ["v".toList]
  invExtraVlgVars := [("v".toList, "m1.x & m1.y".toList, ⟨1, by decide⟩)]
  invExtraFreeVars := .empty
  smtFormulaVec := [[]]
  dutInstName := "m1".toList

theorem export_isSome (o : InvariantObject) (h : o.smtFormulaVec.length = o.invVlgExprs.length) :
    (o.exportToFile true).isSome = true := by
  rw [exportToFile, if_pos h]
  rfl

theorem savedObject_loadable : savedObject.Plain ∧ savedObject.Loadable := by
  have hname : ∀ c ∈ ['f'], isSpace c = false := List.forall_mem_singleton.mpr rfl
  refine ⟨⟨List.forall_mem_nil _, List.forall_mem_singleton.mpr hname, ?_⟩, rfl, ?_, ?_, ?_, ?_⟩
  all_goals decide

theorem import_export_savedObject :
    ∃ o', importFromFile empty (some ((savedObject.exportToFile true).get (export_isSome _ rfl))) = some o' ∧
      SameSaved savedObject o' :=
  (import_export_iff savedObject_loadable.1 (Option.some_get _).symm).mpr savedObject_loadable.2

/-- The expression of an extra variable comes back with a blank in front. -/
theorem extra_var_not_loaded : ¬ ∀ (o : InvariantObject) (text : VText), o.Plain → o.exportToFile true = some text →
    ∃ o', importFromFile empty (some text) = some o' ∧ SameSaved o o' := by
  intro h
  have hplain : extraVarObject.Plain := by
    have hname : ∀ c ∈ ['v'], isSpace c = false := List.forall_mem_singleton.mpr rfl
    refine ⟨List.forall_mem_singleton.mpr ⟨hname, ?_⟩, List.forall_mem_nil _, ?_⟩
    all_goals decide
  obtain ⟨o', hload, hsame⟩ := h extraVarObject _ hplain (Option.some_get (h := export_isSome _ rfl)).symm
  have hvars : (importFromFile empty (some ((extraVarObject.exportToFile true).get (export_isSome _ rfl)))).map
      (·.invExtraVlgVars) = some [("v".toList, " m1.x & m1.y".toList, ⟨1, by decide⟩)] := by decide +kernel
  rw [hload, Option.map_some, hsame.vlgVars] at hvars
  revert hvars
  decide +kernel

end InvariantObject

end Ilang
