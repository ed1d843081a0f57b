import Ilang.Util.IStream
import Ilang.Util.OrdMap
import Ilang.Vtarget.AbcSound

/-!
# Counterexamples from waveforms

`CexExtractor` takes the values that the signals of a waveform have at the start of a counterexample, and writes the Verilog
condition that says so for the registers among them. It can be stored in a file and loaded again, but whether a signal is a
register is not stored: everything in a file is taken for one.
-/

namespace Ilang

/-! ### Waveforms -/

namespace Vcd

/-- `SCOPE_IDENTIFIER` of the scanner, which is used for the references of signals as well. -/
def scopeIdentifier : VText → Bool
  | [] => false
  | c :: t => (c.isAlpha || c == '_') && t.all fun d => d.isAlphanum || "_()\\[].:".toList.contains d

abbrev Identifier := {t : VText // scopeIdentifier t = true}

inductive VarType
  | event | integer | parameter | real | realtime | reg | supply0 | supply1 | time | tri | triand | trior | trireg | tri0 | tri1
  | wand | wire | wor
  deriving DecidableEq, Repr

inductive Bit
  | b0 | b1 | x | z
  deriving DecidableEq, Repr

/-- A text that stands between blanks. -/
def Word (t : VText) : Prop := t ≠ [] ∧ ∀ c ∈ t, IStream.isSpace c = false

/-- A value. A real number is what it is printed as. -/
inductive Value
  | scalar (bit : Bit)
  | vector (bits : List Bit)
  | real (text : {t : VText // Word t})

/-- A signal with the names of the scopes around it, from the inside out. Each variable of a design is in a scope below the root. -/
structure Signal where
  type : VarType
  hash : VText
  reference : Identifier
  scopes : List Identifier
  declared : scopes ≠ []

/-- What the parser makes of a waveform: the scopes below the root with their signals, all signals, and the values under the hash
of a signal, which may be that of several signals. -/
structure File where
  children : List (VText × List Signal)
  signals : List Signal
  values : VText → Option (List (Int × Value))

/-- `get_signal_value`. -/
def File.signalValue (f : File) (hash : VText) : Option (List (Int × Value)) :=
  (f.values hash).bind fun vals => if vals.isEmpty then none else some vals

/-- `get_signal_value_at`: the last value up to the first one that is later. -/
def File.signalValueAt (f : File) (hash : VText) (time : Int) : Option Value :=
  (f.values hash).bind fun vals => (vals.takeWhile fun tv => decide (tv.1 ≤ time)).getLast?.map Prod.snd

def bit2Char : Bit → Char
  | .b0 => '0'
  | .b1 => '1'
  | .z => 'Z'
  | .x => 'X'

end Vcd

open Abc (digits replaceAll splitLast)

def val2str : Vcd.Value → VText
  | .scalar bit => ['1', '\'', 'b', Vcd.bit2Char bit]
  | .vector bits => digits bits.length ++ '\'' :: 'b' :: bits.map Vcd.bit2Char
  | .real text => text.1

def prepend (pre sigName : VText) : VText := if pre.isEmpty then sigName else pre ++ '.' :: sigName

/-- The names of the scopes, from the root, each with a dot behind it. -/
def collectScope (scopes : List VText) : VText := scopes.foldl (fun ret name => name ++ '.' :: ret) []

/-! ### The extractor -/

structure CexExtractor where
  cex : OrdMap VText VText
  cexIsReg : OrdMap VText Bool

namespace CexExtractor

def empty : CexExtractor := ⟨.empty, .empty⟩

def insert (x : CexExtractor) (name val : VText) (isReg : Bool) : CexExtractor :=
  ⟨x.cex.emplace name val, x.cexIsReg.emplace name isReg⟩

def scopesOf (sig : Vcd.Signal) : VText := collectScope (sig.scopes.map Subtype.val ++ ["$root".toList])

def vlgName (sig : Vcd.Signal) : VText := replaceAll (scopesOf sig ++ sig.reference.1) "$root.top.".toList []

def inScope (scope : VText) (sig : Vcd.Signal) : Bool :=
  ("$root.top.".toList ++ scope ++ ['.']).isPrefixOf (scopesOf sig) || (scope ++ ['.']).isPrefixOf (scopesOf sig)

/-- One round of the loop over the signals. -/
def addSignal (f : Vcd.File) (startTime : Int) (scope : VText) (isReg : VText → Bool) (regOnly : Bool) (x : CexExtractor)
    (sig : Vcd.Signal) : CexExtractor :=
  if sig.type ≠ .reg then x
  else if !inScope scope sig then x
  else
    let isThisVarReg := isReg ((vlgName sig).takeWhile (· ≠ '['))
    if regOnly && !isThisVarReg then x
    else
      match f.signalValueAt sig.hash startTime with
      | none => x
      | some v => x.insert (vlgName sig) (val2str v) isThisVarReg

/-- The hash of the last signal of that name. -/
def startSigHash (top : List Vcd.Signal) : VText :=
  top.foldl (fun hash sig =>
    if sig.reference.1 = "__START__".toList ∨ sig.reference.1 = "__START__[0:0]".toList then sig.hash else hash) []

/-- The constructor from a waveform, which aborts if there is no top scope, no value of the start signal or no counterexample. The
object stays empty if the waveform cannot be read, the start signal is missing or it is never one. -/
def parseFrom (trace : Option Vcd.File) (scope : VText) (isReg : VText → Bool) (regOnly : Bool) : Option CexExtractor :=
  match trace with
  | none => some empty
  | some f =>
    ((f.children.filter fun c => c.1 = "top".toList).getLast?).bind fun top =>
      let hash := startSigHash top.2
      if hash.isEmpty then some empty
      else
        (f.signalValue hash).bind fun vals =>
          match vals.find? fun tv => val2str tv.2 = "1'b1".toList with
          | none => some empty
          | some (startTime, _) =>
            if startTime = -1 then some empty
            else
              let x := f.signals.foldl (addSignal f startTime scope isReg regOnly) empty
              if x.cex.entries.isEmpty then none else some x

/-- The loop of the constructor from a file. The variables keep their values when nothing can be read. -/
def readPairs : ℕ → IStream → VText → VText → CexExtractor → CexExtractor
  | 0, _, _, _, x => x
  | n + 1, s, name, val, x =>
    let name' := s.word.1.getD name
    let val' := s.word.2.word.1.getD val
    if name'.isEmpty || val'.isEmpty then x else readPairs n s.word.2.word.2 name' val' (x.insert name' val' true)

/-- The constructor from a file. Without a number in front the stream has failed, and the first name is empty. -/
def load (file : Option VText) : CexExtractor :=
  match file with
  | none => empty
  | some text =>
    match (IStream.ofText text).unsigned with
    | (none, _) => empty
    | (some pairs, s) => readPairs pairs s [] [] empty

def checkName (fullname : VText) : VText :=
  match splitLast '[' fullname with
  | none => fullname
  | some (pre, _) => pre

def fullName (pre name : VText) : VText := prepend pre (replaceAll name "[0:0]".toList [])

def inFocus (pre : VText) (focus : Finset VText) (name : VText) : Bool :=
  decide (focus = ∅) || decide (checkName (fullName pre name) ∈ focus)

def conjunct (pre : VText) (nv : VText × VText) : VText :=
  "\n&& (".toList ++ fullName pre nv.1 ++ " == ".toList ++ nv.2 ++ [')']

/-- `GenInvAssert`, which throws if it is not known whether a name is a register. -/
def genInvAssert (x : CexExtractor) (pre : VText) (focus : Finset VText) : Option VText :=
  x.cex.entries.foldlM (fun ret nv => (x.cexIsReg.find? nv.1).map fun isReg =>
    if isReg && inFocus pre focus nv.1 then ret ++ conjunct pre nv else ret) "(1'b1 == 1'b1)".toList

/-- `StoreCexToFile`. -/
def storeCexToFile (x : CexExtractor) : VText :=
  digits x.cex.entries.length ++ '\n' :: x.cex.entries.flatMap fun nv => nv.1 ++ ' ' :: (nv.2 ++ ['\n'])

def dropStates (x : CexExtractor) (vnames : List VText) : CexExtractor :=
  vnames.foldl (fun x n => if (x.cex.find? n).isSome then ⟨x.cex.erase n, x.cexIsReg.erase n⟩ else x) x

/-! ### Names and values are words -/

theorem scopeIdentifier_spec {t : VText} (h : Vcd.scopeIdentifier t = true) : Vcd.Word t ∧ '$' ∉ t := by
  have hout : ∀ c : Char, IStream.isSpace c = true ∨ c = '$' →
      (c.isAlpha || c == '_') = false ∧ (c.isAlphanum || "_()\\[].:".toList.contains c) = false := by
    intro c hc
    have hmem : c ∈ [' ', '\t', '\n', '\x0b', '\x0c', '\r', '$'] := by
      rw [IStream.isSpace, List.contains_iff_mem] at hc
      simpa [or_assoc] using hc
    have hall : [' ', '\t', '\n', '\x0b', '\x0c', '\r', '$'].all (fun c =>
        !(c.isAlpha || c == '_') && !(c.isAlphanum || "_()\\[].:".toList.contains c)) = true := by decide
    have hboth := List.all_eq_true.mp hall c hmem
    rwa [Bool.and_eq_true, Bool.not_eq_true', Bool.not_eq_true'] at hboth
  cases t with
  | nil => cases h
  | cons c t =>
    rw [Vcd.scopeIdentifier, Bool.and_eq_true, List.all_eq_true] at h
    have hin : ∀ d ∈ c :: t, ¬ (IStream.isSpace d = true ∨ d = '$') := by
      intro d hd hbad
      obtain ⟨hfirst, hrest⟩ := hout d hbad
      obtain rfl | hd := List.mem_cons.mp hd
      · exact absurd (hfirst ▸ h.1) Bool.false_ne_true
      · exact absurd (hrest ▸ h.2 d hd) Bool.false_ne_true
    exact ⟨⟨List.cons_ne_nil _ _, fun d hd => Bool.eq_false_iff.mpr fun hs => hin d hd (.inl hs)⟩,
      fun hd => hin '$' hd (.inr rfl)⟩

theorem collectScope_concat (scopes : List VText) (outer : VText) :
    collectScope (scopes ++ [outer]) = outer ++ '.' :: collectScope scopes := by
  rw [collectScope, List.foldl_concat, collectScope]

theorem mem_collectScope {scopes : List VText} {c : Char} (h : c ∈ collectScope scopes) : c = '.' ∨ ∃ s ∈ scopes, c ∈ s := by
  induction scopes using List.reverseRecOn with
  | nil => cases h
  | append_singleton scopes outer ih =>
    rw [collectScope_concat, List.mem_append, List.mem_cons] at h
    obtain h | rfl | h := h
    · exact .inr ⟨outer, List.mem_append_right _ List.mem_cons_self, h⟩
    · exact .inl rfl
    · obtain h | ⟨s, hs, h⟩ := ih h
      · exact .inl h
      · exact .inr ⟨s, List.mem_append_left _ hs, h⟩

theorem mem_of_mem_replaceAllAux {a : VText} {c : Char} (fuel : ℕ) {s : VText} (h : c ∈ Abc.replaceAllAux a [] fuel s) : c ∈ s := by
  induction fuel generalizing s with
  | zero => exact h
  | succ fuel ih =>
    cases s with
    | nil => cases h
    | cons d s =>
      unfold Abc.replaceAllAux at h
      split at h
      · exact List.mem_of_mem_drop (ih h)
      · obtain rfl | h := List.mem_cons.mp h
        · exact List.mem_cons_self
        · exact List.mem_cons_of_mem _ (ih h)

/-- The name of a signal behind the root scope. -/
def belowRoot (sig : Vcd.Signal) : VText := collectScope (sig.scopes.map Subtype.val) ++ sig.reference.1

theorem scopesOf_append (sig : Vcd.Signal) : scopesOf sig ++ sig.reference.1 = "$root.".toList ++ belowRoot sig := by
  rw [scopesOf, collectScope_concat, belowRoot, List.append_assoc]
  rfl

theorem mem_belowRoot {sig : Vcd.Signal} {c : Char} (h : c ∈ belowRoot sig) : IStream.isSpace c = false ∧ c ≠ '$' := by
  obtain h | h := List.mem_append.mp h
  · obtain rfl | ⟨s, hs, hc⟩ := mem_collectScope h
    · decide
    · obtain ⟨i, _, rfl⟩ := List.mem_map.mp hs
      obtain ⟨hword, hdollar⟩ := scopeIdentifier_spec i.2
      exact ⟨hword.2 c hc, fun h => hdollar (h ▸ hc)⟩
  · obtain ⟨hword, hdollar⟩ := scopeIdentifier_spec sig.reference.2
    exact ⟨hword.2 c h, fun hc => hdollar (hc ▸ h)⟩

theorem top_below {o z : VText} (h : ['t', 'o', 'p', '.'] = o ++ '.' :: z) (hz : z ≠ []) : False := by
  have hlength : o.length + z.length = 3 := by
    have hlength := congrArg List.length h
    simp only [List.length_append, List.length_cons, List.length_nil] at hlength
    omega
  have hpos := List.length_pos_of_ne_nil hz
  have hdot : ['t', 'o', 'p', '.'][o.length]? = some '.' := by
    rw [h, List.getElem?_append_right (Nat.le_refl _), Nat.sub_self, List.getElem?_cons_zero]
  have hlt : o.length < 3 := by omega
  revert hdot
  generalize o.length = n at hlt
  revert n
  decide

theorem vlgName_word (sig : Vcd.Signal) : Vcd.Word (vlgName sig) := by
  have hname : vlgName sig = replaceAll ("$root.".toList ++ belowRoot sig) "$root.top.".toList [] := by
    rw [vlgName, scopesOf_append]
  have hroot : "$root.".toList = '$' :: "root.".toList := by decide
  have htop : "$root.top.".toList = "$root.".toList ++ ['t', 'o', 'p', '.'] := by decide
  have hblank : "$root.".toList.all (fun c => !IStream.isSpace c) = true := by decide
  refine ⟨?_, fun c hc => ?_⟩
  · rw [hname, replaceAll, hroot, List.cons_append, List.length_cons]
    unfold Abc.replaceAllAux
    split
    · rename_i hpre
      obtain ⟨rest, hrest⟩ := List.isPrefixOf_iff_prefix.mp hpre
      have hbelow : 't' :: 'o' :: 'p' :: '.' :: rest = belowRoot sig := by
        rw [← List.cons_append, ← hroot, htop, List.append_assoc] at hrest
        exact List.append_cancel_left hrest
      rw [← hrest, List.drop_left, List.nil_append, Abc.replaceAllAux_of_absent]
      · rintro rfl
        obtain ⟨scopes, outer, hscopes⟩ := List.eq_nil_or_concat sig.scopes |>.resolve_left sig.declared
        have hform : belowRoot sig = outer.1 ++ '.' :: (collectScope (scopes.map Subtype.val) ++ sig.reference.1) := by
          rw [belowRoot, hscopes, List.concat_eq_append, List.map_append, List.map_singleton, collectScope_concat,
            List.append_assoc, List.cons_append]
        have hne : collectScope (scopes.map Subtype.val) ++ sig.reference.1 ≠ [] :=
          List.append_ne_nil_of_right_ne_nil _ (scopeIdentifier_spec sig.reference.2).1.1
        exact top_below (hbelow.trans hform) hne
      · intro hin
        have hmem : '$' ∈ rest := hin.subset (by decide)
        have hbelowMem : '$' ∈ belowRoot sig := hbelow ▸ List.mem_append_right ['t', 'o', 'p', '.'] hmem
        exact (mem_belowRoot hbelowMem).2 rfl
    · exact List.cons_ne_nil _ _
  · rw [hname, replaceAll] at hc
    obtain h | h := List.mem_append.mp (mem_of_mem_replaceAllAux _ hc)
    · exact (Bool.not_eq_true' _).mp (List.all_eq_true.mp hblank c h)
    · exact (mem_belowRoot h).1

theorem val2str_word (v : Vcd.Value) : Vcd.Word (val2str v) := by
  have hbit : ∀ b, IStream.isSpace (Vcd.bit2Char b) = false := by
    intro b
    cases b <;> rfl
  cases v with
  | scalar bit =>
    refine ⟨List.cons_ne_nil _ _, List.forall_mem_cons.mpr ⟨rfl, List.forall_mem_cons.mpr ⟨rfl, List.forall_mem_cons.mpr ⟨rfl,
      List.forall_mem_singleton.mpr (hbit bit)⟩⟩⟩⟩
  | vector bits =>
    refine ⟨List.append_ne_nil_of_left_ne_nil Nat.toDigits_ne_nil _, fun c hc => ?_⟩
    obtain hc | hc := List.mem_append.mp hc
    · exact IStream.isSpace_of_isDigit (IStream.isDigit_toDigits hc)
    · have hall : ∀ c ∈ '\'' :: 'b' :: bits.map Vcd.bit2Char, IStream.isSpace c = false :=
        List.forall_mem_cons.mpr ⟨rfl, List.forall_mem_cons.mpr ⟨rfl, List.forall_mem_map.mpr fun b _ => hbit b⟩⟩
      exact hall c hc
  | real text => exact text.2

/-! ### What every extractor satisfies -/

/-- It is known of each name whether it is a register, and a name and its value can be told apart in a file. -/
structure Ok (x : CexExtractor) : Prop where
  words : ∀ name val, x.cex.find? name = some val → Vcd.Word name ∧ Vcd.Word val
  flags : ∀ name, (x.cexIsReg.find? name).isSome = (x.cex.find? name).isSome

theorem empty_ok : empty.Ok where
  words _ _ h := nomatch h
  flags _ := rfl

theorem Ok.insert {x : CexExtractor} (h : x.Ok) {name val : VText} (hname : Vcd.Word name) (hval : Vcd.Word val) (isReg : Bool) :
    (x.insert name val isReg).Ok where
  words name' val' hfind := by
    rw [CexExtractor.insert, OrdMap.find?_emplace] at hfind
    split at hfind
    · rename_i heq
      obtain rfl := heq
      refine ⟨hname, ?_⟩
      rw [← Option.some.inj hfind]
      cases hold : x.cex.find? name' with
      | none => exact hval
      | some old => exact (h.words name' old hold).2
    · exact h.words name' val' hfind
  flags name' := by
    rw [CexExtractor.insert, OrdMap.find?_emplace, OrdMap.find?_emplace]
    split
    · rfl
    · exact h.flags name'

theorem addSignal_ok {f : Vcd.File} {startTime : Int} {scope : VText} {isReg : VText → Bool} {regOnly : Bool} {x : CexExtractor}
    (h : x.Ok) (sig : Vcd.Signal) : (addSignal f startTime scope isReg regOnly x sig).Ok := by
  unfold addSignal
  split
  · exact h
  · split
    · exact h
    · dsimp only
      split
      · exact h
      · split
        · exact h
        · exact h.insert (vlgName_word sig) (val2str_word _) _

theorem parseFrom_induction {P : CexExtractor → Prop} {trace : Option Vcd.File} {scope : VText} {isReg : VText → Bool}
    {regOnly : Bool} {x : CexExtractor} (h : parseFrom trace scope isReg regOnly = some x) (hempty : P empty)
    (hadd : ∀ f startTime x sig, P x → P (addSignal f startTime scope isReg regOnly x sig)) : P x := by
  have hfold : ∀ (f : Vcd.File) (t : Int) (sigs : List Vcd.Signal) (x : CexExtractor), P x →
      P (sigs.foldl (addSignal f t scope isReg regOnly) x) := by
    intro f t sigs
    induction sigs with
    | nil => exact fun x hx => hx
    | cons sig sigs ih => exact fun x hx => ih _ (hadd f t x sig hx)
  unfold parseFrom at h
  split at h
  · exact Option.some.inj h ▸ hempty
  · obtain ⟨top, -, h⟩ := Option.bind_eq_some_iff.mp h
    dsimp only at h
    split at h
    · exact Option.some.inj h ▸ hempty
    · obtain ⟨vals, -, h⟩ := Option.bind_eq_some_iff.mp h
      split at h
      · exact Option.some.inj h ▸ hempty
      · split at h
        · exact Option.some.inj h ▸ hempty
        · split at h
          · cases h
          · exact Option.some.inj h ▸ hfold _ _ _ _ hempty

theorem parseFrom_ok {trace : Option Vcd.File} {scope : VText} {isReg : VText → Bool} {regOnly : Bool} {x : CexExtractor}
    (h : parseFrom trace scope isReg regOnly = some x) : x.Ok :=
  parseFrom_induction h empty_ok fun _ _ _ sig hx => addSignal_ok hx sig

theorem find?_dropStates {x : CexExtractor} (vnames : List VText) (name : VText) :
    ((x.dropStates vnames).cex.find? name = none ∧ (x.dropStates vnames).cexIsReg.find? name = none) ∨
    ((x.dropStates vnames).cex.find? name = x.cex.find? name ∧
      (x.dropStates vnames).cexIsReg.find? name = x.cexIsReg.find? name) := by
  unfold dropStates
  induction vnames generalizing x with
  | nil => exact .inr ⟨rfl, rfl⟩
  | cons n vnames ih =>
    rw [List.foldl_cons]
    obtain h | h := @ih (if (x.cex.find? n).isSome then ⟨x.cex.erase n, x.cexIsReg.erase n⟩ else x)
    · exact .inl h
    · rw [h.1, h.2]
      split
      · rw [OrdMap.find?_erase, OrdMap.find?_erase]
        by_cases hname : name = n
        · exact .inl ⟨if_pos hname, if_pos hname⟩
        · exact .inr ⟨if_neg hname, if_neg hname⟩
      · exact .inr ⟨rfl, rfl⟩

theorem dropStates_ok {x : CexExtractor} (h : x.Ok) (vnames : List VText) : (x.dropStates vnames).Ok where
  words name val hfind := by
    obtain hnone | hsame := find?_dropStates (x := x) vnames name
    · rw [hnone.1] at hfind
      cases hfind
    · exact h.words name val (hsame.1 ▸ hfind)
  flags name := by
    obtain hnone | hsame := find?_dropStates (x := x) vnames name
    · rw [hnone.1, hnone.2]
      rfl
    · rw [hsame.1, hsame.2, h.flags]

/-! ### The assertion -/

/-- The entries that the assertion is about. -/
def asserted (x : CexExtractor) (pre : VText) (focus : Finset VText) (nv : VText × VText) : Bool :=
  x.cexIsReg.find? nv.1 == some true && inFocus pre focus nv.1

theorem Ok.genInvAssert {x : CexExtractor} (h : x.Ok) (pre : VText) (focus : Finset VText) :
    x.genInvAssert pre focus =
      some ("(1'b1 == 1'b1)".toList ++ (x.cex.entries.filter (x.asserted pre focus)).flatMap (conjunct pre)) := by
  have hfold : ∀ (l : List (VText × VText)) (ret : VText), (∀ nv ∈ l, (x.cexIsReg.find? nv.1).isSome = true) →
      l.foldlM (fun ret nv => (x.cexIsReg.find? nv.1).map fun isReg =>
        if isReg && inFocus pre focus nv.1 then ret ++ conjunct pre nv else ret) ret =
      some (ret ++ (l.filter (x.asserted pre focus)).flatMap (conjunct pre)) := by
    intro l
    induction l with
    | nil =>
      intro ret _
      rw [List.foldlM_nil, List.filter_nil, List.flatMap_nil, List.append_nil]
      rfl
    | cons nv l ih =>
      intro ret hl
      obtain ⟨hnv, hl⟩ := List.forall_mem_cons.mp hl
      obtain ⟨isReg, hreg⟩ := Option.isSome_iff_exists.mp hnv
      have hasserted : x.asserted pre focus nv = (isReg && inFocus pre focus nv.1) := by
        rw [asserted, hreg]
        cases isReg <;> rfl
      rw [List.foldlM_cons, hreg, Option.map_some, Option.bind_eq_bind, Option.bind_some, ih _ hl, List.filter_cons, hasserted]
      split
      · rw [List.flatMap_cons, List.append_assoc]
      · rfl
  refine hfold _ _ fun nv hnv => ?_
  rw [h.flags, OrdMap.mem_entries.mp hnv, Option.isSome_some]

/-! ### Storing and loading -/

theorem foldl_insert (l : List (VText × VText)) (x : CexExtractor) :
    l.foldl (fun x nv => x.insert nv.1 nv.2 true) x =
      ⟨l.foldl (fun m nv => m.emplace nv.1 nv.2) x.cex,
        (l.map fun nv => (nv.1, true)).foldl (fun m nv => m.emplace nv.1 nv.2) x.cexIsReg⟩ := by
  induction l generalizing x with
  | nil => rfl
  | cons nv l ih =>
    rw [List.foldl_cons, ih]
    rfl

/-- A line of the file, with the line break in front of it. -/
def pairLine (nv : VText × VText) : VText := '\n' :: (nv.1 ++ ' ' :: nv.2)

theorem readPairs_lines {l : List (VText × VText)} (hl : ∀ nv ∈ l, Vcd.Word nv.1 ∧ Vcd.Word nv.2) (name val : VText)
    (x : CexExtractor) : readPairs l.length (IStream.ofText (l.flatMap pairLine ++ ['\n'])) name val x =
      l.foldl (fun x nv => x.insert nv.1 nv.2 true) x := by
  induction l generalizing name val x with
  | nil => rfl
  | cons nv l ih =>
    obtain ⟨⟨hname, hval⟩, hl⟩ := List.forall_mem_cons.mp hl
    have hends : IStream.Ends (l.flatMap pairLine ++ ['\n']) := by
      cases l with
      | nil => exact IStream.ends_cons rfl _
      | cons nv l => exact IStream.ends_cons rfl _
    have hbreak : ∀ c ∈ ['\n'], IStream.isSpace c = true := List.forall_mem_singleton.mpr rfl
    have hblank : ∀ c ∈ [' '], IStream.isSpace c = true := List.forall_mem_singleton.mpr rfl
    have hfirst := IStream.word_written hbreak hname.2 hname.1
      (IStream.ends_cons (c := ' ') rfl (nv.2 ++ (l.flatMap pairLine ++ ['\n'])))
    have hsecond := IStream.word_written hblank hval.2 hval.1 hends
    have htext : (nv :: l).flatMap pairLine ++ ['\n'] =
        ['\n'] ++ (nv.1 ++ ' ' :: (nv.2 ++ (l.flatMap pairLine ++ ['\n']))) := by
      simp [pairLine]
    rw [List.singleton_append] at hsecond
    rw [List.length_cons, readPairs, htext, hfirst]
    dsimp only
    rw [hsecond]
    dsimp only [Option.getD_some]
    have hread : ¬ (nv.1.isEmpty || nv.2.isEmpty) = true := by
      rw [List.isEmpty_eq_false_iff.mpr hname.1, List.isEmpty_eq_false_iff.mpr hval.1]
      exact Bool.false_ne_true
    rw [if_neg hread, ih hl, List.foldl_cons]

theorem readPairs_failed {s : IStream} (h : s.failed = true) (n : ℕ) (x : CexExtractor) : readPairs n s [] [] x = x := by
  cases n with
  | zero => rfl
  | succ n =>
    rw [readPairs, IStream.word_failed h]
    rfl

theorem storeCexToFile_eq (x : CexExtractor) :
    storeCexToFile x = digits x.cex.entries.length ++ (x.cex.entries.flatMap pairLine ++ ['\n']) := by
  have hbreaks := IStream.cons_flatMap_concat '\n' (fun nv : VText × VText => nv.1 ++ ' ' :: nv.2) x.cex.entries
  rw [storeCexToFile]
  simp only [List.append_assoc, List.cons_append] at hbreaks ⊢
  rw [hbreaks]
  rfl

theorem load_storeCexToFile {x : CexExtractor} (h : x.Ok) :
    load (some x.storeCexToFile) = if x.cex.entries.length < 2 ^ 32 then
      x.cex.entries.foldl (fun x nv => x.insert nv.1 nv.2 true) empty else empty := by
  have hgap : ∀ c ∈ ([] : VText), IStream.isSpace c = true := List.forall_mem_nil _
  have hends : IStream.Ends (x.cex.entries.flatMap pairLine ++ ['\n']) := by
    cases x.cex.entries with
    | nil => exact IStream.ends_cons rfl _
    | cons nv l => exact IStream.ends_cons rfl _
  unfold load
  rw [storeCexToFile_eq]
  dsimp only
  split_ifs with hlength
  · have hread := IStream.unsigned_digits hgap hends hlength
    rw [List.nil_append] at hread
    rw [digits, hread]
    exact readPairs_lines (fun nv hnv => h.words _ _ (OrdMap.mem_entries.mp hnv)) _ _ _
  · have hread := IStream.unsigned_digits_of_le hgap hends (Nat.le_of_not_lt hlength)
    rw [List.nil_append] at hread
    rw [digits, hread]
    exact readPairs_failed rfl _ _

theorem find?_loaded {x : CexExtractor} (name : VText) :
    (x.cex.entries.foldl (fun x nv => x.insert nv.1 nv.2 true) empty).cex = x.cex ∧
    (x.cex.entries.foldl (fun x nv => x.insert nv.1 nv.2 true) empty).cexIsReg.find? name =
      (x.cex.find? name).map fun _ => true := by
  rw [foldl_insert]
  constructor
  · exact OrdMap.foldl_emplace_entries _
  · rw [OrdMap.find?_foldl_emplace, empty, OrdMap.find?_empty, Option.none_or]
    exact OrdMap.lookup_map_entries fun _ => true

theorem loaded_ok {x : CexExtractor} (h : x.Ok) : (x.cex.entries.foldl (fun x nv => x.insert nv.1 nv.2 true) empty).Ok where
  words name val hfind := by
    rw [(find?_loaded name).1] at hfind
    exact h.words name val hfind
  flags name := by rw [(find?_loaded name).1, (find?_loaded name).2, Option.isSome_map]

/-! ### Reloading -/

section Filter

variable {α β : Type} {p q : α → Bool} {f : α → List β}

theorem length_flatMap_filter_le {l : List α} (hpq : ∀ a ∈ l, p a = true → q a = true) :
    ((l.filter p).flatMap f).length ≤ ((l.filter q).flatMap f).length := by
  induction l with
  | nil => exact Nat.le_refl _
  | cons a l ih =>
    obtain ⟨ha, hl⟩ := List.forall_mem_cons.mp hpq
    have hle := ih hl
    rw [List.filter_cons, List.filter_cons]
    split_ifs with hp hq hq
    · rw [List.flatMap_cons, List.flatMap_cons, List.length_append, List.length_append]
      omega
    · exact absurd (ha hp) hq
    · rw [List.flatMap_cons, List.length_append]
      omega
    · exact hle

theorem flatMap_filter_eq_iff (hne : ∀ a, f a ≠ []) {l : List α} (hpq : ∀ a ∈ l, p a = true → q a = true) :
    (l.filter p).flatMap f = (l.filter q).flatMap f ↔ ∀ a ∈ l, q a = true → p a = true := by
  induction l with
  | nil => exact iff_of_true rfl (List.forall_mem_nil _)
  | cons a l ih =>
    obtain ⟨ha, hl⟩ := List.forall_mem_cons.mp hpq
    rw [List.forall_mem_cons, List.filter_cons, List.filter_cons]
    split_ifs with hp hq hq
    · rw [List.flatMap_cons, List.flatMap_cons, List.append_cancel_left_eq, ih hl]
      exact (and_iff_right fun _ => hp).symm
    · exact absurd (ha hp) hq
    · refine iff_of_false (fun h => ?_) fun h => hp (h.1 hq)
      have hlength := congrArg List.length h
      have hle := length_flatMap_filter_le (f := f) hl
      have hpos := List.length_pos_of_ne_nil (hne a)
      rw [List.flatMap_cons, List.length_append] at hlength
      omega
    · rw [ih hl]
      exact (and_iff_right fun h => absurd h hq).symm

end Filter

variable {trace : Option Vcd.File} {scope : VText} {isReg : VText → Bool} {x : CexExtractor}

/-- The loaded extractor asserts the same exactly if the names in focus are those of registers. With 2^32 values or more it asserts
nothing, which is the same exactly if the names in focus are not those of registers. -/
theorem Ok.genInvAssert_load_iff (h : x.Ok) (pre : VText) (focus : Finset VText) :
    (load (some x.storeCexToFile)).genInvAssert pre focus = x.genInvAssert pre focus ↔
      if x.cex.entries.length < 2 ^ 32 then
        ∀ nv ∈ x.cex.entries, inFocus pre focus nv.1 = true → x.cexIsReg.find? nv.1 = some true
      else ∀ nv ∈ x.cex.entries, inFocus pre focus nv.1 = true → x.cexIsReg.find? nv.1 = some false := by
  have hne : ∀ nv, conjunct pre nv ≠ [] := fun nv => List.append_ne_nil_of_right_ne_nil _ (List.cons_ne_nil _ _)
  rw [load_storeCexToFile h, h.genInvAssert]
  split_ifs with hlength
  · have hkept : ∀ nv ∈ x.cex.entries,
        (x.cex.entries.foldl (fun x nv => x.insert nv.1 nv.2 true) empty).asserted pre focus nv = inFocus pre focus nv.1 := by
      intro nv hnv
      rw [asserted, (find?_loaded nv.1).2, OrdMap.mem_entries.mp hnv]
      exact Bool.true_and _
    rw [(loaded_ok h).genInvAssert, (find?_loaded []).1, List.filter_congr hkept, Option.some_inj, List.append_cancel_left_eq,
      eq_comm, flatMap_filter_eq_iff hne]
    · refine forall₂_congr fun nv _ => ?_
      rw [asserted, Bool.and_eq_true, beq_iff_eq]
      exact forall_congr' fun hfocus => and_iff_left hfocus
    · intro nv _ hnv
      exact (Bool.and_eq_true_iff.mp hnv).2
  · rw [empty_ok.genInvAssert, Option.some_inj, List.append_cancel_left_eq, eq_comm]
    show _ = [] ↔ _
    rw [List.flatMap_eq_nil_iff]
    constructor
    · intro hnone nv hnv hfocus
      obtain ⟨isReg, hreg⟩ := Option.isSome_iff_exists.mp ((h.flags nv.1).trans (by rw [OrdMap.mem_entries.mp hnv]; rfl))
      cases isReg with
      | false => exact hreg
      | true =>
        refine absurd (hnone nv (List.mem_filter.mpr ⟨hnv, ?_⟩)) (hne nv)
        rw [asserted, hreg, hfocus]
        rfl
    · intro hwires nv hnv
      obtain ⟨hnv, hasserted⟩ := List.mem_filter.mp hnv
      rw [asserted, Bool.and_eq_true, beq_iff_eq] at hasserted
      exact nomatch hasserted.1.symm.trans (hwires nv hnv hasserted.2)

theorem genInvAssert_reload_iff {regOnly : Bool} (h : parseFrom trace scope isReg regOnly = some x) (vnames : List VText)
    (pre : VText) (focus : Finset VText) :
    (load (some (x.dropStates vnames).storeCexToFile)).genInvAssert pre focus = (x.dropStates vnames).genInvAssert pre focus ↔
      if (x.dropStates vnames).cex.entries.length < 2 ^ 32 then
        ∀ nv ∈ (x.dropStates vnames).cex.entries, inFocus pre focus nv.1 = true →
          (x.dropStates vnames).cexIsReg.find? nv.1 = some true
      else ∀ nv ∈ (x.dropStates vnames).cex.entries, inFocus pre focus nv.1 = true →
        (x.dropStates vnames).cexIsReg.find? nv.1 = some false :=
  (dropStates_ok (parseFrom_ok h) vnames).genInvAssert_load_iff pre focus

/-! ### A waveform with a wire -/

def exampleSignal (name hash : VText) (hname : Vcd.scopeIdentifier name = true) (scopes : List Vcd.Identifier) : Vcd.Signal where
  type := .reg
  hash := hash
  reference := ⟨name, hname⟩
  scopes := scopes ++ [⟨"top".toList, by decide⟩]
  declared := List.append_ne_nil_of_right_ne_nil _ (List.cons_ne_nil _ _)

def startSignal : Vcd.Signal := exampleSignal "__START__".toList ['!'] (by decide) []

def designSignals : List Vcd.Signal :=
  [exampleSignal "r".toList ['#'] (by decide) [⟨"m1".toList, by decide⟩],
    exampleSignal "w".toList ['%'] (by decide) [⟨"m1".toList, by decide⟩]]

/-- Both signals of the design are variables of the type `reg`, but `w` is not a register. -/
def wireTrace : Vcd.File where
  children := [("top".toList, [startSignal])]
  signals := startSignal :: designSignals
  values hash :=
    if hash = ['!'] then some [(0, .scalar .b0), (5, .scalar .b1)]
    else if hash = ['#'] then some [(0, .vector [.b0, .b1])]
    else if hash = ['%'] then some [(0, .scalar .b1), (7, .scalar .b0)]
    else none

def wireTraceIsReg (name : VText) : Bool := name == "m1.r".toList

theorem parseFrom_wireTrace (regOnly : Bool) : (parseFrom (some wireTrace) "m1".toList wireTraceIsReg regOnly).isSome = true := by
  cases regOnly <;> decide +kernel

theorem genInvAssert_reload_wireTrace :
    let x := (parseFrom (some wireTrace) "m1".toList wireTraceIsReg false).get (parseFrom_wireTrace false)
    (load (some (x.dropStates ["m1.w".toList]).storeCexToFile)).genInvAssert [] ∅ =
      (x.dropStates ["m1.w".toList]).genInvAssert [] ∅ :=
  (genInvAssert_reload_iff (Option.some_get _).symm ["m1.w".toList] [] ∅).mpr (by decide +kernel)

/-- The loaded extractor says something about the wire as well. -/
theorem wire_asserted_after_reload : ¬ ∀ (trace : Option Vcd.File) (scope : VText) (isReg : VText → Bool) (regOnly : Bool)
    (x : CexExtractor), parseFrom trace scope isReg regOnly = some x → ∀ (vnames : List VText) (pre : VText) (focus : Finset VText),
      (load (some (x.dropStates vnames).storeCexToFile)).genInvAssert pre focus = (x.dropStates vnames).genInvAssert pre focus := by
  intro h
  have hsame := h (some wireTrace) "m1".toList wireTraceIsReg false _
    (Option.some_get (h := parseFrom_wireTrace false)).symm [] [] ∅
  revert hsame
  decide +kernel

end CexExtractor

end Ilang
