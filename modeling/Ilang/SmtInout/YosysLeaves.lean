import Ilang.SmtInout.YosysSound
import Mathlib.Data.List.TakeWhile

/-!
# Leaves of a datatype

The flattened state list of a module has one entry for each leaf of its datatype, named by the instances on the way to it. Entries
are copied from module to module, and types are written to a text and read from it again.
-/

namespace Ilang

/-! ### Reading a text -/

/-- What is left of the text of a `str_iterator`. -/
abbrev YText := List Char

namespace YText

def blanks : List Char := [' ', '\t', '\n', '\r']

def skip (it : YText) : YText := it.dropWhile blanks.contains

/-- `skip_m`. -/
def skipM (s it : YText) : YText := if s.isPrefixOf (skip it) then (skip it).drop s.length else skip it

/-- `accept`. `none` is an assertion that fails. -/
def accept (s it : YText) : Option YText := if s.isPrefixOf it then some (skipM s it) else none

def headWord (delims : List Char) (it : YText) : YText :=
  (it.dropWhile delims.contains).takeWhile fun c => !delims.contains c

/-- `accept_current_and_read_untill`: what is read, and the rest. -/
def acceptCurrentAndReadUntil (delims : List Char) : YText → YText × YText
  | [] => ([], [])
  | [c] => ([], [c])
  | c :: d :: it =>
    let word := (d :: it).takeWhile fun c => !delims.contains c
    let rest := (d :: it).dropWhile fun c => !delims.contains c
    (c :: word ++ rest.take 1, rest.drop 1)

/-- `StrToInt`, which answers zero where `std::stoi` throws. -/
def strToInt (s : YText) : Int :=
  let cs := s.dropWhile [' ', '\t', '\n', '\x0b', '\x0c', '\r'].contains
  let digits := (if cs.head? = some '+' ∨ cs.head? = some '-' then cs.tail else cs).takeWhile Char.isDigit
  let n : Int := Nat.ofDigitChars 10 digits 0
  let x := if cs.head? = some '-' then -n else n
  if -2 ^ 31 ≤ x ∧ x < 2 ^ 31 then x else 0

/-- An `int` that is assigned to an `unsigned`. -/
def toUnsigned (x : Int) : Nat := (x % 2 ^ 32).toNat

def bitVecOpen : YText := "(_ BitVec ".toList

/-- The bit-vector type at the start of the text. -/
def bitVecWidth (it : YText) : Option (Nat × YText) := do
  let it ← accept bitVecOpen it
  let width := headWord [')'] it
  let it ← accept [')'] (skipM width it)
  return (toUnsigned (strToInt width), it)

end YText

namespace YType

open YText

/-- `|m_s|` to `m`. Lengths below four wrap, and then the name is what follows the bar. -/
def moduleOf (dtname : YText) : YName :=
  if dtname.length < 4 then dtname.drop 1 else (dtname.drop 1).take (dtname.length - 4)

/-- The array type at the start of the text. -/
def parseArray (it : YText) : Option (YType × YText) := do
  let it ← accept "(Array".toList it
  let (addr, it) ← bitVecWidth (skip it)
  let (data, it) ← bitVecWidth (skip it)
  let it ← accept [')'] (skip it)
  return (.array (some (addr, data)), it)

/-- `var_type::ParseFromString`: the type and the rest of the text. -/
def parseFromString (text : YText) : Option (YType × YText) :=
  let it := skip text
  if it.head? = some '(' then
    if headWord YText.blanks it = "(Array".toList then parseArray it else (bitVecWidth it).map fun r => (.bv r.1, r.2)
  else if it.head? = some '|' then
    let r := acceptCurrentAndReadUntil ['|'] it
    some (.datatype (moduleOf r.1), r.2)
  else (accept "Bool".toList it).map fun it => (.bool, it)

/-- A bit-vector type as text. -/
def bitVecText (w : Nat) : YText := bitVecOpen ++ Nat.toDigits 10 w ++ [')']

/-- `var_type::toString`. The widths of an array can be indeterminate. -/
def toText : YType → Option YText
  | .bool => some "Bool".toList
  | .bv w => some (bitVecText w)
  | .array (some (a, d)) => some ("(Array ".toList ++ bitVecText a ++ [' '] ++ bitVecText d ++ [')'])
  | .array none => none
  | .datatype m => some ('|' :: m ++ "_s|".toList)

/-- What a text must not have: widths that do not fit an `int`, and bars in a module name. -/
def Printable : YType → Prop
  | .bool => True
  | .bv w => w < 2 ^ 31
  | .array (some (a, d)) => a < 2 ^ 31 ∧ d < 2 ^ 31
  | .array none => True
  | .datatype m => '|' ∉ m

end YType

/-! ### Leaf paths -/

/-- The way to a leaf: the fields of the instances, and the register. -/
abbrev LeafPath := List YName × StateVar

/-- The leaves of a module, for the modules from the last to the first. -/
def leafPathsOf : Datatypes → YName → List LeafPath
  | [], _ => []
  | d :: earlier, m =>
    if d.1 = m then
      d.2.flatMap fun v =>
        match v.type with
        | .datatype n => (leafPathsOf earlier n).map fun q => (v.internalName :: q.1, q.2)
        | _ => [([], v)]
    else leafPathsOf earlier m

/-- The leaves of the datatype of a module, in order. -/
def leafPaths (dts : Datatypes) (m : YName) : List LeafPath := leafPathsOf dts.reverse m

/-- The instances of a path, joined by dots, in front of the register. -/
def pathName (q : LeafPath) : YName := q.1.foldr (fun field n => stNameAddPrefix n (instPrefix field)) q.2.internalName

/-- The flattened state lists are those of the leaves, each of them once, and the types are copied and read back as they are. -/
structure FaithfulLeaves (dts : Datatypes) : Prop where
  once : ∀ m, (leafPaths dts m).Nodup
  entries : ∀ m, List.Forall₂ (fun (v : StateVar) (q : LeafPath) => v.internalName = pathName q ∧ v.type = q.2.type)
    ((constructFlattenDatatype dts).vars m) (leafPaths dts m)
  names : ∀ m, ((constructFlattenDatatype dts).names m).Nodup
  copied : ∀ m, ∀ v ∈ dts.vars m, v.type.copy = v.type
  parsed : ∀ m, ∀ v ∈ dts.vars m, ∀ s, v.type.toText = some s →
    ∀ rest, YType.parseFromString (s ++ rest) = some (v.type, rest)

/-- No field is an array of known widths, no two paths of a module are joined to one name, and widths and names can be read
back. -/
structure PlainLeaves (dts : Datatypes) : Prop where
  noArrays : ∀ m, ∀ v ∈ dts.vars m, ∀ widths, v.type ≠ .array (some widths)
  names : ∀ m, ((leafPaths dts m).map pathName).Nodup
  printable : ∀ m, ∀ v ∈ dts.vars m, v.type.Printable

/-! ### Texts of types -/

namespace YText

theorem skip_cons {c : Char} (h : c ∉ blanks) (it : YText) : skip (c :: it) = c :: it := by
  rw [skip, List.dropWhile_cons_of_neg]
  exact fun hmem => h (List.contains_iff_mem.mp hmem)

theorem skipM_append {s : YText} {c : Char} (hhead : s.head? = some c) (h : c ∉ blanks) (rest : YText) :
    skipM s (s ++ rest) = rest := by
  cases s with
  | nil => cases hhead
  | cons d s =>
    have hd : d = c := Option.some.inj hhead
    have hskip : skip (d :: s ++ rest) = d :: s ++ rest := skip_cons (hd ▸ h) _
    rw [skipM, hskip, if_pos (List.isPrefixOf_iff_prefix.mpr (List.prefix_append _ _)), List.drop_left]

theorem accept_append {s : YText} {c : Char} (hhead : s.head? = some c) (h : c ∉ blanks) (rest : YText) :
    accept s (s ++ rest) = some rest := by
  rw [accept, if_pos (List.isPrefixOf_iff_prefix.mpr (List.prefix_append _ _)), skipM_append hhead h]

section Digits

variable (w : Nat)

theorem exists_digits : ∃ c cs, Nat.toDigits 10 w = c :: cs ∧ c.isDigit = true := by
  obtain ⟨c, cs, hcons⟩ := List.exists_cons_of_ne_nil (Nat.toDigits_ne_nil (b := 10) (n := w))
  refine ⟨c, cs, hcons, Nat.isDigit_of_mem_toDigits (b := 10) (n := w) (by decide) (by decide) ?_⟩
  rw [hcons]
  exact List.mem_cons_self

theorem notMem_of_isDigit {c : Char} {cs : List Char} (hc : c.isDigit = true) (h : (cs.all fun d => !d.isDigit) = true) :
    c ∉ cs := by
  intro hmem
  have hnot := List.all_eq_true.mp h c hmem
  rw [hc] at hnot
  cases hnot

theorem headWord_digits (rest : YText) : headWord [')'] (Nat.toDigits 10 w ++ ')' :: rest) = Nat.toDigits 10 w := by
  obtain ⟨c, cs, hcons, hc⟩ := exists_digits w
  have hall : ∀ d ∈ Nat.toDigits 10 w, d ∉ [')'] := fun d hd =>
    notMem_of_isDigit (Nat.isDigit_of_mem_toDigits (by decide) (by decide) hd) (by decide)
  have hfirst : ¬[')'].contains c = true := by
    rw [List.contains_iff_mem]
    exact hall c (hcons ▸ List.mem_cons_self)
  have hdrop : (Nat.toDigits 10 w ++ ')' :: rest).dropWhile [')'].contains = Nat.toDigits 10 w ++ ')' :: rest := by
    rw [hcons, List.cons_append, List.dropWhile_cons_of_neg hfirst]
  rw [headWord, hdrop, List.takeWhile_append_of_pos, List.takeWhile_cons_of_neg, List.append_nil]
  · simp
  · intro d hd
    simpa using hall d hd

theorem skipM_digits (rest : YText) : skipM (Nat.toDigits 10 w) (Nat.toDigits 10 w ++ rest) = rest := by
  obtain ⟨c, cs, hcons, hc⟩ := exists_digits w
  refine skipM_append ?_ (notMem_of_isDigit hc (by decide)) rest
  rw [hcons]
  rfl

theorem strToInt_digits : strToInt (Nat.toDigits 10 w) = if w < 2 ^ 31 then (w : Int) else 0 := by
  obtain ⟨c, cs, hcons, hc⟩ := exists_digits w
  have hblank : ¬[' ', '\t', '\n', '\x0b', '\x0c', '\r'].contains c = true := by
    rw [List.contains_iff_mem]
    exact notMem_of_isDigit hc (by decide)
  have hdrop : (Nat.toDigits 10 w).dropWhile [' ', '\t', '\n', '\x0b', '\x0c', '\r'].contains = Nat.toDigits 10 w := by
    rw [hcons, List.dropWhile_cons_of_neg hblank]
  have hhead : (Nat.toDigits 10 w).head? = some c := by
    rw [hcons]
    rfl
  have hnot : c ∉ ['+', '-'] := notMem_of_isDigit hc (by decide)
  have hsign : ∀ d ∈ ['+', '-'], some c ≠ some d := fun d hd heq => hnot (Option.some.inj heq ▸ hd)
  have hplus : ¬some c = some '+' := hsign '+' (by decide)
  have hminus : ¬some c = some '-' := hsign '-' (by decide)
  have htake : (Nat.toDigits 10 w).takeWhile Char.isDigit = Nat.toDigits 10 w :=
    List.takeWhile_eq_self_iff.mpr fun c hc => Nat.isDigit_of_mem_toDigits (by decide) (by decide) hc
  simp only [strToInt, hdrop, hhead, hplus, hminus, or_self, if_false, htake, Nat.ofDigitChars_ten_toDigits]
  by_cases hw : w < 2 ^ 31
  · rw [if_pos hw, if_pos (by omega)]
  · rw [if_neg hw, if_neg (by omega)]

theorem toUnsigned_digits : toUnsigned (strToInt (Nat.toDigits 10 w)) = if w < 2 ^ 31 then w else 0 := by
  rw [strToInt_digits]
  by_cases hw : w < 2 ^ 31
  · rw [if_pos hw, if_pos hw, toUnsigned]
    omega
  · rw [if_neg hw, if_neg hw]
    rfl

theorem bitVecWidth_text (rest : YText) :
    bitVecWidth (YType.bitVecText w ++ rest) = some (if w < 2 ^ 31 then w else 0, rest) := by
  have hopen : YType.bitVecText w ++ rest = bitVecOpen ++ (Nat.toDigits 10 w ++ ')' :: rest) := by
    rw [YType.bitVecText, List.append_assoc, List.append_assoc, List.singleton_append]
  rw [bitVecWidth, hopen, accept_append (c := '(') rfl (by decide)]
  simp only [Option.bind_eq_bind, Option.bind_some, headWord_digits, skipM_digits, toUnsigned_digits]
  rw [show ')' :: rest = [')'] ++ rest from rfl, accept_append (c := ')') rfl (by decide)]
  rfl

end Digits

end YText

namespace YType

open YText

theorem parse_bitVecText (w : Nat) (rest : YText) :
    parseFromString (bitVecText w ++ rest) = some (.bv (if w < 2 ^ 31 then w else 0), rest) := by
  have hskip : skip (bitVecText w ++ rest) = bitVecText w ++ rest := skip_cons (c := '(') (by decide) _
  have hword : headWord YText.blanks (bitVecText w ++ rest) = "(_".toList := rfl
  have hhead : (bitVecText w ++ rest).head? = some '(' := rfl
  have hne : "(_".toList ≠ "(Array".toList := by decide
  rw [parseFromString]
  simp only [hskip, hhead, hword, if_true, if_neg hne, bitVecWidth_text, Option.map_some]

theorem parse_arrayText (a d : Nat) (rest : YText) :
    parseFromString ("(Array ".toList ++ bitVecText a ++ [' '] ++ bitVecText d ++ [')'] ++ rest) =
      some (.array (some (if a < 2 ^ 31 then a else 0, if d < 2 ^ 31 then d else 0)), rest) := by
  have hblank : ∀ w it, skip (' ' :: (bitVecText w ++ it)) = bitVecText w ++ it := fun _ _ => rfl
  have hclose : skip (')' :: rest) = [')'] ++ rest := rfl
  have htext : "(Array ".toList ++ bitVecText a ++ [' '] ++ bitVecText d ++ [')'] ++ rest =
      "(Array".toList ++ (' ' :: (bitVecText a ++ (' ' :: (bitVecText d ++ (')' :: rest))))) := by
    simp [List.append_assoc]
  rw [htext]
  generalize htail : (' ' :: (bitVecText a ++ (' ' :: (bitVecText d ++ (')' :: rest))))) = tail
  have hskip : skip ("(Array".toList ++ tail) = "(Array".toList ++ tail := rfl
  have hhead : ("(Array".toList ++ tail).head? = some '(' := rfl
  have hword : headWord YText.blanks ("(Array".toList ++ tail) = "(Array".toList := by
    rw [← htail]
    rfl
  rw [parseFromString]
  simp only [hskip, hhead, hword, if_true]
  rw [parseArray, accept_append (s := "(Array".toList) (c := '(') rfl (by decide), ← htail]
  simp only [hblank, bitVecWidth_text, hclose, accept_append (s := [')']) (c := ')') rfl (by decide), Option.bind_eq_bind,
    Option.bind_some, Option.pure_def]

theorem read_until_bar {m : YName} (hm : '|' ∉ m) (rest : YText) :
    acceptCurrentAndReadUntil ['|'] ('|' :: m ++ '|' :: rest) = ('|' :: m ++ ['|'], rest) := by
  have hword : ∀ it, (m ++ '|' :: it).takeWhile (fun c => !(['|'].contains c)) = m := by
    intro it
    rw [List.takeWhile_append_of_pos, List.takeWhile_cons_of_neg (by simp), List.append_nil]
    intro c hc
    have hne : c ≠ '|' := fun heq => hm (heq ▸ hc)
    simpa using hne
  have hrest : ∀ it, (m ++ '|' :: it).dropWhile (fun c => !(['|'].contains c)) = '|' :: it := by
    intro it
    rw [List.dropWhile_append_of_pos, List.dropWhile_cons_of_neg (by simp)]
    intro c hc
    have hne : c ≠ '|' := fun heq => hm (heq ▸ hc)
    simpa using hne
  have hread : ∀ it : YText, it ≠ [] → acceptCurrentAndReadUntil ['|'] ('|' :: it) =
      ('|' :: it.takeWhile (fun c => !(['|'].contains c)) ++ (it.dropWhile fun c => !(['|'].contains c)).take 1,
        (it.dropWhile fun c => !(['|'].contains c)).drop 1) := by
    intro it hit
    cases it with
    | nil => exact absurd rfl hit
    | cons d it => rfl
  rw [List.cons_append, hread _ (by simp), hword, hrest]
  rfl

theorem parse_bar (it : YText) : parseFromString ('|' :: it) =
    some (.datatype (moduleOf (acceptCurrentAndReadUntil ['|'] ('|' :: it)).1),
      (acceptCurrentAndReadUntil ['|'] ('|' :: it)).2) := rfl

theorem parse_datatypeText {m : YName} (hm : '|' ∉ m) (rest : YText) :
    parseFromString ('|' :: m ++ "_s|".toList ++ rest) = some (.datatype m, rest) := by
  have hbar : '|' ∉ m ++ "_s".toList := by
    rw [List.mem_append, not_or]
    exact ⟨hm, by decide⟩
  have htext : '|' :: m ++ "_s|".toList ++ rest = '|' :: (m ++ "_s".toList) ++ '|' :: rest := by simp
  have hmodule : moduleOf ('|' :: (m ++ "_s".toList) ++ ['|']) = m := by
    have hlen : ('|' :: (m ++ "_s".toList) ++ ['|']).length = m.length + 4 := by simp
    rw [moduleOf, hlen, if_neg (by omega), Nat.add_sub_cancel]
    simp
  rw [htext, List.cons_append, parse_bar, ← List.cons_append, read_until_bar hbar, hmodule]

theorem parse_datatypeText_bar {m : YName} (hm : '|' ∈ m) (rest : YText) :
    parseFromString ('|' :: m ++ "_s|".toList ++ rest) ≠ some (.datatype m, rest) := by
  obtain ⟨p, q, rfl, hp⟩ := List.eq_append_cons_of_mem hm
  have htext : '|' :: (p ++ '|' :: q) ++ "_s|".toList ++ rest = '|' :: p ++ '|' :: (q ++ "_s|".toList ++ rest) := by simp
  rw [htext, List.cons_append, parse_bar, ← List.cons_append, read_until_bar hp]
  intro heq
  have hlen := congrArg List.length (Prod.mk.inj (Option.some.inj heq)).2
  rw [List.length_append, List.length_append] at hlen
  have hthree : "_s|".toList.length = 3 := rfl
  omega

theorem parse_toText_iff {t : YType} {s : YText} (hs : t.toText = some s) :
    (∀ rest, parseFromString (s ++ rest) = some (t, rest)) ↔ t.Printable := by
  have hwidth : ∀ w : Nat, (if w < 2 ^ 31 then w else 0) = w ↔ w < 2 ^ 31 := by
    intro w
    split <;> omega
  cases t with
  | bool =>
    cases hs
    exact iff_of_true (fun rest => rfl) trivial
  | bv w =>
    cases hs
    simp only [parse_bitVecText, Option.some.injEq, Prod.mk.injEq, YType.bv.injEq, and_true, hwidth, forall_const, Printable]
  | array widths =>
    rcases widths with _ | ⟨a, d⟩
    · cases hs
    · cases hs
      simp only [parse_arrayText, Option.some.injEq, Prod.mk.injEq, YType.array.injEq, and_true, hwidth, forall_const,
        Printable]
  | datatype m =>
    cases hs
    rw [Printable]
    constructor
    · intro h hm
      exact parse_datatypeText_bar hm [] (h [])
    · exact fun hm rest => parse_datatypeText hm rest

end YType

/-! ### The flattened list -/

/-- The entry of a leaf in the flattened list. -/
def leafEntry (q : LeafPath) : StateVar := ⟨pathName q, q.2.type.copy⟩

theorem leafEntry_sub (field : YName) (q : LeafPath) : leafEntry (field :: q.1, q.2) =
    ⟨stNameAddPrefix (leafEntry q).internalName (instPrefix field), (leafEntry q).type.copy⟩ := by
  rw [leafEntry, leafEntry, YType.copy_copy]
  rfl

/-- The leaves of a field. -/
def fieldPaths (paths : YName → List LeafPath) (v : StateVar) : List LeafPath :=
  match v.type with
  | .datatype n => (paths n).map fun q => (v.internalName :: q.1, q.2)
  | _ => [([], v)]

theorem fieldPaths_base {paths : YName → List LeafPath} {v : StateVar} (htype : ∀ n, v.type ≠ .datatype n) :
    fieldPaths paths v = [([], v)] := by
  unfold fieldPaths
  cases hv : v.type with
  | datatype n => exact absurd hv (htype n)
  | bool => rfl
  | bv w => rfl
  | array widths => rfl

theorem fieldPaths_datatype {paths : YName → List LeafPath} {v : StateVar} {n : YName} (htype : v.type = .datatype n) :
    fieldPaths paths v = (paths n).map fun q => (v.internalName :: q.1, q.2) := by
  rw [fieldPaths, htype]

theorem mem_fieldPaths {paths : YName → List LeafPath} {v : StateVar} {q : LeafPath} (hq : q ∈ fieldPaths paths v) :
    q = ([], v) ∨ ∃ n, ∃ q' ∈ paths n, q = (v.internalName :: q'.1, q'.2) := by
  by_cases htype : ∃ n, v.type = .datatype n
  · obtain ⟨n, htype⟩ := htype
    rw [fieldPaths_datatype htype] at hq
    obtain ⟨q', hq', rfl⟩ := List.mem_map.mp hq
    exact .inr ⟨n, q', hq', rfl⟩
  · rw [fieldPaths_base fun n heq => htype ⟨n, heq⟩] at hq
    exact .inl (List.mem_singleton.mp hq)

theorem fieldPaths_name {paths : YName → List LeafPath} {v : StateVar} {q : LeafPath} (hq : q ∈ fieldPaths paths v) :
    q.1.headD q.2.internalName = v.internalName := by
  rcases mem_fieldPaths hq with rfl | ⟨n, q', -, rfl⟩
  · rfl
  · rfl

theorem leafPaths_concat (dts : Datatypes) (d : YName × List StateVar) (m : YName) : leafPaths (dts ++ [d]) m =
    if d.1 = m then d.2.flatMap (fieldPaths (leafPaths dts)) else leafPaths dts m := by
  rw [leafPaths, List.reverse_append, List.reverse_singleton, List.singleton_append, leafPathsOf]
  rfl

theorem flattenVar_eq {flat : Datatypes} {paths : YName → List LeafPath}
    (h : ∀ n, flat.vars n = (paths n).map leafEntry) (v : StateVar) :
    flattenVar flat v = (fieldPaths paths v).map leafEntry := by
  by_cases htype : ∃ n, v.type = .datatype n
  · obtain ⟨n, htype⟩ := htype
    rw [flattenVar_datatype htype, h, List.map_map, fieldPaths_datatype htype, List.map_map]
    refine List.map_congr_left fun q _ => ?_
    exact (leafEntry_sub v.internalName q).symm
  · have htype : ∀ n, v.type ≠ .datatype n := fun n heq => htype ⟨n, heq⟩
    rw [flattenVar_base htype, fieldPaths_base htype]
    rfl

theorem construct_vars_eq {dts : Datatypes} (hnodup : (dts.map Prod.fst).Nodup) (m : YName) :
    (constructFlattenDatatype dts).vars m = (leafPaths dts m).map leafEntry := by
  induction dts using List.reverseRecOn generalizing m with
  | nil => rfl
  | append_singleton dts d ih =>
    rw [List.map_append, List.map_singleton, List.nodup_append] at hnodup
    have hvars := ih hnodup.1
    rw [construct_concat, leafPaths_concat]
    by_cases hm : d.1 = m
    · have hout : m ∉ (constructFlattenDatatype dts).map Prod.fst := by
        rw [construct_names]
        exact fun hmem => hnodup.2.2 m hmem d.1 (List.mem_singleton_self _) hm.symm
      rw [if_pos hm, Datatypes.vars, Entries.lookup_append, Entries.lookup_eq_none_iff.mpr hout, Option.none_or,
        List.lookup_cons, hm, beq_self_eq_true, List.map_flatMap]
      exact List.flatMap_congr fun v _ => flattenVar_eq hvars v
    · have hother : Datatypes.vars (constructFlattenDatatype dts ++
          [(d.1, d.2.flatMap (flattenVar (constructFlattenDatatype dts)))]) m = (constructFlattenDatatype dts).vars m := by
        rw [Datatypes.vars, Datatypes.vars, Entries.lookup_append, List.lookup_cons,
          beq_false_of_ne (Ne.symm hm), List.lookup_nil, Option.or_none]
      rw [if_neg hm, hother, hvars]

theorem mem_vars_of_leafPaths {dts : Datatypes} (hnodup : (dts.map Prod.fst).Nodup) {m : YName} {q : LeafPath}
    (hq : q ∈ leafPaths dts m) : ∃ n, q.2 ∈ dts.vars n := by
  induction dts using List.reverseRecOn generalizing m q with
  | nil => cases hq
  | append_singleton dts d ih =>
    have hnames := hnodup
    rw [List.map_append, List.map_singleton, List.nodup_append] at hnames
    have hearlier : ∀ {m : YName} {q : LeafPath}, q ∈ leafPaths dts m → ∃ n, q.2 ∈ Datatypes.vars (dts ++ [d]) n := by
      intro m q hq
      obtain ⟨n, hn⟩ := ih hnames.1 hq
      refine ⟨n, ?_⟩
      have hin : n ∈ dts.map Prod.fst := by
        by_contra hout
        rw [Datatypes.vars, Entries.lookup_eq_none_iff.mpr hout] at hn
        cases hn
      rwa [vars_append hin]
    rw [leafPaths_concat] at hq
    by_cases hm : d.1 = m
    · rw [if_pos hm, List.mem_flatMap] at hq
      obtain ⟨v, hv, hqv⟩ := hq
      rcases mem_fieldPaths hqv with rfl | ⟨n, q', hq', rfl⟩
      · refine ⟨d.1, ?_⟩
        rw [Datatypes.vars, Entries.lookup_of_mem hnodup (List.mem_append_right _ (List.mem_singleton_self d))]
        exact hv
      · have hsub := hearlier hq'
        exact hsub
    · rw [if_neg hm] at hq
      exact hearlier hq

theorem leafPaths_nodup {dts : Datatypes} (hok : DesignOk dts) (m : YName) : (leafPaths dts m).Nodup := by
  have hall : ∀ pre post : Datatypes, dts = pre ++ post → ∀ m, (leafPaths pre m).Nodup := by
    intro pre
    induction pre using List.reverseRecOn with
    | nil => exact fun post _ m => List.nodup_nil
    | append_singleton pre d ih =>
      intro post hsplit m
      have hearlier := ih (d :: post) (by rw [hsplit, List.append_assoc, List.singleton_append])
      rw [leafPaths_concat]
      by_cases hm : d.1 = m
      · have hmem : (d.1, d.2) ∈ dts := by
          rw [hsplit]
          simp
        have hfields : (d.2.map StateVar.internalName).Nodup := by
          have hnames := hok.fields d.1
          rwa [Datatypes.names, Datatypes.vars, Entries.lookup_of_mem hok.nodup hmem] at hnames
        rw [if_pos hm, List.nodup_flatMap]
        refine ⟨fun v _ => ?_, (List.pairwise_map.mp hfields).imp fun {v w} hne q hqv hqw => ?_⟩
        · by_cases htype : ∃ n, v.type = .datatype n
          · obtain ⟨n, htype⟩ := htype
            rw [fieldPaths_datatype htype]
            refine (hearlier n).map fun q q' heq => ?_
            obtain ⟨hpath, hleaf⟩ := Prod.mk.inj heq
            exact Prod.ext (List.cons.inj hpath).2 hleaf
          · rw [fieldPaths_base fun n heq => htype ⟨n, heq⟩]
            exact List.nodup_singleton _
        · exact hne ((fieldPaths_name hqv).symm.trans (fieldPaths_name hqw))
      · rw [if_neg hm]
        exact hearlier m
  exact hall dts [] (List.append_nil dts).symm m

theorem YType.copy_eq_iff {t : YType} : t.copy = t ↔ ∀ widths, t ≠ .array (some widths) := by
  cases t with
  | array widths => cases widths <;> simp [copy]
  | bool => simp [copy]
  | bv w => simp [copy]
  | datatype m => simp [copy]

/-- The flattened lists of a design are faithful exactly when it has no arrays, its paths stay apart as names, and its types can
be printed. -/
theorem faithfulLeaves_iff {dts : Datatypes} (hok : DesignOk dts) : FaithfulLeaves dts ↔ PlainLeaves dts := by
  have hnames : ∀ m, (constructFlattenDatatype dts).names m = (leafPaths dts m).map pathName := by
    intro m
    rw [Datatypes.names, construct_vars_eq hok.nodup, List.map_map]
    rfl
  constructor
  · intro h
    refine ⟨fun m v hv => YType.copy_eq_iff.mp (h.copied m v hv), fun m => hnames m ▸ h.names m, fun m v hv => ?_⟩
    cases htext : v.type.toText with
    | some s => exact (YType.parse_toText_iff htext).mp (h.parsed m v hv s htext)
    | none =>
      cases htype : v.type with
      | array widths => cases widths with
        | none => trivial
        | some widths => exact absurd htype (YType.copy_eq_iff.mp (h.copied m v hv) widths)
      | bool => trivial
      | bv w =>
        rw [htype] at htext
        cases htext
      | datatype n =>
        rw [htype] at htext
        cases htext
  · intro h
    refine ⟨leafPaths_nodup hok, fun m => ?_, fun m => hnames m ▸ h.names m, fun m v hv => YType.copy_eq_iff.mpr (h.noArrays m v hv),
      fun m v hv s htext => (YType.parse_toText_iff htext).mpr (h.printable m v hv)⟩
    rw [construct_vars_eq hok.nodup, List.forall₂_map_left_iff, List.forall₂_same]
    intro q hq
    obtain ⟨n, hn⟩ := mem_vars_of_leafPaths hok.nodup hq
    exact ⟨rfl, YType.copy_eq_iff.mpr (h.noArrays n q.2 hn)⟩

section Designs

theorem core_types : ∀ m, ∀ v ∈ (coreDatatypes topName).vars m, v.type = .bool ∨ v.type = .datatype coreName :=
  coreDatatypes_forall (P := fun vars => ∀ v ∈ vars, v.type = .bool ∨ v.type = .datatype coreName) (by simp) (by decide)
    (by decide)

theorem core_paths (m : YName) : ((leafPaths (coreDatatypes topName) m).map pathName).Nodup := by
  have hpaths : leafPaths (coreDatatypes topName) m = if topName = m then leafPaths (coreDatatypes topName) topName
      else if coreName = m then leafPaths (coreDatatypes topName) coreName else [] := by
    by_cases htop : topName = m
    · rw [if_pos htop, htop]
    · by_cases hcore : coreName = m
      · rw [if_neg htop, if_pos hcore, hcore]
      · rw [if_neg htop, if_neg hcore]
        change (if topName = m then _ else if coreName = m then _ else []) = _
        rw [if_neg htop, if_neg hcore]
  rw [hpaths]
  split
  · decide
  · split
    · decide
    · exact List.nodup_nil

theorem coreLeaves_faithful : FaithfulLeaves (coreDatatypes topName) := by
  refine (faithfulLeaves_iff (coreDesign (.inl rfl)).ok).mpr ⟨fun m v hv widths heq => ?_, core_paths, fun m v hv => ?_⟩
  · rcases core_types m v hv with h | h
    · rw [h] at heq
      cases heq
    · rw [h] at heq
      cases heq
  · rcases core_types m v hv with h | h
    · rw [h]
      trivial
    · rw [h]
      change '|' ∉ coreName
      decide

/-- A module with a memory of 16 words of 8 bits. -/
def memDatatypes : Datatypes := [("m".toList, [⟨"|m#0|".toList, .array (some (4, 8))⟩])]

/-- The widths of the memory are not copied. -/
theorem memLeaves_not_faithful : ¬ FaithfulLeaves memDatatypes := by
  intro h
  have hcopy := h.copied "m".toList ⟨"|m#0|".toList, .array (some (4, 8))⟩ List.mem_cons_self
  cases hcopy

end Designs

end Ilang
