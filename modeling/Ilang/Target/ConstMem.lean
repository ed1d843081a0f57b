import Ilang.Target.Ilator
import Ilang.Util.Name
import Ilang.Util.OrdMap

/-!
# Memory constants

`MemVal` is a map from addresses to data with a default for all other addresses. The solver, the JSON file and the two simulator
generators each have an encoding of it. In the solver and in the file the default is part of the encoding; what the simulators
are given is the map alone, and reads zero elsewhere. They write its integers as decimal literals, which have a type below `2 ^ 63` only.
-/

namespace Ilang

open Smt

/-- `BvValType`. -/
abbrev BvVal := Fin UInt64.size

structure MemVal where
  default : BvVal
  valMap : OrdMap BvVal BvVal

namespace MemVal

/-- `MemVal` with the default only. -/
def new (x : BvVal) : MemVal := ⟨x, .empty⟩

/-- `get_data`. -/
def getData (m : MemVal) (addr : BvVal) : BvVal := (m.valMap.find? addr).getD m.default

/-- `set_data`. -/
def setData (m : MemVal) (addr data : BvVal) : MemVal := { m with valMap := m.valMap.emplace addr data }

/-- A sequence of `set_data`. -/
def setAll (m : MemVal) (calls : List (BvVal × BvVal)) : MemVal := calls.foldl (fun m p => m.setData p.1 p.2) m

/-- `MemConst`, as it stands in an expression. -/
def const (m : MemVal) (a d : Nat) : ConstVal := .mem m.default.val (m.valMap.entries.map fun p => (p.1.val, p.2.val)) a d

variable {m : MemVal} {x addr : BvVal} {calls : List (BvVal × BvVal)}

theorem default_setAll : (m.setAll calls).default = m.default := by
  induction calls generalizing m with
  | nil => rfl
  | cons p calls ih => exact ih

theorem find?_setAll : (m.setAll calls).valMap.find? addr = (m.valMap.find? addr).or (calls.lookup addr) := by
  rw [← OrdMap.find?_foldl_emplace]
  congr 1
  induction calls generalizing m with
  | nil => rfl
  | cons p calls ih => exact ih

theorem getData_setAll : ((new x).setAll calls).getData addr = (calls.lookup addr).getD x := by
  rw [getData, find?_setAll, default_setAll]
  rfl

end MemVal

/-! ### The JSON file -/

/-- The value of a memory constant in the file. -/
structure JsonMem where
  default : BvVal
  map : OrdMap String BvVal

def blanks : List Char := [' ', '\t', '\n', '\x0b', '\x0c', '\r']

/-- `StrToULongLong`: leading blanks, a sign, and digits. It answers zero where `std::stoull` throws. -/
def strToULongLong (s : String) : BvVal :=
  let cs := s.toList.dropWhile blanks.contains
  let digits := ((if cs.head? = some '+' ∨ cs.head? = some '-' then cs.tail else cs).takeWhile Char.isDigit)
  let n := Nat.ofDigitChars 10 digits 0
  if h : n < UInt64.size then (if cs.head? = some '-' then -⟨n, h⟩ else ⟨n, h⟩) else 0

/-- `I2JSer::SerConstVal` of a memory. -/
def serConstVal (m : MemVal) : JsonMem :=
  ⟨m.default, m.valMap.entries.foldl (fun j p => j.emplace (toString p.1.val) p.2) .empty⟩

/-- `J2IDes::DesExprConst` of a memory. -/
def desExprConst (j : JsonMem) : MemVal :=
  ⟨j.default, j.map.entries.foldl (fun m p => m.assign (strToULongLong p.1) p.2) .empty⟩

theorem strToULongLong_toString (x : BvVal) : strToULongLong (toString x.val) = x := by
  have hdigit {c : Char} (hc : c ∈ Nat.toDigits 10 x.val) : c.isDigit = true :=
    Nat.isDigit_of_mem_toDigits (by decide) (by decide) hc
  have htext : (toString x.val).toList = Nat.toDigits 10 x.val := by simp
  obtain ⟨c, cs, hcons⟩ := List.exists_cons_of_ne_nil (Nat.toDigits_ne_nil (b := 10) (n := x.val))
  have hc : c.isDigit = true := hdigit (by rw [hcons]; exact List.mem_cons_self)
  have hblanks : (blanks.all fun c => !c.isDigit) = true := by decide
  have hblank : ¬blanks.contains c = true := by
    intro hmem
    have hnot := List.all_eq_true.mp hblanks c (List.contains_iff_mem.mp hmem)
    rw [hc] at hnot
    cases hnot
  have hsign : ¬(some c = some '+' ∨ some c = some '-') := by
    rintro (h | h)
    · rw [Option.some.inj h] at hc
      cases hc
    · rw [Option.some.inj h] at hc
      cases hc
  have htake : (Nat.toDigits 10 x.val).takeWhile Char.isDigit = Nat.toDigits 10 x.val :=
    List.takeWhile_eq_self_iff.mpr fun c hc => hdigit hc
  have hdrop : (toString x.val).toList.dropWhile blanks.contains = Nat.toDigits 10 x.val := by
    rw [htext, hcons, List.dropWhile_cons_of_neg hblank]
  have hhead : (Nat.toDigits 10 x.val).head? = some c := by rw [hcons]; rfl
  simp only [strToULongLong, hdrop, hhead, if_neg hsign, htake, Nat.ofDigitChars_ten_toDigits, dif_pos x.isLt,
    if_neg fun h => hsign (.inr h)]

theorem mem_serConstVal {m : MemVal} {s : String} {y : BvVal} :
    (s, y) ∈ (serConstVal m).map.entries ↔ ∃ addr : BvVal, s = toString addr.val ∧ m.valMap.find? addr = some y := by
  have hfind : (serConstVal m).map.find? s = (m.valMap.entries.map fun p => (toString p.1.val, p.2)).lookup s := by
    change (m.valMap.entries.foldl (fun j p => j.emplace (toString p.1.val) p.2) OrdMap.empty).find? s = _
    rw [← List.foldl_map (f := fun p : BvVal × BvVal => (toString p.1.val, p.2)) (g := fun j p => OrdMap.emplace j p.1 p.2),
      OrdMap.find?_foldl_emplace]
    rfl
  rw [OrdMap.mem_entries, hfind]
  constructor
  · intro h
    obtain ⟨p, hp, heq⟩ := List.mem_map.mp (Entries.mem_of_lookup h)
    obtain ⟨rfl, rfl⟩ := Prod.mk.inj heq
    exact ⟨p.1, rfl, OrdMap.mem_entries.mp hp⟩
  · rintro ⟨addr, rfl, h⟩
    have hinj : Function.Injective fun x : BvVal => toString x.val := fun x x' heq => by
      rw [← strToULongLong_toString x, ← strToULongLong_toString x']
      exact congrArg strToULongLong heq
    have hnodup : ((m.valMap.entries.map fun p => (toString p.1.val, p.2)).map Prod.fst).Nodup := by
      have hkeys := m.valMap.nodup_keys.map hinj
      rw [List.map_map] at hkeys ⊢
      exact hkeys
    have hmem : (addr, y) ∈ m.valMap.entries := OrdMap.mem_entries.mpr h
    exact Entries.lookup_of_mem hnodup (List.mem_map_of_mem (f := fun p : BvVal × BvVal => (toString p.1.val, p.2)) hmem)

theorem des_ser (m : MemVal) : desExprConst (serConstVal m) = m := by
  obtain ⟨x, valMap⟩ := m
  refine congrArg (MemVal.mk x) (OrdMap.ext_find? fun addr => Option.ext fun y => ?_)
  rw [← List.foldl_map (f := fun p : String × BvVal => (strToULongLong p.1, p.2)) (g := fun m p => OrdMap.assign m p.1 p.2),
    OrdMap.find?_foldl_assign, OrdMap.find?_empty, Option.or_none]
  have hread {y : BvVal} (h : (((serConstVal ⟨x, valMap⟩).map.entries.map fun p => (strToULongLong p.1, p.2)).reverse.lookup addr) =
      some y) : valMap.find? addr = some y := by
    obtain ⟨p, hp, heq⟩ := List.mem_map.mp (List.mem_reverse.mp (Entries.mem_of_lookup h))
    obtain ⟨addr', htext, hfind⟩ := mem_serConstVal.mp hp
    obtain ⟨haddr, rfl⟩ := Prod.mk.inj heq
    rw [htext, strToULongLong_toString] at haddr
    rw [← haddr]
    exact hfind
  refine ⟨hread, fun hfind => ?_⟩
  have hmem : (addr, y) ∈ ((serConstVal ⟨x, valMap⟩).map.entries.map fun p => (strToULongLong p.1, p.2)).reverse := by
    refine List.mem_reverse.mpr (List.mem_map.mpr ⟨(toString addr.val, y), mem_serConstVal.mpr ⟨addr, rfl, hfind⟩, ?_⟩)
    rw [strToULongLong_toString]
  obtain ⟨y', hlookup⟩ := Entries.exists_lookup (List.mem_map_of_mem (f := Prod.fst) hmem)
  have hy := hread hlookup
  rw [hfind] at hy
  rw [Option.some.inj hy]
  exact hlookup

/-! ### The simulators -/

namespace IlaSim

/-- `dfs_const_node` of a memory: an array, whose size is computed in 32 bits by a shift. A longer shift is undefined, and a datum without
a literal does not compile. -/
def constMem (m : MemVal) (a d : Nat) : Option (List (BitVec d)) :=
  if a < 32 ∧ ∀ p ∈ m.valMap.entries, p.1.val < 2 ^ a → p.2.val < 2 ^ 63 then
    some ((List.range (2 ^ a)).map fun i => BitVec.ofNat d ((m.valMap.find? (Fin.ofNat _ i)).getD 0).val)
  else none

end IlaSim

/-- The four encodings of a constant have the words of a function: as a solver term, as what is read back from the file, as what
the loads of `Ilator` read whatever was read before, and as the array of `IlaSim`. -/
structure Encodes (m : MemVal) (a d : Nat) (f : BitVec a → BitVec d) : Prop where
  z3 : ∀ M, (m.const a d).term.eval M = some (.mem a d f)
  json : ((desExprConst (serConstVal m)).const a d).value = .mem a d f
  ilator : ∀ id, ∃ u, Ilator.scConst id (m.const a d) = some u ∧
    ∀ ν reads i, Ilator.stmt ν .load [u.after reads, .big a i] = some (.big d (f i))
  ilaSim : ∃ words, IlaSim.constMem m a d = some words ∧ ∀ i : BitVec a, words[i.toNat]? = some (f i)

/-! ### The words of a constant -/

namespace MemVal

/-- The entry of an address of the sort. There are no entries beyond 64 bits. -/
def entryAt (m : MemVal) {a : Nat} (i : BitVec a) : Option BvVal :=
  if h : i.toNat < UInt64.size then m.valMap.find? ⟨i.toNat, h⟩ else none

/-- `get_data` as a memory of the sort. -/
def word (m : MemVal) {a : Nat} (d : Nat) (i : BitVec a) : BitVec d := BitVec.ofNat d ((m.entryAt i).getD m.default).val

/-- The addresses of the entries are addresses of the sort. -/
def Fits (m : MemVal) (a : Nat) : Prop := ∀ p ∈ m.valMap.entries, p.1.val < 2 ^ a

variable {m : MemVal} {a d : Nat} {i : BitVec a}

theorem entryAt_eq_some {y : BvVal} : m.entryAt i = some y ↔ ∃ p ∈ m.valMap.entries, p.1.val = i.toNat ∧ p.2 = y := by
  rw [entryAt]
  split
  · rename_i h
    constructor
    · exact fun hfind => ⟨(⟨i.toNat, h⟩, y), OrdMap.mem_entries.mpr hfind, rfl, rfl⟩
    · rintro ⟨p, hp, haddr, rfl⟩
      have hkey : p.1 = ⟨i.toNat, h⟩ := Fin.ext haddr
      rw [← hkey]
      exact OrdMap.mem_entries.mp hp
  · rename_i h
    refine iff_of_false (by simp) ?_
    rintro ⟨p, -, haddr, -⟩
    exact h (haddr ▸ p.1.isLt)

theorem entryAt_eq_none : m.entryAt i = none ↔ ∀ p ∈ m.valMap.entries, p.1.val ≠ i.toNat := by
  rw [Option.eq_none_iff_forall_not_mem]
  constructor
  · exact fun h p hp haddr => h p.2 (entryAt_eq_some.mpr ⟨p, hp, haddr, rfl⟩)
  · intro h y hy
    obtain ⟨p, hp, haddr, -⟩ := entryAt_eq_some.mp hy
    exact h p hp haddr

theorem ofNat_eq_iff (hfits : m.Fits a) {p : BvVal × BvVal} (hp : p ∈ m.valMap.entries) :
    i = BitVec.ofNat a p.1.val ↔ p.1.val = i.toNat := by
  rw [← BitVec.toNat_inj, BitVec.toNat_ofNat, Nat.mod_eq_of_lt (hfits p hp)]
  exact eq_comm

theorem foldl_store {l : List (Nat × Nat)} {f : BitVec a → BitVec d} {y : BitVec d}
    (hsame : ∀ p ∈ l, i = BitVec.ofNat a p.1 → BitVec.ofNat d p.2 = y) (h : f i = y ∨ ∃ p ∈ l, i = BitVec.ofNat a p.1) :
    l.foldl (fun f p i => if i = BitVec.ofNat a p.1 then BitVec.ofNat d p.2 else f i) f i = y := by
  induction l generalizing f with
  | nil => exact h.resolve_right (by simp)
  | cons p l ih =>
    refine ih (fun q hq => hsame q (List.mem_cons_of_mem p hq)) ?_
    by_cases hp : i = BitVec.ofNat a p.1
    · exact .inl ((if_pos hp).trans (hsame p List.mem_cons_self hp))
    · refine h.imp (fun hf => (if_neg hp).trans hf) ?_
      rintro ⟨q, hq, heq⟩
      exact ⟨q, (List.mem_cons.mp hq).resolve_left fun hqp => hp (hqp ▸ heq), heq⟩

theorem value_const (hfits : m.Fits a) : (m.const a d).value = .mem a d (m.word d) := by
  refine congrArg (Value.mem a d) (funext fun i => ?_)
  refine foldl_store ?_ ?_
  · rintro q hq heq
    obtain ⟨p, hp, rfl⟩ := List.mem_map.mp hq
    have hentry : m.entryAt i = some p.2 := entryAt_eq_some.mpr ⟨p, hp, (ofNat_eq_iff hfits hp).mp heq, rfl⟩
    rw [word, hentry]
    rfl
  · cases hentry : m.entryAt i with
    | none =>
      rw [word, hentry]
      exact .inl rfl
    | some y =>
      obtain ⟨p, hp, haddr, -⟩ := entryAt_eq_some.mp hentry
      exact .inr ⟨_, List.mem_map_of_mem hp, (ofNat_eq_iff hfits hp).mpr haddr⟩

theorem constEntries_const (hfits : m.Fits a) :
    Ilator.constEntries a d (m.valMap.entries.map fun p => (p.1.val, p.2.val)) i =
      (m.entryAt i).map fun y => BitVec.ofNat d y.val := by
  rw [Ilator.constEntries]
  cases hfind : (m.valMap.entries.map fun p => (p.1.val, p.2.val)).find? fun p => BitVec.ofNat a p.1 = i with
  | none =>
    have hnone : m.entryAt i = none := by
      refine entryAt_eq_none.mpr fun p hp haddr => ?_
      have hne := List.find?_eq_none.mp hfind _ (List.mem_map_of_mem hp)
      exact hne (decide_eq_true ((ofNat_eq_iff hfits hp).mpr haddr).symm)
    rw [hnone]
    rfl
  | some q =>
    have hq := List.find?_some hfind
    obtain ⟨p, hp, rfl⟩ := List.mem_map.mp (List.mem_of_find?_eq_some hfind)
    have heq : BitVec.ofNat a p.1.val = i := of_decide_eq_true hq
    rw [entryAt_eq_some.mpr ⟨p, hp, (ofNat_eq_iff hfits hp).mp heq.symm, rfl⟩]
    rfl

/-- What a simulator reads at an address: zero where there is no entry. -/
def simWord (m : MemVal) {a : Nat} (d : Nat) (i : BitVec a) : BitVec d := BitVec.ofNat d ((m.entryAt i).getD 0).val

theorem load_const (hfits : m.Fits a) (ν : Valuation) (id : Nat) (reads : List Ilator.Read) :
    Ilator.stmt ν .load [(Ilator.constLocal id (m.const a d)).after reads, .big a i] = some (.big d (m.simWord d i)) := by
  have hword : (Ilator.touched (.const id) reads
      (Ilator.constEntries a d (m.valMap.entries.map fun p => (p.1.val, p.2.val))) (i.setWidth a)).getD 0 = m.simWord d i := by
    rw [Ilator.getD_touched, BitVec.setWidth_eq, constEntries_const hfits, simWord]
    cases m.entryAt i with
    | none => rfl
    | some y => rfl
  rw [← hword]
  rfl

theorem hasLiterals_const : Ilator.HasLiterals (m.const a d) ↔ ∀ p ∈ m.valMap.entries, p.1.val < 2 ^ 63 ∧ p.2.val < 2 ^ 63 :=
  List.forall_mem_map

theorem constMem_const (ha : a < 32) (hsmall : ∀ p ∈ m.valMap.entries, p.2.val < 2 ^ 63) :
    ∃ words, IlaSim.constMem m a d = some words ∧ ∀ i : BitVec a, words[i.toNat]? = some (m.simWord d i) := by
  refine ⟨_, if_pos ⟨ha, fun p hp _ => hsmall p hp⟩, fun i => ?_⟩
  have hpow : 2 ^ a < 2 ^ 64 := Nat.pow_lt_pow_right (by decide) (by omega)
  have hlt : i.toNat < UInt64.size := i.isLt.trans hpow
  have hkey : (Fin.ofNat UInt64.size i.toNat : BvVal) = ⟨i.toNat, hlt⟩ := Fin.ext (Nat.mod_eq_of_lt hlt)
  rw [List.getElem?_map, List.getElem?_range i.isLt, Option.map_some, simWord, entryAt, dif_pos hlt, hkey]

end MemVal

/-! ### What was set last -/

section Last

/-- The last value set for an address, or the default. -/
def lastData (x : BvVal) (calls : List (BvVal × BvVal)) (addr : BvVal) : BvVal := (calls.reverse.lookup addr).getD x

/-- The last values as a memory of a sort. -/
def lastWord (x : BvVal) (calls : List (BvVal × BvVal)) {a : Nat} (d : Nat) (i : BitVec a) : BitVec d :=
  BitVec.ofNat d (if h : i.toNat < UInt64.size then lastData x calls ⟨i.toNat, h⟩ else x).val

/-- The first and the last value set for an address are the same and have a literal, the array of the simulator has a size, and an
address that the simulators read as zero is zero. -/
structure Faithful (x : BvVal) (calls : List (BvVal × BvVal)) (a d : Nat) : Prop where
  once : ∀ p ∈ calls, calls.lookup p.1 = calls.reverse.lookup p.1
  small : ∀ p ∈ calls, ∀ y, calls.lookup p.1 = some y → y.val < 2 ^ 63
  width : a < 32
  zero : 2 ^ d ∣ x.val ∨ ∀ n < 2 ^ a, ∃ p ∈ calls, p.1.val = n

variable {x : BvVal} {calls : List (BvVal × BvVal)} {a d : Nat}

theorem find?_setAll_new {addr : BvVal} : ((MemVal.new x).setAll calls).valMap.find? addr = calls.lookup addr := MemVal.find?_setAll

theorem default_setAll_new : ((MemVal.new x).setAll calls).default = x := MemVal.default_setAll

theorem mem_calls {p : BvVal × BvVal} (hp : p ∈ ((MemVal.new x).setAll calls).valMap.entries) : p ∈ calls := by
  rw [OrdMap.mem_entries, find?_setAll_new] at hp
  exact Entries.mem_of_lookup hp

theorem entryAt_setAll_eq_none {i : BitVec a} :
    ((MemVal.new x).setAll calls).entryAt i = none ↔ ∀ p ∈ calls, p.1.val ≠ i.toNat := by
  rw [MemVal.entryAt_eq_none]
  constructor
  · intro h p hp haddr
    obtain ⟨y, hy⟩ := Entries.exists_lookup (List.mem_map_of_mem (f := Prod.fst) hp)
    exact h (p.1, y) (OrdMap.mem_entries.mpr (find?_setAll_new.trans hy)) haddr
  · exact fun h p hp => h p (mem_calls hp)

theorem getData_last_iff : (∀ addr, ((MemVal.new x).setAll calls).getData addr = lastData x calls addr) ↔
    ∀ p ∈ calls, calls.lookup p.1 = calls.reverse.lookup p.1 := by
  constructor
  · intro h p hp
    obtain ⟨y, hy⟩ := Entries.exists_lookup (List.mem_map_of_mem (f := Prod.fst) hp)
    obtain ⟨y', hy'⟩ := Entries.exists_lookup (List.mem_map_of_mem (f := Prod.fst) (List.mem_reverse.mpr hp))
    have heq := h p.1
    rw [MemVal.getData_setAll, lastData, hy, hy'] at heq
    rw [hy, hy']
    exact congrArg some heq
  · intro h addr
    rw [MemVal.getData_setAll, lastData]
    by_cases hmem : addr ∈ calls.map Prod.fst
    · obtain ⟨p, hp, rfl⟩ := List.mem_map.mp hmem
      rw [h p hp]
    · have hmem' : addr ∉ calls.reverse.map Prod.fst := by rwa [List.map_reverse, List.mem_reverse]
      rw [Entries.lookup_eq_none_iff.mpr hmem, Entries.lookup_eq_none_iff.mpr hmem']

theorem word_eq_lastWord (h : ∀ addr, ((MemVal.new x).setAll calls).getData addr = lastData x calls addr) :
    (((MemVal.new x).setAll calls).word d : BitVec a → BitVec d) = lastWord x calls d := by
  funext i
  rw [MemVal.word, lastWord, MemVal.entryAt, default_setAll_new]
  split
  · rename_i hlt
    rw [← h ⟨i.toNat, hlt⟩, MemVal.getData, default_setAll_new]
  · rfl

theorem simWord_eq_word_iff : (∀ i : BitVec a, ((MemVal.new x).setAll calls).simWord d i = ((MemVal.new x).setAll calls).word d i) ↔
    2 ^ d ∣ x.val ∨ ∀ n < 2 ^ a, ∃ p ∈ calls, p.1.val = n := by
  have hzero : (BitVec.ofNat d 0 = BitVec.ofNat d x.val) ↔ 2 ^ d ∣ x.val := by
    rw [← BitVec.toNat_inj, BitVec.toNat_ofNat, BitVec.toNat_ofNat, Nat.zero_mod, Nat.dvd_iff_mod_eq_zero]
    exact eq_comm
  constructor
  · intro h
    by_contra hnot
    push Not at hnot
    obtain ⟨hdvd, n, hn, hunset⟩ := hnot
    have hentry : ((MemVal.new x).setAll calls).entryAt (BitVec.ofNat a n) = none := by
      rw [entryAt_setAll_eq_none, BitVec.toNat_ofNat, Nat.mod_eq_of_lt hn]
      exact hunset
    have hword := h (BitVec.ofNat a n)
    rw [MemVal.simWord, MemVal.word, hentry, default_setAll_new] at hword
    exact hdvd (hzero.mp hword)
  · intro h i
    rw [MemVal.simWord, MemVal.word, default_setAll_new]
    cases hentry : ((MemVal.new x).setAll calls).entryAt i with
    | some y => rfl
    | none =>
      rcases h with hdvd | hall
      · exact hzero.mpr hdvd
      · obtain ⟨p, hp, haddr⟩ := hall i.toNat i.isLt
        exact absurd haddr (entryAt_setAll_eq_none.mp hentry p hp)

/-- A memory constant made by calls of `set_data` has the last value that was set for every address, in itself and in all
encodings, under this condition and no other. -/
theorem encodes_last_iff (hfits : ∀ p ∈ calls, p.1.val < 2 ^ a) :
    ((∀ addr, ((MemVal.new x).setAll calls).getData addr = lastData x calls addr) ∧
      Encodes ((MemVal.new x).setAll calls) a d (lastWord x calls d)) ↔ Faithful x calls a d := by
  have hfits : ((MemVal.new x).setAll calls).Fits a := fun p hp => hfits p (mem_calls hp)
  constructor
  · rintro ⟨hlast, henc⟩
    obtain ⟨words, hwords, -⟩ := henc.ilaSim
    obtain ⟨u, hu, hload⟩ := henc.ilator 0
    obtain ⟨hlit, hlocal⟩ := Option.ite_none_right_eq_some.mp hu
    obtain rfl := Option.some.inj hlocal
    rw [MemVal.hasLiterals_const] at hlit
    refine ⟨getData_last_iff.mp hlast, fun p _ y hy => ?_, (Option.ite_none_right_eq_some.mp hwords).1.1,
      simWord_eq_word_iff.mp fun i => ?_⟩
    · exact (hlit (p.1, y) (OrdMap.mem_entries.mpr (find?_setAll_new.trans hy))).2
    · have hword := hload default [] i
      rw [MemVal.load_const hfits, ← word_eq_lastWord hlast] at hword
      injection hword with hword
      injection hword
  · intro hcond
    have hlast : ∀ addr, ((MemVal.new x).setAll calls).getData addr = lastData x calls addr := getData_last_iff.mpr hcond.once
    have hsim : ∀ i : BitVec a, ((MemVal.new x).setAll calls).simWord d i = ((MemVal.new x).setAll calls).word d i :=
      simWord_eq_word_iff.mpr hcond.zero
    have hsmall : ∀ p ∈ ((MemVal.new x).setAll calls).valMap.entries, p.2.val < 2 ^ 63 := fun p hp =>
      hcond.small p (mem_calls hp) p.2 (find?_setAll_new.symm.trans (OrdMap.mem_entries.mp hp))
    have hlit : Ilator.HasLiterals (((MemVal.new x).setAll calls).const a d) := by
      refine MemVal.hasLiterals_const.mpr fun p hp => ⟨(hfits p hp).trans ?_, hsmall p hp⟩
      have hwidth := hcond.width
      exact Nat.pow_lt_pow_right (by decide) (by omega)
    rw [← word_eq_lastWord hlast]
    refine ⟨hlast, fun M => ?_, ?_, fun id => ⟨_, if_pos hlit, fun ν reads i => ?_⟩, ?_⟩
    · rw [term_eval, MemVal.value_const hfits]
    · rw [des_ser, MemVal.value_const hfits]
    · rw [MemVal.load_const hfits, hsim]
    · obtain ⟨words, hwords, hword⟩ := MemVal.constMem_const (d := d) hcond.width hsmall
      exact ⟨words, hwords, fun i => by rw [hword, hsim]⟩

/-- Two words that are set, the rest is zero. -/
theorem encodes_last_twoWords :
    (∀ addr, ((MemVal.new 0).setAll [(1, 7), (0, 5)]).getData addr = lastData 0 [(1, 7), (0, 5)] addr) ∧
      Encodes ((MemVal.new 0).setAll [(1, 7), (0, 5)]) 8 8 (lastWord 0 [(1, 7), (0, 5)] 8) :=
  (encodes_last_iff (List.forall_mem_cons.mpr ⟨by decide, List.forall_mem_singleton.mpr (by decide)⟩)).mpr
    ⟨List.forall_mem_cons.mpr ⟨rfl, List.forall_mem_singleton.mpr rfl⟩,
      List.forall_mem_cons.mpr ⟨fun y hy => by cases hy; decide, List.forall_mem_singleton.mpr fun y hy => by cases hy; decide⟩,
      by decide, .inl (Nat.dvd_zero _)⟩

/-- The second value for an address is dropped. -/
theorem setData_drops_second : ((((MemVal.new 0).setData 0 1).setData 0 2).getData 0 = 1) ∧
    ¬((∀ addr, ((MemVal.new 0).setAll [(0, 1), (0, 2)]).getData addr = lastData 0 [(0, 1), (0, 2)] addr) ∧
      Encodes ((MemVal.new 0).setAll [(0, 1), (0, 2)]) 8 8 (lastWord 0 [(0, 1), (0, 2)] 8)) := by
  refine ⟨rfl, fun h => ?_⟩
  have hlast : ((MemVal.new 0).setAll [(0, 1), (0, 2)]).getData 0 = 2 := h.1 0
  exact absurd hlast (by decide +kernel)

end Last

end Ilang
