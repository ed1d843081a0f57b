import Ilang.Util.Container
import Mathlib.Data.List.Lex
import Mathlib.Data.List.Sort
import Mathlib.Data.Char
import Mathlib.Data.Prod.Lex

/-!
# Invariants from ABC

ABC proves that no state satisfies one of a list of cubes. `AbcInvariantParser` reads the cubes, as lines of literal numbers, and
writes the Verilog expression that says so. A literal number is a register of the design through the latches of a BLIF file, or
through the map of an AIGER file, and in either case possibly through the map of an abstraction (GLA). A cube that has a literal
which is false for sure or which says something about a register that should not be mentioned is dropped.

The expression is a negated disjunction of conjunctions of literals, whose texts are kept as texts. The last thing done to it is
the replacement of a text, and since that text has no blank, sign or parenthesis in it, the replacement acts on the texts of the
literals.
-/

namespace Ilang

abbrev VText := List Char

namespace Abc

/-! ### Texts -/

def digits (n : Nat) : VText := Nat.toDigits 10 n

/-- `name[bit:bit]`. -/
def rangeRef (name : VText) (bit : Nat) : VText := name ++ '[' :: (digits bit ++ ':' :: (digits bit ++ [']']))

/-- `name[bit]`. -/
def bitRef (name : VText) (bit : Nat) : VText := name ++ '[' :: (digits bit ++ [']'])

def allAssumedReg : VText := "__all_assumed_reg__[0:0]".toList

def committedInst : VText := "committed_inst".toList

def zeroText : VText := "1'b0".toList

def oneText : VText := "1'b1".toList

/-- What is before and after the last occurrence of a character, which `rfind` looks for. -/
def splitLast (c : Char) (s : VText) : Option (VText × VText) :=
  if c ∈ s then some ((s.reverse.dropWhile (· ≠ c)).tail.reverse, (s.reverse.takeWhile (· ≠ c)).reverse) else none

/-- `handle_range_ref`: whatever is in the last brackets is taken for a bit selection, and what is behind them is left out. -/
def handleRangeRef (name : VText) : Option VText :=
  match splitLast '[' name with
  | none => some name
  | some (pre, post) =>
    let idx :=
      match splitLast ']' post with
      | some (idx, _) => some idx
      | none => if ']' ∈ pre then none else some post
    match idx with
    | some idx => if ':' ∈ idx then none else some (pre ++ '[' :: (idx ++ ':' :: (idx ++ [']'])))
    | none => none

def replaceAllAux (a b : VText) : Nat → VText → VText
  | 0, s => s
  | _ + 1, [] => []
  | fuel + 1, c :: s =>
    if a.isPrefixOf (c :: s) then b ++ replaceAllAux a b fuel ((c :: s).drop a.length)
    else c :: replaceAllAux a b fuel s

/-- `ReplaceAll`. -/
def replaceAll (s a b : VText) : VText := replaceAllAux a b s.length s

/-! ### The files -/

/-- A line `latch no bit name` or `invlatch no bit name` of an AIGER map. -/
structure MapLine where
  inv : Bool
  latch : Nat
  bit : Nat
  name : VText
  deriving DecidableEq, Repr

/-- The name and the initial value in a `.latch` line of a BLIF file. -/
structure BlifLatch where
  name : VText
  init : Nat
  deriving DecidableEq, Repr

/-- The map of an abstraction, with the old and the new number of each flop. -/
structure GlaMap where
  piCount : UInt32
  good : UInt32
  flops : List (UInt32 × UInt32)

/-- `aig_state_order` and `invlatches`. -/
structure AigerMap where
  order : List (VText × Nat)
  inv : List Nat
  deriving DecidableEq, Repr

def readMapLine (blif : List BlifLatch) (m : AigerMap) (l : MapLine) : Option AigerMap :=
  let inv := if l.inv then l.latch :: m.inv else m.inv
  if m.order.length = l.latch ∨ m.order.length = l.latch + 1 then
    if bitRef l.name l.bit ∈ blif.map BlifLatch.name ∨ (l.name ∈ blif.map BlifLatch.name ∧ l.bit = 0) then
      if m.order.length = l.latch then some ⟨m.order ++ [(l.name, l.bit)], inv⟩ else none
    else some ⟨m.order, inv⟩
  else none

def readAigerMap (blif : List BlifLatch) (lines : List MapLine) : Option AigerMap :=
  lines.foldlM (readMapLine blif) ⟨[], []⟩

def readGlaFlops (piCount : UInt32) (ok : Nat → Bool) : UInt32 → List (UInt32 × UInt32) → Option (List Nat)
  | _, [] => some []
  | last, (old, new) :: flops =>
    if last < new then
      let id := (old - piCount - 1).toNat
      if ok id then (readGlaFlops piCount ok new flops).map (id :: ·) else none
    else none

/-- `new_id_to_old_id`. -/
def readGla (g : GlaMap) (ok : Nat → Bool) : Option (List Nat) :=
  if g.good = 0 then none else readGlaFlops g.piCount ok 0 g.flops

/-! ### Literals -/

structure Options where
  dutName : VText
  replaceOutsideVarRef : Bool

def Options.inDut (o : Options) (name : VText) : Bool := (o.dutName ++ ['.']).isPrefixOf name

/-- `InvariantInCnf::literal`. -/
structure CnfLit where
  complement : Bool
  name : VText
  bit : Nat
  deriving DecidableEq, Repr

/-- What a literal adds to the cube: a sign and a text, whether the cube is dropped, and a literal of the clause. -/
structure LitOut where
  text : Option (Bool × VText)
  remove : Bool
  cnf : Option CnfLit
  deriving DecidableEq, Repr

/-- The register behind the last one of the map. -/
def extraLiteral (neg : Bool) : LitOut := ⟨some (neg, oneText), neg, none⟩

def aigerLiteral (o : Options) (name : VText) (bit : Nat) (neg : Bool) : LitOut :=
  let ref := rangeRef name bit
  if o.inDut ref then ⟨some (neg, ref), false, some ⟨neg, name, bit⟩⟩
  else if o.replaceOutsideVarRef then
    if ref = allAssumedReg then ⟨some (neg, zeroText), !neg, none⟩
    else if '.' ∈ ref then ⟨some (neg, ref), true, none⟩
    else ⟨none, true, none⟩
  else ⟨some (neg, ref), false, some ⟨neg, name, bit⟩⟩

def blifLiteral (o : Options) (name : VText) (neg : Bool) : Option LitOut :=
  if o.inDut name then (handleRangeRef name).map fun ref => ⟨some (neg, ref), false, none⟩
  else if o.replaceOutsideVarRef then
    if name = allAssumedReg then some ⟨some (neg, zeroText), !neg, none⟩
    else if committedInst.isPrefixOf name then some ⟨some (neg, oneText), neg, none⟩
    else if '.' ∈ name then (handleRangeRef name).map fun ref => ⟨some (neg, ref), true, none⟩
    else some ⟨none, true, none⟩
  else (handleRangeRef name).map fun ref => ⟨some (neg, ref), false, none⟩

def isNeg (flop : Nat) : Bool := flop % 2 == 1

/-- A literal number in `parseAigerResultWoGLA`. -/
def aigerFlop (o : Options) (m : AigerMap) (flop : Nat) : Option LitOut :=
  if flop / 2 = m.order.length then some (extraLiteral (isNeg flop))
  else (m.order[flop / 2]?).map fun s => aigerLiteral o s.1 s.2 (isNeg flop ^^ decide (flop / 2 ∈ m.inv))

/-- A literal number in `parseAigerResultWithGLA`, where the sign is changed before the extra register is looked for. -/
def aigerGlaFlop (o : Options) (m : AigerMap) (gla : List Nat) (flop : Nat) : Option LitOut :=
  (gla[flop / 2]?).bind fun flopno =>
    let neg := isNeg flop ^^ decide (flopno ∈ m.inv)
    if flopno = m.order.length then some (extraLiteral neg)
    else (m.order[flopno]?).map fun s => aigerLiteral o s.1 s.2 neg

/-- A literal number in `parse`. -/
def blifFlop (o : Options) (blif : List BlifLatch) (flop : Nat) : Option LitOut :=
  (blif[flop / 2]?).bind fun l => blifLiteral o l.name (isNeg flop ^^ decide (l.init ≠ 0))

/-- A literal number in `parse` with the map of an abstraction. -/
def blifGlaFlop (o : Options) (blif : List BlifLatch) (gla : List Nat) (flop : Nat) : Option LitOut :=
  (gla[flop / 2]?).bind fun flopno =>
    (blif[flopno]?).bind fun l => blifLiteral o l.name (isNeg flop ^^ decide (l.init ≠ 0))

/-! ### Cubes -/

structure Cube where
  lits : List (Bool × VText)
  remove : Bool
  clause : List CnfLit
  deriving DecidableEq, Repr

def Cube.add (c : Cube) (l : LitOut) : Cube :=
  ⟨c.lits ++ l.text.toList, c.remove || l.remove, c.clause ++ l.cnf.toList⟩

def readCube (decode : Nat → Option LitOut) (line : List Nat) : Option Cube :=
  line.foldlM (fun c flop => (decode flop).map c.add) ⟨[], false, []⟩

/-- The cubes of a result that are not dropped. -/
def readResult (decode : Nat → Option LitOut) (lines : List (List Nat)) : Option (List Cube) :=
  (lines.mapM (readCube decode)).map (List.filter fun c => !c.remove)

/-! ### `InvariantInCnf` -/

def CnfLit.key (l : CnfLit) : Bool ×ₗ VText ×ₗ Nat := toLex (l.complement, toLex (l.name, l.bit))

def lit2Str (l : CnfLit) : VText := (if l.complement then '~' else ' ') :: rangeRef l.name l.bit

def canonicalizeClause (c : List CnfLit) : List CnfLit := c.insertionSort fun l l' => l.key ≤ l'.key

def clause2Str (c : List CnfLit) : VText := c.flatMap fun l => ' ' :: lit2Str l

/-- `cnf_t`: clauses under their texts. -/
abbrev Cnf := List (VText × List CnfLit)

def insertClauseNewerFromReference (ref cnf : Cnf) (c : List CnfLit) : Cnf :=
  let c := canonicalizeClause c
  if clause2Str c ∈ ref.map Prod.fst then cnf
  else if clause2Str c ∈ cnf.map Prod.fst then cnf
  else cnf ++ [(clause2Str c, c)]

/-! ### The parser -/

/-- What the parser is run on. -/
structure Input where
  blif : List BlifLatch
  aiger : Option (List MapLine)
  gla : Option GlaMap
  lines : List (List Nat)

def parseAigerResultWoGLA (o : Options) (blif : List BlifLatch) (map : List MapLine) (lines : List (List Nat)) :
    Option (List Cube) := do
  let m ← readAigerMap blif map
  readResult (aigerFlop o m) lines

def parseAigerResultWithGLA (o : Options) (blif : List BlifLatch) (map : List MapLine) (g : GlaMap)
    (lines : List (List Nat)) : Option (List Cube) := do
  let m ← readAigerMap blif map
  let gla ← readGla g fun id => decide (id ≤ m.order.length)
  readResult (aigerGlaFlop o m gla) lines

def parseWoGLA (o : Options) (blif : List BlifLatch) (lines : List (List Nat)) : Option (List Cube) :=
  readResult (blifFlop o blif) lines

def parseWithGLA (o : Options) (blif : List BlifLatch) (g : GlaMap) (lines : List (List Nat)) : Option (List Cube) := do
  let gla ← readGla g fun id => decide (id < blif.length)
  readResult (blifGlaFlop o blif gla) lines

/-- The constructor of the parser, up to the cubes that are not dropped. -/
def parse (o : Options) (i : Input) : Option (List Cube) :=
  match i.aiger, i.gla with
  | some map, none => parseAigerResultWoGLA o i.blif map i.lines
  | some map, some g => parseAigerResultWithGLA o i.blif map g i.lines
  | none, none => parseWoGLA o i.blif i.lines
  | none, some g => parseWithGLA o i.blif g i.lines

/-- The last replacement, on the literals of a cube. -/
def replaced (lits : List (Bool × VText)) : List (Bool × VText) :=
  lits.map fun l => (l.1, replaceAll l.2 allAssumedReg zeroText)

/-- The literals of the expression `~((.. & ..) | ..)`. There is no expression if all cubes are dropped. -/
def parseResult (cubes : List Cube) : Option (List (List (Bool × VText))) :=
  if cubes.isEmpty then none else some (cubes.map fun c => replaced c.lits)

/-- The clauses, in AIGER mode. -/
def parseCnf (i : Input) (ref cnf : Cnf) (cubes : List Cube) : Cnf :=
  if i.aiger.isSome then cubes.foldl (fun cnf c => insertClauseNewerFromReference ref cnf c.clause) cnf else cnf

end Abc

end Ilang
