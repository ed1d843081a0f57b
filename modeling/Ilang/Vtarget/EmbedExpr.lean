import Ilang.Verilog.Operators

/-!
# Expressions of a refinement map in the wrapper

State maps, lists of conditions and maps, start conditions and function maps are pasted into assumptions of the wrapper, some with
parentheses around them and some without. A text is the list of its tokens, without the blanks between them.
-/

namespace Ilang.EmbedExpr

open Verilog Precedence

abbrev Text := List Char

def digits (n : Nat) : Text := Nat.toDigits 10 n

/-- `VLG_TRUE`. -/
def vlgTrue : Token := .atom "`true".toList

/-- Whether a letter is found in the text. -/
def find (c : Char) (ts : List Token) : Bool := ts.any fun t => t.text.contains c

def isEqu (ts : List Token) : Bool := find '=' ts

inductive StateSort
  | bits
  | mem (addrWidth entryNum : Nat)

/-- What the generator of a wrapper knows. `replName` is what `ReplExpr` makes of a name, with `force_vlg_sts` or without. -/
structure Wrapper where
  vlgModInstName : Text
  isJasperGold : Bool
  /-- `TryFindIlaVarName`. -/
  stateSort : Text → Option StateSort
  isExternal : Text → Bool
  replName : Bool → Text → Text
  decodeName : Text
  validName : Text

/-- A mapping is used where it is made, or assigned to a new wire. -/
inductive Mapping
  | direct (ts : List Token)
  | wire (ts : List Token)

def Mapping.text : Mapping → List Token
  | .direct ts => ts
  | .wire ts => ts

def newMappingId (n : Nat) : Text := "__m".toList ++ digits n ++ "__".toList

/-- What the caller gets, and the next number of a wire. -/
def Mapping.result (n : Nat) : Mapping → List Token × Nat
  | .direct ts => (ts, n)
  | .wire _ => ([.atom (newMappingId n)], n + 1)

def soName (name : Text) : Text := "__ILA_SO_".toList ++ name

/-- Whether a token can follow a module name and a dot. -/
def isNameStart (a : Text) : Bool := a.head?.any fun c => c.isAlpha || c == '_' || c == '\\'

/-- The module name is put before the text, and belongs to its first token if that is a name. -/
def addModuleName (inst : Text) : List Token → List Token
  | .atom a :: ts =>
    if isNameStart a then .atom (inst ++ '.' :: a) :: ts else .atom (inst ++ ['.']) :: .atom a :: ts
  | ts => .atom (inst ++ ['.']) :: ts

/-- `[idx]` behind a text. A constant index belongs to the name before it. -/
def addIndex (idx : Nat) (ts : List Token) : List Token :=
  match ts.getLast? with
  | some (.atom a) => ts.dropLast ++ [.atom (a ++ '[' :: digits idx ++ [']'])]
  | _ => ts ++ [.opn .square, .atom (digits idx), .cls .square]

/-- An element of a JSON array: a string, or a pair of a condition and a map. -/
inductive Item
  | str (ts : List Token)
  | pair (cond vmap : Option (List Token))

/-- The mapping of a pair, with the negations of the conditions before it. -/
def pairMapping (prevNeg cond vmap : List Token) : List Token :=
  sym .not :: lparen :: prevNeg ++ lparen :: cond ++ rparen :: rparen :: sym .lor :: lparen :: vmap ++ [rparen]

def negation (cond : List Token) : List Token := sym .not :: lparen :: cond ++ [rparen, sym .land]

namespace Wrapper

variable (W : Wrapper)

def replExpr (forceVlgSts : Bool) (ts : List Token) : List Token := ts.map (Tok.map (W.replName forceVlgSts))

def wordMapping (name : Text) (ts : List Token) (idx : Nat) : List Token :=
  lparen :: .atom (soName name ++ '_' :: digits idx) :: sym .eq :: W.replExpr true (addIndex idx ts) ++ [rparen]

/-- `addr_range`, the bound of the loop over the words: the power is converted to an `int`, and from 31 address bits on it is out of
range and becomes the least one. -/
def addrRange (addrWidth entryNum : Nat) : Int :=
  if entryNum = 0 then if addrWidth < 31 then 2 ^ addrWidth else -2 ^ 31 else entryNum

/-- A memory is compared word by word. -/
def expandMemory (name : Text) (ts : List Token) (range : Nat) : List Token :=
  (List.range range).foldl
    (fun mapExpr idx => (if mapExpr.isEmpty then mapExpr else mapExpr ++ [sym .land]) ++ W.wordMapping name ts idx) []

def perStateMap (name : Text) (ts : List Token) : Mapping :=
  if ts.isEmpty then .direct [vlgTrue]
  else if isEqu ts then
    let newExpr := W.replExpr false ts
    if W.isJasperGold && find '[' newExpr then .direct newExpr else .wire newExpr
  else
    match W.stateSort name with
    | none => .direct [vlgTrue]
    | some (.mem addrWidth entryNum) =>
      if W.isExternal name then .direct [vlgTrue]
      else .wire (W.expandMemory name ts (addrRange addrWidth entryNum).toNat)
    | some .bits =>
      let stateName := if !find '.' ts && !find '#' ts then addModuleName W.vlgModInstName ts else ts
      let map := W.replExpr true stateName ++ [sym .eq, .atom (soName name)]
      if W.isJasperGold && find '[' stateName then .direct map else .wire map

def condText (cond : Option (List Token)) : List Token := cond.elim [vlgTrue] (W.replExpr false)

def vmapResult (name : Text) (n : Nat) (vmap : Option (List Token)) : List Token × Nat :=
  vmap.elim ([vlgTrue], n) fun ts => (W.perStateMap name ts).result n

/-- The loop over the items. -/
def allMappings (name : Text) : List Token → Nat → List Item → List (List Token)
  | _, _, [] => []
  | prevNeg, n, .str ts :: items => W.replExpr false ts :: allMappings name prevNeg n items
  | prevNeg, n, .pair cond vmap :: items =>
    let c := W.condText cond
    let (m, n') := W.vmapResult name n vmap
    pairMapping prevNeg c m :: allMappings name (prevNeg ++ negation c) n' items

/-- `GetStateVarMapExpr` of an array. -/
def getStateVarMapExpr (name : Text) (n : Nat) (items : List Item) : List Token :=
  let mappings := W.allMappings name [] n items
  if mappings.isEmpty then [vlgTrue]
  else lparen :: [rparen, sym .land, lparen].intercalate mappings ++ [rparen]

def placeholder (a : Text) : Text :=
  if a = "$decode$".toList then W.decodeName else if a = "$valid$".toList then W.validName else a

/-- `handle_start_condition` of one condition. -/
def startCondition (cond : List Token) : List Token :=
  lparen :: sym .not :: .atom "__START__".toList :: rparen :: sym .lor :: W.replExpr false (cond.map (Tok.map W.placeholder))

def funcReg (func : Text) (idx : Nat) : Text := func ++ '_' :: digits idx ++ "_result_reg".toList

def funcArg (func : Text) (idx argIdx : Nat) : Text := func ++ '_' :: digits idx ++ "_arg".toList ++ digits argIdx ++ "_reg".toList

/-- The conditions and maps of the arguments, from the argument `argIdx` on. -/
def prepArgs (func : Text) (idx : Nat) : Nat → List (List Token × List Token) → List Token
  | _, [] => []
  | argIdx, (cond, map) :: args =>
    sym .land :: lparen :: sym .not :: lparen :: W.replExpr false cond ++ rparen :: sym .lor :: lparen :: lparen ::
      .atom (funcArg func idx argIdx) :: rparen :: sym .eq :: lparen :: W.replExpr true map ++ rparen :: rparen :: rparen ::
      prepArgs func idx (argIdx + 1) args

/-- `ConstructWrapper_add_uf_constraints` of one application of a function. -/
def ufConstraint (func : Text) (idx : Nat) (val : List Token × List Token) (args : List (List Token × List Token)) :
    List Token :=
  let resMap := sym .not :: lparen :: W.replExpr false val.1 ++ rparen :: sym .lor :: lparen :: .atom (funcReg func idx) ::
    sym .eq :: W.replExpr true val.2 ++ [rparen]
  let prep := vlgTrue :: W.prepArgs func idx 0 args
  sym .not :: lparen :: prep ++ rparen :: sym .lor :: lparen :: resMap ++ [rparen]

end Wrapper

end Ilang.EmbedExpr
