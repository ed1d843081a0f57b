import Ilang.SmtInout.YosysLeaves
import Ilang.Util.Brackets
import Ilang.Util.IStream
import Ilang.Vtarget.AbcParse

/-!
# The reader of Yosys files

`smt_ast` reads a file with a cursor: comments, datatypes and functions, as they come. The body of a function is the text up to where
its parentheses are closed, and a comment behind an item is looked for on the rest of the line.
-/

namespace Ilang

/-! ### The cursor -/

namespace YText

/-- `jump_to_next`. Behind the text the cursor is lost, and what comes next fails. -/
def jumpToNext (c : Char) (it : YText) : Option YText :=
  match it.dropWhile fun d => d ≠ c with
  | [] => none
  | it => some it

def expect (s it : YText) : Option Unit := if s.isPrefixOf it then some () else none

def isEol (c : Char) : Bool := c = '\n' || c = '\r'

/-- `readline_no_eol`. -/
def readlineNoEol (it : YText) : YText × YText :=
  (it.takeWhile fun c => !isEol c, (it.dropWhile fun c => !isEol c).dropWhile isEol)

/-- The distance to the next symbol, or to the end of the text. -/
def next (c : Char) (it : YText) : Nat := it.findIdx fun d => d = c

/-- There is a line break, and it comes before a semicolon. -/
def noComment (it : YText) : Bool := min (next '\n' it) (next '\r' it) < next ';' it

/-- The delimiters of an atom. -/
def atomEnds : List Char := [')', ' ', '\n', '\t', '\r']

/-- `extract_untill_stack_empty` of parentheses. -/
def extract (it : YText) : Option (YText × YText) :=
  let it := skip it
  if it = [] then none
  else if it.head? = some '(' then Brackets.read '(' ')' 0 it
  else if it.head? = some '|' then none
  else some (headWord atomEnds it, skipM (headWord atomEnds it) it)

/-- `find`. -/
def find (s it : YText) : Option Nat := it.tails.findIdx? fun t => s.isPrefixOf t

end YText

open YText

/-! ### Datatypes -/

/-- `state_var_t`. -/
structure YMember where
  internalName : YText
  moduleName : YText
  verilogName : YText
  type : YType
  deriving DecidableEq, Repr

namespace YMember

/-- The module in a name, up to where its number or `_is` begins. -/
def moduleOf (rawName : YText) : Option YText :=
  (match find "#".toList rawName, find "_is|".toList rawName with
    | some i, some j => some (min i j)
    | some i, none => some i
    | none, j => j).map fun pos => if pos = 0 then rawName.drop 1 else (rawName.drop 1).take (pos - 1)

/-- The module of a member. That of an instance is not in its name. -/
def moduleFor (defaultModuleName rawName : YText) : YType → Option YText
  | .datatype _ => some defaultModuleName
  | _ => moduleOf rawName

/-- The Verilog name in a comment, from the semicolon on. -/
def readComment (it : YText) : Option (YText × YText) :=
  let w := headWord ['\n', '\r'] it
  if "; $".toList.isPrefixOf w then (accept "; $".toList it).map readlineNoEol
  else if "; \x7b".toList.isPrefixOf w then (accept "; ".toList it).map fun it =>
    let r := readlineNoEol it
    (Abc.replaceAll (Abc.replaceAll r.1 "\x7b \\".toList "\x7b".toList) " \\".toList ",".toList, r.2)
  else if "; \\".toList.isPrefixOf w then (accept "; \\".toList it).map readlineNoEol
  else none

/-- The comment on the rest of the line, if there is one. -/
def readVerilogName (it : YText) : Option (YText × YText) :=
  if noComment it then some ([], it) else (jumpToNext ';' it).bind readComment

/-- `state_var_t::ParseFromString`. -/
def parseFromString (it : YText) (defaultModuleName : YText) : Option (YMember × YText) := do
  let it ← accept ['('] (skip it)
  let it := skip it
  let (rawName, it) ←
    if it.head? = some '|' then some (acceptCurrentAndReadUntil ['|'] it)
    else (accept (headWord YText.blanks it) it).map fun rest => (headWord YText.blanks it, rest)
  let (type, it) ← YType.parseFromString it
  let it ← accept [')'] (skip it)
  let moduleName ← moduleFor defaultModuleName rawName type
  let (verilogName, it) ← readVerilogName it
  return (⟨rawName, moduleName, verilogName, type⟩, it)

/-- The loop over the members, each of which is copied into the list. -/
def parseAll (moduleName : YText) : Nat → YText → Option (List YMember × YText)
  | 0, _ => none
  | fuel + 1, it =>
    if it = [] then none
    else if it.head? = some '(' then do
      let (v, it) ← parseFromString it moduleName
      let (l, it) ← parseAll moduleName fuel (skip it)
      return ({ v with type := v.type.copy } :: l, it)
    else some ([], it)

end YMember

/-- `ParseFromString` of a datatype: its name, its members, and the rest. -/
def parseDatatype (it : YText) : Option (YText × List YMember × YText) := do
  let it ← accept "(declare-datatype ".toList (skip it)
  let (modName, it) :=
    if it.head? = some '|' then acceptCurrentAndReadUntil ['|'] it else (headWord YText.blanks it, skipM (headWord YText.blanks it) it)
  let moduleName := YType.moduleOf modName
  let prefixName := if modName.length < 2 then modName else modName.take (modName.length - 2)
  let it ← accept ("((".toList ++ prefixName ++ "mk|".toList) (skip it)
  let it := skip it
  let (l, it) ← YMember.parseAll moduleName (it.length + 1) it
  let it ← accept ")))".toList it
  return (moduleName, l, it)

/-! ### Functions -/

/-- `func_def_t`, before its arguments are converted. -/
structure FuncDef where
  funcName : YText
  funcModule : YText
  argsText : YText
  retType : YType
  funcBody : YText
  extraComment : YText
  deriving DecidableEq, Repr

namespace FuncDef

/-- The module of a function: what is in front of the number, or `_n` and the like. Lengths below two wrap. -/
def moduleOf (funcName : YText) : YText :=
  let name := funcName.drop 1
  if '#' ∈ name then name.takeWhile fun c => c ≠ '#'
  else
    let stem := name.takeWhile fun c => c ≠ '|' ∧ c ≠ ' '
    if stem = name ∨ stem.length < 2 then name else stem.take (stem.length - 2)

/-- The comment on the rest of the line, which is looked for in what follows. -/
def readComment (it : YText) : Option (YText × YText) :=
  if noComment it then some ([], it) else ((jumpToNext ';' it).bind (accept [';'])).map readlineNoEol

def parseFromString (it : YText) : Option (FuncDef × YText) := do
  let it ← accept "(define-fun ".toList (skip it)
  let it := skip it
  expect ['|'] it
  let (funcName, it) := acceptCurrentAndReadUntil ['|'] it
  let it := skip it
  expect "((state ".toList it
  let (argsText, it) ← extract it
  let (retType, it) ← YType.parseFromString it
  let (funcBody, it) ← extract (skip it)
  let it ← (jumpToNext ')' it).bind (accept [')'])
  let (extraComment, it) ← readComment it
  return (⟨funcName, moduleOf funcName, argsText, retType, funcBody, extraComment⟩, it)

def toText (f : FuncDef) : Option YText :=
  f.retType.toText.map fun type =>
    "(define-fun ".toList ++ f.funcName ++ [' '] ++ f.argsText ++ [' '] ++ type ++ [' '] ++ f.funcBody ++ [')'] ++
      if f.extraComment = [] then [] else " ; ".toList ++ f.extraComment

end FuncDef

/-! ### Files -/

inductive SmtItem where
  | comment (comment : YText)
  | func (f : FuncDef)
  deriving DecidableEq, Repr

def SmtItem.toText : SmtItem → Option YText
  | .comment c => some c
  | .func f => f.toText

/-- `smt_file`. -/
structure SmtFile where
  items : List SmtItem
  datatypes : YText → List YMember
  dataTypeOrder : List YText

namespace SmtFile

def empty : SmtFile := ⟨[], fun _ => [], []⟩

/-- An item in front of those that are read after it. -/
def addItem (i : SmtItem) (smt : SmtFile) : SmtFile := { smt with items := i :: smt.items }

/-- The members of a datatype, in front of those that are read for the same name. -/
def addDatatype (m : YText) (l : List YMember) (smt : SmtFile) : SmtFile :=
  { smt with datatypes := Function.update smt.datatypes m (l ++ smt.datatypes m), dataTypeOrder := m :: smt.dataTypeOrder }

def funcs (smt : SmtFile) : List FuncDef :=
  smt.items.filterMap fun
    | .comment _ => none
    | .func f => some f

/-- The loop of `ParseFromString`, and what is left of the text when it stops. -/
def parseItems : Nat → YText → Option (SmtFile × YText)
  | 0, _ => none
  | fuel + 1, it =>
    if it = [] then some (empty, [])
    else
      let h := headWord YText.blanks it
      if h.head? = some ';' then
        let r := readlineNoEol it
        (parseItems fuel (skip r.2)).map fun s => (s.1.addItem (.comment r.1), s.2)
      else if h = "(declare-datatype".toList then
        (parseDatatype it).bind fun r => (parseItems fuel (skip r.2.2)).map fun s => (s.1.addDatatype r.1 r.2.1, s.2)
      else if h = "(define-fun".toList then
        (FuncDef.parseFromString it).bind fun r => (parseItems fuel (skip r.2)).map fun s => (s.1.addItem (.func r.1), s.2)
      else some (empty, it)

def parseFromString (it : YText) : Option (SmtFile × YText) := parseItems (it.length + 1) (skip it)

/-- `smt_file::toString`, without the datatypes. -/
def toText (smt : SmtFile) : Option YText :=
  (smt.items.mapM SmtItem.toText).map fun lines =>
    lines.flatMap fun line => if line.getLast? = some '\n' then line else line ++ ['\n']

end SmtFile

end Ilang
