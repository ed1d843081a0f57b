import Ilang.Vtarget.WireNames

/-!
# Modifying the Verilog of a design

`VerilogModifier` puts keep attributes, ports, declarations, connections, assignments and statements into the lines of a file.
Where a text goes is found by searches for semicolons and parentheses in one line at a time.
-/

namespace Ilang.VlgMod

open WireNames (split)

abbrev Text := List Char

/-- `S_IN`. -/
def contains (sub s : Text) : Bool := decide (sub <:+: s)

def join (ws : List Text) (c : Char) : Text := [c].intercalate ws

def isSpace (c : Char) : Bool := c == ' ' || c == '\t' || c == '\n' || c == '\x0b' || c == '\x0c' || c == '\r'

/-- `SplitSpaceTabEnter`. -/
def words (s : Text) : List Text := (s.splitOnP isSpace).filter fun w => !w.isEmpty

/-! ### Keep attributes -/

/-- What is before the first `//`, and the rest. -/
def cutComment : Text → Text × Text
  | [] => ([], [])
  | c :: s =>
    if ['/', '/'].isPrefixOf (c :: s) then ([], c :: s)
    else
      let r := cutComment s
      (c :: r.1, r.2)

/-- The first of some pieces with a property gets a text in front of it. -/
def markFirst (p : Text → Bool) (mark : Text) : List Text → List Text
  | [] => []
  | w :: ws => if p w then (mark ++ w) :: ws else w :: markFirst p mark ws

def lineMark : Text := "(* keep *) ".toList

def portMark : Text := "(* keep *)".toList

def declares (vname decl : Text) : Bool :=
  contains vname decl && (contains "reg".toList decl || contains "wire".toList decl)

def addKeepToALine (lineIn vname : Text) : Text :=
  if !contains vname lineIn then lineIn
  else
    let (line, comment) := cutComment lineIn
    let decls := markFirst (declares vname) lineMark (split line ';')
    (if decls.isEmpty then [] else join decls ';' ++ [';']) ++ comment

/-- The line up to the first parenthesis that opens, up to the first one that closes, and the rest. -/
def portCut (lineIn : Text) : Text × Text × Text :=
  let leftP := if '(' ∈ lineIn then lineIn.idxOf '(' + 1 else 0
  let rightP := lineIn.idxOf ')'
  -- the length of the middle is unsigned, and wraps where the parentheses are in the other order
  let middle := if ')' ∈ lineIn ∧ leftP ≤ rightP then (lineIn.drop leftP).take (rightP - leftP) else lineIn.drop leftP
  (lineIn.take leftP, middle, lineIn.drop rightP)

/-- `none` is a failing check. -/
def addKeepToPort (lineIn vname : Text) : Option Text :=
  if !contains vname lineIn then some lineIn
  else if '(' ∉ lineIn ∧ ')' ∉ lineIn ∧ ';' ∈ lineIn then
    some (join (markFirst (contains vname) portMark (split lineIn ';')) ';' ++ [';'])
  else
    let (leftCut, middle, rightCut) := portCut lineIn
    if leftCut ++ middle ++ rightCut = lineIn then
      let midSplit := split middle ','
      let isPort (w : Text) : Bool := (words w).contains vname
      if midSplit.any isPort then
        let midMod := join (markFirst isPort portMark midSplit) ','
        some (leftCut ++ (if middle.getLast? = some ',' then midMod ++ [','] else midMod) ++ rightCut)
      else some lineIn
    else none

/-! ### Ports and connections -/

inductive CommentState
  | plain | str | left
  deriving DecidableEq

/-- `find_comments`: where a comment starts that is not in a string. `ret` letters are read. -/
def findComments : CommentState → Nat → Text → Option Nat
  | _, _, [] => none
  | .plain, ret, c :: s => findComments (if c = '/' then .left else if c = '"' then .str else .plain) (ret + 1) s
  | .str, ret, c :: s => findComments (if c = '"' ∨ c = '\n' then .plain else .str) (ret + 1) s
  | .left, ret, c :: s => if c = '/' then some (ret - 1) else findComments .plain (ret + 1) s

def isGoodIdName : Text → Bool
  | [] => false
  | c :: s => (c.isAlpha || c == '_') && s.all fun d => d.isAlphanum || d == '_'

/-- The style that a line shows, if it shows one. -/
def containUsefulPortInfo (line : Text) : Option Bool :=
  let lineNoComment :=
    match findComments .plain 0 line with
    | some pos => line.take pos
    | none => line
  let wl := words lineNoComment
  if wl.contains "output".toList || wl.contains "input".toList then some true
  else if lineNoComment.contains ',' then some false
  else if wl.length = 1 ∧ wl.all isGoodIdName then some false
  else none

inductive DeclStyle
  | auto | new | old
  deriving DecidableEq

def widthToRange (w : Nat) : Text := if 1 < w then '[' :: Nat.toDigits 10 (w - 1) ++ ":0]".toList else []

/-- What is before the last parenthesis that closes before the first semicolon. -/
def leftOfParen (line : Text) : Option Text :=
  let upto := line.takeWhile fun c => c != ';'
  if ')' ∈ upto then some (upto.reverse.dropWhile fun c => c != ')').tail.reverse else none

def newPort (vname : Text) (width : Nat) : Text := ", output wire ".toList ++ widthToRange width ++ ' ' :: vname

def oldPort (vname : Text) : Text := ", ".toList ++ vname

def oldDecl (vname : Text) (width : Nat) : Text := "\n output ".toList ++ widthToRange width ++ ' ' :: vname ++ [';']

/-- `add_mod_decl_wire_to_this_line`, with the line that comes out unless the item waits for another one, and `new_style`, which
outlives the call. -/
def addModDecl (style : DeclStyle) (newStyle : Bool) (lineIn vname : Text) (width : Nat) : Option Text × Bool :=
  if ';' ∉ lineIn then (none, (containUsefulPortInfo lineIn).getD newStyle)
  else
    match leftOfParen lineIn with
    | none => (some lineIn, newStyle)
    | some left =>
      let right := lineIn.drop left.length
      let newStyle :=
        match style with
        | .auto => (containUsefulPortInfo left).getD newStyle
        | .new => true
        | .old => false
      if newStyle then (some (left ++ newPort vname width ++ right), newStyle)
      else (some (left ++ oldPort vname ++ right ++ oldDecl vname width), newStyle)

def instPort (vname : Text) : Text := " ,.".toList ++ vname ++ '(' :: vname ++ [')']

/-- `add_mod_inst_wire_to_this_line`. -/
def addModInst (lineIn vname : Text) : Option Text :=
  if ';' ∉ lineIn then none
  else
    match leftOfParen lineIn with
    | none => some lineIn
    | some left => some (left ++ instPort vname ++ lineIn.drop left.length)

/-! ### Records -/

structure KeepItem where
  lineno : Nat
  vname : Text
  isPort : Bool

structure StmtItem where
  lineno : Nat
  stmt : Text

structure AssignItem where
  lineno : Nat
  vname : Text
  width : Nat
  signame : Text

/-- A port or a connection. The record has only a line; `close` says which parenthesis ends the port list, by line and column. -/
structure WireItem where
  lineno : Nat
  vname : Text
  width : Nat
  close : Nat × Nat

structure Records where
  keeps : List KeepItem
  stmts : List StmtItem
  assigns : List AssignItem
  decls : List WireItem
  insts : List WireItem

/-- At most one keep attribute is recorded for a line. -/
def recordKeepSignalName (keeps : List KeepItem) (k : KeepItem) : List KeepItem :=
  if keeps.any fun k' => k'.lineno == k.lineno then keeps else keeps ++ [k]

/-- `FinishRecording` sorts the items by their lines. Items for one line can come in any order. -/
structure Records.Finished (R R' : Records) : Prop where
  keeps : R'.keeps.Perm R.keeps ∧ R'.keeps.Pairwise fun a b => a.lineno ≤ b.lineno
  stmts : R'.stmts.Perm R.stmts ∧ R'.stmts.Pairwise fun a b => a.lineno ≤ b.lineno
  assigns : R'.assigns.Perm R.assigns ∧ R'.assigns.Pairwise fun a b => a.lineno ≤ b.lineno
  decls : R'.decls.Perm R.decls ∧ R'.decls.Pairwise fun a b => a.lineno ≤ b.lineno
  insts : R'.insts.Perm R.insts ∧ R'.insts.Pairwise fun a b => a.lineno ≤ b.lineno

structure Modifier where
  addKeep : Bool
  style : DeclStyle

namespace Modifier

variable (M : Modifier)

def addKeepTo (k : KeepItem) (line : Text) : Option Text :=
  if M.addKeep then
    if !k.isPort then some (addKeepToALine line k.vname) else addKeepToPort line k.vname
  else some line

def keepLoop (lineno : Nat) : List KeepItem → Text → Option (Text × List KeepItem)
  | [], line => some (line, [])
  | k :: ks, line =>
    if lineno = k.lineno then (M.addKeepTo k line).bind fun line => keepLoop lineno ks line
    else some (line, k :: ks)

end Modifier

def StmtItem.text (s : StmtItem) : Text := s.stmt ++ ['\n']

/-- `add_assign_wire_to_this_line`. -/
def AssignItem.text (a : AssignItem) : Text := " assign ".toList ++ a.vname ++ " = ".toList ++ a.signame ++ ";\n".toList

/-- Items for the line go in front of it, each as a text of its own. -/
def prependLoop {α : Type} (linenoOf : α → Nat) (text : α → Text) (lineno : Nat) : List α → Text → Text × List α
  | [], line => (line, [])
  | x :: xs, line => if lineno = linenoOf x then prependLoop linenoOf text lineno xs (text x ++ line) else (line, x :: xs)

def stmtLoop : Nat → List StmtItem → Text → Text × List StmtItem := prependLoop StmtItem.lineno StmtItem.text

def assignLoop : Nat → List AssignItem → Text → Text × List AssignItem := prependLoop AssignItem.lineno AssignItem.text

/-- An item that finds no semicolon is carried to the next line. -/
def Modifier.declLoop (M : Modifier) (lineno : Nat) : Bool → List WireItem → Text → Text × List WireItem × Bool
  | newStyle, [], line => (line, [], newStyle)
  | newStyle, d :: ds, line =>
    if d.lineno ≤ lineno then
      match addModDecl M.style newStyle line d.vname d.width with
      | (some line, newStyle) => declLoop M lineno newStyle ds line
      | (none, newStyle) => (line, d :: ds, newStyle)
    else (line, d :: ds, newStyle)

def instLoop (lineno : Nat) : List WireItem → Text → Text × List WireItem
  | [], line => (line, [])
  | d :: ds, line =>
    if d.lineno ≤ lineno then
      match addModInst line d.vname with
      | some line => instLoop lineno ds line
      | none => (line, d :: ds)
    else (line, d :: ds)

/-- What is left of the records of a file, and `new_style`. -/
structure State where
  recs : Records
  newStyle : Bool

namespace Modifier

variable (M : Modifier)

/-- The body of the loop over the lines. -/
def modifyLine (lineno : Nat) (st : State) (line : Text) : Option (Text × State) :=
  (M.keepLoop lineno st.recs.keeps line).map fun (line, keeps) =>
    let (line, stmts) := stmtLoop lineno st.recs.stmts line
    let (line, assigns) := assignLoop lineno st.recs.assigns line
    let (line, decls, newStyle) := M.declLoop lineno st.newStyle st.recs.decls line
    let (line, insts) := instLoop lineno st.recs.insts line
    (line, ⟨⟨keeps, stmts, assigns, decls, insts⟩, newStyle⟩)

/-- `ReadModifyWrite` from a line on, with what is written for each line. -/
def readModifyWrite : Nat → State → List Text → Option (List Text × State)
  | _, st, [] => some ([], st)
  | lineno, st, line :: lines => do
    let (out, st) ← M.modifyLine lineno st line
    let (outs, st) ← readModifyWrite (lineno + 1) st lines
    return (out :: outs, st)

end Modifier

end Ilang.VlgMod
