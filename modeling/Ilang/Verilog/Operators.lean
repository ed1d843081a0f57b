import Ilang.Util.Precedence

/-!
# Operators of Verilog

The tokens of the expressions of IEEE 1364 and the precedence of its operators. The commas and colons in brackets are operators of
the lowest level.
-/

namespace Verilog

open Ilang

inductive Op
  | lnot | not | plus | minus | and | nand | or | nor | xor | xnor
  | pow | mul | div | mod | shl | shr | sshl | sshr
  | lt | le | gt | ge | eq | ne | ceq | cne | land | lor
  | comma | colon | plusColon | minusColon
  deriving DecidableEq

namespace Op

def text : Op → List Char
  | lnot => ['!'] | not => ['~'] | plus => ['+'] | minus => ['-'] | and => ['&'] | nand => ['~', '&'] | or => ['|']
  | nor => ['~', '|'] | xor => ['^'] | xnor => ['~', '^'] | pow => ['*', '*'] | mul => ['*'] | div => ['/'] | mod => ['%']
  | shl => ['<', '<'] | shr => ['>', '>'] | sshl => ['<', '<', '<'] | sshr => ['>', '>', '>']
  | lt => ['<'] | le => ['<', '='] | gt => ['>'] | ge => ['>', '='] | eq => ['=', '='] | ne => ['!', '=']
  | ceq => ['=', '=', '='] | cne => ['!', '=', '='] | land => ['&', '&'] | lor => ['|', '|']
  | comma => [','] | colon => [':'] | plusColon => ['+', ':'] | minusColon => ['-', ':']

def unary : Op → Bool
  | lnot | not | plus | minus | and | nand | or | nor | xor | xnor => true
  | _ => false

def binary : Op → Option Nat
  | lnot | not | nand | nor => none
  | comma | colon | plusColon | minusColon => some 0
  | lor => some 2
  | land => some 3
  | or => some 4
  | xor | xnor => some 5
  | and => some 6
  | eq | ne | ceq | cne => some 7
  | lt | le | gt | ge => some 8
  | shl | shr | sshl | sshr => some 9
  | plus | minus => some 10
  | mul | div | mod => some 11
  | pow => some 12

end Op

def operators : Precedence.Table Op where
  unary := Op.unary
  binary := Op.binary
  colon := .colon
  binary_ne_one := by
    intro o
    cases o <;> decide
  colon_level := by
    intro l hl
    exact (Option.some.inj hl).symm

inductive Bracket
  | paren | square | brace
  deriving DecidableEq

/-- Names, numbers and strings are atoms. -/
abbrev Token := Precedence.Tok (List Char) Op Bracket

abbrev lparen : Token := .opn .paren

abbrev rparen : Token := .cls .paren

abbrev sym (o : Op) : Token := .op o

abbrev ExprTree := Precedence.Tree (List Char) Op Bracket

def Bracket.opening : Bracket → Char
  | paren => '('
  | square => '['
  | brace => Char.ofNat 123

def Bracket.closing : Bracket → Char
  | paren => ')'
  | square => ']'
  | brace => Char.ofNat 125

def Token.text : Token → List Char
  | .atom a => a
  | .op o => o.text
  | .quest => ['?']
  | .opn k => [k.opening]
  | .cls k => [k.closing]

/-- The text is that of the expression. No other expression has it, by `Tree.unique`. -/
def Spells (ts : List Token) (t : ExprTree) : Prop := t.WF operators ∧ t.toks operators = ts

theorem Spells.unique {ts : List Token} {t t' : ExprTree} (h : Spells ts t) (h' : Spells ts t') : t = t' :=
  Precedence.Tree.unique h.1 h'.1 (h.2.trans h'.2.symm)

/-! ### Values of operands -/

/-- A value of its own width, which is not zero. -/
abbrev Value := (n : Nat) × BitVec (n + 1)

namespace Value

def ofBool (p : Bool) : Value := ⟨0, BitVec.ofBool p⟩

def isNonzero (v : Value) : Bool := v.2 != 0

def isOnes (v : Value) : Bool := v.2 == BitVec.allOnes (v.1 + 1)

def not (v : Value) : Value := ⟨v.1, ~~~v.2⟩

@[simp] theorem isNonzero_ofBool (p : Bool) : (ofBool p).isNonzero = p := by
  cases p <;> rfl

theorem isNonzero_not (v : Value) : v.not.isNonzero = !v.isOnes := by
  have hiff : ~~~v.2 = 0 ↔ v.2 = BitVec.allOnes (v.1 + 1) := by
    rw [← BitVec.not_zero]
    constructor
    · intro h
      have hzero : ~~~v.2 = 0#(v.1 + 1) := h
      rw [← hzero, BitVec.not_not]
    · intro h
      rw [h, BitVec.not_not]
      rfl
  rw [isNonzero, isOnes, not, bne]
  congr 1
  rw [Bool.eq_iff_iff, beq_iff_eq, beq_iff_eq]
  exact hiff

theorem isOnes_ofBool (p : Bool) : (ofBool p).isOnes = p := by
  cases p <;> rfl

theorem isNonzero_of_isOnes {v : Value} (h : v.isOnes = true) : v.isNonzero = true := by
  have hv : v.2 = BitVec.allOnes (v.1 + 1) := beq_iff_eq.mp h
  rw [isNonzero, bne_iff_ne, hv]
  intro hzero
  have hlast := congrArg (BitVec.getLsbD · 0) hzero
  simp at hlast

end Value

/-- An expression made of operands by `~`, `&&`, `||` and parentheses. In such an expression, operands have their own widths. -/
inductive Wrap (α : Type)
  | arg (a : α)
  | not (w : Wrap α)
  | land (a b : Wrap α)
  | lor (a b : Wrap α)
  | group (w : Wrap α)

namespace Wrap

def tree : Wrap ExprTree → ExprTree
  | .arg t => t
  | .not w => .un .not w.tree
  | .land a b => .bin .land a.tree b.tree
  | .lor a b => .bin .lor a.tree b.tree
  | .group w => .group .paren w.tree

def value : Wrap Value → Value
  | .arg v => v
  | .not w => w.value.not
  | .land a b => .ofBool (a.value.isNonzero && b.value.isNonzero)
  | .lor a b => .ofBool (a.value.isNonzero || b.value.isNonzero)
  | .group w => w.value

end Wrap

end Verilog
