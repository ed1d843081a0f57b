import Ilang.Smt.Value
import Ilang.Util.Container
import Ilang.Util.SExp
import Mathlib.Data.List.Lex
import Mathlib.Data.List.Sort
import Mathlib.Data.Char

/-!
# Yosys SMT-LIB designs

Yosys writes a design as one datatype for each module, with the registers of the module and the states of its instances as
fields, and functions of such states. `YosysSmtParser` breaks the datatypes: a function gets one argument for each register of
the module and of all instances below it, and its body is rewritten by replacing the texts of the field applications.

The replacements of one body are collected in a map from texts to texts and are then made one after the other, in the order of
the texts. A register of an instance, `(|m_is| (|top_h m0| state))`, and the state of the instance, `(|top_h m0| state)`, are
two texts of which one contains the other. The bodies here are token lists, with one blank between the tokens of a text that
is replaced, as Yosys writes them, and without parentheses in the names: the source looks for the innermost lists by counting
all parentheses of the text, so that it misses a list with a name like `|m(1)#0|`.
-/

namespace Ilang

abbrev YName := List Char

inductive YType where
  | bool
  | bv (width : Nat)
  | array (widths : Option (Nat × Nat))
  | datatype (module : YName)
  deriving DecidableEq, Repr

/-- The copy constructor of `var_type` leaves the widths of an array out, so that those of the copy are indeterminate. -/
def YType.copy : YType → YType
  | .array _ => .array none
  | t => t

structure StateVar where
  internalName : YName
  type : YType
  deriving DecidableEq, Repr

/-- The modules in the order of their declaration. -/
abbrev Datatypes := List (YName × List StateVar)

def Datatypes.vars (dts : Datatypes) (m : YName) : List StateVar := (dts.lookup m).getD []

def Datatypes.names (dts : Datatypes) (m : YName) : List YName := (dts.vars m).map StateVar.internalName

/-! ### Names -/

def stateName : YName := "state".toList

def nextStateName : YName := "next_state".toList

def isQuoted (n : YName) : Bool := n.head? == some '|' && n.getLast? == some '|'

def stNameAddSuffix (n suffix : YName) : YName :=
  if suffix = [] then n else if isQuoted n then n.dropLast ++ suffix ++ ['|'] else n ++ suffix

def stNameAddPrefix (n pre : YName) : YName :=
  if pre = [] then n else if isQuoted n then '|' :: pre ++ n.tail else pre ++ n

/-- `|module inst|` to `inst`. -/
def getModInstName (n : YName) : YName := (n.dropWhile (· ≠ ' ')).tail.dropLast

def nextSuffix : YName := "_next".toList

/-- The prefix of the registers of an instance. -/
def instPrefix (field : YName) : YName := getModInstName field ++ ['.']

/-! ### Flattening -/

def flattenVar (flat : Datatypes) (v : StateVar) : List StateVar :=
  match v.type with
  | .datatype m =>
    (flat.vars m).map fun u => ⟨stNameAddPrefix u.internalName (instPrefix v.internalName), u.type.copy⟩
  | t => [⟨v.internalName, t.copy⟩]

/-- `construct_flatten_dataype`: every instance is replaced by the registers of its module, which was flattened before. -/
def constructFlattenDatatype (dts : Datatypes) : Datatypes :=
  dts.foldl (fun flat d => flat ++ [(d.1, d.2.flatMap (flattenVar flat))]) []

/-! ### Bodies -/

/-- The texts that are replaced: `(pred arg)` and `(outer (pred state))`. -/
inductive ReplKey where
  | leaf (pred arg : YName)
  | special (outer pred : YName)
  deriving DecidableEq, Repr

def ReplKey.text : ReplKey → List Char
  | .leaf pred arg => ['('] ++ pred ++ [' '] ++ arg ++ [')']
  | .special outer pred => ['('] ++ outer ++ [' ', '('] ++ pred ++ [' '] ++ stateName ++ [')', ')']

/-- What a body is rewritten in: the modules and their flattened forms, the module and the arguments of its function, and the
functions before it. -/
structure BodyCtx where
  dts : Datatypes
  flat : Datatypes
  module : YName
  hasNext : Bool
  defined : List YName

namespace BodyCtx

variable (c : BodyCtx)

/-- The entry of `current_mod_state_var_idx`. -/
def stateVar (pred : YName) : Option StateVar := (c.dts.vars c.module).find? fun v => v.internalName == pred

/-- The text that a text is replaced by. -/
def result : ReplKey → List SExp
  | .leaf pred arg =>
    if arg = stateName then
      if pred ∈ c.defined then [.list (.atom pred :: (c.flat.names c.module).map .atom)]
      else
        match c.stateVar pred with
        | some ⟨_, .datatype m⟩ => ((c.flat.names m).map fun n => stNameAddPrefix n (instPrefix pred)).map .atom
        | _ => [.atom pred]
    else
      match c.stateVar pred with
      | some ⟨_, .datatype m⟩ =>
        ((c.flat.names m).map fun n => stNameAddPrefix (stNameAddSuffix n nextSuffix) (instPrefix pred)).map .atom
      | _ => [.atom (stNameAddSuffix pred nextSuffix)]
  | .special outer pred => [.atom (stNameAddPrefix outer (instPrefix pred))]

/-- An innermost list of the body, which is looked at when it closes, with what stands before it in the list around it. The
map holds a text only once. -/
def register (keys : List ReplKey) (leaf : Option YName × List YName) : List ReplKey :=
  match leaf.2 with
  | [pred, arg] =>
    if .leaf pred arg ∈ keys then keys
    else if arg = stateName then
      if pred ∈ c.defined then keys ++ [.leaf pred arg]
      else
        match c.stateVar pred with
        | none => keys
        | some ⟨_, .datatype m⟩ =>
          match leaf.1 with
          | some outer =>
            if outer ∈ c.dts.names m then
              if .special outer pred ∈ keys then keys else keys ++ [.special outer pred]
            else keys ++ [.leaf pred arg]
          | none => keys ++ [.leaf pred arg]
        | some _ => keys ++ [.leaf pred arg]
    else if c.hasNext ∧ arg = nextStateName ∧ (c.stateVar pred).isSome then keys ++ [.leaf pred arg]
    else keys
  | _ => keys

end BodyCtx

/-- The tokens of a list without lists in it. -/
def atoms? : List SExp → Option (List YName)
  | [] => some []
  | .atom s :: es => (atoms? es).map (s :: ·)
  | .list _ :: _ => none

/-- The text before a list in the list around it is one token. -/
def outerPred : List SExp → Option YName
  | [.atom s] => some s
  | _ => none

mutual

def bodyLeaves (outer : Option YName) : SExp → List (Option YName × List YName)
  | .atom _ => []
  | .list items =>
    match atoms? items with
    | some names => [(outer, names)]
    | none => bodyLeavesList [] items

def bodyLeavesList (before : List SExp) : List SExp → List (Option YName × List YName)
  | [] => []
  | e :: es => bodyLeaves (outerPred before) e ++ bodyLeavesList (before ++ [e]) es

end

namespace BodyCtx

variable (c : BodyCtx)

def keys (body : SExp) : List ReplKey := (bodyLeaves none body).foldl c.register []

/-- `ReplaceAll` of one text. -/
def hit (k : ReplKey) (e : SExp) : Option (List SExp) :=
  match k, e with
  | .leaf pred arg, .list [.atom p, .atom a] => if p = pred ∧ a = arg then some (c.result k) else none
  | .special outer pred, .list [.atom q, .list [.atom p, .atom a]] =>
    if q = outer ∧ p = pred ∧ a = stateName then some (c.result k) else none
  | _, _ => none

/-- The order of a `std::map`. -/
def sortedKeys (body : SExp) : List ReplKey := (c.keys body).insertionSort fun k l => k.text ≤ l.text

def replaceABody (body : SExp) : List SExp := SExp.replaceSeq ((c.sortedKeys body).map c.hit) [body]

end BodyCtx

/-! ### Functions -/

/-- A function of a state of a module, or of a state and the next one. -/
structure YFunc where
  name : YName
  module : YName
  hasNext : Bool
  body : SExp

structure FlatFunc where
  name : YName
  args : List StateVar
  body : List SExp

def nextVar (v : StateVar) : StateVar := { v with internalName := stNameAddSuffix v.internalName nextSuffix }

def replaceAFunc (dts : Datatypes) (defined : List YName) (f : YFunc) : FlatFunc :=
  let flat := constructFlattenDatatype dts
  let vars := flat.vars f.module
  { name := f.name
    args := if f.hasNext then vars ++ vars.map nextVar else vars
    body := BodyCtx.replaceABody ⟨dts, flat, f.module, f.hasNext, defined⟩ f.body }

/-- `BreakDatatypes`. A function knows the functions before it. -/
def breakDatatypes (dts : Datatypes) (defined : List YName) : List YFunc → List FlatFunc
  | [] => []
  | f :: fs => replaceAFunc dts defined f :: breakDatatypes dts (defined ++ [f.name]) fs

/-! ### Meaning -/

/-- A value of the design: one of the solver, or a state of a module. -/
inductive YVal where
  | base (v : Smt.Value)
  | st (module : YName) (fields : List YVal)

namespace YVal

mutual

/-- The registers of a state, in order. -/
def leaves : YVal → List Smt.Value
  | .base v => [v]
  | .st _ fields => leavesList fields

def leavesList : List YVal → List Smt.Value
  | [] => []
  | v :: vs => leaves v ++ leavesList vs

end

def bases : List YVal → Option (List Smt.Value)
  | [] => some []
  | .base v :: vs => (bases vs).map (v :: ·)
  | .st _ _ :: _ => none

/-- A field of a state. -/
def field (dts : Datatypes) (f : YName) : List YVal → Option YVal
  | [.st m fields] => ((dts.names m).findIdx? (· == f)).bind (fields[·]?)
  | _ => none

end YVal

abbrev FuncEnv (V : Type) := List (YName × (List V → Option V))

/-- The symbols of a function of states, over the operators of the logic and the functions before it. -/
def origInterp (B : SExp.Interp Smt.Value) (dts : Datatypes) (F : FuncEnv YVal) (args : List YVal) : SExp.Interp YVal where
  sym s :=
    if s = stateName then args[0]?
    else if s = nextStateName then args[1]?
    else (B.sym s).map .base
  app f vs :=
    match YVal.field dts f vs with
    | some v => some v
    | none =>
      match F.lookup f with
      | some g => g vs
      | none => ((YVal.bases vs).bind (B.app f)).map .base
  idx items vs := ((YVal.bases vs).bind (B.idx items)).map .base

def flatInterp (B : SExp.Interp Smt.Value) (F : FuncEnv Smt.Value) (names : List YName) (vals : List Smt.Value) :
    SExp.Interp Smt.Value where
  sym s :=
    match (names.zip vals).lookup s with
    | some v => some v
    | none => B.sym s
  app f vs :=
    match F.lookup f with
    | some g => g vs
    | none => B.app f vs
  idx := B.idx

/-- A value is of a type. There is no value of an array whose widths are not known. -/
def YType.has : YType → Smt.Srt → Bool
  | .bool, .bool => true
  | .bv w, .bv w' => w == w'
  | .array (some (a, d)), .mem a' d' => a == a' && d == d'
  | _, _ => false

def hasTypes : List StateVar → List Smt.Value → Bool
  | [], [] => true
  | v :: vs, x :: xs => v.type.has x.sort && hasTypes vs xs
  | _, _ => false

def YFunc.denote (B : SExp.Interp Smt.Value) (dts : Datatypes) (F : FuncEnv YVal) (f : YFunc) (args : List YVal) :
    Option YVal :=
  if args.length = (if f.hasNext then 2 else 1) then SExp.eval (origInterp B dts F args) f.body else none

def FlatFunc.denote (B : SExp.Interp Smt.Value) (F : FuncEnv Smt.Value) (f : FlatFunc) (vals : List Smt.Value) :
    Option Smt.Value :=
  if hasTypes f.args vals then
    match f.body with
    | [e] => SExp.eval (flatInterp B F (f.args.map StateVar.internalName) vals) e
    | _ => none
  else none

/-- The functions of a design, each over those before it. -/
def denoteFuncs (B : SExp.Interp Smt.Value) (dts : Datatypes) (F : FuncEnv YVal) : List YFunc → FuncEnv YVal
  | [] => F
  | f :: fs => denoteFuncs B dts (F ++ [(f.name, f.denote B dts F)]) fs

def denoteFlat (B : SExp.Interp Smt.Value) (F : FuncEnv Smt.Value) : List FlatFunc → FuncEnv Smt.Value
  | [] => F
  | f :: fs => denoteFlat B (F ++ [(f.name, f.denote B F)]) fs

end Ilang
