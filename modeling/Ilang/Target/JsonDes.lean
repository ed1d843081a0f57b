import Ilang.Ila.Build
import Ilang.Target.JsonSer

/-!
# Reading a hierarchy from JSON

`J2IDes` makes the ILAs and their variables first, then the functions, then the other nodes in their order in the file, and fills
in the ILAs last. Of the ILAs only the names are remembered: a name that comes a second time stops the program, so the ILA of a
name is the one of the hierarchy that has it. A function that dereferences a missing entry has no result.
-/

namespace Ilang

open Smt

/-! ### The ILA of a name -/

namespace Ila

mutual

def find? (name : String) : Ila → Option IlaData
  | .mk d cs => if d.name = name then some d else findList? name cs

def findList? (name : String) : List Ila → Option IlaData
  | [] => none
  | c :: cs => (find? name c).or (findList? name cs)

end

mutual

/-- A change of the data of every ILA. -/
def mapData (f : IlaData → IlaData) : Ila → Ila
  | .mk d cs => .mk (f d) (mapDataList f cs)

def mapDataList (f : IlaData → IlaData) : List Ila → List Ila
  | [] => []
  | c :: cs => mapData f c :: mapDataList f cs

end

/-- The ILA of a name gets new data. -/
def setData (name : String) (d : IlaData) : Ila → Ila := mapData fun e => if e.name = name then d else e

end Ila

/-! ### The functions of `asthub` -/

namespace J2IDes

/-- `BvConst`, with the checks of `ExprConst`. -/
def bvConst (val width : Nat) : Option Expr :=
  if 0 < width ∧ (64 ≤ width ∨ val >>> width = 0) then some (.const (.bv val width)) else none

/-- `Eq(e, 1)`. -/
def eqOne (e : Expr) : Option Expr :=
  (if e.sort = .bool then some (.const (.bool true)) else bvConst 1 (bitWidth e.sort)).map fun one => .op .eq [e, one]

/-- `And`, `Or` and `Xor`, which take a Boolean and a bit-vector of one bit together, up to a depth of recursion. -/
def logic (o : ExprOp) : Nat → Expr → Expr → Option Expr
  | 0, _, _ => none
  | n + 1, l, r =>
    if l.sort = r.sort then some (.op o [l, r])
    else if l.sort = .bv 1 ∧ r.sort = .bool then (eqOne l).bind fun e => logic o n e r
    else (eqOne r).bind fun e => logic o n l e

/-- A Boolean operand of a concatenation becomes a bit. -/
def bit (e : Expr) : Expr := if e.sort = .bool then .op .ite [e, .const (.bv 1 1), .const (.bv 0 1)] else e

/-- The constructors of the operations. A call of `logic` that ends needs three steps at most. -/
def exprOp (o : ExprOp) (args : List Expr) : Option Expr :=
  match o, args with
  | .and, [l, r] | .or, [l, r] | .xor, [l, r] => logic o 3 l r
  | .concat, [hi, lo] => some (.op .concat [bit hi, bit lo])
  | o, args => some (.op o args)

end J2IDes

/-! ### The deserializer -/

structure J2IDes where
  /-- The next identity. -/
  next : Nat := 0
  ilaNames : List String := []
  idExprMap : List (Nat × Expr) := []
  idFuncMap : List (Nat × Func) := []

namespace J2IDes

def desSort (j : Json) : Option Srt :=
  (j.natAt "u").bind fun uid =>
    match uid with
    | 1 => some .bool
    | 2 => (j.natAt "w").map .bv
    | 3 => (j.natAt "a").bind fun a => (j.natAt "d").map fun d => .mem a d
    | _ => none

def desFunc (s : J2IDes) (j : Json) : Option J2IDes :=
  (j.natAt "i").bind fun id =>
    match s.idFuncMap.lookup id with
    | some _ => some s
    | none => (j.strAt "n").bind fun name => ((j.field "o").bind desSort).bind fun out =>
      ((j.elemsAt "a").bind fun js => js.mapM desSort).map fun args =>
        { s with next := s.next + 1, idFuncMap := s.idFuncMap ++ [(id, ⟨s.next, name, "", "", out, args⟩)] }

/-- `get<BvValType>`. -/
def bvVal (n : Nat) : BvVal := ⟨n % UInt64.size, Nat.mod_lt n (by decide)⟩

/-- The entries of a memory constant. -/
def desMemMap (fs : List (String × Json)) : Option (OrdMap BvVal BvVal) :=
  fs.foldlM (fun m p => p.2.getNat.map fun data => m.assign (strToULongLong p.1) (bvVal data)) .empty

def desExprConst (jSort jVal : Json) : Option Expr :=
  (desSort jSort).bind fun sort =>
    match sort with
    | .bool => ((jVal.field "v").bind Json.getBool).map fun b => .const (.bool b)
    | .bv w => (jVal.natAt "v").bind fun x => bvConst (bvVal x).val w
    | .mem a d => (jVal.natAt "d").bind fun x => ((jVal.field "m").bind Json.fields).bind fun fs =>
      (desMemMap fs).map fun m => .const (MemVal.const ⟨bvVal x, m⟩ a d)

/-- The operation of an identifier, and how many arguments its constructor takes. -/
def opOf (uid : Nat) (params : List Nat) : Option (ExprOp × Nat) :=
  match uid with
  | 1 => some (.neg, 1)
  | 2 => some (.not, 1)
  | 3 => some (.compl, 1)
  | 4 => some (.and, 2)
  | 5 => some (.or, 2)
  | 6 => some (.xor, 2)
  | 7 => some (.shl, 2)
  | 8 => some (.ashr, 2)
  | 9 => some (.lshr, 2)
  | 10 => some (.add, 2)
  | 11 => some (.sub, 2)
  | 27 => some (.div, 2)
  | 30 => some (.srem, 2)
  | 31 => some (.urem, 2)
  | 32 => some (.smod, 2)
  | 12 => some (.mul, 2)
  | 13 => some (.eq, 2)
  | 14 => some (.lt, 2)
  | 15 => some (.gt, 2)
  | 16 => some (.ult, 2)
  | 17 => some (.ugt, 2)
  | 18 => some (.load, 2)
  | 19 => some (.store, 3)
  | 20 => some (.concat, 2)
  | 21 => params[0]?.bind fun hi => params[1]?.map fun lo => (.extract hi lo, 1)
  | 22 => params[0]?.map fun w => (.zext w, 1)
  | 23 => params[0]?.map fun w => (.sext w, 1)
  | 28 => params[0]?.map fun n => (.lRotate n, 1)
  | 29 => params[0]?.map fun n => (.rRotate n, 1)
  | 25 => some (.imply, 2)
  | 26 => some (.ite, 3)
  | _ => none

def desExprOp (uid : Nat) (args : List Expr) (params : List Nat) : Option Expr :=
  (opOf uid params).bind fun (o, arity) => if arity ≤ args.length then exprOp o (args.take arity) else none

/-- The expressions of the identities of the arguments. -/
def desArgs (s : J2IDes) (j : Json) : Option (List Expr) :=
  (j.natsAt "a").bind fun ids => ids.mapM fun id => s.idExprMap.lookup id

/-- The expression that is made from an object. A variable has to be there already. -/
def desExprNew (s : J2IDes) (j : Json) : Option Expr :=
  (j.natAt "u").bind fun uid =>
    if uid = ExprTypeId.kConst then (j.field "s").bind fun sort => (j.field "v").bind fun val => desExprConst sort val
    else if uid = ExprTypeId.kOp then (j.natAt "o").bind fun op =>
      if op = uidApplyFunc then (j.natAt "f").bind fun id => (s.idFuncMap.lookup id).bind fun f =>
        (s.desArgs j).map fun args => .appFunc f args
      else (s.desArgs j).bind fun args => (j.natsAt "p").bind fun params => desExprOp op args params
    else none

def desExpr (s : J2IDes) (j : Json) : Option J2IDes :=
  (j.natAt "i").bind fun id =>
    match s.idExprMap.lookup id with
    | some _ => some s
    | none => (s.desExprNew j).map fun e => { s with idExprMap := s.idExprMap ++ [(id, e)] }

/-! ### ILAs and their variables -/

/-- `DesExprState` and `DesExprInput`. -/
def desExprVar (k : Kind) (id : Nat) (name : String) (jSort : Json) (r : IlaData × J2IDes) : Option (IlaData × J2IDes) :=
  (desSort jSort).map fun sort =>
    let v : Var := ⟨r.2.next, name, some r.1.rootName, sort⟩
    (r.1.addVar k v, { r.2 with next := r.2.next + 1, idExprMap := r.2.idExprMap ++ [(id, .var v)] })

/-- What `DesVarUnit` does at an object of the file. -/
def desVarAst (inputs states : List Nat) (r : IlaData × J2IDes) (j : Json) : Option (IlaData × J2IDes) :=
  (j.natAt "i").bind fun id =>
    match r.2.idExprMap.lookup id with
    | some _ => some r
    | none => (j.natAt "u").bind fun uid =>
      if uid = ExprTypeId.kVar then (j.strAt "n").bind fun name => (j.field "s").bind fun sort =>
        if id ∈ states then desExprVar .state id name sort r
        else if id ∈ inputs then desExprVar .input id name sort r
        else some r
      else some r

/-- `NewChild` of a parent, or `New`. -/
def newIla (parent : Option IlaData) (id : Nat) (name : String) : IlaData :=
  match parent with
  | some p => p.newChild id name
  | none => IlaData.new id name

def desVarUnit (asts : List Json) (parent : Option IlaData) (s : J2IDes) (j : Json) : Option (IlaData × J2IDes) :=
  (j.strAt "n").bind fun name =>
    if name ∈ s.ilaNames then none
    else (j.natsAt "i").bind fun inputs => (j.natsAt "s").bind fun states =>
      asts.foldlM (desVarAst inputs states)
        (newIla parent s.next name, { s with next := s.next + 1, ilaNames := s.ilaNames ++ [name] })

mutual

def desVarHier (asts : List Json) (parent : Option IlaData) (s : J2IDes) (j : Json) : Option (Ila × J2IDes) :=
  (desVarUnit asts parent s j).bind fun r =>
    match _h : j.elemsAt "c" with
    | none => none
    | some cs => (desVarHiers asts r.1 r.2 cs).map fun rs => (.mk r.1 (KeyVec.ofList (fun c => c.data.name) rs.1), rs.2)
termination_by sizeOf j
decreasing_by exact Json.sizeOf_elemsAt _h

def desVarHiers (asts : List Json) (parent : IlaData) (s : J2IDes) (cs : List Json) : Option (List Ila × J2IDes) :=
  match cs with
  | [] => some ([], s)
  | c :: cs => (desVarHier asts (some parent) s c).bind fun r =>
      (desVarHiers asts parent r.2 cs).map fun rs => (r.1 :: rs.1, rs.2)
termination_by sizeOf cs

end

/-! ### What the ILAs hold -/

/-- The update of one state. -/
def desUpdate (s : J2IDes) (update : Json) (i : Instr) (state : Var) : Option Instr :=
  (update.natAt state.name).bind fun id => (s.idExprMap.lookup id).map fun e => i.setUpdate state.name e

/-- `DesInstr` on a new instruction. A decode that is not Boolean stops the program. -/
def desInstr (s : J2IDes) (d : IlaData) (j : Json) : Option Instr :=
  (j.strAt "n").bind fun name => (j.natAt "d").bind fun id => (s.idExprMap.lookup id).bind fun decode =>
    if decode.sort = .bool then
      (j.field "u").bind fun update =>
        d.states.foldlM (s.desUpdate update)
          (Instr.setDecode decode ⟨s.next, Instr.newName d.instrs.length name, none, [], none⟩)
    else none

def desInstrs (r : IlaData × J2IDes) (j : Json) : Option (IlaData × J2IDes) :=
  (r.2.desInstr r.1 j).map fun i => (r.1.addInstr i, { r.2 with next := r.2.next + 1 })

/-- The expression of an identity, or a default where the field cannot be read. -/
def desOr (s : J2IDes) (field : Option Nat) (default : Expr) : Option Expr :=
  match field with
  | some id => s.idExprMap.lookup id
  | none => some default

/-- The fields of an ILA. A fetch or valid condition that is not in the file gets a default. -/
def desIlaData (s : J2IDes) (d : IlaData) (j : Json) : Option (IlaData × J2IDes) :=
  (s.desOr (j.natAt "f") (.const (.bv 1 1))).bind fun fetch =>
    (s.desOr (j.natAt "v") (.const (.bool true))).bind fun valid => (j.elemsAt "instr").bind fun instrs =>
      (instrs.foldlM desInstrs ({ d with fetch := some fetch, valid := some valid }, s)).bind fun r =>
        (j.natsAt "init").bind fun ids => (ids.mapM fun id => s.idExprMap.lookup id).map fun inits =>
          ({ r.1 with inits := r.1.inits ++ inits }, r.2)

def desIlaUnit (s : J2IDes) (top : Ila) (j : Json) : Option (Ila × J2IDes) :=
  (j.strAt "n").bind fun name => (top.find? name).bind fun d =>
    (s.desIlaData d j).map fun r => (top.setData name r.1, r.2)

mutual

def desIlaHier (s : J2IDes) (top : Ila) (j : Json) : Option (Ila × J2IDes) :=
  (desIlaUnit s top j).bind fun r =>
    match _h : j.elemsAt "c" with
    | none => none
    | some cs => desIlaHiers r.2 r.1 cs
termination_by sizeOf j
decreasing_by exact Json.sizeOf_elemsAt _h

def desIlaHiers (s : J2IDes) (top : Ila) (cs : List Json) : Option (Ila × J2IDes) :=
  match cs with
  | [] => some (top, s)
  | c :: cs => (desIlaHier s top c).bind fun r => desIlaHiers r.2 r.1 cs
termination_by sizeOf cs

end

end J2IDes

/-! ### The interface -/

namespace IlaSerDesMngr

end IlaSerDesMngr

end Ilang
