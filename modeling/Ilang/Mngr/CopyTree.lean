import Ilang.Ila.Build
import Ilang.Mngr.RewriteExpr

/-!
# Copying a hierarchy

`CopyIlaTree` visits the ILAs of a tree, parents first. In each it looks up the variables by name in the
new ILA, which has inherited those of its new parent, makes the missing ones, and rewrites what the ILA
holds with the variables that were met so far. The child-program sequencing is not copied.
-/

namespace Ilang

open Smt

namespace CopyTree

/-! ### The copier -/

/-- The maps of `FuncObjRewrIla`, and the next identity. -/
structure Copier where
  next : Nat
  exprMap : Var → Option Var
  ilaMap : Nat → Option Nat

/-- `try_emplace`, and `insert` of a map: an entry that is there stays. -/
def emplace {α β : Type} [DecidableEq α] (m : α → Option β) (a : α) (b : β) : α → Option β :=
  match m a with
  | some _ => m
  | none => Function.update m a (some b)

namespace Copier

/-- The rewriting rule. -/
def rule (st : Copier) (v : Var) : Option Expr := (st.exprMap v).map Expr.var

end Copier

/-- `DuplInp` and `DuplStt`, on the variables of one kind: the new ILA is asked for the name. -/
def duplVars (host : String) : List Var → List Var → Copier → List Var × Copier
  | [], ds, st => (ds, st)
  | v :: vs, ds, st =>
    match ds.find? fun w => w.name = v.name with
    | some w => duplVars host vs ds { st with exprMap := emplace st.exprMap v w }
    | none =>
      let w : Var := ⟨st.next, v.name, some host, v.sort⟩
      duplVars host vs (ds ++ [w]) { st with next := st.next + 1, exprMap := emplace st.exprMap v w }

/-- `NewChild` for every child. -/
def newChilds (dst : IlaData) : List Ila → Copier → List IlaData × Copier
  | [], st => ([], st)
  | c :: cs, st =>
    let rest := newChilds dst cs
      { st with next := st.next + 1, ilaMap := emplace st.ilaMap c.data.id st.next }
    (dst.newChild st.next c.data.name :: rest.1, rest.2)

/-- `Rewrite`, where a null result is refused. -/
def copyExpr (st : Copier) (e : Expr) : Option Expr := (rewrite st.rule e).join

/-- `DuplFetch` and `DuplValid`. -/
def copyOpt (st : Copier) : Option Expr → Option (Option Expr)
  | none => some none
  | some e => (copyExpr st e).map some

/-- `RewriteInstr` for the updates: a null result is stored. -/
def copyUpdate (st : Copier) (u : String × Option Expr) : Option (String × Option Expr) :=
  (u.2.bind (rewrite st.rule)).map fun e => (u.1, e)

def copyProgram (st : Copier) : Option Nat → Option (Option Nat)
  | none => some none
  | some p => (st.ilaMap p).map some

/-- `DuplInstr`. Rewriting a null decode stops the program, and so does a decode that is not Boolean. -/
def copyInstr (st : Copier) (id num : Nat) (i : Instr) : Option Instr :=
  (i.decode.bind (copyExpr st)).bind fun d =>
    if d.sort = .bool then
      (i.updates.mapM (copyUpdate st)).bind fun us =>
        (copyProgram st i.program).map fun p => ⟨id, Instr.newName num i.name, some d, us, p⟩
    else none

def copyInstrs (st : Copier) (num : Nat) : List Instr → Option (List Instr)
  | [] => some []
  | i :: is => (copyInstr st (st.next + num) num i).bind fun j => (copyInstrs st (num + 1) is).map (j :: ·)

/-- What `FuncObjRewrIla::pre` does before it rewrites: the variables of the new ILA and its children. -/
def enter (src : IlaData) (cs : List Ila) (dst : IlaData) (st : Copier) : IlaData × List IlaData × Copier :=
  let inps := duplVars dst.rootName src.inputs dst.inputs st
  let stts := duplVars dst.rootName src.states dst.states inps.2
  let dst' : IlaData := { dst with inputs := inps.1, states := stts.1 }
  let kids := newChilds dst' cs stts.2
  (dst', kids.1, kids.2)

/-- The rest of `FuncObjRewrIla::pre`. `DuplInstrSeq` does nothing. -/
def copyData (src dst : IlaData) (st : Copier) : Option IlaData :=
  (copyOpt st src.fetch).bind fun fetch => (copyOpt st src.valid).bind fun valid =>
    (src.inits.mapM (copyExpr st)).bind fun inits => (copyInstrs st 0 src.instrs).map fun instrs =>
      { dst with fetch := fetch, valid := valid, inits := inits, instrs := KeyVec.ofList Instr.name instrs }

mutual

def copyTree : Ila → IlaData → Copier → Option (Ila × Copier)
  | .mk src cs, dst, st =>
    let entered := enter src cs dst st
    (copyData src entered.1 entered.2.2).bind fun d =>
      (copyList cs entered.2.1 { entered.2.2 with next := entered.2.2.next + src.instrs.length }).map fun r =>
        (.mk d (KeyVec.ofList (fun c => c.data.name) r.1), r.2)

/-- The children, each with its new ILA. -/
def copyList : List Ila → List IlaData → Copier → Option (List Ila × Copier)
  | c :: cs, kid :: kids, st =>
    (copyTree c kid st).bind fun r => (copyList cs kids r.2).map fun rs => (r.1 :: rs.1, rs.2)
  | [], _, st => some ([], st)
  | _ :: _, [], _ => none

end

/-- `CopyIlaTree`. -/
def copyIlaTree (h : Hierarchy) (name : String) : Option Ila :=
  (copyTree h.top (IlaData.new h.next name)
    ⟨h.next + 1, fun _ => none, emplace (fun _ => none) h.top.data.id h.next⟩).map Prod.fst

/-! ### What a copy is -/

/-- The expression with its variables renamed. -/
def rename (f : Var → Var) (e : Expr) : Expr := e.subst fun v => some (.var (f v))

section Image

variable (f : Var → Var) (g : Nat → Nat)

structure InstrImage (i j : Instr) : Prop where
  name : j.name = i.name
  decode : j.decode = i.decode.map (rename f)
  updates : j.updates = i.updates.map fun u => (u.1, u.2.map (rename f))
  program : j.program = i.program.map g

/-- A transition between the copies of two instructions, under the copy of its condition. -/
structure TranImage (d e : IlaData) (s t : SeqTran) : Prop where
  cnd : t.cnd = rename f s.cnd
  src : ∃ k : Nat, (d.instrs[k]?.map Instr.id) = some s.src ∧ (e.instrs[k]?.map Instr.id) = some t.src
  dst : ∃ k : Nat, (d.instrs[k]?.map Instr.id) = some s.dst ∧ (e.instrs[k]?.map Instr.id) = some t.dst

structure DataImage (d e : IlaData) : Prop where
  id : e.id = g d.id
  vars : ∀ k w, w ∈ e.vars k ↔ ∃ v ∈ d.vars k, w = f v
  inits : e.inits = d.inits.map (rename f)
  fetch : e.fetch = d.fetch.map (rename f)
  valid : e.valid = d.valid.map (rename f)
  instrs : List.Forall₂ (InstrImage f g) d.instrs e.instrs
  instrSeq : List.Forall₂ (TranImage f d e) d.instrSeq e.instrSeq

mutual

/-- The image of a tree, ILA by ILA. -/
def IsImage : Ila → Ila → Prop
  | .mk d cs, .mk e es => DataImage f g d e ∧ IsImageList cs es

def IsImageList : List Ila → List Ila → Prop
  | [], [] => True
  | c :: cs, e :: es => e.data.name = c.data.name ∧ IsImage c e ∧ IsImageList cs es
  | _, _ => False

end

end Image

/-- Some ILA of the tree has the variable. -/
def HasVar (t : Ila) (v : Var) : Prop := ∃ k, t.Has k v

/-- A map of the variables of a tree that keeps them apart, with their names and sorts, and leaves every
other variable; and a map of its ILAs that keeps them apart. -/
structure IsMap (t : Ila) (f : Var → Var) (g : Nat → Nat) : Prop where
  inj : ∀ v w, HasVar t v → HasVar t w → f v = f w → v = w
  kept : ∀ v, HasVar t v → (f v).name = v.name ∧ (f v).sort = v.sort
  other : ∀ v, ¬HasVar t v → f v = v
  ilas : ∀ n ∈ t.preOrder, ∀ m ∈ t.preOrder, g n.data.id = g m.data.id → n.data.id = m.data.id

/-- The second tree is a copy of the first. -/
def IsCopy (t t' : Ila) : Prop := ∃ f g, IsMap t f g ∧ IsImage f g t t'

/-! ### When the copier makes one -/

/-- A property of each element of a list with those before it. -/
def Along {α : Type} (P : List α → α → Prop) : List α → List α → Prop
  | _, [] => True
  | pre, x :: xs => P (pre ++ [x]) x ∧ Along P (pre ++ [x]) xs

/-- What one ILA must be like when the ILAs up to it have been visited. -/
structure Copyable (t : Ila) (seen : List Ila) (n : Ila) : Prop where
  instrSeq : n.data.instrSeq = []
  decode : ∀ i ∈ n.data.instrs, i.decode ≠ none
  noSignedRem : ∀ e ∈ n.data.exprs ++ n.data.instrs.flatMap Instr.exprs, e.noSignedRem = true
  declared : ∀ e ∈ n.data.exprs ++ n.data.instrs.flatMap Instr.exprs, ∀ v, .var v ∈ e.atoms → HasVar t v →
    ∃ m ∈ seen, ∃ k, v ∈ m.data.vars k
  linked : ∀ i ∈ n.data.instrs, ∀ p, i.program = some p → p = t.data.id ∨ ∃ m ∈ seen, ∃ c ∈ m.childs, c.data.id = p

/-- Every child has all the variables of its parent. -/
def Inherits (t : Ila) : Prop :=
  ∀ n ∈ t.preOrder, ∀ c ∈ n.childs, ∀ k, ∀ v ∈ n.data.vars k, v ∈ c.data.vars k

end CopyTree

end Ilang
