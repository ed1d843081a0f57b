import Ilang.Mngr.CondStore

/-!
# Rewriting loads of stores

`RewriteStoreLoad` means to replace a load from a single store by a choice between the datum of the store and a load
from the memory below. Its function object has a `RewriteOp` for this, which takes the expression by value where the
virtual function of the base class takes a reference. So it overrides nothing, `Rewrite` calls the `RewriteOp` of the
base class, and the pass rebuilds every expression as it is.
-/

namespace Ilang

open Smt

namespace Expr

mutual

/-- The expression and all the expressions below it. -/
def parts : Expr → List Expr
  | .var v => [.var v]
  | .const c => [.const c]
  | .op o args => .op o args :: partsList args
  | .appFunc f args => .appFunc f args :: partsList args

def partsList : List Expr → List Expr
  | [] => []
  | a :: as => parts a ++ partsList as

end

/-- A variable or a constant. -/
def isLeaf : Expr → Bool
  | .var _ => true
  | .const _ => true
  | _ => false

/-- A load from a store to a memory variable or a memory constant. -/
def IsLoadOfStore (e : Expr) : Prop := ∃ m a d b, e = .op .load [.op .store [m, a, d], b] ∧ m.isLeaf = true

end Expr

namespace StoreLoad

/-- The `RewriteOp` that `FuncObjRewrStoreLoad` has in its table of virtual functions. -/
def rewriteOp : RewriteOp := rewriteOpBase

/-- `Rewr` of the pass, which leaves a null pointer as it is. -/
def rewr : Rewr RewrExpr
  | none, s => some (none, s)
  | some e, s => s.rewr rewriteOp e

def isOp : Node → Bool
  | .app .. => true
  | .leaf .. => false

/-- What the pass makes of an expression: the same expression, with every operation made anew. -/
structure Image (base : Nat) (n n' : Node) : Prop where
  expr : n'.expr = n.expr
  fresh : ∀ m ∈ n'.subs, isOp m = true → base ≤ m.ptr

theorem Image.eval {base : Nat} {n n' : Node} (h : Image base n n') (ν : Valuation) :
    n'.expr.eval ν = n.expr.eval ν := by
  rw [h.expr]

theorem exprList_entries {get : Node → Option (Option Node)} {heap : Nat → Node} {next base : Nat}
    {args args' : List Node} (h : List.Forall₂ (Entry get heap next (Image base)) args args') :
    Node.exprList args' = Node.exprList args := by
  induction h with
  | nil => rfl
  | cons hentry _ ih => rw [Node.exprList, Node.exprList, hentry.img.expr, ih]

theorem forall_entries {get : Node → Option (Option Node)} {heap : Nat → Node} {next base : Nat}
    {args args' : List Node} (h : List.Forall₂ (Entry get heap next (Image base)) args args') :
    ∀ a ∈ args', a.Closed heap next ∧ ∀ m ∈ a.subs, isOp m = true → base ≤ m.ptr := by
  induction h with
  | nil => simp
  | cons hentry _ ih => exact List.forall_mem_cons.mpr ⟨⟨hentry.closed, hentry.img.fresh⟩, ih⟩

theorem rewriteOp_spec (base : Nat) : rewriteOp.Spec base (Image base) := by
  constructor
  · intro p l
    refine ⟨rfl, fun m hm hop => ?_⟩
    rw [Node.mem_subs_leaf.mp hm] at hop
    cases hop
  · intro heap next get p h args args' s hbase hcheck hrem hentries
    have hexpr : (Node.app next h args').expr = (Node.app p h args).expr := by
      cases h with
      | op o => rw [Node.expr, Node.expr, exprList_entries hentries]
      | appFunc f => rw [Node.expr, Node.expr, exprList_entries hentries]
    have hargs := forall_entries hentries
    obtain ⟨hext, hclosed⟩ := Node.closed_app (fun a ha => (hargs a ha).1) h
    have hop := rewriteOpBase_eq hrem hentries (hexpr ▸ hcheck)
    refine ⟨_, _, _, hop, hext, hclosed, hexpr, fun m hm hmop => ?_⟩
    rcases Node.mem_subs_app.mp hm with rfl | ⟨a, ha, hma⟩
    · exact hbase
    · exact (hargs a ha).2 m hma hmop

end StoreLoad

/-- `RewriteStoreLoad`. The pointers from `next` on are free. -/
def rewriteStoreLoad (t : NodeIla) (next : Nat) : Option NodeIla :=
  (rewriteGeneric StoreLoad.rewr t (.init next)).map Prod.fst

/-- The job of the pass: the values stay, every operation at any depth is rewritten (it is a new node), and no load from
a store to a variable or a constant is left. -/
structure StoreLoad.Done (next : Nat) (t t' : NodeIla) : Prop where
  related : t.Related (fun e e' => (∀ ν : Valuation, e'.expr.eval ν = e.expr.eval ν) ∧
    ∀ m ∈ e'.subs, StoreLoad.isOp m = true → next ≤ m.ptr) t'
  clean : ∀ e ∈ t'.exprs, ∀ x ∈ e.expr.parts, ¬x.IsLoadOfStore

/-- The pass goes through every hierarchy whose expressions the rewriter handles, and does its job exactly when there
was nothing to do. -/
theorem rewriteStoreLoad_done_iff (heap : Nat → Node) (next : Nat) (t : NodeIla) (ht : t.Legal true heap next) :
    ∃ t', rewriteStoreLoad t next = some t' ∧
      (StoreLoad.Done next t t' ↔ ∀ e ∈ t.exprs, ∀ x ∈ e.expr.parts, ¬x.IsLoadOfStore) := by
  obtain ⟨t', s', hrun, hrel⟩ := ht.pass (f := StoreLoad.rewr) (P := StoreLoad.Image next)
    (StoreLoad.rewriteOp_spec next) (fun himg h => himg.expr ▸ h) (fun himg => himg) (fun _ _ => rfl) fun _ _ => rfl
  obtain ⟨t'', s'', hrun', hvalues⟩ := ht.pass (f := StoreLoad.rewr) (StoreLoad.rewriteOp_spec next)
    (fun himg h => himg.expr ▸ h) (fun himg => And.intro himg.eval himg.fresh) (fun _ _ => rfl) fun _ _ => rfl
  obtain ⟨rfl, -⟩ := Prod.mk.inj (Option.some.inj (hrun.symm.trans hrun'))
  have hmap : t'.exprs.map Node.expr = t.exprs.map Node.expr := by
    have hforall := hrel.forall₂
    generalize t.exprs = es at hforall
    generalize t'.exprs = es' at hforall
    induction hforall with
    | nil => rfl
    | cons himg _ ih => rw [List.map_cons, List.map_cons, himg.expr, ih]
  have hclean : (∀ e ∈ t'.exprs, ∀ x ∈ e.expr.parts, ¬x.IsLoadOfStore) ↔
      ∀ e ∈ t.exprs, ∀ x ∈ e.expr.parts, ¬x.IsLoadOfStore := by
    rw [← List.forall_mem_map (f := Node.expr) (P := fun e => ∀ x ∈ e.parts, ¬x.IsLoadOfStore), hmap, List.forall_mem_map]
  refine ⟨t', by rw [rewriteStoreLoad, hrun, Option.map_some], ?_⟩
  constructor
  · intro hdone
    exact hclean.mp hdone.clean
  · intro hnone
    exact ⟨hvalues, hclean.mpr hnone⟩

namespace StoreLoad

/-- What is read from a memory to which a datum was just written. -/
def readAfterWrite : Node := .app 5 (.op .load) [CondStore.write, CondStore.datum]

/-- What is read from a memory as it is. -/
def readMemory : Node := .app 5 (.op .load) [CondStore.memory, CondStore.address]

def readerHeap (read : Node) : Nat → Node
  | 5 => read
  | p => CondStore.writerHeap p

/-- An ILA with one instruction, which loads a datum and has a null update for the memory. -/
def reader (read : Node) : NodeIla :=
  .mk ⟨"top", some CondStore.enable, none, [⟨"read", some CondStore.enable, [("d", some read), ("m", none)]⟩]⟩ []

theorem reader_legal {read : Node} (hread : read.Closed (readerHeap read) 6) (hcheck : ∃ s, read.expr.check = some s)
    (hrem : read.expr.noSignedRem = true) : (reader read).Legal true (readerHeap read) 6 := by
  have hexprs : (reader read).exprs = [CondStore.enable, CondStore.enable, read] := rfl
  have henable : CondStore.enable.Closed (readerHeap read) 6 := by
    constructor
    · intro n hn
      obtain rfl := Node.mem_subs_leaf.mp hn
      rfl
    · intro n hn
      obtain rfl := Node.mem_subs_leaf.mp hn
      decide
  constructor
  · refine .mk (fun i hi => ?_) (by simp)
    obtain rfl := List.mem_singleton.mp hi
    exact ⟨⟨CondStore.enable, rfl, rfl⟩, fun h => nomatch h⟩
  · simp only [hexprs, List.forall_mem_cons]
    exact ⟨henable, henable, hread, by simp⟩
  · simp only [hexprs, List.forall_mem_cons]
    exact ⟨⟨.bool, rfl⟩, ⟨.bool, rfl⟩, hcheck, by simp⟩
  · simp only [hexprs, List.forall_mem_cons]
    exact ⟨rfl, rfl, hrem, by simp⟩

theorem closed_of_subs {read : Node} {l : List Node} (hsubs : read.subs = l)
    (hl : ∀ n ∈ l, readerHeap read n.ptr = n ∧ n.ptr < 6) : read.Closed (readerHeap read) 6 where
  inHeap n hn := (hl n (hsubs ▸ hn)).1
  lt n hn := (hl n (hsubs ▸ hn)).2

end StoreLoad

/-- A load from a variable stays, and the pass has nothing to do. -/
theorem rewriteStoreLoad_done_reader :
    ∃ t', rewriteStoreLoad (StoreLoad.reader StoreLoad.readMemory) 6 = some t' ∧
      StoreLoad.Done 6 (StoreLoad.reader StoreLoad.readMemory) t' := by
  have hclosed : StoreLoad.readMemory.Closed (StoreLoad.readerHeap StoreLoad.readMemory) 6 :=
    StoreLoad.closed_of_subs (l := [StoreLoad.readMemory, CondStore.memory, CondStore.address]) rfl (by
      simp only [List.forall_mem_cons]
      exact ⟨⟨rfl, by decide⟩, ⟨rfl, by decide⟩, ⟨rfl, by decide⟩, by simp⟩)
  obtain ⟨t', ht', hdone⟩ := rewriteStoreLoad_done_iff (StoreLoad.readerHeap StoreLoad.readMemory) 6
    (StoreLoad.reader StoreLoad.readMemory) (StoreLoad.reader_legal hclosed ⟨.bv 8, rfl⟩ rfl)
  refine ⟨t', ht', hdone.mpr ?_⟩
  have hexprs : (StoreLoad.reader StoreLoad.readMemory).exprs = [CondStore.enable, CondStore.enable, StoreLoad.readMemory] := rfl
  have hload : StoreLoad.readMemory.expr.parts =
      [.op .load [CondStore.memory.expr, CondStore.address.expr], CondStore.memory.expr, CondStore.address.expr] := rfl
  have henable : CondStore.enable.expr.parts = [CondStore.enable.expr] := rfl
  rw [hexprs]
  simp only [List.forall_mem_cons, hload, henable]
  simp [CondStore.enable, CondStore.memory, CondStore.address, Node.expr, Expr.IsLoadOfStore]

/-- A load from a single store is still there after the pass. -/
theorem rewriteStoreLoad_reader_not_done :
    (StoreLoad.reader StoreLoad.readAfterWrite).Legal true (StoreLoad.readerHeap StoreLoad.readAfterWrite) 6 ∧
      ∃ t', rewriteStoreLoad (StoreLoad.reader StoreLoad.readAfterWrite) 6 = some t' ∧
        ¬StoreLoad.Done 6 (StoreLoad.reader StoreLoad.readAfterWrite) t' := by
  refine ⟨StoreLoad.reader_legal (StoreLoad.closed_of_subs (l := [StoreLoad.readAfterWrite, CondStore.write, CondStore.memory,
    CondStore.address, CondStore.datum, CondStore.datum]) rfl ?_) ⟨.bv 8, rfl⟩ rfl, _, rfl, fun hdone => ?_⟩
  · simp only [List.forall_mem_cons]
    exact ⟨⟨rfl, by decide⟩, ⟨rfl, by decide⟩, ⟨rfl, by decide⟩, ⟨rfl, by decide⟩, ⟨rfl, by decide⟩, ⟨rfl, by decide⟩, by simp⟩
  · have hclean := hdone.clean (.app 7 (.op .load) [.app 6 (.op .store) [CondStore.memory, CondStore.address, CondStore.datum],
      CondStore.datum]) (.tail _ (.tail _ (.head _))) _ (.head _)
    exact hclean ⟨_, _, _, _, rfl, rfl⟩

end Ilang
