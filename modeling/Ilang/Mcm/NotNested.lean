import Ilang.Ila.Node
import Ilang.Mcm.MemoryModel

/-!
# Queries for nested memory accesses

A `NestedMemAddrDataAvoider` is asked whether no load or store of an expression is below another one. The memory model keeps one
object for all its queries. The object keeps a flag, that the traversal is below a memory access, and the nodes that were found to
have a nested access, by their pointers. A traversal that ends at a nested access leaves the flag set.
-/

namespace Ilang

namespace Mcm

open Smt

/-- `NestedMemAddrDataAvoider`. -/
structure NestedMemAddrDataAvoider where
  map : Nat → Option Bool
  inAddrOrData : Bool

/-- A node that is an `ExprOpLoad` or an `ExprOpStore`. -/
def isLoadStore : Head → Bool
  | .op .load => true
  | .op .store => true
  | _ => false

namespace NestedMemAddrDataAvoider

def new : NestedMemAddrDataAvoider := ⟨fun _ => none, false⟩

def setFlag (s : NestedMemAddrDataAvoider) (h : Head) (b : Bool) : NestedMemAddrDataAvoider :=
  if isLoadStore h then { s with inAddrOrData := b } else s

/-- `map_.insert({node.get(), false})`, which keeps what is there. -/
def insert (s : NestedMemAddrDataAvoider) (p : Nat) : NestedMemAddrDataAvoider :=
  { s with map := Function.update s.map p (some ((s.map p).getD false)) }

mutual

/-- `NotNested`: the answer and the object after the query. -/
def notNested : Node → NestedMemAddrDataAvoider → Bool × NestedMemAddrDataAvoider
  | .leaf p _, s => ((s.map p).isNone, s)
  | .app p h args, s =>
    if (s.map p).isSome then (false, s)
    else if isLoadStore h && s.inAddrOrData then (false, s)
    else
      let r := notNestedArgs args (s.setFlag h true)
      if r.1 then (true, r.2.setFlag h false) else (false, r.2.insert p)

/-- The loop over the arguments, which stops at the first one with a nested access. -/
def notNestedArgs : List Node → NestedMemAddrDataAvoider → Bool × NestedMemAddrDataAvoider
  | [], s => (true, s)
  | a :: as, s =>
    let r := notNested a s
    if r.1 then notNestedArgs as r.2 else (false, r.2)

end

/-- The answers to a sequence of queries. -/
def answers : List Node → NestedMemAddrDataAvoider → List Bool
  | [], _ => []
  | q :: qs, s => (notNested q s).1 :: answers qs (notNested q s).2

end NestedMemAddrDataAvoider

/-! ### What a query asks -/

/-- A load or a store occurs in the node. -/
def Accesses (n : Node) : Prop := ∃ p h args, Node.app p h args ∈ n.subs ∧ isLoadStore h = true

/-- A load or a store occurs strictly below another one. -/
def Nested (n : Node) : Prop :=
  ∃ p h args, Node.app p h args ∈ n.subs ∧ isLoadStore h = true ∧ ∃ a ∈ args, Accesses a

theorem not_accesses_leaf (p : Nat) (l : Leaf) : ¬ Accesses (.leaf p l) := by
  rintro ⟨q, h, args, hm, -⟩
  simp [Node.subs] at hm

theorem not_nested_leaf (p : Nat) (l : Leaf) : ¬ Nested (.leaf p l) := by
  rintro ⟨q, h, args, hm, -⟩
  simp [Node.subs] at hm

theorem accesses_app {p : Nat} {h : Head} {args : List Node} :
    Accesses (.app p h args) ↔ isLoadStore h = true ∨ ∃ a ∈ args, Accesses a := by
  constructor
  · intro ⟨q, k, bs, hm, hk⟩
    rcases Node.mem_subs_app.mp hm with heq | ⟨a, ha, hma⟩
    · cases heq
      exact .inl hk
    · exact .inr ⟨a, ha, q, k, bs, hma, hk⟩
  · intro hcase
    rcases hcase with hh | ⟨a, ha, q, k, bs, hm, hk⟩
    · exact ⟨p, h, args, Node.mem_subs_self _, hh⟩
    · exact ⟨q, k, bs, Node.mem_subs_of_arg ha hm, hk⟩

theorem nested_app {p : Nat} {h : Head} {args : List Node} :
    Nested (.app p h args) ↔ (isLoadStore h = true ∧ ∃ a ∈ args, Accesses a) ∨ ∃ a ∈ args, Nested a := by
  constructor
  · intro ⟨q, k, bs, hm, hk, hb⟩
    rcases Node.mem_subs_app.mp hm with heq | ⟨a, ha, hma⟩
    · cases heq
      exact .inl ⟨hk, hb⟩
    · exact .inr ⟨a, ha, q, k, bs, hma, hk, hb⟩
  · intro hcase
    rcases hcase with ⟨hh, hb⟩ | ⟨a, ha, q, k, bs, hm, hk, hb⟩
    · exact ⟨p, h, args, Node.mem_subs_self _, hh, hb⟩
    · exact ⟨q, k, bs, Node.mem_subs_of_arg ha hm, hk, hb⟩

theorem Nested.accesses {n : Node} (h : Nested n) : Accesses n := by
  obtain ⟨p, hd, args, hm, hmem, -⟩ := h
  exact ⟨p, hd, args, hm, hmem⟩

/-! ### One query -/

namespace NestedMemAddrDataAvoider

variable {heap : Nat → Node} {s : NestedMemAddrDataAvoider}

/-- The flag is set for good: what is in the map has an access. -/
structure Stuck (heap : Nat → Node) (s : NestedMemAddrDataAvoider) : Prop where
  flag : s.inAddrOrData = true
  mapped : ∀ p, (s.map p).isSome = true → Accesses (heap p)

/-- The outcome of a traversal that looks for `bad`: nothing changes when there is none, and the object is stuck when there is. -/
structure Finds (heap : Nat → Node) (bad : Prop) (s : NestedMemAddrDataAvoider) (r : Bool × NestedMemAddrDataAvoider) :
    Prop where
  absent : ¬ bad → r = (true, s)
  present : bad → r.1 = false ∧ Stuck heap r.2

theorem Finds.congr {bad bad' : Prop} {r : Bool × NestedMemAddrDataAvoider} (h : Finds heap bad s r) (heq : bad ↔ bad') :
    Finds heap bad' s r :=
  ⟨fun hn => h.absent fun hb => hn (heq.mp hb), fun hb => h.present (heq.mpr hb)⟩

theorem Finds.args {bad : Node → Prop} {args : List Node} (h : ∀ a ∈ args, Finds heap (bad a) s (notNested a s)) :
    Finds heap (∃ a ∈ args, bad a) s (notNestedArgs args s) := by
  induction args with
  | nil => exact ⟨fun _ => rfl, fun ⟨a, ha, _⟩ => absurd ha List.not_mem_nil⟩
  | cons a as ih =>
    have hhead := h a List.mem_cons_self
    have htail := ih fun b hb => h b (List.mem_cons_of_mem a hb)
    by_cases hbad : bad a
    · obtain ⟨hfalse, hstuck⟩ := hhead.present hbad
      have hrun : notNestedArgs (a :: as) s = (false, (notNested a s).2) := by
        rw [notNestedArgs, if_neg (by rw [hfalse]; exact Bool.false_ne_true)]
      refine ⟨fun hn => absurd ⟨a, List.mem_cons_self, hbad⟩ hn, fun _ => ?_⟩
      rw [hrun]
      exact ⟨rfl, hstuck⟩
    · have hrun : notNestedArgs (a :: as) s = notNestedArgs as s := by
        rw [notNestedArgs, hhead.absent hbad, if_pos rfl]
      rw [hrun]
      exact htail.congr (by simp [hbad])

theorem Stuck.insert (h : Stuck heap s) {p : Nat} (hp : Accesses (heap p)) : Stuck heap (s.insert p) := by
  refine ⟨h.flag, fun q hq => ?_⟩
  by_cases hqp : q = p
  · rw [hqp]
    exact hp
  · have hsame : (s.insert p).map q = s.map q := Function.update_of_ne hqp _ _
    rw [hsame] at hq
    exact h.mapped q hq

theorem Finds.app {p : Nat} {h : Head} {args : List Node} {bad : Prop} {t : NestedMemAddrDataAvoider}
    (hargs : Finds heap bad t (notNestedArgs args t)) (ht : s.setFlag h true = t) (hback : t.setFlag h false = s)
    (hmap : (s.map p).isSome = false) (hflag : (isLoadStore h && s.inAddrOrData) = false)
    (hacc : bad → Accesses (heap p)) : Finds heap bad s (notNested (.app p h args) s) := by
  have hrun : notNested (.app p h args) s =
      if (notNestedArgs args t).1 then (true, (notNestedArgs args t).2.setFlag h false)
      else (false, (notNestedArgs args t).2.insert p) := by
    rw [notNested, hmap, hflag, ht]
    rfl
  rw [hrun]
  refine ⟨fun hn => ?_, fun hb => ?_⟩
  · rw [hargs.absent hn, if_pos rfl, hback]
  · obtain ⟨hfalse, hstuck⟩ := hargs.present hb
    rw [hfalse, if_neg Bool.false_ne_true]
    exact ⟨rfl, hstuck.insert (hacc hb)⟩

theorem Stuck.finds (hs : Stuck heap s) {n : Node} (hn : n.InHeap heap) : Finds heap (Accesses n) s (notNested n s) := by
  have hcached : ∀ m : Node, m.InHeap heap → ¬ Accesses m → (s.map m.ptr).isSome = false := by
    intro m hm hacc
    by_contra hsome
    refine hacc ?_
    have hin := hs.mapped m.ptr (Bool.eq_true_of_not_eq_false hsome)
    rwa [hm m m.mem_subs_self] at hin
  induction n using Node.ind with
  | leaf p l =>
    have hnone := hcached _ hn (not_accesses_leaf p l)
    refine ⟨fun _ => ?_, fun h => absurd h (not_accesses_leaf p l)⟩
    rw [notNested, Prod.mk.injEq]
    exact ⟨by simpa [Node.ptr] using hnone, rfl⟩
  | app p h args ih =>
    have hheap : heap p = .app p h args := hn _ (Node.mem_subs_self _)
    by_cases hmap : (s.map p).isSome = true
    · have hacc : Accesses (.app p h args) := by
        rw [← hheap]
        exact hs.mapped p hmap
      refine ⟨fun hno => absurd hacc hno, fun _ => ?_⟩
      rw [notNested, if_pos hmap]
      exact ⟨rfl, hs⟩
    · by_cases hh : isLoadStore h = true
      · refine ⟨fun hno => absurd (accesses_app.mpr (.inl hh)) hno, fun _ => ?_⟩
        rw [notNested, if_neg hmap, if_pos (by rw [hh, hs.flag]; rfl)]
        exact ⟨rfl, hs⟩
      · have hset : ∀ b, s.setFlag h b = s := fun b => by rw [setFlag, if_neg hh]
        have hargs := Finds.args fun a ha => ih a ha (hn.arg ha)
        refine (hargs.app (hset true) (hset false) (by simpa using hmap) (by simp [hh]) fun hb => ?_).congr ?_
        · rw [hheap]
          exact accesses_app.mpr (.inr hb)
        · rw [accesses_app]
          exact (or_iff_right hh).symm

theorem stuck_setFlag {h : Head} (hh : isLoadStore h = true) : Stuck heap (new.setFlag h true) := by
  rw [setFlag, if_pos hh]
  exact ⟨rfl, fun p hp => absurd hp (by simp [new])⟩

theorem finds_new {n : Node} (hn : n.InHeap heap) : Finds heap (Nested n) new (notNested n new) := by
  induction n using Node.ind with
  | leaf p l => exact ⟨fun _ => rfl, fun h => absurd h (not_nested_leaf p l)⟩
  | app p h args ih =>
    have hheap : heap p = .app p h args := hn _ (Node.mem_subs_self _)
    by_cases hh : isLoadStore h = true
    · have hargs := Finds.args fun a ha => (stuck_setFlag hh).finds (hn.arg ha)
      have hback : (new.setFlag h true).setFlag h false = new := by
        simp only [setFlag, hh, if_true]
        rfl
      refine (hargs.app rfl hback rfl (by simp [new]) fun hb => ?_).congr ?_
      · rw [hheap]
        exact accesses_app.mpr (.inr hb)
      · rw [nested_app]
        refine ⟨fun hb => .inl ⟨hh, hb⟩, fun hcase => ?_⟩
        rcases hcase with ⟨-, hb⟩ | ⟨a, ha, hb⟩
        · exact hb
        · exact ⟨a, ha, hb.accesses⟩
    · have hset : ∀ b, new.setFlag h b = new := fun b => by rw [setFlag, if_neg hh]
      have hargs := Finds.args fun a ha => ih a ha (hn.arg ha)
      refine (hargs.app (hset true) (hset false) rfl (by simp [new]) fun hb => ?_).congr ?_
      · rw [hheap]
        obtain ⟨a, ha, hb⟩ := hb
        exact accesses_app.mpr (.inr ⟨a, ha, hb.accesses⟩)
      · rw [nested_app]
        refine ⟨.inr, fun hcase => ?_⟩
        rcases hcase with ⟨hload, -⟩ | hb
        · exact absurd hload hh
        · exact hb

theorem notNestedList_iff {b : Bool} {bad : Node → Prop} {args : List Node}
    (h : ∀ a ∈ args, Mcm.notNested b a.expr = true ↔ ¬ bad a) :
    notNestedList b (Node.exprList args) = true ↔ ¬ ∃ a ∈ args, bad a := by
  induction args with
  | nil => simp [Node.exprList, notNestedList]
  | cons a as ih =>
    have hhead := h a List.mem_cons_self
    have htail := ih fun c hc => h c (List.mem_cons_of_mem a hc)
    simp only [Node.exprList, notNestedList, Bool.and_eq_true, hhead, htail, List.exists_mem_cons_iff, not_or]

theorem notNested_expr_app {b : Bool} {p : Nat} {h : Head} {args : List Node} :
    Mcm.notNested b (Node.app p h args).expr =
      if isLoadStore h then !b && notNestedList true (Node.exprList args) else notNestedList b (Node.exprList args) := by
  cases h with
  | appFunc f => rfl
  | op o => cases o <;> rfl

theorem notNested_true_iff (n : Node) : Mcm.notNested true n.expr = true ↔ ¬ Accesses n := by
  induction n using Node.ind with
  | leaf p l => cases l <;> exact iff_of_true rfl (not_accesses_leaf p _)
  | app p h args ih =>
    rw [notNested_expr_app, accesses_app]
    by_cases hh : isLoadStore h = true
    · simp [hh]
    · rw [if_neg hh, notNestedList_iff ih]
      simp [hh]

theorem notNested_false_iff (n : Node) : Mcm.notNested false n.expr = true ↔ ¬ Nested n := by
  induction n using Node.ind with
  | leaf p l => cases l <;> exact iff_of_true rfl (not_nested_leaf p _)
  | app p h args ih =>
    rw [notNested_expr_app, nested_app]
    by_cases hh : isLoadStore h = true
    · rw [if_pos hh, Bool.not_false, Bool.true_and, notNestedList_iff fun a _ => notNested_true_iff a]
      refine not_congr ⟨fun hb => .inl ⟨hh, hb⟩, fun hcase => ?_⟩
      rcases hcase with ⟨-, hb⟩ | ⟨a, ha, hb⟩
      · exact hb
      · exact ⟨a, ha, hb.accesses⟩
    · rw [if_neg hh, notNestedList_iff ih]
      simp [hh]

theorem notNested_new {n : Node} (hn : n.InHeap heap) : (notNested n new).1 = Mcm.notNested false n.expr := by
  by_cases hbad : Nested n
  · rw [((finds_new hn).present hbad).1, Bool.eq_false_iff.mpr fun h => (notNested_false_iff n).mp h hbad]
  · rw [(finds_new hn).absent hbad, (notNested_false_iff n).mpr hbad]

/-! ### Sequences of queries -/

/-- Every answer is true exactly when the expression asked about has no nested access. -/
def Exact (answers : List Bool) (queries : List Node) : Prop :=
  List.Forall₂ (fun b q => b = true ↔ ¬ Nested q) answers queries

theorem Stuck.exact_iff (hs : Stuck heap s) {qs : List Node} (hqs : ∀ q ∈ qs, q.InHeap heap) :
    Exact (answers qs s) qs ↔ ∀ q ∈ qs, Nested q ∨ ¬ Accesses q := by
  induction qs generalizing s with
  | nil => simp [Exact, answers]
  | cons q qs ih =>
    have hq := hs.finds (hqs q List.mem_cons_self)
    have hrest : ∀ r ∈ qs, r.InHeap heap := fun r hr => hqs r (List.mem_cons_of_mem q hr)
    have hanswer : (notNested q s).1 = true ↔ ¬ Accesses q := by
      by_cases hacc : Accesses q
      · simp [(hq.present hacc).1, hacc]
      · simp [hq.absent hacc, hacc]
    have hnext : Stuck heap (notNested q s).2 := by
      by_cases hacc : Accesses q
      · exact (hq.present hacc).2
      · rw [hq.absent hacc]
        exact hs
    rw [Exact, answers, List.forall₂_cons, hanswer, ← Exact, ih hnext hrest, List.forall_mem_cons]
    refine and_congr_left' ?_
    by_cases hnest : Nested q
    · simp [hnest, hnest.accesses]
    · simp [hnest]

/-- The answers to a sequence of queries are right exactly when after a nested expression only such expressions are asked about
that are nested too or have no load and no store. -/
theorem answers_exact_iff {qs : List Node} (hqs : ∀ q ∈ qs, q.InHeap heap) :
    Exact (answers qs new) qs ↔ qs.Pairwise fun p q => Nested p → Nested q ∨ ¬ Accesses q := by
  induction qs with
  | nil => simp [Exact, answers]
  | cons q qs ih =>
    have hq := finds_new (hqs q List.mem_cons_self)
    have hrest : ∀ r ∈ qs, r.InHeap heap := fun r hr => hqs r (List.mem_cons_of_mem q hr)
    rw [Exact, answers, List.forall₂_cons, ← Exact, List.pairwise_cons]
    by_cases hnest : Nested q
    · obtain ⟨hfalse, hstuck⟩ := hq.present hnest
      rw [hfalse, hstuck.exact_iff hrest]
      refine ⟨fun h => ⟨fun r hr _ => h.2 r hr, ?_⟩, fun h => ⟨by simp [hnest], fun r hr => h.1 r hr hnest⟩⟩
      exact List.pairwise_of_forall_mem_list fun _ _ r hr _ => h.2 r hr
    · rw [hq.absent hnest, ih hrest]
      simp [hnest]

section Loads

/-- A load at an address, and a load at the address that it gives. -/
def memory : Node := .leaf 0 (.var ⟨0, "m", none, .mem 8 8⟩)

def address : Node := .leaf 1 (.var ⟨1, "a", none, .bv 8⟩)

def plain : Node := .app 2 (.op .load) [memory, address]

def indirect : Node := .app 3 (.op .load) [memory, plain]

def loadHeap (p : Nat) : Node := if p = 0 then memory else if p = 1 then address else if p = 2 then plain else indirect

theorem inHeap_load {p : Nat} {arg : Node} (hp : loadHeap p = .app p (.op .load) [memory, arg])
    (harg : arg.InHeap loadHeap) : (Node.app p (.op .load) [memory, arg]).InHeap loadHeap := by
  intro m hm
  rw [Node.mem_subs_app] at hm
  rcases hm with rfl | ⟨a, ha, hma⟩
  · exact hp
  · simp only [List.mem_cons, List.not_mem_nil, or_false] at ha
    rcases ha with rfl | rfl
    · rw [memory, Node.mem_subs_leaf] at hma
      rw [hma]
      rfl
    · exact harg m hma

theorem plain_inHeap : plain.InHeap loadHeap := by
  refine inHeap_load rfl fun m hm => ?_
  rw [address, Node.mem_subs_leaf] at hm
  rw [hm]
  rfl

theorem indirect_inHeap : indirect.InHeap loadHeap := inHeap_load rfl plain_inHeap

theorem plain_not_nested : ¬ Nested plain := by
  rw [plain, nested_app]
  simp [memory, address, not_accesses_leaf, not_nested_leaf]

theorem loads_inHeap : ∀ q ∈ [plain, indirect], q.InHeap loadHeap := by
  simp [plain_inHeap, indirect_inHeap]

theorem exact_plain_indirect : Exact (answers [plain, indirect] new) [plain, indirect] :=
  (answers_exact_iff loads_inHeap).mpr (by simp [plain_not_nested])

/-- After the question about the nested load, the answer for the other one is false. -/
theorem not_exact_indirect_plain : ¬ Exact (answers [indirect, plain] new) [indirect, plain] := by
  intro h
  rw [Exact, answers, answers, List.forall₂_cons, List.forall₂_cons] at h
  exact Bool.false_ne_true (h.2.1.mpr plain_not_nested)

end Loads

end NestedMemAddrDataAvoider

end Mcm

end Ilang
