import Ilang.Ila.Abs

/-!
# Hierarchies

What holds of a tree of ILAs however it was built: a variable that several ILAs have was passed down from
the one that declared it, names are unique in their ILA, and nothing has two identities.
-/

namespace Ilang

inductive Kind where
  | input
  | state
  deriving DecidableEq

def IlaData.vars (d : IlaData) : Kind → List Var
  | .input => d.inputs
  | .state => d.states

namespace Instr

def exprs (i : Instr) : List Expr := i.decode.toList ++ i.updates.filterMap Prod.snd

/-- The expressions are well-sorted, the updates are not null, and there is a name. -/
structure Proper (i : Instr) : Prop where
  sorted : ∀ e ∈ i.exprs, e.check ≠ none
  decode : ∀ e, i.decode = some e → e.check = some .bool
  update : ∀ u ∈ i.updates, u.2 ≠ none
  name : i.name ≠ ""

end Instr

/-- The expressions that an ILA holds for itself. -/
def IlaData.exprs (d : IlaData) : List Expr := d.inits ++ d.fetch.toList ++ d.valid.toList

namespace Ila

@[simp] theorem data_mk (d : IlaData) (cs : List Ila) : (Ila.mk d cs).data = d := rfl

@[simp] theorem childs_mk (d : IlaData) (cs : List Ila) : (Ila.mk d cs).childs = cs := rfl

@[elab_as_elim]
theorem ind {P : Ila → Prop} (mk : ∀ d cs, (∀ c ∈ cs, P c) → P (.mk d cs)) : ∀ t, P t
  | .mk d cs => mk d cs fun c _ => ind mk c

mutual

/-- The ILAs of a tree, each with its children, in the order of `DepthFirstVisitPrePost`. -/
def preOrder : Ila → List Ila
  | .mk d cs => .mk d cs :: preOrderList cs

def preOrderList : List Ila → List Ila
  | [] => []
  | c :: cs => preOrder c ++ preOrderList cs

end

theorem mem_preOrderList {cs : List Ila} {n : Ila} : n ∈ preOrderList cs ↔ ∃ c ∈ cs, n ∈ c.preOrder := by
  induction cs with
  | nil => simp [preOrderList]
  | cons c cs ih => simp [preOrderList, ih]

theorem preOrderList_append (as bs : List Ila) : preOrderList (as ++ bs) = preOrderList as ++ preOrderList bs := by
  induction as with
  | nil => rfl
  | cons a as ih => rw [List.cons_append, preOrderList, preOrderList, ih, List.append_assoc]

theorem mem_preOrder_mk {d : IlaData} {cs : List Ila} {n : Ila} :
    n ∈ (Ila.mk d cs).preOrder ↔ n = .mk d cs ∨ ∃ c ∈ cs, n ∈ c.preOrder := by
  rw [preOrder, List.mem_cons, mem_preOrderList]

theorem mem_preOrder_self (t : Ila) : t ∈ t.preOrder := by
  cases t
  exact mem_preOrder_mk.mpr (.inl rfl)

theorem mem_preOrder_of_below {t n : Ila} (h : n ∈ preOrderList t.childs) : n ∈ t.preOrder := by
  cases t
  exact mem_preOrder_mk.mpr (.inr (mem_preOrderList.mp h))

theorem mem_preOrder_iff {t n : Ila} : n ∈ t.preOrder ↔ n = t ∨ n ∈ preOrderList t.childs := by
  cases t
  rw [preOrder, List.mem_cons, childs_mk]

theorem mem_postOrder {t : Ila} {d : IlaData} : d ∈ t.postOrder ↔ ∃ n ∈ t.preOrder, n.data = d := by
  have hlist : ∀ cs : List Ila, d ∈ postOrderList cs ↔ ∃ c ∈ cs, d ∈ c.postOrder := by
    intro cs
    induction cs with
    | nil => simp [postOrderList]
    | cons c cs ih => simp [postOrderList, ih]
  induction t using ind with
  | mk e cs ih =>
    rw [postOrder, List.mem_append, List.mem_singleton, hlist]
    simp only [mem_preOrder_mk, or_and_right, exists_or, exists_eq_left, data_mk]
    rw [or_comm, eq_comm]
    refine or_congr_right ⟨?_, ?_⟩
    · rintro ⟨c, hc, hd⟩
      obtain ⟨n, hn, hnd⟩ := (ih c hc).mp hd
      exact ⟨n, ⟨c, hc, hn⟩, hnd⟩
    · rintro ⟨n, ⟨c, hc, hn⟩, hnd⟩
      exact ⟨c, hc, (ih c hc).mpr ⟨n, hn, hnd⟩⟩

theorem mem_postOrderList {cs : List Ila} {d : IlaData} : d ∈ postOrderList cs ↔ ∃ n ∈ preOrderList cs, n.data = d := by
  induction cs with
  | nil => simp [postOrderList, preOrderList]
  | cons c cs ih => simp only [postOrderList, preOrderList, List.mem_append, mem_postOrder, ih, or_and_right, exists_or]

theorem forall_mem_preOrder_mk {d : IlaData} {cs : List Ila} {P : Ila → Prop} :
    (∀ n ∈ (Ila.mk d cs).preOrder, P n) ↔ P (.mk d cs) ∧ ∀ c ∈ cs, ∀ n ∈ c.preOrder, P n := by
  simp only [mem_preOrder_mk, or_imp, forall_and, forall_eq, forall_exists_index, and_imp]
  exact and_congr_right fun _ => ⟨fun h c hc n hn => h n c hc hn, fun h n c hc hn => h c hc n hn⟩

theorem exists_parent {t m : Ila} : (∃ n ∈ t.preOrder, m ∈ n.childs) ↔ m ∈ preOrderList t.childs := by
  induction t using ind with
  | mk d cs ih =>
    simp only [mem_preOrder_mk, or_and_right, exists_or, exists_eq_left, childs_mk, mem_preOrderList]
    constructor
    · rintro (hm | ⟨n, ⟨c, hc, hn⟩, hm⟩)
      · exact ⟨m, hm, m.mem_preOrder_self⟩
      · refine ⟨c, hc, ?_⟩
        exact mem_preOrder_of_below ((ih c hc).mp ⟨n, hn, hm⟩)
    · rintro ⟨c, hc, hm⟩
      cases c with
      | mk e es =>
        rcases mem_preOrder_mk.mp hm with rfl | hbelow
        · exact .inl hc
        · obtain ⟨n, hn, hmn⟩ := (ih _ hc).mpr (mem_preOrderList.mpr hbelow)
          exact .inr ⟨n, ⟨_, hc, hn⟩, hmn⟩

theorem nodup_childs_of_preOrder {t : Ila} (h : (t.preOrder.map fun n => n.data.id).Nodup) :
    (t.childs.map fun c => c.data.id).Nodup := by
  have hsub : ∀ cs : List Ila, (cs.map fun c => c.data.id).Sublist ((preOrderList cs).map fun n => n.data.id) := by
    intro cs
    induction cs with
    | nil => exact .slnil
    | cons c cs ih =>
      cases c with
      | mk d es =>
        rw [preOrderList, preOrder, List.map_cons, List.cons_append, List.map_cons, List.map_append]
        exact .cons_cons _ (ih.trans (List.sublist_append_right _ _))
  cases t with
  | mk d cs =>
    rw [preOrder, List.map_cons, List.nodup_cons] at h
    exact h.2.sublist (hsub cs)

/-- Some ILA of the tree has the variable. -/
def Has (t : Ila) (k : Kind) (v : Var) : Prop := ∃ n ∈ t.preOrder, v ∈ n.data.vars k

theorem has_mk {d : IlaData} {cs : List Ila} {k : Kind} {v : Var} :
    (Ila.mk d cs).Has k v ↔ v ∈ d.vars k ∨ ∃ c ∈ cs, c.Has k v := by
  simp only [Has, mem_preOrder_mk, or_and_right, exists_or, exists_eq_left, data_mk]
  refine or_congr_right ⟨?_, ?_⟩
  · rintro ⟨n, ⟨c, hc, hn⟩, hv⟩
    exact ⟨c, hc, n, hn, hv⟩
  · rintro ⟨c, hc, n, hn, hv⟩
    exact ⟨n, ⟨c, hc, hn⟩, hv⟩

theorem has_of_mem {t : Ila} {k : Kind} {v : Var} (h : v ∈ t.data.vars k) : t.Has k v :=
  ⟨t, t.mem_preOrder_self, h⟩

/-- A variable is shared by passing it down: what the subtree of a child has in common with its parent or
with another child, the child or the parent has. -/
structure Shares (n : Ila) : Prop where
  names : ∀ k, ((n.data.vars k).map Var.name).Nodup
  down : ∀ k, ∀ c ∈ n.childs, ∀ v ∈ n.data.vars k, c.Has k v → v ∈ c.data.vars k
  apart : ∀ k, n.childs.Pairwise fun c c' => ∀ v, c.Has k v → c'.Has k v → v ∈ n.data.vars k

/-- The expressions of an ILA are well-sorted and its names are not taken twice. -/
structure Proper (n : Ila) : Prop where
  sorted : ∀ e ∈ n.data.exprs, e.check ≠ none
  instr : ∀ i ∈ n.data.instrs, i.Proper
  instrNames : (n.data.instrs.map Instr.name).Nodup
  childNames : (n.childs.map fun c => c.data.name).Nodup

/-- A tree whose identities are below a bound. -/
structure WellFormed (next : Nat) (t : Ila) : Prop where
  shares : ∀ n ∈ t.preOrder, n.Shares
  proper : ∀ n ∈ t.preOrder, n.Proper
  varId : ∀ k v, t.Has k v → v.id < next
  kinds : ∀ v, t.Has .input v → ¬t.Has .state v
  ilaId : ∀ n ∈ t.preOrder, n.data.id < next
  ilaIds : (t.preOrder.map fun n => n.data.id).Nodup

end Ila

end Ilang
