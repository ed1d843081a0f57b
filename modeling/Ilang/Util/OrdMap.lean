import Mathlib
import Ilang.Util.Container

/-!
# Ordered maps

`std::map`: the entries stand in the order of their keys, and a key has one entry.
-/

namespace Ilang

structure OrdMap (κ α : Type) [LinearOrder κ] where
  entries : List (κ × α)
  sorted : entries.Pairwise fun p q => p.1 < q.1

namespace OrdMap

variable {κ α : Type} [LinearOrder κ]

def empty : OrdMap κ α := ⟨[], .nil⟩

def find? (m : OrdMap κ α) (k : κ) : Option α := m.entries.lookup k

/-- The entry of a key is made from what is there. -/
def alterList (k : κ) (f : Option α → α) : List (κ × α) → List (κ × α)
  | [] => [(k, f none)]
  | p :: l => if k < p.1 then (k, f none) :: p :: l else if p.1 < k then p :: alterList k f l else (k, f (some p.2)) :: l

variable {k k' : κ} {f : Option α → α} {l : List (κ × α)}

theorem fst_alterList {p : κ × α} (h : p ∈ alterList k f l) : p.1 = k ∨ p.1 ∈ l.map Prod.fst := by
  induction l with
  | nil =>
    rw [alterList, List.mem_singleton] at h
    exact .inl (congrArg Prod.fst h)
  | cons q l ih =>
    rw [alterList] at h
    split_ifs at h with hlt hgt
    · rcases List.mem_cons.mp h with rfl | h
      · exact .inl rfl
      · exact .inr (List.mem_map_of_mem h)
    · rcases List.mem_cons.mp h with rfl | h
      · exact .inr List.mem_cons_self
      · exact (ih h).imp_right (List.mem_cons_of_mem _)
    · rcases List.mem_cons.mp h with rfl | h
      · exact .inl rfl
      · exact .inr (List.mem_cons_of_mem _ (List.mem_map_of_mem h))

theorem pairwise_alterList (h : l.Pairwise fun p q => p.1 < q.1) : (alterList k f l).Pairwise fun p q => p.1 < q.1 := by
  induction l with
  | nil => exact List.pairwise_singleton _ _
  | cons q l ih =>
    have hq {p : κ × α} (hp : p ∈ l) : q.1 < p.1 := List.rel_of_pairwise_cons h hp
    rw [alterList]
    split_ifs with hlt hgt
    · refine List.pairwise_cons.mpr ⟨fun p hp => ?_, h⟩
      rcases List.mem_cons.mp hp with rfl | hp
      · exact hlt
      · exact hlt.trans (hq hp)
    · refine List.pairwise_cons.mpr ⟨fun p hp => ?_, ih h.of_cons⟩
      rcases fst_alterList hp with heq | hmem
      · rw [heq]
        exact hgt
      · obtain ⟨r, hr, heq⟩ := List.mem_map.mp hmem
        rw [← heq]
        exact hq hr
    · obtain rfl : k = q.1 := le_antisymm (le_of_not_gt hgt) (le_of_not_gt hlt)
      exact List.pairwise_cons.mpr ⟨fun p hp => hq hp, h.of_cons⟩

theorem lookup_eq_none_of_lt (h : ∀ p ∈ l, k < p.1) : l.lookup k = none := by
  rw [Entries.lookup_eq_none_iff]
  intro hmem
  obtain ⟨p, hp, rfl⟩ := List.mem_map.mp hmem
  exact lt_irrefl _ (h p hp)

theorem lookup_alterList (h : l.Pairwise fun p q => p.1 < q.1) :
    (alterList k f l).lookup k' = if k' = k then some (f (l.lookup k)) else l.lookup k' := by
  have hfirst (x : α) (l : List (κ × α)) : ((k, x) :: l).lookup k' = if k' = k then some x else l.lookup k' := by
    rw [List.lookup_cons]
    by_cases heq : k' = k
    · rw [if_pos heq, heq, beq_self_eq_true]
    · rw [if_neg heq, beq_false_of_ne heq]
  induction l with
  | nil => exact hfirst _ _
  | cons q l ih =>
    have hq {p : κ × α} (hp : p ∈ l) : q.1 < p.1 := List.rel_of_pairwise_cons h hp
    rw [alterList]
    rcases lt_trichotomy k q.1 with hlt | heq | hgt
    · have hnone : (q :: l).lookup k = none := by
        refine lookup_eq_none_of_lt fun p hp => ?_
        rcases List.mem_cons.mp hp with rfl | hp
        · exact hlt
        · exact hlt.trans (hq hp)
      rw [if_pos hlt, hfirst, hnone]
    · rw [if_neg heq.not_lt, if_neg heq.not_gt, hfirst, heq, List.lookup_cons_self, List.lookup_cons]
      by_cases hk : k' = q.1
      · rw [if_pos hk, if_pos hk]
      · rw [if_neg hk, if_neg hk, beq_false_of_ne hk]
    · rw [if_neg hgt.le.not_gt, if_pos hgt, List.lookup_cons, List.lookup_cons, List.lookup_cons, ih h.of_cons]
      rw [beq_false_of_ne hgt.ne']
      by_cases hk : k' = q.1
      · rw [hk, beq_self_eq_true]
        exact (if_neg hgt.ne).symm
      · rw [beq_false_of_ne hk]

def alter (m : OrdMap κ α) (k : κ) (f : Option α → α) : OrdMap κ α := ⟨alterList k f m.entries, pairwise_alterList m.sorted⟩

/-- `emplace`, which leaves an entry that is there as it is. -/
def emplace (m : OrdMap κ α) (k : κ) (x : α) : OrdMap κ α := m.alter k fun o => o.getD x

/-- An assignment to `operator[]`. -/
def assign (m : OrdMap κ α) (k : κ) (x : α) : OrdMap κ α := m.alter k fun _ => x

def erase (m : OrdMap κ α) (k : κ) : OrdMap κ α := ⟨m.entries.filter fun p => p.1 ≠ k, m.sorted.filter _⟩

variable {m : OrdMap κ α} {x : α}

theorem find?_alter : (m.alter k f).find? k' = if k' = k then some (f (m.find? k)) else m.find? k' := lookup_alterList m.sorted

theorem find?_emplace : (m.emplace k x).find? k' = if k' = k then some ((m.find? k).getD x) else m.find? k' := find?_alter

theorem find?_assign : (m.assign k x).find? k' = if k' = k then some x else m.find? k' := find?_alter

@[simp] theorem find?_empty : (empty : OrdMap κ α).find? k = none := rfl

theorem find?_foldl_emplace (l : List (κ × α)) (m : OrdMap κ α) :
    (l.foldl (fun m p => m.emplace p.1 p.2) m).find? k = (m.find? k).or (l.lookup k) := by
  induction l generalizing m with
  | nil => simp
  | cons p l ih =>
    rw [List.foldl_cons, ih, find?_emplace, List.lookup_cons]
    by_cases hk : k = p.1
    · rw [if_pos hk, hk, beq_self_eq_true]
      cases m.find? p.1 <;> rfl
    · rw [if_neg hk, beq_false_of_ne hk]

theorem find?_foldl_assign (l : List (κ × α)) (m : OrdMap κ α) :
    (l.foldl (fun m p => m.assign p.1 p.2) m).find? k = (l.reverse.lookup k).or (m.find? k) := by
  induction l generalizing m with
  | nil => simp
  | cons p l ih =>
    rw [List.foldl_cons, ih, find?_assign, List.reverse_cons, Entries.lookup_append, List.lookup_cons, Option.or_assoc]
    by_cases hk : k = p.1
    · rw [if_pos hk, hk, beq_self_eq_true]
      rfl
    · rw [if_neg hk, beq_false_of_ne hk]
      rfl

theorem nodup_keys (m : OrdMap κ α) : (m.entries.map Prod.fst).Nodup :=
  (List.pairwise_map.mpr m.sorted).imp fun h => h.ne

theorem mem_entries {p : κ × α} : p ∈ m.entries ↔ m.find? p.1 = some p.2 :=
  ⟨Entries.lookup_of_mem m.nodup_keys, Entries.mem_of_lookup⟩

theorem find?_erase : (m.erase k).find? k' = if k' = k then none else m.find? k' := by
  refine Option.ext fun x => ?_
  have hmem : (k', x) ∈ (m.erase k).entries ↔ (k', x) ∈ m.entries ∧ k' ≠ k := by
    rw [erase, List.mem_filter, decide_eq_true_iff]
  rw [mem_entries, mem_entries] at hmem
  by_cases hk : k' = k
  · rw [if_pos hk, hmem]
    exact iff_of_false (fun h => h.2 hk) (Option.some_ne_none x ∘ Eq.symm)
  · rw [if_neg hk, hmem]
    exact and_iff_left hk

theorem lookup_map_entries {β : Type} (f : α → β) : (m.entries.map fun p => (p.1, f p.2)).lookup k = (m.find? k).map f :=
  Entries.lookup_map f

theorem ext_find? {m n : OrdMap κ α} (h : ∀ k, m.find? k = n.find? k) : m = n := by
  have hperm : m.entries.Perm n.entries := by
    refine (List.perm_ext_iff_of_nodup m.nodup_keys.of_map n.nodup_keys.of_map).mpr fun p => ?_
    rw [mem_entries, mem_entries, h]
  have hentries : m.entries = n.entries :=
    hperm.eq_of_pairwise (fun p q _ _ hpq hqp => absurd hpq hqp.not_gt) m.sorted n.sorted
  obtain ⟨ms, hm⟩ := m
  obtain ⟨ns, hn⟩ := n
  obtain rfl : ms = ns := hentries
  rfl

theorem mem_of_mem_foldl_emplace {l : List (κ × α)} {p : κ × α}
    (h : p ∈ (l.foldl (fun m p => m.emplace p.1 p.2) empty).entries) : p ∈ l := by
  rw [mem_entries, find?_foldl_emplace, find?_empty, Option.none_or] at h
  exact Entries.mem_of_lookup h

theorem alterList_map {β : Type} (g : α → β) {k : κ} {x : α} (l : List (κ × α)) :
    alterList k (fun o => o.getD (g x)) (l.map fun p => (p.1, g p.2)) =
      (alterList k (fun o => o.getD x) l).map fun p => (p.1, g p.2) := by
  induction l with
  | nil => rfl
  | cons p l ih =>
    rw [List.map_cons, alterList, alterList]
    split_ifs
    · rfl
    · rw [List.map_cons, ih]
    · rfl

theorem entries_foldl_emplace_map {β : Type} (g : α → β) (l : List (κ × α)) :
    ((l.map fun p => (p.1, g p.2)).foldl (fun m p => m.emplace p.1 p.2) empty).entries =
      (l.foldl (fun m p => m.emplace p.1 p.2) empty).entries.map fun p => (p.1, g p.2) := by
  have hfold (m : OrdMap κ α) (n : OrdMap κ β) (h : n.entries = m.entries.map fun p => (p.1, g p.2)) :
      ((l.map fun p => (p.1, g p.2)).foldl (fun m p => m.emplace p.1 p.2) n).entries =
        (l.foldl (fun m p => m.emplace p.1 p.2) m).entries.map fun p => (p.1, g p.2) := by
    induction l generalizing m n with
    | nil => exact h
    | cons p l ih =>
      refine ih (m.emplace p.1 p.2) (n.emplace p.1 (g p.2)) ?_
      change alterList p.1 _ n.entries = _
      rw [h]
      exact alterList_map g m.entries
  exact hfold empty empty rfl

theorem foldl_emplace_entries (m : OrdMap κ α) : m.entries.foldl (fun m p => m.emplace p.1 p.2) empty = m := by
  refine ext_find? fun k => ?_
  rw [find?_foldl_emplace, find?_empty, Option.none_or]
  rfl

end OrdMap

end Ilang
