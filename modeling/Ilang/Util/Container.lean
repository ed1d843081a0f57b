import Mathlib.Data.List.Forall2
import Mathlib.Data.List.Nodup

/-!
# Vectors with keys

A vector that is filled by key keeps the first entry under each key. A list of named entries is read by name, which finds
the first entry too. The last parts are about lists that are related element by element, and about maps over lists that stop where
there is no result.
-/

/-- Texts are compared letter by letter. -/
instance lawfulBEqText : LawfulBEq (List Char) := inferInstance

namespace KeyVec

variable {α : Type} {k : α → String}

/-- `KeyVec::push_back`. -/
def pushBack (k : α → String) (l : List α) (x : α) : List α := if k x ∈ l.map k then l else l ++ [x]

theorem pushBack_of_notMem {l : List α} {x : α} (h : k x ∉ l.map k) : pushBack k l x = l ++ [x] := if_neg h

theorem pushBack_of_mem {l : List α} {x : α} (h : k x ∈ l.map k) : pushBack k l x = l := if_pos h

theorem nodup_pushBack {l : List α} {x : α} (h : (l.map k).Nodup) : ((pushBack k l x).map k).Nodup := by
  by_cases hx : k x ∈ l.map k
  · rwa [pushBack_of_mem hx]
  · rw [pushBack_of_notMem hx, List.map_append, List.nodup_append]
    refine ⟨h, by simp, ?_⟩
    simp only [List.map_cons, List.map_nil, List.mem_singleton]
    rintro a ha b rfl rfl
    exact hx ha

theorem foldl_pushBack {l m : List α} (h : ((l ++ m).map k).Nodup) : m.foldl (pushBack k) l = l ++ m := by
  induction m generalizing l with
  | nil => rw [List.foldl_nil, List.append_nil]
  | cons x m ih =>
    have hx : k x ∉ l.map k := by
      rw [List.map_append, List.nodup_append] at h
      exact fun hmem => h.2.2 _ hmem (k x) (by simp) rfl
    rw [List.foldl_cons, pushBack_of_notMem hx, ih (by simpa using h), List.append_assoc, List.singleton_append]

theorem foldl_pushBack_eq_append (l m : List α) : ∃ kept, m.foldl (pushBack k) l = l ++ kept ∧ kept.Sublist m := by
  induction m generalizing l with
  | nil => exact ⟨[], by rw [List.append_nil, List.foldl_nil], .slnil⟩
  | cons x m ih =>
    obtain ⟨kept, heq, hsub⟩ := ih (pushBack k l x)
    rw [List.foldl_cons, heq]
    by_cases hx : k x ∈ l.map k
    · rw [pushBack_of_mem hx]
      exact ⟨kept, rfl, hsub.cons x⟩
    · rw [pushBack_of_notMem hx, List.append_assoc]
      exact ⟨x :: kept, rfl, hsub.cons_cons x⟩

theorem nodup_foldl_pushBack {l m : List α} (h : (l.map k).Nodup) : ((m.foldl (pushBack k) l).map k).Nodup := by
  induction m generalizing l with
  | nil => exact h
  | cons x m ih => exact ih (nodup_pushBack h)

/-- The vector that is filled with the entries of a list. -/
def ofList (k : α → String) (l : List α) : List α := l.foldl (pushBack k) []

theorem ofList_of_nodup {l : List α} (h : (l.map k).Nodup) : ofList k l = l := by
  rw [ofList, foldl_pushBack (by simpa using h), List.nil_append]

theorem nodup_ofList (l : List α) : ((ofList k l).map k).Nodup := by
  have hfold : ∀ m : List α, (m.map k).Nodup → ((l.foldl (pushBack k) m).map k).Nodup := by
    induction l with
    | nil => exact fun m hm => hm
    | cons x l ih => exact fun m hm => ih _ (nodup_pushBack hm)
  exact hfold [] (by simp)

theorem ofList_sublist (l : List α) : (ofList k l).Sublist l := by
  have hfold : ∀ m : List α, (l.foldl (pushBack k) m).Sublist (m ++ l) := by
    induction l with
    | nil => intro m; simp
    | cons x l ih =>
      intro m
      refine (ih _).trans ?_
      by_cases hx : k x ∈ m.map k
      · rw [pushBack_of_mem hx]
        exact (List.sublist_cons_self x l).append_left m
      · rw [pushBack_of_notMem hx, List.append_assoc, List.singleton_append]
  simpa [ofList] using hfold []

theorem mem_of_mem_ofList {l : List α} {x : α} (h : x ∈ ofList k l) : x ∈ l := (ofList_sublist l).subset h

end KeyVec

namespace Entries

variable {κ α : Type} [BEq κ] [LawfulBEq κ] {n : κ} {l : List (κ × α)}

theorem lookup_eq_none_iff : l.lookup n = none ↔ n ∉ l.map Prod.fst := by
  simp only [List.lookup_eq_none_iff, List.mem_map, not_exists, not_and, bne_iff_ne]
  exact ⟨fun h p hp hn => h p hp hn.symm, fun h p hp hn => h p hp hn.symm⟩

theorem exists_lookup (h : n ∈ l.map Prod.fst) : ∃ a, l.lookup n = some a :=
  Option.ne_none_iff_exists'.mp fun hnone => lookup_eq_none_iff.mp hnone h

theorem lookup_of_mem (hnodup : (l.map Prod.fst).Nodup) {p : κ × α} (h : p ∈ l) : l.lookup p.1 = some p.2 := by
  induction l with
  | nil => cases h
  | cons q l ih =>
    rw [List.map_cons, List.nodup_cons] at hnodup
    rcases List.mem_cons.mp h with rfl | h
    · exact List.lookup_cons_self
    · have hne : p.1 ≠ q.1 := fun heq => hnodup.1 (heq ▸ List.mem_map_of_mem h)
      rw [List.lookup_cons, beq_false_of_ne hne]
      exact ih hnodup.2 h

theorem mem_of_lookup {a : α} (h : l.lookup n = some a) : (n, a) ∈ l := by
  induction l with
  | nil => cases h
  | cons q l ih =>
    rw [List.lookup_cons] at h
    split at h
    · rename_i heq
      rw [beq_iff_eq] at heq
      rw [heq, ← Option.some.inj h]
      exact List.mem_cons_self
    · exact List.mem_cons_of_mem q (ih h)

theorem name_mem_of_lookup {a : α} (h : l.lookup n = some a) : n ∈ l.map Prod.fst :=
  List.mem_map_of_mem (f := Prod.fst) (mem_of_lookup h)

omit [LawfulBEq κ] in
theorem lookup_append (m : List (κ × α)) : (l ++ m).lookup n = (l.lookup n).or (m.lookup n) := by
  induction l with
  | nil => rfl
  | cons q l ih =>
    rw [List.cons_append, List.lookup_cons, List.lookup_cons]
    split
    · rfl
    · exact ih

omit [LawfulBEq κ] in
theorem lookup_map {β : Type} (f : α → β) : (l.map fun p => (p.1, f p.2)).lookup n = (l.lookup n).map f := by
  induction l with
  | nil => rfl
  | cons p l ih =>
    rw [List.map_cons, List.lookup_cons, List.lookup_cons]
    split
    · rfl
    · exact ih

theorem lookup_map_name {β : Type} (f : κ → α → β) : (l.map fun p => (p.1, f p.1 p.2)).lookup n = (l.lookup n).map (f n) := by
  induction l with
  | nil => rfl
  | cons p l ih =>
    rw [List.map_cons, List.lookup_cons, List.lookup_cons]
    split
    · rename_i heq
      rw [beq_iff_eq.mp heq]
      rfl
    · exact ih

theorem lookup_ofList {n : String} {l : List (String × α)} : (KeyVec.ofList Prod.fst l).lookup n = l.lookup n := by
  have hfold : ∀ m : List (String × α), (l.foldl (KeyVec.pushBack Prod.fst) m).lookup n = (m.lookup n).or (l.lookup n) := by
    induction l with
    | nil =>
      intro m
      rw [List.foldl_nil, List.lookup_nil, Option.or_none]
    | cons p l ih =>
      intro m
      rw [List.foldl_cons, ih]
      by_cases hp : p.1 ∈ m.map Prod.fst
      · rw [KeyVec.pushBack_of_mem hp, List.lookup_cons]
        split
        · rename_i heq
          rw [beq_iff_eq] at heq
          obtain ⟨a, ha⟩ := exists_lookup (heq ▸ hp)
          rw [ha, Option.some_or, Option.some_or]
        · rfl
      · rw [KeyVec.pushBack_of_notMem hp, lookup_append, Option.or_assoc, ← lookup_append, List.singleton_append]
  simpa [KeyVec.ofList] using hfold []

end Entries

namespace Pointwise

variable {α β γ : Type} {R : α → β → Prop} {as : List α} {bs : List β}

theorem exists_left (h : List.Forall₂ R as bs) {b : β} (hb : b ∈ bs) : ∃ a ∈ as, R a b := by
  induction h with
  | nil => exact absurd hb List.not_mem_nil
  | @cons a b' as bs hab _ ih =>
    rcases List.mem_cons.mp hb with rfl | hb
    · exact ⟨a, List.mem_cons_self, hab⟩
    · obtain ⟨a', ha', hR⟩ := ih hb
      exact ⟨a', List.mem_cons_of_mem a ha', hR⟩

theorem exists_right (h : List.Forall₂ R as bs) {a : α} (ha : a ∈ as) : ∃ b ∈ bs, R a b := by
  have hflip : List.Forall₂ (flip R) bs as := List.Forall₂.flip h
  exact exists_left hflip ha

theorem comp {Q : β → γ → Prop} {P : α → γ → Prop} (hP : ∀ a b c, R a b → Q b c → P a c) {cs : List γ} (h : List.Forall₂ R as bs)
    (h' : List.Forall₂ Q bs cs) : List.Forall₂ P as cs := by
  induction h generalizing cs with
  | nil =>
    cases h'
    exact .nil
  | cons hR _ ih =>
    cases h' with
    | cons hQ hrest => exact .cons (hP _ _ _ hR hQ) (ih hrest)

theorem imp_of_mem {Q : α → β → Prop} (hQ : ∀ a ∈ as, ∀ b, R a b → Q a b) (h : List.Forall₂ R as bs) : List.Forall₂ Q as bs := by
  induction h with
  | nil => exact .nil
  | cons hR _ ih => exact .cons (hQ _ List.mem_cons_self _ hR) (ih fun a ha => hQ a (List.mem_cons_of_mem _ ha))

theorem and {Q : α → β → Prop} (h : List.Forall₂ R as bs) (h' : List.Forall₂ Q as bs) :
    List.Forall₂ (fun a b => R a b ∧ Q a b) as bs := by
  induction h with
  | nil => exact .nil
  | cons hR _ ih =>
    cases h' with
    | cons hQ hrest => exact .cons ⟨hR, hQ⟩ (ih hrest)

end Pointwise

namespace MapM

variable {α β : Type} {f : α → Option β} {as : List α}

theorem eq_some_iff {bs : List β} : as.mapM f = some bs ↔ List.Forall₂ (fun a b => f a = some b) as bs := by
  induction as generalizing bs with
  | nil => simp [eq_comm]
  | cons a as ih =>
    rw [List.mapM_cons, List.forall₂_cons_left_iff]
    cases f a with
    | none => simp
    | some b =>
      cases h : as.mapM f with
      | none => simp [← ih, h]
      | some bs' => simp [← ih, h, eq_comm]

theorem exists_eq_some (h : ∀ a ∈ as, ∃ b, f a = some b) : ∃ bs, as.mapM f = some bs := by
  induction as with
  | nil => exact ⟨[], rfl⟩
  | cons a as ih =>
    obtain ⟨b, hb⟩ := h a List.mem_cons_self
    obtain ⟨bs, hbs⟩ := ih fun a' ha' => h a' (List.mem_cons_of_mem a ha')
    exact ⟨b :: bs, by rw [List.mapM_cons, hb, hbs]; rfl⟩

theorem exists_of_mem {bs : List β} (h : as.mapM f = some bs) {b : β} (hb : b ∈ bs) : ∃ a ∈ as, f a = some b :=
  Pointwise.exists_left (eq_some_iff.mp h) hb

theorem isSome_of_mem {bs : List β} (h : as.mapM f = some bs) {a : α} (ha : a ∈ as) : (f a).isSome := by
  obtain ⟨b, -, hb⟩ := Pointwise.exists_right (eq_some_iff.mp h) ha
  exact Option.isSome_iff_exists.mpr ⟨b, hb⟩

theorem forall_mem {bs : List β} (h : as.mapM f = some bs) {P : β → Prop} :
    (∀ b ∈ bs, P b) ↔ ∀ a ∈ as, ∀ b, f a = some b → P b := by
  constructor
  · intro hall a ha b hb
    obtain ⟨c, hc, hac⟩ := Pointwise.exists_right (eq_some_iff.mp h) ha
    obtain rfl : c = b := Option.some.inj (hac.symm.trans hb)
    exact hall c hc
  · intro hall b hb
    obtain ⟨a, ha, hab⟩ := exists_of_mem h hb
    exact hall a ha b hab

theorem id_map_some (g : α → β) (as : List α) : (as.map fun a => some (g a)).mapM id = some (as.map g) := by
  rw [eq_some_iff, List.forall₂_map_left_iff, List.forall₂_map_right_iff, List.forall₂_same]
  exact fun a _ => rfl

theorem id_map_some_self (as : List α) : (as.map some).mapM id = some as := by
  rw [eq_some_iff, List.forall₂_map_left_iff, List.forall₂_same]
  exact fun a _ => rfl

theorem id_eq_some_iff {os : List (Option α)} : os.mapM id = some as ↔ os = as.map some := by
  constructor
  · intro h
    have hall := eq_some_iff.mp h
    clear h
    induction hall with
    | nil => rfl
    | cons ha _ ih => rw [List.map_cons, ← ih, ← ha, id]
  · rintro rfl
    exact id_map_some_self as

end MapM
