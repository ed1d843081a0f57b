import Ilang.Ila.VarShape
import Ilang.Util.Name

/-!
# Names of the leaves

`Make` names every variable by the path to it: each member name and each index stands between two underscores, behind
the name of the object. An underscore in a member name can be one of these, so the name of one member can go on where
the name of another one ends and spell the beginning of a path into it.
-/

namespace Ilang

/-- One step of a path: a member name or an index between underscores. -/
def pathStep (word : String) (path : List Char) : List Char := '_' :: (word.toList ++ '_' :: path)

namespace VarSort

mutual

/-- What the leaves of a sort are called behind the name of the object, in their order. -/
def paths : VarSort → List (List Char)
  | .null => []
  | .bool | .bv _ | .mem _ _ => [[]]
  | .vec da n => (List.range n).flatMap fun k => (paths da).map (pathStep (toString k))
  | .struct ms => memberPaths ms

def memberPaths : List (String × VarSort) → List (List Char)
  | [] => []
  | (m, s) :: ms => (paths s).map (pathStep m) ++ memberPaths ms

end

/-- The name of the second member goes on behind the name of the first one and an underscore, as a path into the first
one begins, and the rest of this path is a path into the second one. -/
def Spells (m m' : String × VarSort) : Prop :=
  ∃ u, m'.1.toList = m.1.toList ++ '_' :: u ∧ ∃ q ∈ m'.2.paths, u ++ '_' :: q ∈ m.2.paths

mutual

/-- No member name spells out a path into another member of its structure, at any level that has variables. -/
def Clear : VarSort → Prop
  | .vec da n => n = 0 ∨ Clear da
  | .struct ms => ms.Pairwise (fun m m' => ¬Spells m m' ∧ ¬Spells m' m) ∧ ClearAll ms
  | _ => True

def ClearAll : List (String × VarSort) → Prop
  | [] => True
  | (_, s) :: ms => Clear s ∧ ClearAll ms

end

end VarSort

namespace VarContainer

mutual

/-- The variables of a container, in the order of a visit. -/
def leaves : VarContainer → List LeafExpr
  | .null => []
  | .primitive e => [e]
  | .vector _ cs => leavesAll cs
  | .struct _ ms => leavesMembers ms

def leavesAll : List VarContainer → List LeafExpr
  | [] => []
  | c :: cs => leaves c ++ leavesAll cs

def leavesMembers : List (String × VarContainer) → List LeafExpr
  | [] => []
  | (_, c) :: ms => leaves c ++ leavesMembers ms

end

end VarContainer

/-! ### Paths -/

theorem pathStep_inj {w w' : String} {p p' : List Char} (hw : '_' ∉ w.toList) (hw' : '_' ∉ w'.toList)
    (h : pathStep w p = pathStep w' p') : w = w' := by
  have hsplit := List.append_eq_append_iff.mp (List.cons.inj h).2
  rcases hsplit with ⟨a, ha, hrest⟩ | ⟨a, ha, hrest⟩
  · cases a with
    | nil =>
      rw [List.append_nil] at ha
      exact (String.toList_injective ha).symm
    | cons c a =>
      obtain ⟨rfl, -⟩ := List.cons.inj hrest
      exact absurd (by simp [ha]) hw'
  · cases a with
    | nil =>
      rw [List.append_nil] at ha
      exact String.toList_injective ha
    | cons c a =>
      obtain ⟨rfl, -⟩ := List.cons.inj hrest
      exact absurd (by simp [ha]) hw

theorem pathStep_injective (w : String) : Function.Injective (pathStep w) := by
  intro p p' h
  exact (List.cons.inj (List.append_cancel_left (List.cons.inj h).2)).2

namespace VarSort

theorem memberPaths_eq (ms : List (String × VarSort)) :
    memberPaths ms = ms.flatMap fun m => m.2.paths.map (pathStep m.1) := by
  induction ms with
  | nil => rfl
  | cons m ms ih => rw [memberPaths, ih, List.flatMap_cons]

theorem clearAll_iff {ms : List (String × VarSort)} : ClearAll ms ↔ ∀ m ∈ ms, m.2.Clear := by
  induction ms with
  | nil => simp [ClearAll]
  | cons m ms ih => simp [ClearAll, ih]

/-- The paths through two members of different names meet exactly where one name spells out a path into the other. -/
theorem disjoint_iff {m m' : String × VarSort} (hne : m.1 ≠ m'.1) :
    List.Disjoint (m.2.paths.map (pathStep m.1)) (m'.2.paths.map (pathStep m'.1)) ↔ ¬Spells m m' ∧ ¬Spells m' m := by
  have hmeet : ∀ {m m' : String × VarSort}, Spells m m' →
      ∃ x ∈ m.2.paths.map (pathStep m.1), x ∈ m'.2.paths.map (pathStep m'.1) := by
    rintro m m' ⟨u, hu, q, hq, hp⟩
    refine ⟨pathStep m'.1 q, List.mem_map.mpr ⟨_, hp, ?_⟩, List.mem_map_of_mem hq⟩
    rw [pathStep, pathStep, hu, List.append_assoc, List.cons_append]
  constructor
  · intro hdisj
    refine ⟨fun hs => ?_, fun hs => ?_⟩
    · obtain ⟨x, hx, hx'⟩ := hmeet hs
      exact hdisj hx hx'
    · obtain ⟨x, hx, hx'⟩ := hmeet hs
      exact hdisj hx' hx
  · rintro ⟨hns, hns'⟩ x hx hx'
    obtain ⟨p, hp, rfl⟩ := List.mem_map.mp hx
    obtain ⟨q, hq, heq⟩ := List.mem_map.mp hx'
    have hsplit := List.append_eq_append_iff.mp (List.cons.inj heq).2
    rcases hsplit with ⟨a, ha, hrest⟩ | ⟨a, ha, hrest⟩
    · cases a with
      | nil =>
        rw [List.append_nil] at ha
        exact hne (String.toList_injective ha)
      | cons c u =>
        obtain ⟨rfl, hq'⟩ := List.cons.inj hrest
        exact hns' ⟨u, ha, p, hp, (show q = u ++ '_' :: p from hq') ▸ hq⟩
    · cases a with
      | nil =>
        rw [List.append_nil] at ha
        exact hne (String.toList_injective ha).symm
      | cons c u =>
        obtain ⟨rfl, hp'⟩ := List.cons.inj hrest
        exact hns ⟨u, ha, q, hq, (show p = u ++ '_' :: q from hp') ▸ hp⟩

mutual

theorem nodup_paths : ∀ (t : VarSort), t.Ok → (t.paths.Nodup ↔ t.Clear)
  | .null, h => by simp [Ok] at h
  | .bool, _ | .bv _, _ | .mem _ _, _ => by simp [paths, Clear]
  | .vec da n, h => by
    rw [Ok] at h
    have hmap : ∀ k : Nat, ((paths da).map (pathStep (toString k))).Nodup ↔ (paths da).Nodup := fun k =>
      List.nodup_map_iff (pathStep_injective _)
    have hdisj : (List.range n).Pairwise (Function.onFun List.Disjoint fun k : Nat => (paths da).map (pathStep (toString k))) := by
      refine List.nodup_range.imp fun {j k} hjk x hx hx' => ?_
      obtain ⟨p, -, rfl⟩ := List.mem_map.mp hx
      obtain ⟨q, -, heq⟩ := List.mem_map.mp hx'
      have hnot : ∀ i : Nat, '_' ∉ (toString i).toList := fun i hi => by simpa using Name.isDigit_of_mem_toString hi
      exact hjk (Name.toString_nat_inj (pathStep_inj (hnot k) (hnot j) heq).symm)
    rw [paths, List.nodup_flatMap, Clear, and_iff_left hdisj, ← nodup_paths da h]
    constructor
    · intro hall
      refine (Nat.eq_zero_or_pos n).imp_right fun hpos => ?_
      exact (hmap 0).mp (hall 0 (List.mem_range.mpr hpos))
    · rintro (rfl | hda) k hk
      · cases hk
      · exact (hmap k).mpr hda
  | .struct ms, h => by
    rw [Ok, okAll_iff] at h
    have hmap : ∀ m : String × VarSort, (m.2.paths.map (pathStep m.1)).Nodup ↔ m.2.paths.Nodup := fun m =>
      List.nodup_map_iff (pathStep_injective _)
    have hpair : ms.Pairwise (Function.onFun List.Disjoint fun m => m.2.paths.map (pathStep m.1)) ↔
        ms.Pairwise fun m m' => ¬Spells m m' ∧ ¬Spells m' m := by
      have hnames : ms.Pairwise fun m m' => m.1 ≠ m'.1 := List.pairwise_map.mp h.1
      constructor
      · intro hdisj
        exact (hdisj.and hnames).imp fun hm => (disjoint_iff hm.2).mp hm.1
      · intro hspells
        exact (hspells.and hnames).imp fun hm => (disjoint_iff hm.2).mpr hm.1
    rw [paths, memberPaths_eq, List.nodup_flatMap, Clear, clearAll_iff, hpair, and_comm]
    refine and_congr_right fun _ => forall₂_congr fun m hm => ?_
    rw [hmap]
    exact nodup_memberPaths ms h.2 m hm

theorem nodup_memberPaths : ∀ (ms : List (String × VarSort)), (∀ m ∈ ms, m.2.Ok) → ∀ m ∈ ms, (m.2.paths.Nodup ↔ m.2.Clear)
  | [], _, m, hm => absurd hm List.not_mem_nil
  | (n, s) :: ms, hok, m, hm => by
    rcases List.mem_cons.mp hm with rfl | hm
    · exact nodup_paths s (hok (n, s) List.mem_cons_self)
    · exact nodup_memberPaths ms (fun m' hm' => hok m' (List.mem_cons_of_mem _ hm')) m hm

end

end VarSort

/-! ### Construction -/

theorem mapCount_exists {α β : Type} {Q : α → β → Prop} {f : α → Nat → Option (β × Nat)} {as : List α}
    (h : ∀ a ∈ as, ∀ j, ∃ b j', f a j = some (b, j') ∧ Q a b) (i : Nat) :
    ∃ bs i', mapCount f as i = some (bs, i') ∧ List.Forall₂ Q as bs := by
  induction as generalizing i with
  | nil => exact ⟨[], i, rfl, .nil⟩
  | cons a as ih =>
    obtain ⟨b, j, hb, hq⟩ := h a List.mem_cons_self i
    obtain ⟨bs, i', hbs, hall⟩ := ih (fun a' ha' => h a' (List.mem_cons_of_mem a ha')) j
    exact ⟨b :: bs, i', by simp only [mapCount, hb, Option.bind_some, hbs, Option.map_some], .cons hq hall⟩

namespace VarContainer

/-- The names of the variables of a container. -/
def leafNames (c : VarContainer) : List (List Char) := c.leaves.map fun e => e.name.toList

def memberNames (ms : List (String × VarContainer)) : List (List Char) := (leavesMembers ms).map fun e => e.name.toList

/-- The variables are called by the name of the object and their paths. -/
def Named (name : String) (t : VarSort) (c : VarContainer) : Prop := c.leafNames = t.paths.map fun p => name.toList ++ p

theorem map_pathStep (name w : String) (ps : List (List Char)) :
    (ps.map fun p => (name ++ "_" ++ w ++ "_").toList ++ p) = (ps.map (pathStep w)).map fun p => name.toList ++ p := by
  rw [List.map_map]
  refine List.map_congr_left fun p _ => ?_
  simp [pathStep, String.toList_append]

theorem leafNames_vector {t da : VarSort} {name : String} {ks : List Nat} {cs : List VarContainer}
    (h : List.Forall₂ (fun k c => Named (name ++ "_" ++ toString k ++ "_") da c) ks cs) :
    (vector t cs).leafNames = (ks.flatMap fun k => da.paths.map (pathStep (toString k))).map fun p => name.toList ++ p := by
  induction h with
  | nil => rfl
  | @cons k c ks cs hc _ ih =>
    rw [Named, map_pathStep] at hc
    rw [leafNames] at hc ih ⊢
    rw [leaves] at ih ⊢
    rw [leavesAll, List.map_append, hc, ih, List.flatMap_cons, List.map_append]

mutual

theorem make_named : ∀ (t : VarSort), t.Ok → ∀ (name : String) (i : Nat),
    ∃ c i', make t name i = some (c, i') ∧ Named name t c
  | .null, h, _, _ => by simp [VarSort.Ok] at h
  | .bool, _, name, i | .bv _, _, name, i | .mem _ _, _, name, i =>
    ⟨_, _, by rw [make], by simp [Named, leafNames, leaves, VarSort.paths]⟩
  | .vec da n, h, name, i => by
    rw [VarSort.Ok] at h
    obtain ⟨cs, i', hcs, hall⟩ := @mapCount_exists _ _ _ _ (List.range n)
      (fun k _ j => make_named da h (name ++ "_" ++ toString k ++ "_") j) i
    exact ⟨_, i', by rw [make, hcs, Option.map_some], by rw [Named, VarSort.paths]; exact leafNames_vector hall⟩
  | .struct ms, h, name, i => by
    rw [VarSort.Ok, VarSort.okAll_iff] at h
    obtain ⟨l, i', hl, hnames⟩ := makeMembers_named ms h.2 name i
    exact ⟨_, i', by rw [make, hl, Option.map_some], by rw [Named, leafNames, leaves, VarSort.paths]; exact hnames⟩

theorem makeMembers_named : ∀ (ms : List (String × VarSort)), (∀ m ∈ ms, m.2.Ok) → ∀ (name : String) (i : Nat),
    ∃ l i', makeMembers ms name i = some (l, i') ∧
      memberNames l = (VarSort.memberPaths ms).map fun p => name.toList ++ p
  | [], _, name, i => ⟨[], i, by rw [makeMembers], rfl⟩
  | (m, s) :: ms, h, name, i => by
    obtain ⟨c, j, hc, hnamed⟩ := make_named s (h (m, s) List.mem_cons_self) (name ++ "_" ++ m ++ "_") i
    obtain ⟨l, i', hl, hnames⟩ := makeMembers_named ms (fun m' hm' => h m' (List.mem_cons_of_mem _ hm')) name j
    refine ⟨(m, c) :: l, i', by simp only [makeMembers, hc, Option.bind_some, hl, Option.map_some], ?_⟩
    rw [Named, leafNames, map_pathStep] at hnamed
    rw [memberNames] at hnames ⊢
    rw [leavesMembers, List.map_append, hnamed, hnames, VarSort.memberPaths, List.map_append]

end

end VarContainer

/-- `Make` gives the variables pairwise distinct names exactly when no member name spells out a path into another
member. -/
theorem make_names_nodup_iff {t : VarSort} (h : t.Ok) (name : String) (i : Nat) :
    ∃ c i', VarContainer.make t name i = some (c, i') ∧ (c.leafNames.Nodup ↔ t.Clear) := by
  obtain ⟨c, i', hc, hnamed⟩ := VarContainer.make_named t h name i
  refine ⟨c, i', hc, ?_⟩
  rw [hnamed, List.nodup_map_iff (List.append_right_injective _)]
  exact VarSort.nodup_paths t h

/-- A vector of pairs. -/
def pairsSort : VarSort := .vec pairSort 3

theorem make_names_nodup_pairs : ∃ c i', VarContainer.make pairsSort "m" 0 = some (c, i') ∧ c.leafNames.Nodup := by
  have hok : pairsSort.Ok := by simp [pairsSort, pairSort, VarSort.Ok, VarSort.OkAll]
  obtain ⟨c, i', hc, hiff⟩ := make_names_nodup_iff hok "m" 0
  refine ⟨c, i', hc, hiff.mpr ?_⟩
  simp [pairsSort, pairSort, VarSort.Clear, VarSort.ClearAll, VarSort.Spells, VarSort.paths]

/-- A member whose name spells the path to a member of a structure beside it. -/
def spellingSort : VarSort := .struct [("a", .struct [("b", .bool)]), ("a__b", .bool)]

theorem make_names_collide : ¬∀ (t : VarSort) (name : String) (i : Nat), t.Ok →
    ∃ c i', VarContainer.make t name i = some (c, i') ∧ c.leafNames.Nodup := by
  intro h
  have hok : spellingSort.Ok := by simp [spellingSort, VarSort.Ok, VarSort.OkAll]
  obtain ⟨c, i', hc, hnodup⟩ := h spellingSort "s" 0 hok
  obtain ⟨c', j, hc', hnamed⟩ := VarContainer.make_named spellingSort hok "s" 0
  obtain ⟨rfl, -⟩ := Prod.mk.inj (Option.some.inj (hc.symm.trans hc'))
  rw [hnamed] at hnodup
  simp [spellingSort, VarSort.paths, VarSort.memberPaths, pathStep] at hnodup

end Ilang
