import Ilang.Ila.VarContainer

/-!
# The shape of containers

Every operation on containers ends in `from_cpp_obj`, with a sort and an object that it has computed independently. So
the shape of all results follows from one fact: an object that passes the assertions of `from_cpp_obj` becomes a
container of the shape of its sort. What is left for each operation is that its own call passes the assertions, which
rests on the members of a structure being told apart by their names.
-/

namespace Ilang

open Smt Relation

theorem VarSort.okAll_iff {ms : List (String × VarSort)} : VarSort.OkAll ms ↔ ∀ m ∈ ms, m.2.Ok := by
  induction ms with
  | nil => simp [VarSort.OkAll]
  | cons m ms ih => simp [VarSort.OkAll, ih]

namespace VarContainer

theorem fitsAll_iff {cs : List VarContainer} {s : VarSort} : FitsAll cs s ↔ ∀ c ∈ cs, c.Fits s := by
  induction cs with
  | nil => simp [FitsAll]
  | cons c cs ih => simp [FitsAll, ih]

theorem fitsMembers_iff {ms : List (String × VarContainer)} {ss : List (String × VarSort)} :
    FitsMembers ms ss ↔ List.Forall₂ (fun m s => m.1 = s.1 ∧ m.2.Fits s.2) ms ss := by
  induction ms generalizing ss with
  | nil => cases ss <;> simp [FitsMembers]
  | cons m ms ih => cases ss <;> simp [FitsMembers, ih, and_assoc]

theorem Fits.sort {c : VarContainer} {s : VarSort} (h : c.Fits s) : c.sort = some s := by
  cases c with
  | null => simp [Fits] at h
  | primitive e => rw [VarContainer.sort, show s = .ofSrt e.sort from h]
  | vector t cs =>
    rw [Fits] at h
    rw [VarContainer.sort, h.1]
  | struct t ms =>
    rw [Fits] at h
    rw [VarContainer.sort, h.1]

theorem Fits.exists_vector {c : VarContainer} {da : VarSort} {n : Nat} (h : c.Fits (.vec da n)) :
    ∃ cs, c = .vector (.vec da n) cs ∧ cs.length = n ∧ ∀ c ∈ cs, c.Fits da := by
  cases c with
  | null => simp [Fits] at h
  | primitive e =>
    rw [Fits] at h
    cases hs : e.sort <;> simp [hs, VarSort.ofSrt] at h
  | struct t ms => simp [Fits] at h
  | vector t cs =>
    rw [Fits] at h
    obtain ⟨rfl, da', heq, hall⟩ := h
    obtain ⟨rfl, rfl⟩ : da = da' ∧ n = cs.length := by simpa using heq
    exact ⟨cs, rfl, rfl, fitsAll_iff.mp hall⟩

theorem Fits.exists_struct {c : VarContainer} {ss : List (String × VarSort)} (h : c.Fits (.struct ss)) :
    ∃ ms, c = .struct (.struct ss) ms ∧ List.Forall₂ (fun m s => m.1 = s.1 ∧ m.2.Fits s.2) ms ss := by
  cases c with
  | null => simp [Fits] at h
  | primitive e =>
    rw [Fits] at h
    cases hs : e.sort <;> simp [hs, VarSort.ofSrt] at h
  | vector t cs => simp [Fits] at h
  | struct t ms =>
    rw [Fits] at h
    obtain ⟨rfl, ss', heq, hall⟩ := h
    obtain rfl : ss = ss' := by simpa using heq
    exact ⟨ms, rfl, fitsMembers_iff.mp hall⟩

/-! ### Members by their names -/

variable {ms : List (String × VarContainer)} {ss : List (String × VarSort)}

theorem names_eq (h : List.Forall₂ (fun m s => m.1 = s.1 ∧ Fits m.2 s.2) ms ss) : ms.map Prod.fst = ss.map Prod.fst := by
  induction h with
  | nil => rfl
  | cons hm _ ih => rw [List.map_cons, List.map_cons, hm.1, ih]

theorem lookup_fits (h : List.Forall₂ (fun m s => m.1 = s.1 ∧ Fits m.2 s.2) ms ss) {n : String} {c : VarContainer}
    (hc : ms.lookup n = some c) : ∃ s, ss.lookup n = some s ∧ c.Fits s := by
  induction h with
  | nil => cases hc
  | @cons m s ms ss hm _ ih =>
    rw [List.lookup_cons] at hc
    rw [List.lookup_cons, ← hm.1]
    split at hc
    · rw [← Option.some.inj hc]
      exact ⟨s.2, rfl, hm.2⟩
    · exact ih hc

theorem map_lookup_eq (h : List.Forall₂ (fun m s => m.1 = s.1 ∧ Fits m.2 s.2) ms ss) (hnodup : (ss.map Prod.fst).Nodup)
    {l : List (String × VarContainer)} (hl : ∀ m ∈ ms, l.lookup m.1 = some m.2) :
    ss.map (fun s => (s.1, (l.lookup s.1).getD .null)) = ms := by
  induction h with
  | nil => rfl
  | @cons m s ms ss hm _ ih =>
    rw [List.map_cons, List.nodup_cons] at hnodup
    rw [List.map_cons, ih hnodup.2 fun m' hm' => hl m' (List.mem_cons_of_mem m hm'), ← hm.1, hl m List.mem_cons_self,
      Option.getD_some]

end VarContainer

/-! ### Construction -/

theorem mapCount_spec {α β : Type} {f : α → Nat → Option (β × Nat)} {as : List α} {i i' : Nat} {bs : List β}
    (h : mapCount f as i = some (bs, i')) :
    bs.length = as.length ∧ ∀ b ∈ bs, ∃ a j j', f a j = some (b, j') := by
  induction as generalizing i bs with
  | nil =>
    obtain ⟨rfl, -⟩ : [] = bs ∧ i = i' := by simpa [mapCount] using h
    simp
  | cons a as ih =>
    rw [mapCount, Option.bind_eq_some_iff] at h
    obtain ⟨⟨b, j⟩, hb, hrest⟩ := h
    obtain ⟨⟨bs', j'⟩, hbs, heq⟩ := Option.map_eq_some_iff.mp hrest
    obtain ⟨rfl, rfl⟩ : b :: bs' = bs ∧ j' = i' := by simpa using heq
    obtain ⟨hlen, hall⟩ := ih hbs
    refine ⟨by simp [hlen], fun b' hb' => ?_⟩
    rcases List.mem_cons.mp hb' with rfl | hb'
    · exact ⟨a, i, j, hb⟩
    · exact hall b' hb'

namespace VarContainer

mutual

theorem make_fits : ∀ (t : VarSort) {name : String} {i i' : Nat} {c : VarContainer}, make t name i = some (c, i') →
    c.Fits t
  | .null, _, _, _, _, h => by simp [make] at h
  | .bool, _, _, _, _, h | .bv w, _, _, _, _, h | .mem a d, _, _, _, _, h => by
    simp only [make, Option.some.injEq, Prod.mk.injEq] at h
    rw [← h.1]
    rfl
  | .vec da n, name, i, i', c, h => by
    rw [make] at h
    obtain ⟨⟨cs, j⟩, hcs, heq⟩ := Option.map_eq_some_iff.mp h
    obtain ⟨rfl, -⟩ : vector (.vec da n) cs = c ∧ j = i' := by simpa using heq
    obtain ⟨hlen, hall⟩ := mapCount_spec hcs
    rw [List.length_range] at hlen
    rw [Fits]
    refine ⟨rfl, da, by rw [hlen], fitsAll_iff.mpr fun b hb => ?_⟩
    obtain ⟨k, j₁, j₂, hb⟩ := hall b hb
    exact make_fits da hb
  | .struct ms, name, i, i', c, h => by
    rw [make] at h
    obtain ⟨⟨l, j⟩, hl, heq⟩ := Option.map_eq_some_iff.mp h
    obtain ⟨rfl, -⟩ : struct (.struct ms) l = c ∧ j = i' := by simpa using heq
    rw [Fits]
    exact ⟨rfl, ms, rfl, makeMembers_fits ms hl⟩

theorem makeMembers_fits : ∀ (ms : List (String × VarSort)) {name : String} {i i' : Nat}
    {l : List (String × VarContainer)}, makeMembers ms name i = some (l, i') → FitsMembers l ms
  | [], _, i, i', l, h => by
    obtain ⟨rfl, -⟩ : [] = l ∧ i = i' := by simpa [makeMembers] using h
    simp [FitsMembers]
  | (m, s) :: ms, name, i, i', l, h => by
    rw [makeMembers, Option.bind_eq_some_iff] at h
    obtain ⟨⟨c, j⟩, hc, hrest⟩ := h
    obtain ⟨⟨l', j'⟩, hl, heq⟩ := Option.map_eq_some_iff.mp hrest
    obtain ⟨rfl, -⟩ : (m, c) :: l' = l ∧ j' = i' := by simpa using heq
    rw [FitsMembers]
    exact ⟨rfl, make_fits s hc, makeMembers_fits ms hl⟩

end

end VarContainer

namespace CppObj

/-- A map of members that have the sorts of a structure. -/
def Found (ss : List (String × VarSort)) (found : List (String × VarContainer)) : Prop :=
  ∀ p ∈ found, ∃ s, ss.lookup p.1 = some s ∧ p.2.Fits s

theorem found_pushBack {ss : List (String × VarSort)} {found : List (String × VarContainer)} (h : Found ss found)
    {p : String × VarContainer} (hp : ∃ s, ss.lookup p.1 = some s ∧ p.2.Fits s) :
    Found ss (KeyVec.pushBack Prod.fst found p) := by
  intro q hq
  rw [KeyVec.pushBack] at hq
  split at hq
  · exact h q hq
  · rcases List.mem_append.mp hq with hq | hq
    · exact h q hq
    · rw [List.mem_singleton.mp hq]
      exact hp

theorem name_mem_pushBack {found : List (String × VarContainer)} {p : String × VarContainer} {n : String}
    (h : n ∈ found.map Prod.fst ∨ n = p.1) : n ∈ (KeyVec.pushBack Prod.fst found p).map Prod.fst := by
  rw [KeyVec.pushBack]
  split
  · rename_i hp
    rcases h with h | rfl
    · exact h
    · exact hp
  · simpa using h

theorem fits_of_found {ss : List (String × VarSort)} (hnodup : (ss.map Prod.fst).Nodup)
    {found : List (String × VarContainer)} (hfound : Found ss found) (hall : ∀ s ∈ ss, s.1 ∈ found.map Prod.fst) :
    (VarContainer.struct (.struct ss) (ss.map fun s => (s.1, (found.lookup s.1).getD .null))).Fits (.struct ss) := by
  rw [VarContainer.Fits]
  refine ⟨rfl, ss, rfl, VarContainer.fitsMembers_iff.mpr ?_⟩
  rw [List.forall₂_map_left_iff, List.forall₂_same]
  intro s hs
  obtain ⟨c, hc⟩ := Entries.exists_lookup (hall s hs)
  obtain ⟨s', hs', hfits⟩ := hfound _ (Entries.mem_of_lookup hc)
  rw [Entries.lookup_of_mem hnodup hs, Option.some.injEq] at hs'
  rw [hc, Option.getD_some, hs']
  exact ⟨rfl, hfits⟩

mutual

theorem toContainer_fits : ∀ (x : CppObj) {sort : VarSort}, sort.Ok → x.Accepted sort →
    (∀ c ∈ x.containers, ∀ t, c.sort = some t → c.Fits t) → ∃ c, x.toContainer sort = some c ∧ c.Fits sort
  | .vec xs, sort, hok, hacc, hc => by
    rw [Accepted] at hacc
    obtain ⟨da, rfl, hall⟩ := hacc
    rw [VarSort.Ok] at hok
    rw [containers] at hc
    obtain ⟨cs, hcs, hlen, hfits⟩ := toElems_fits xs (n := xs.length) hok hall hc
    refine ⟨.vector (.vec da xs.length) cs, by rw [toContainer, hcs, Option.map_some], ?_⟩
    rw [VarContainer.Fits]
    exact ⟨rfl, da, by rw [hlen], VarContainer.fitsAll_iff.mpr hfits⟩
  | .pairs ps, sort, hok, hacc, hc => by
    rw [Accepted] at hacc
    obtain ⟨ss, rfl, hall, hnames⟩ := hacc
    rw [VarSort.Ok, VarSort.okAll_iff] at hok
    rw [containers] at hc
    obtain ⟨found, hfound, hfits, hkeys⟩ := toMembers_fits ps hok.2 hall hc (show Found ss [] from fun p hp => by cases hp)
    refine ⟨_, by rw [toContainer, hfound, Option.bind_some, VarSort.members, Option.map_some], ?_⟩
    exact fits_of_found hok.1 hfits fun s hs => hkeys s.1 (.inr (hnames s hs))
  | .expr e, sort, _, hacc, _ => by
    rw [Accepted] at hacc
    obtain ⟨v, rfl, rfl⟩ := hacc
    exact ⟨.primitive v, by rw [toContainer], rfl⟩
  | .container c, sort, _, hacc, hc => by
    rw [Accepted] at hacc
    exact ⟨c, by rw [toContainer], hc c (by simp [containers]) sort hacc⟩

theorem toElems_fits : ∀ (xs : List CppObj) {da : VarSort} {n : Nat}, da.Ok → AcceptedElems da xs →
    (∀ c ∈ containersElems xs, ∀ t, c.sort = some t → c.Fits t) →
    ∃ cs, toElems (.vec da n) xs = some cs ∧ cs.length = xs.length ∧ ∀ c ∈ cs, c.Fits da
  | [], _, _, _, _, _ => ⟨[], by rw [toElems], rfl, by simp⟩
  | x :: xs, da, n, hok, hacc, hc => by
    rw [AcceptedElems] at hacc
    rw [containersElems] at hc
    obtain ⟨c, hx, hfits⟩ := toContainer_fits x hok hacc.1 fun c' hc' => hc c' (List.mem_append_left _ hc')
    obtain ⟨cs, hcs, hlen, hall⟩ := toElems_fits xs (n := n) hok hacc.2 fun c' hc' => hc c' (List.mem_append_right _ hc')
    refine ⟨c :: cs, ?_, by simp [hlen], ?_⟩
    · rw [toElems, VarSort.dataAtom, Option.bind_some, hx, Option.bind_some, hcs, Option.map_some]
    · intro c' hc'
      rcases List.mem_cons.mp hc' with rfl | hc'
      · exact hfits
      · exact hall c' hc'

theorem toMembers_fits : ∀ (ps : List (String × CppObj)) {ss : List (String × VarSort)}
    {found : List (String × VarContainer)}, (∀ s ∈ ss, s.2.Ok) → AcceptedMembers ss ps →
    (∀ c ∈ containersMembers ps, ∀ t, c.sort = some t → c.Fits t) → Found ss found →
    ∃ found', toMembers (.struct ss) ps found = some found' ∧ Found ss found' ∧
      ∀ n, n ∈ found.map Prod.fst ∨ n ∈ ps.map Prod.fst → n ∈ found'.map Prod.fst
  | [], _, found, _, _, _, hfound => ⟨found, by rw [toMembers], hfound, fun n hn => by simpa using hn⟩
  | (name, x) :: ps, ss, found, hok, hacc, hc, hfound => by
    rw [AcceptedMembers] at hacc
    obtain ⟨⟨s, hs, hx⟩, hrest⟩ := hacc
    rw [containersMembers] at hc
    obtain ⟨c, hxc, hfits⟩ := toContainer_fits x (hok _ (Entries.mem_of_lookup hs)) hx
      fun c' hc' => hc c' (List.mem_append_left _ hc')
    obtain ⟨found', heq, hfound', hkeys⟩ := toMembers_fits ps hok hrest
      (fun c' hc' => hc c' (List.mem_append_right _ hc')) (found_pushBack hfound (p := (name, c)) ⟨s, hs, hfits⟩)
    refine ⟨found', ?_, hfound', fun n hn => ?_⟩
    · rw [toMembers, VarSort.getMemberSort, Option.bind_some, hs, Option.getD_some, hxc, Option.bind_some, heq]
    · rw [List.map_cons, List.mem_cons] at hn
      rcases hn with hn | hn | hn
      · exact hkeys n (.inl (name_mem_pushBack (.inl hn)))
      · exact hkeys n (.inl (name_mem_pushBack (.inr hn)))
      · exact hkeys n (.inr hn)

end

/-! ### Objects over containers -/

theorem toMembers_containers {sort : VarSort} (hsort : ∀ n, ∃ s, sort.getMemberSort n = some s)
    (l found : List (String × VarContainer)) :
    toMembers sort (l.map fun m => (m.1, .container m.2)) found = some (l.foldl (KeyVec.pushBack Prod.fst) found) := by
  induction l generalizing found with
  | nil => rw [List.map_nil, toMembers, List.foldl_nil]
  | cons m l ih =>
    obtain ⟨s, hs⟩ := hsort m.1
    rw [List.map_cons, toMembers, hs, Option.bind_some, toContainer, Option.bind_some, ih, List.foldl_cons]

theorem toContainer_entries (ss : List (String × VarSort)) (l : List (String × VarContainer)) :
    (VarContainer.entries l).toContainer (.struct ss) =
      some (.struct (.struct ss) (ss.map fun s => (s.1, (l.lookup s.1).getD .null))) := by
  rw [VarContainer.entries, toContainer, toMembers_containers (fun n => ⟨_, rfl⟩), Option.bind_some, VarSort.members,
    Option.map_some]
  rw [show l.foldl (KeyVec.pushBack Prod.fst) [] = KeyVec.ofList Prod.fst l from rfl]
  simp only [Entries.lookup_ofList]

theorem acceptedElems_iff {da : VarSort} {xs : List CppObj} : AcceptedElems da xs ↔ ∀ x ∈ xs, x.Accepted da := by
  induction xs with
  | nil => simp [AcceptedElems]
  | cons x xs ih => simp [AcceptedElems, ih]

theorem acceptedMembers_iff {ss : List (String × VarSort)} {ps : List (String × CppObj)} :
    AcceptedMembers ss ps ↔ ∀ p ∈ ps, ∃ s, ss.lookup p.1 = some s ∧ p.2.Accepted s := by
  induction ps with
  | nil => simp [AcceptedMembers]
  | cons p ps ih => simp [AcceptedMembers, ih]

theorem mem_containersMembers {ps : List (String × CppObj)} {c : VarContainer} :
    c ∈ containersMembers ps ↔ ∃ p ∈ ps, c ∈ p.2.containers := by
  induction ps with
  | nil => simp [containersMembers]
  | cons p ps ih => simp [containersMembers, ih]

theorem mem_containersElems {xs : List CppObj} {c : VarContainer} :
    c ∈ containersElems xs ↔ ∃ x ∈ xs, c ∈ x.containers := by
  induction xs with
  | nil => simp [containersElems]
  | cons x xs ih => simp [containersElems, ih]

theorem accepted_vec {da : VarSort} {cs : List VarContainer} (h : ∀ c ∈ cs, c.Fits da) :
    (CppObj.vec (cs.map .container)).Accepted (.vec da cs.length) := by
  rw [Accepted]
  refine ⟨da, by rw [List.length_map], acceptedElems_iff.mpr fun x hx => ?_⟩
  obtain ⟨c, hc, rfl⟩ := List.mem_map.mp hx
  rw [Accepted]
  exact (h c hc).sort

theorem mem_containers_vec {cs : List VarContainer} {c : VarContainer} :
    c ∈ (CppObj.vec (cs.map .container)).containers ↔ c ∈ cs := by
  simp [containers, mem_containersElems]

theorem accepted_entries {ss : List (String × VarSort)} {l : List (String × VarContainer)}
    (hl : ∀ m ∈ l, ∃ s, ss.lookup m.1 = some s ∧ m.2.Fits s) (hall : ∀ s ∈ ss, s.1 ∈ l.map Prod.fst) :
    (VarContainer.entries l).Accepted (.struct ss) := by
  rw [VarContainer.entries, Accepted]
  refine ⟨ss, rfl, acceptedMembers_iff.mpr fun p hp => ?_, fun s hs => by simpa using hall s hs⟩
  obtain ⟨m, hm, rfl⟩ := List.mem_map.mp hp
  obtain ⟨s, hs, hfits⟩ := hl m hm
  exact ⟨s, hs, by rw [Accepted]; exact hfits.sort⟩

theorem mem_containers_entries {l : List (String × VarContainer)} {c : VarContainer} :
    c ∈ (VarContainer.entries l).containers ↔ ∃ m ∈ l, m.2 = c := by
  simp [VarContainer.entries, containers, mem_containersMembers, eq_comm]

end CppObj

/-! ### Operations -/

namespace VarContainer

/-- A container of the shape of its sort, which has no duplicates. -/
def Good (c : VarContainer) : Prop := ∃ t, t.Ok ∧ c.Fits t

theorem Good.fits {c : VarContainer} (h : c.Good) {t : VarSort} (ht : c.sort = some t) : t.Ok ∧ c.Fits t := by
  obtain ⟨t', hok, hfits⟩ := h
  rw [hfits.sort, Option.some.injEq] at ht
  exact ht ▸ ⟨hok, hfits⟩

theorem good_of_accepted {x : CppObj} {s : VarSort} {c : VarContainer} (hok : s.Ok) (hacc : x.Accepted s)
    (hx : ∀ c ∈ x.containers, c.Good) (h : x.toContainer s = some c) : c.Good := by
  obtain ⟨c', hc', hfits⟩ := CppObj.toContainer_fits x hok hacc fun c hc t ht => ((hx c hc).fits ht).2
  rw [h, Option.some.injEq] at hc'
  exact ⟨s, hok, hc' ▸ hfits⟩

theorem Good.vector {t : VarSort} {cs : List VarContainer} (h : (vector t cs).Good) :
    ∃ da, da.Ok ∧ t = .vec da cs.length ∧ ∀ c ∈ cs, c.Fits da := by
  obtain ⟨t', hok, hfits⟩ := h
  rw [Fits] at hfits
  obtain ⟨rfl, da, rfl, hall⟩ := hfits
  rw [VarSort.Ok] at hok
  exact ⟨da, hok, rfl, fitsAll_iff.mp hall⟩

theorem Good.struct {t : VarSort} {ms : List (String × VarContainer)} (h : (struct t ms).Good) :
    ∃ ss : List (String × VarSort), t = .struct ss ∧ (ss.map Prod.fst).Nodup ∧ (∀ s ∈ ss, s.2.Ok) ∧
      List.Forall₂ (fun m s => m.1 = s.1 ∧ Fits m.2 s.2) ms ss := by
  obtain ⟨t', hok, hfits⟩ := h
  rw [Fits] at hfits
  obtain ⟨rfl, ss, rfl, hall⟩ := hfits
  rw [VarSort.Ok, VarSort.okAll_iff] at hok
  exact ⟨ss, rfl, hok.1, hok.2, fitsMembers_iff.mp hall⟩

theorem absurd_null {r : VarContainer} (h : some null = some r) (hr : r.isNull = false) : False := by
  rw [← Option.some.inj h] at hr
  cases hr

theorem nth_good {c r : VarContainer} (hc : c.Good) {i : Nat} (h : c.nth i = some r) (hr : r.isNull = false) :
    r.Good := by
  cases c with
  | null => simp [nth] at h
  | primitive | struct => exact (absurd_null h hr).elim
  | vector t cs =>
    obtain ⟨da, hok, -, hall⟩ := hc.vector
    rw [nth, List.getD_eq_getElem?_getD] at h
    cases hi : cs[i]? with
    | some c =>
      rw [hi, Option.getD_some, Option.some.injEq] at h
      exact ⟨da, hok, h ▸ hall c (List.mem_of_getElem? hi)⟩
    | none =>
      rw [hi, Option.getD_none] at h
      exact (absurd_null h hr).elim

variable {ms : List (String × VarContainer)} {ss : List (String × VarSort)}

theorem good_of_lookup (hok : ∀ s ∈ ss, s.2.Ok) (h : List.Forall₂ (fun m s => m.1 = s.1 ∧ Fits m.2 s.2) ms ss) {n : String}
    {c : VarContainer} (hc : ms.lookup n = some c) : c.Good := by
  obtain ⟨s, hs, hfits⟩ := lookup_fits h hc
  exact ⟨s, hok _ (Entries.mem_of_lookup hs), hfits⟩

theorem good_of_mem (hok : ∀ s ∈ ss, s.2.Ok) (h : List.Forall₂ (fun m s => m.1 = s.1 ∧ Fits m.2 s.2) ms ss)
    (hnodup : (ss.map Prod.fst).Nodup) {m : String × VarContainer} (hm : m ∈ ms) : m.2.Good :=
  good_of_lookup hok h (Entries.lookup_of_mem (names_eq h ▸ hnodup) hm)

theorem member_good {c r : VarContainer} (hc : c.Good) {name : String} (h : c.member name = some r)
    (hr : r.isNull = false) : r.Good := by
  cases c with
  | null => simp [member] at h
  | primitive | vector => exact (absurd_null h hr).elim
  | struct t ms =>
    obtain ⟨ss, -, -, hok, hall⟩ := hc.struct
    rw [member] at h
    cases hm : ms.lookup name with
    | some c =>
      rw [hm, Option.getD_some, Option.some.injEq] at h
      exact h ▸ good_of_lookup hok hall hm
    | none =>
      rw [hm, Option.getD_none] at h
      exact (absurd_null h hr).elim

/-! Projections -/

/-- The members with some names, in the order of the names, and their sorts. -/
def pick {α : Type} (l : List (String × α)) (d : α) (names : List String) : List (String × α) :=
  names.map fun n => (n, (l.lookup n).getD d)

theorem pick_names {α : Type} (l : List (String × α)) (d : α) (names : List String) :
    (pick l d names).map Prod.fst = names := by
  simp [pick, Function.comp_def]

theorem projectLoop_eq (h : List.Forall₂ (fun m s => m.1 = s.1 ∧ Fits m.2 s.2) ms ss) {names : List String}
    (hnames : ∀ n ∈ names, n ∈ ms.map Prod.fst) (srt : List (String × VarSort)) (l : List (String × VarContainer)) :
    projectLoop ms names srt l =
      (entries (l ++ pick ms .null names)).toContainer (.struct (srt ++ pick ss .null names)) := by
  induction names generalizing srt l with
  | nil => rw [projectLoop, pick, pick, List.map_nil, List.map_nil, List.append_nil, List.append_nil]
  | cons n names ih =>
    obtain ⟨c, hc⟩ := Entries.exists_lookup (hnames n List.mem_cons_self)
    obtain ⟨s, hs, hfits⟩ := lookup_fits h hc
    rw [projectLoop, hc]
    simp only [hfits.sort, Option.bind_some, pick, List.map_cons, hc, hs, Option.getD_some]
    rw [ih fun n' hn' => hnames n' (List.mem_cons_of_mem n hn')]
    simp only [pick, List.append_assoc, List.singleton_append]

theorem projectLoop_null (h : List.Forall₂ (fun m s => m.1 = s.1 ∧ Fits m.2 s.2) ms ss) {names : List String} {n : String}
    (hn : n ∈ names) (hmem : n ∉ ms.map Prod.fst) (srt : List (String × VarSort)) (l : List (String × VarContainer)) :
    projectLoop ms names srt l = some .null := by
  induction names generalizing srt l with
  | nil => cases hn
  | cons n' names ih =>
    rw [projectLoop]
    cases hc : ms.lookup n' with
    | none => rfl
    | some c =>
      obtain ⟨s, -, hfits⟩ := lookup_fits h hc
      have hne : n ≠ n' := fun heq => hmem (heq ▸ Entries.name_mem_of_lookup hc)
      simp only [hfits.sort, Option.bind_some]
      exact ih ((List.mem_cons.mp hn).resolve_left hne) _ _

theorem forall₂_pick (h : List.Forall₂ (fun m s => m.1 = s.1 ∧ Fits m.2 s.2) ms ss) {names : List String}
    (hnames : ∀ n ∈ names, n ∈ ms.map Prod.fst) :
    List.Forall₂ (fun m s => m.1 = s.1 ∧ Fits m.2 s.2) (pick ms .null names) (pick ss .null names) := by
  rw [pick, pick, List.forall₂_map_left_iff, List.forall₂_map_right_iff, List.forall₂_same]
  intro n hn
  obtain ⟨c, hc⟩ := Entries.exists_lookup (hnames n hn)
  obtain ⟨s, hs, hfits⟩ := lookup_fits h hc
  rw [hc, hs, Option.getD_some, Option.getD_some]
  exact ⟨rfl, hfits⟩

theorem toContainer_eq (h : List.Forall₂ (fun m s => m.1 = s.1 ∧ Fits m.2 s.2) ms ss) (hnodup : (ss.map Prod.fst).Nodup) :
    (entries ms).toContainer (.struct ss) = some (.struct (.struct ss) ms) := by
  rw [CppObj.toContainer_entries,
    map_lookup_eq h hnodup fun m hm => Entries.lookup_of_mem (names_eq h ▸ hnodup) hm]

theorem struct_good (h : List.Forall₂ (fun m s => m.1 = s.1 ∧ Fits m.2 s.2) ms ss) (hnodup : (ss.map Prod.fst).Nodup)
    (hok : ∀ s ∈ ss, s.2.Ok) : (VarContainer.struct (.struct ss) ms).Good := by
  refine ⟨.struct ss, ?_, ?_⟩
  · rw [VarSort.Ok, VarSort.okAll_iff]
    exact ⟨hnodup, hok⟩
  · rw [Fits]
    exact ⟨rfl, ss, rfl, fitsMembers_iff.mpr h⟩

theorem project_eq (h : List.Forall₂ (fun m s => m.1 = s.1 ∧ Fits m.2 s.2) ms ss) (hnodup : (ss.map Prod.fst).Nodup)
    {names : List String} (hnames : ∀ n ∈ names, n ∈ ms.map Prod.fst) (hdistinct : names.Nodup) (t : VarSort) :
    (struct t ms).project names = some (.struct (.struct (pick ss .null names)) (pick ms .null names)) := by
  rw [project, KeyVec.ofList_of_nodup (names_eq h ▸ hnodup), projectLoop_eq h hnames, List.nil_append, List.nil_append]
  exact toContainer_eq (forall₂_pick h hnames) (by rw [pick_names]; exact hdistinct)

theorem ok_pick (hok : ∀ s ∈ ss, s.2.Ok) {names : List String} (hnames : ∀ n ∈ names, n ∈ ss.map Prod.fst) :
    ∀ s ∈ pick ss .null names, s.2.Ok := by
  intro s hs
  obtain ⟨n, hn, rfl⟩ := List.mem_map.mp hs
  obtain ⟨s', hs'⟩ := Entries.exists_lookup (hnames n hn)
  rw [hs', Option.getD_some]
  exact hok _ (Entries.mem_of_lookup hs')

theorem project_good {c r : VarContainer} (hc : c.Good) {names : List String} (hdistinct : names.Nodup)
    (h : c.project names = some r) (hr : r.isNull = false) : r.Good := by
  cases c with
  | null => simp [project] at h
  | primitive | vector => exact (absurd_null h hr).elim
  | struct t ms =>
    obtain ⟨ss, -, hnodup, hok, hall⟩ := hc.struct
    by_cases hnames : ∀ n ∈ names, n ∈ ms.map Prod.fst
    · rw [project_eq hall hnodup hnames hdistinct, Option.some.injEq] at h
      rw [← h]
      exact struct_good (forall₂_pick hall hnames) (by rw [pick_names]; exact hdistinct)
        (ok_pick hok (names_eq hall ▸ hnames))
    · push Not at hnames
      obtain ⟨n, hn, hmem⟩ := hnames
      rw [project, KeyVec.ofList_of_nodup (names_eq hall ▸ hnodup), projectLoop_null hall hn hmem] at h
      exact (absurd_null h hr).elim

theorem forall₂_filter (h : List.Forall₂ (fun m s => m.1 = s.1 ∧ Fits m.2 s.2) ms ss) (p : String → Bool) :
    List.Forall₂ (fun m s => m.1 = s.1 ∧ Fits m.2 s.2) (ms.filter fun m => p m.1) (ss.filter fun s => p s.1) := by
  induction h with
  | nil => exact .nil
  | @cons m s ms ss hm _ ih =>
    rw [List.filter_cons, List.filter_cons, ← hm.1]
    split
    · exact .cons hm ih
    · exact ih

theorem nodup_filter_names (hnodup : (ss.map Prod.fst).Nodup) (p : String → Bool) :
    ((ss.filter fun s => p s.1).map Prod.fst).Nodup :=
  hnodup.sublist (List.filter_sublist.map Prod.fst)

theorem projectWithout_eq (h : List.Forall₂ (fun m s => m.1 = s.1 ∧ Fits m.2 s.2) ms ss)
    (hnodup : (ss.map Prod.fst).Nodup) (names : List String) :
    (struct (.struct ss) ms).projectWithout names =
      some (.struct (.struct (ss.filter fun s => s.1 ∉ names)) (ms.filter fun m => m.1 ∉ names)) := by
  have hsorts : (ss.filter fun x => x.1 ∈ (ms.filter fun m => m.1 ∉ names).map Prod.fst) =
      ss.filter fun s => s.1 ∉ names := by
    refine List.filter_congr fun x hx => ?_
    have hmem : x.1 ∈ ms.map Prod.fst := names_eq h ▸ List.mem_map_of_mem hx
    obtain ⟨m, hm, hmx⟩ := List.mem_map.mp hmem
    rw [decide_eq_decide]
    constructor
    · intro hx'
      obtain ⟨m', hm', heq⟩ := List.mem_map.mp hx'
      rw [← heq]
      simpa using (List.mem_filter.mp hm').2
    · intro hx'
      exact hmx ▸ List.mem_map_of_mem (List.mem_filter.mpr ⟨hm, by rw [hmx]; simpa using hx'⟩)
  rw [projectWithout, KeyVec.ofList_of_nodup (names_eq h ▸ hnodup), VarSort.members]
  simp only [Option.bind_some]
  rw [hsorts]
  exact toContainer_eq (forall₂_filter h fun n => n ∉ names) (nodup_filter_names hnodup fun n => n ∉ names)

theorem projectWithout_good {c r : VarContainer} (hc : c.Good) {names : List String}
    (h : c.projectWithout names = some r) (hr : r.isNull = false) : r.Good := by
  cases c with
  | null => simp [projectWithout] at h
  | primitive | vector => exact (absurd_null h hr).elim
  | struct t ms =>
    obtain ⟨ss, rfl, hnodup, hok, hall⟩ := hc.struct
    rw [projectWithout_eq hall hnodup, Option.some.injEq] at h
    rw [← h]
    exact struct_good (forall₂_filter hall fun n => n ∉ names) (nodup_filter_names hnodup fun n => n ∉ names)
      fun s hs => hok s (List.mem_of_mem_filter hs)

variable {ms' : List (String × VarContainer)} {ss' : List (String × VarSort)}

theorem joinWith_eq (h : List.Forall₂ (fun m s => m.1 = s.1 ∧ Fits m.2 s.2) ms ss)
    (h' : List.Forall₂ (fun m s => m.1 = s.1 ∧ Fits m.2 s.2) ms' ss') (hnodup : ((ss ++ ss').map Prod.fst).Nodup) :
    (struct (.struct ss) ms).joinWith (struct (.struct ss') ms') = some (.struct (.struct (ss ++ ss')) (ms ++ ms')) := by
  have hall := List.rel_append h h'
  rw [joinWith, KeyVec.ofList_of_nodup (names_eq hall ▸ hnodup), if_neg (by simp), VarSort.members, VarSort.members,
    Option.bind_some, Option.bind_some]
  exact toContainer_eq hall hnodup

theorem joinWith_good {c b r : VarContainer} (hc : c.Good) (hb : b.isNull ∨ b.Good) (h : c.joinWith b = some r)
    (hr : r.isNull = false) : r.Good := by
  match c, b with
  | .null, _ => simp [joinWith] at h
  | .struct _ _, .null => simp [joinWith] at h
  | .primitive _, _ | .vector .., _ | .struct .., .primitive _ | .struct .., .vector .. => exact (absurd_null h hr).elim
  | .struct t ms, .struct t' ms' =>
    obtain ⟨ss, rfl, -, hok, hall⟩ := hc.struct
    obtain ⟨ss', rfl, -, hok', hall'⟩ := (hb.resolve_left (by simp [isNull])).struct
    by_cases hlen : (KeyVec.ofList Prod.fst (ms ++ ms')).length = ms.length + ms'.length
    · have hsame := (KeyVec.ofList_sublist (k := Prod.fst) (ms ++ ms')).eq_of_length (by rw [hlen, List.length_append])
      have hnodup := KeyVec.nodup_ofList (k := Prod.fst) (ms ++ ms')
      rw [hsame, names_eq (List.rel_append hall hall')] at hnodup
      rw [joinWith_eq hall hall' hnodup, Option.some.injEq] at h
      rw [← h]
      exact struct_good (List.rel_append hall hall') hnodup fun s hs => (List.mem_append.mp hs).elim (hok s) (hok' s)
    · rw [joinWith, if_pos hlen] at h
      exact (absurd_null h hr).elim

/-! Partitions -/

theorem mem_modify {α : Type} {l : List α} {i : Nat} {f : α → α} {a : α} (h : a ∈ l.modify i f) :
    a ∈ l ∨ ∃ b ∈ l, a = f b := by
  obtain ⟨j, hj⟩ := List.mem_iff_getElem?.mp h
  rw [List.getElem?_modify] at hj
  obtain ⟨b, hb, heq⟩ := Option.map_eq_some_iff.mp hj
  have hmem := List.mem_of_getElem? hb
  split at heq
  · exact .inr ⟨b, hmem, heq.symm⟩
  · exact .inl (heq ▸ hmem)

theorem partitionLoop_mem {whichPart : Nat → Nat} {P : VarContainer → Prop} {cs : List VarContainer} {i : Nat}
    {parts parts' : List (List VarContainer)} (h : partitionLoop whichPart cs i parts = some parts')
    (hcs : ∀ c ∈ cs, P c) (hparts : ∀ part ∈ parts, ∀ c ∈ part, P c) : ∀ part ∈ parts', ∀ c ∈ part, P c := by
  induction cs generalizing i parts with
  | nil =>
    rw [partitionLoop, Option.some.injEq] at h
    exact h ▸ hparts
  | cons c cs ih =>
    rw [partitionLoop] at h
    split at h
    · refine ih h (fun c' hc' => hcs c' (List.mem_cons_of_mem c hc')) fun part hpart c' hc' => ?_
      rcases mem_modify hpart with hpart | ⟨part', hpart', rfl⟩
      · exact hparts part hpart c' hc'
      · rcases List.mem_append.mp hc' with hc' | hc'
        · exact hparts part' hpart' c' hc'
        · rw [List.mem_singleton.mp hc']
          exact hcs c List.mem_cons_self
    · cases h

theorem partition_good {c : VarContainer} (hc : c.Good) {nParts : Nat} {whichPart : Nat → Nat} {rs : List VarContainer}
    (h : c.orderPreservingPartition nParts whichPart = some rs) : ∀ r ∈ rs, r.Good := by
  cases c with
  | null => simp [orderPreservingPartition] at h
  | primitive | struct =>
    obtain rfl : [] = rs := Option.some.inj h
    simp
  | vector t cs =>
    obtain ⟨da, hok, rfl, hall⟩ := hc.vector
    rw [orderPreservingPartition] at h
    cases hloop : partitionLoop whichPart cs 0 (List.replicate nParts []) with
    | none =>
      rw [hloop] at h
      obtain rfl : [] = rs := Option.some.inj h
      simp
    | some parts =>
      rw [hloop] at h
      have hparts := partitionLoop_mem hloop hall fun part hpart c' hc' => by
        rw [(List.mem_replicate.mp hpart).2] at hc'
        cases hc'
      intro r hr
      obtain ⟨part, hpart, heq⟩ := MapM.exists_of_mem h hr
      rw [VarSort.dataAtom, Option.bind_some] at heq
      refine good_of_accepted ?_ (CppObj.accepted_vec (hparts part hpart)) (fun c' hc' => ?_) heq
      · rw [VarSort.Ok]
        exact hok
      · exact ⟨da, hok, hparts part hpart c' (CppObj.mem_containers_vec.mp hc')⟩

/-! Structures of vectors and vectors of structures -/

theorem pushAt_of_mem {res : List (String × List VarContainer)} {m : String × VarContainer} (h : m.1 ∈ res.map Prod.fst) :
    pushAt res m = res.map fun r => if r.1 = m.1 then (r.1, r.2 ++ [m.2]) else r := if_pos h

theorem foldl_pushAt (hnodup : (ms.map Prod.fst).Nodup) {res : List (String × List VarContainer)}
    (hres : ∀ m ∈ ms, m.1 ∈ res.map Prod.fst) :
    ms.foldl pushAt res = res.map fun r => (r.1, r.2 ++ (ms.lookup r.1).toList) := by
  induction ms generalizing res with
  | nil => simp
  | cons m ms ih =>
    rw [List.map_cons, List.nodup_cons] at hnodup
    have hnames : (pushAt res m).map Prod.fst = res.map Prod.fst := by
      rw [pushAt_of_mem (hres m List.mem_cons_self), List.map_map]
      refine List.map_congr_left fun r _ => ?_
      rw [Function.comp_apply]
      split <;> rfl
    rw [List.foldl_cons, ih hnodup.2 fun m' hm' => hnames ▸ hres m' (List.mem_cons_of_mem m hm'),
      pushAt_of_mem (hres m List.mem_cons_self), List.map_map]
    refine List.map_congr_left fun r _ => ?_
    rw [Function.comp_apply, List.lookup_cons]
    by_cases hr : r.1 = m.1
    · rw [if_pos hr, beq_iff_eq.mpr hr, show ms.lookup r.1 = none from Entries.lookup_eq_none_iff.mpr (hr ▸ hnodup.1)]
      simp
    · rw [if_neg hr, beq_false_of_ne hr]

/-- The vectors so far: one for every member, with one element of its sort for every structure. -/
def Columns (ss : List (String × VarSort)) (k : Nat) (res : List (String × List VarContainer)) : Prop :=
  res.map Prod.fst = ss.map Prod.fst ∧
    ∀ r ∈ res, ∃ s, ss.lookup r.1 = some s ∧ r.2.length = k ∧ ∀ c ∈ r.2, c.Fits s

theorem columns_foldl (hnodup : (ss.map Prod.fst).Nodup)
    (h : List.Forall₂ (fun m s => m.1 = s.1 ∧ Fits m.2 s.2) ms ss) {k : Nat} {res : List (String × List VarContainer)}
    (hres : Columns ss k res) : Columns ss (k + 1) (ms.foldl pushAt res) := by
  have hnames := names_eq h
  rw [foldl_pushAt (hnames ▸ hnodup) fun m hm => by rw [hres.1, ← hnames]; exact List.mem_map_of_mem hm]
  refine ⟨by simpa [Function.comp_def] using hres.1, fun r' hr' => ?_⟩
  obtain ⟨r, hr, rfl⟩ := List.mem_map.mp hr'
  obtain ⟨s, hs, hlen, hall⟩ := hres.2 r hr
  obtain ⟨c, hc⟩ := Entries.exists_lookup (l := ms) (n := r.1) (hnames ▸ Entries.name_mem_of_lookup hs)
  obtain ⟨s', hs', hfits⟩ := lookup_fits h hc
  rw [hs, Option.some.injEq] at hs'
  refine ⟨s, hs, by simp [hc, hlen], fun c' hc' => ?_⟩
  rw [hc, Option.toList_some, List.mem_append, List.mem_singleton] at hc'
  rcases hc' with hc' | rfl
  · exact hall c' hc'
  · exact hs' ▸ hfits

theorem unzipLoop_spec (hnodup : (ss.map Prod.fst).Nodup) {cs : List VarContainer}
    (hcs : ∀ c ∈ cs, c.Fits (.struct ss)) {k : Nat} {res : List (String × List VarContainer)} (hres : Columns ss k res) :
    ∃ res', unzipLoop cs res = some res' ∧ Columns ss (k + cs.length) res' := by
  induction cs generalizing k res with
  | nil => exact ⟨res, by rw [unzipLoop], hres⟩
  | cons c cs ih =>
    obtain ⟨ms, rfl, hall⟩ := (hcs c List.mem_cons_self).exists_struct
    obtain ⟨res', heq, hres'⟩ := ih (fun c hc => hcs c (List.mem_cons_of_mem _ hc)) (columns_foldl hnodup hall hres)
    refine ⟨res', by rw [unzipLoop, members, Option.bind_some, heq], ?_⟩
    rw [List.length_cons, Nat.add_comm cs.length 1, ← Nat.add_assoc]
    exact hres'

theorem unzip_eq (hne : ss ≠ []) (n : Nat) (cs : List VarContainer) : (vector (.vec (.struct ss) n) cs).unzip =
    (unzipLoop cs (KeyVec.ofList Prod.fst (ss.map fun x => (x.1, [])))).bind fun res =>
      CppObj.toContainer (.struct (ss.map fun x => (x.1, .vec x.2 cs.length)))
        (.pairs (res.map fun r => (r.1, .vec (r.2.map .container)))) := by
  cases ss with
  | nil => exact absurd rfl hne
  | cons s ss => rfl

theorem columns_good (hnodup : (ss.map Prod.fst).Nodup) (hok : ∀ s ∈ ss, s.2.Ok) {k : Nat}
    {res : List (String × List VarContainer)} (hres : Columns ss k res) {r : VarContainer}
    (h : CppObj.toContainer (.struct (ss.map fun x => (x.1, .vec x.2 k)))
      (.pairs (res.map fun r => (r.1, .vec (r.2.map .container)))) = some r) : r.Good := by
  refine good_of_accepted ?_ ?_ (fun c hc => ?_) h
  · rw [VarSort.Ok, VarSort.okAll_iff]
    refine ⟨by simpa [Function.comp_def] using hnodup, fun s hs => ?_⟩
    obtain ⟨x, hx, rfl⟩ := List.mem_map.mp hs
    rw [VarSort.Ok]
    exact hok x hx
  · rw [CppObj.Accepted]
    refine ⟨_, rfl, CppObj.acceptedMembers_iff.mpr fun p hp => ?_, fun s hs => ?_⟩
    · obtain ⟨col, hcol, rfl⟩ := List.mem_map.mp hp
      obtain ⟨s, hs, hlen, hall⟩ := hres.2 col hcol
      have hlookup := Entries.lookup_map (l := ss) (n := col.1) fun x => VarSort.vec x k
      rw [hs, Option.map_some] at hlookup
      exact ⟨.vec s k, hlookup, hlen ▸ CppObj.accepted_vec hall⟩
    · obtain ⟨x, hx, rfl⟩ := List.mem_map.mp hs
      have hname : x.1 ∈ res.map Prod.fst := hres.1 ▸ List.mem_map_of_mem hx
      simpa using hname
  · rw [CppObj.containers, CppObj.mem_containersMembers] at hc
    obtain ⟨p, hp, hcp⟩ := hc
    obtain ⟨col, hcol, rfl⟩ := List.mem_map.mp hp
    obtain ⟨s, hs, -, hall⟩ := hres.2 col hcol
    exact ⟨s, hok _ (Entries.mem_of_lookup hs), hall c (CppObj.mem_containers_vec.mp hcp)⟩

theorem unzip_good {c r : VarContainer} (hc : c.Good) (h : c.unzip = some r) (hr : r.isNull = false) : r.Good := by
  cases c with
  | null => simp [unzip] at h
  | primitive | struct => exact (absurd_null h hr).elim
  | vector t cs =>
    obtain ⟨da, hok, rfl, hall⟩ := hc.vector
    cases da with
    | null => simp [unzip, VarSort.dataAtom] at h
    | bool | bv | mem | vec => exact (absurd_null h hr).elim
    | struct ss =>
      by_cases hne : ss = []
      · subst hne
        exact (absurd_null h hr).elim
      · rw [VarSort.Ok, VarSort.okAll_iff] at hok
        have hnodup : ((ss.map fun x => (x.1, ([] : List VarContainer))).map Prod.fst).Nodup := by
          simpa [Function.comp_def] using hok.1
        have hcols : Columns ss 0 (ss.map fun x => (x.1, [])) := by
          refine ⟨by simp [Function.comp_def], fun r hr => ?_⟩
          obtain ⟨x, hx, rfl⟩ := List.mem_map.mp hr
          exact ⟨x.2, Entries.lookup_of_mem hok.1 hx, rfl, by simp⟩
        obtain ⟨res, hloop, hres⟩ := unzipLoop_spec hok.1 hall hcols
        rw [unzip_eq hne, KeyVec.ofList_of_nodup hnodup, hloop, Option.bind_some] at h
        rw [Nat.zero_add] at hres
        exact columns_good hok.1 hok.2 hres h

/-- The sorts of vectors of one size, and the sorts of their elements. -/
def Zipped (sz : Option Nat) (ss atoms : List (String × VarSort)) : Prop :=
  List.Forall₂ (fun s a => s.1 = a.1 ∧ ∃ n, s.2 = .vec a.2 n ∧ sz = some n) ss atoms

theorem zipSorts_error {sz : Option Nat} {da : List (String × VarSort)} {res : Option VarContainer}
    (h : zipSorts ss sz da = .error res) : res = none ∨ res = some .null := by
  fun_induction zipSorts ss sz da with
  | case1 => cases h
  | case2 => exact .inl (Except.error.inj h).symm
  | case3 _ _ _ _ _ ih => exact ih h
  | case4 _ _ _ _ _ ih => exact ih h
  | case5 | case6 => exact .inr (Except.error.inj h).symm

theorem zipSorts_ok {sz sz' : Option Nat} {da da' : List (String × VarSort)} (h : zipSorts ss sz da = .ok (sz', da')) :
    (∀ k, sz = some k → sz' = some k) ∧ ∃ atoms, da' = da ++ atoms ∧ Zipped sz' ss atoms := by
  fun_induction zipSorts ss sz da with
  | case1 sz da =>
    obtain ⟨rfl, rfl⟩ : sz = sz' ∧ da = da' := by simpa using h
    exact ⟨fun _ hk => hk, [], by simp, .nil⟩
  | case2 => cases h
  | case3 name s n ss da ih =>
    obtain ⟨hsz, atoms, rfl, hall⟩ := ih h
    exact ⟨fun _ hk => (nomatch hk), (name, s) :: atoms, by simp, .cons ⟨rfl, n, rfl, hsz n rfl⟩ hall⟩
  | case4 name s ss sz da ih =>
    obtain ⟨hsz, atoms, rfl, hall⟩ := ih h
    exact ⟨fun k hk => hsz k hk, (name, s) :: atoms, by simp, .cons ⟨rfl, _, rfl, hsz _ rfl⟩ hall⟩
  | case5 | case6 => cases h

theorem zipRow_spec {k : Nat} {atoms : List (String × VarSort)}
    (h : List.Forall₂ (fun m s => m.1 = s.1 ∧ Fits m.2 s.2) ms ss) (hzip : Zipped (some k) ss atoms) {i : Nat} (hi : i < k) :
    ∃ row, zipRow ms i = some row ∧ List.Forall₂ (fun m s => m.1 = s.1 ∧ Fits m.2 s.2) row atoms := by
  induction h generalizing atoms with
  | nil =>
    cases hzip
    exact ⟨[], rfl, .nil⟩
  | @cons m s ms ss hm _ ih =>
    cases hzip with
    | @cons _ a _ atoms' ha htail =>
      obtain ⟨row, hrow, hall⟩ := ih htail
      obtain ⟨hname, n, hs, hn⟩ := ha
      obtain rfl : k = n := Option.some.inj hn
      rw [hs] at hm
      obtain ⟨cs, hcs, hlen, helems⟩ := hm.2.exists_vector
      have hnth : m.2.nth i = some (cs.get ⟨i, hlen ▸ hi⟩) := by
        rw [hcs, nth, List.getD_eq_getElem?_getD, List.getElem?_eq_getElem (hlen ▸ hi), Option.getD_some, List.get_eq_getElem]
      refine ⟨(m.1, cs.get ⟨i, hlen ▸ hi⟩) :: row, ?_, .cons ⟨hm.1.trans hname, helems _ (List.get_mem cs _)⟩ hall⟩
      rw [zipRow] at hrow ⊢
      rw [List.mapM_cons, hnth, Option.map_some, hrow]
      rfl

theorem zipped_ok {sz : Option Nat} {atoms : List (String × VarSort)} (h : Zipped sz ss atoms)
    (hnodup : (ss.map Prod.fst).Nodup) (hok : ∀ s ∈ ss, s.2.Ok) : (atoms.map Prod.fst).Nodup ∧ ∀ a ∈ atoms, a.2.Ok := by
  have hnames : ss.map Prod.fst = atoms.map Prod.fst := by
    clear hnodup hok
    induction h with
    | nil => rfl
    | cons ha _ ih => rw [List.map_cons, List.map_cons, ha.1, ih]
  refine ⟨hnames ▸ hnodup, fun a ha => ?_⟩
  obtain ⟨s, hs, -, n, hvec, -⟩ := Pointwise.exists_left h ha
  have hsok := hok s hs
  rw [hvec, VarSort.Ok] at hsok
  exact hsok

theorem zip_good {c r : VarContainer} (hc : c.Good) (h : c.zip = some r) (hr : r.isNull = false) : r.Good := by
  cases c with
  | null => simp [zip] at h
  | primitive | vector => exact (absurd_null h hr).elim
  | struct t ms =>
    obtain ⟨ss, rfl, hnodup, hok, hall⟩ := hc.struct
    rw [zip, VarSort.members, Option.bind_some] at h
    split at h
    · exact (absurd_null h hr).elim
    · split at h
      · rename_i res hzip
        rcases zipSorts_error hzip with rfl | rfl
        · cases h
        · exact (absurd_null h hr).elim
      · cases h
      · rename_i k da hzip
        obtain ⟨-, atoms, rfl, hatoms⟩ := zipSorts_ok hzip
        obtain ⟨rows, hrows, hcont⟩ := Option.bind_eq_some_iff.mp h
        have hlen : rows.length = k := by
          rw [← (MapM.eq_some_iff.mp hrows).length_eq, List.length_range]
        have hrow : ∀ row ∈ rows, List.Forall₂ (fun m s => m.1 = s.1 ∧ Fits m.2 s.2) row da := by
          intro row hrow
          obtain ⟨i, hi, heq⟩ := MapM.exists_of_mem hrows hrow
          obtain ⟨row', heq', hfits⟩ := zipRow_spec hall hatoms (List.mem_range.mp hi)
          rw [heq, Option.some.injEq] at heq'
          exact heq' ▸ hfits
        obtain ⟨hnames, hatomsOk⟩ := zipped_ok hatoms hnodup hok
        refine good_of_accepted ?_ ?_ (fun c hc => ?_) hcont
        · rw [VarSort.Ok, VarSort.Ok, VarSort.okAll_iff]
          exact ⟨hnames, hatomsOk⟩
        · rw [CppObj.Accepted]
          refine ⟨.struct da, by rw [List.length_map, hlen], CppObj.acceptedElems_iff.mpr fun x hx => ?_⟩
          obtain ⟨row, hmem, rfl⟩ := List.mem_map.mp hx
          refine CppObj.accepted_entries (fun m hm => ?_) fun s hs => ?_
          · exact lookup_fits (hrow row hmem) (Entries.lookup_of_mem (names_eq (hrow row hmem) ▸ hnames) hm)
          · rw [names_eq (hrow row hmem)]
            exact List.mem_map_of_mem hs
        · rw [CppObj.containers, CppObj.mem_containersElems] at hc
          obtain ⟨x, hx, hcx⟩ := hc
          obtain ⟨row, hmem, rfl⟩ := List.mem_map.mp hx
          obtain ⟨m, hm, rfl⟩ := CppObj.mem_containers_entries.mp hcx
          exact good_of_mem hatomsOk (hrow row hmem) hnames hm

/-! Taking a structure apart and putting it together -/

theorem pick_perm (hnodup : (ms.map Prod.fst).Nodup) {names : List String} (hdistinct : names.Nodup)
    (hnames : ∀ n ∈ names, n ∈ ms.map Prod.fst) : (pick ms .null names).Perm (ms.filter fun m => m.1 ∈ names) := by
  have hpick : (pick ms .null names).Nodup :=
    List.Nodup.of_map Prod.fst (by rw [pick_names]; exact hdistinct)
  have hfilter : (ms.filter fun m => m.1 ∈ names).Nodup := (List.Nodup.of_map Prod.fst hnodup).filter _
  refine (List.perm_ext_iff_of_nodup hpick hfilter).mpr fun m => ?_
  rw [pick, List.mem_map, List.mem_filter, decide_eq_true_eq]
  constructor
  · rintro ⟨n, hn, rfl⟩
    obtain ⟨c, hc⟩ := Entries.exists_lookup (hnames n hn)
    rw [hc, Option.getD_some]
    exact ⟨Entries.mem_of_lookup hc, hn⟩
  · rintro ⟨hm, hn⟩
    exact ⟨m.1, hn, by rw [Entries.lookup_of_mem hnodup hm, Option.getD_some]⟩

theorem project_joinWith {t : VarSort} (hc : (struct t ms).Good) {names : List String} (hdistinct : names.Nodup)
    (hnames : ∀ n ∈ names, n ∈ ms.map Prod.fst) :
    ∃ p q j ms', (struct t ms).project names = some p ∧ (struct t ms).projectWithout names = some q ∧
      p.joinWith q = some j ∧ j.members = some ms' ∧ ms'.Perm ms ∧ (ms'.map Prod.fst).Nodup := by
  obtain ⟨ss, rfl, hnodup, -, hall⟩ := hc.struct
  have hms : (ms.map Prod.fst).Nodup := names_eq hall ▸ hnodup
  have hperm : (pick ms .null names ++ ms.filter fun m => m.1 ∉ names).Perm ms := by
    refine ((pick_perm hms hdistinct hnames).append_right _).trans ?_
    simpa using List.filter_append_perm (fun m : String × VarContainer => decide (m.1 ∈ names)) ms
  have hpick := forall₂_pick hall hnames
  have hrest := forall₂_filter hall fun n => n ∉ names
  have hjoined : ((pick ms .null names ++ ms.filter fun m => m.1 ∉ names).map Prod.fst).Nodup :=
    (hperm.map Prod.fst).nodup_iff.mpr hms
  have hsorts := hjoined
  rw [names_eq (List.rel_append hpick hrest)] at hsorts
  exact ⟨_, _, _, _, project_eq hall hnodup hnames hdistinct _, projectWithout_eq hall hnodup names,
    joinWith_eq hpick hrest hsorts, rfl, hperm, hjoined⟩

end VarContainer

/-! ### Runs -/

theorem VarOp.run_good {op : VarOp} (hok : op.Ok) (hargs : ∀ c ∈ op.args, c.isNull ∨ c.Good) {i i' : Nat}
    {cs : List VarContainer} (h : op.run i = some (cs, i')) : ∀ c ∈ cs, c.isNull = false → c.Good := by
  -- All operations but the partition return one pointer, which is null or comes from the operation's lemma.
  have hone : ∀ {o : Option VarContainer}, o.map (fun r => ([r], i)) = some (cs, i') →
      (∀ r, o = some r → r.isNull = false → r.Good) → ∀ c ∈ cs, c.isNull = false → c.Good := by
    intro o ho hgood c hc hnull
    obtain ⟨r, hr, heq⟩ := Option.map_eq_some_iff.mp ho
    obtain ⟨rfl, -⟩ : [r] = cs ∧ i = i' := by simpa using heq
    rw [List.mem_singleton.mp hc] at hnull ⊢
    exact hgood r hr hnull
  -- An operation of a null pointer has no result.
  have harg : ∀ {c r : VarContainer} {f : VarContainer → Option VarContainer}, f .null = none → c ∈ op.args →
      f c = some r → c.Good := by
    intro c r f hf hc hr
    refine (hargs c hc).resolve_left fun hnull => ?_
    cases c with
    | null =>
      rw [hf] at hr
      cases hr
    | primitive | vector | struct => cases hnull
  cases op with
  | make name sort =>
    obtain ⟨⟨c, j⟩, hc, heq⟩ := Option.map_eq_some_iff.mp h
    obtain ⟨rfl, -⟩ : [c] = cs ∧ j = i' := by simpa using heq
    intro c' hc' _
    rw [List.mem_singleton.mp hc']
    exact ⟨sort, hok, VarContainer.make_fits sort hc⟩
  | fromCppObj sort obj =>
    refine hone h fun r hr _ => ?_
    obtain ⟨c, hc, hfits⟩ := CppObj.toContainer_fits obj hok.1 hok.2 fun c hc t ht => by
      refine (VarContainer.Good.fits ((hargs c hc).resolve_left fun hnull => ?_) ht).2
      cases c with
      | null => cases ht
      | primitive | vector | struct => cases hnull
    rw [hr, Option.some.injEq] at hc
    exact ⟨sort, hok.1, hc ▸ hfits⟩
  | nth c idx =>
    exact hone h fun r hr hnull =>
      VarContainer.nth_good (harg (f := fun c => c.nth idx) rfl (List.mem_singleton_self c) hr) hr hnull
  | member c name =>
    exact hone h fun r hr hnull =>
      VarContainer.member_good (harg (f := fun c => c.member name) rfl (List.mem_singleton_self c) hr) hr hnull
  | project c names =>
    exact hone h fun r hr hnull =>
      VarContainer.project_good (harg (f := fun c => c.project names) rfl (List.mem_singleton_self c) hr) hok hr hnull
  | projectWithout c names =>
    exact hone h fun r hr hnull =>
      VarContainer.projectWithout_good (harg (f := fun c => c.projectWithout names) rfl (List.mem_singleton_self c) hr) hr hnull
  | joinWith c b =>
    refine hone h fun r hr hnull => ?_
    have hb : b.isNull ∨ b.Good := hargs b (List.mem_cons_of_mem c (List.mem_singleton_self b))
    exact VarContainer.joinWith_good (harg (f := fun c => c.joinWith b) rfl List.mem_cons_self hr) hb hr hnull
  | partition c nParts whichPart =>
    obtain ⟨rs, hrs, heq⟩ := Option.map_eq_some_iff.mp h
    obtain ⟨rfl, -⟩ : rs = cs ∧ i = i' := by simpa using heq
    have hc : c.Good := by
      refine (hargs c (List.mem_singleton_self c)).resolve_left fun hnull => ?_
      cases c with
      | null => cases hrs
      | primitive | vector | struct => cases hnull
    exact fun r hr _ => VarContainer.partition_good hc hrs r hr
  | zip c =>
    exact hone h fun r hr hnull =>
      VarContainer.zip_good (harg (f := fun c => c.zip) rfl (List.mem_singleton_self c) hr) hr hnull
  | unzip c =>
    exact hone h fun r hr hnull =>
      VarContainer.unzip_good (harg (f := fun c => c.unzip) rfl (List.mem_singleton_self c) hr) hr hnull

/-- The runs of operations that all meet a condition. -/
def VarRun (P : VarOp → Prop) : VarPool → VarPool → Prop := ReflTransGen fun s s' => ∃ op, P op ∧ VarStep op s s'

theorem VarRun.good {s : VarPool} (h : VarRun VarOp.Ok .init s) : ∀ c ∈ s.pool, c.Good := by
  induction h with
  | refl => simp [VarPool.init]
  | tail _ hstep ih =>
    obtain ⟨op, hok, hargs, hrun⟩ := hstep
    intro c hc
    rcases List.mem_append.mp hc with hc | hc
    · exact ih c hc
    · rw [List.mem_filter, Bool.not_eq_eq_eq_not, Bool.not_true] at hc
      exact VarOp.run_good hok (fun c' hc' => (hargs c' hc').imp_right (ih c')) hrun c hc.1 hc.2

/-- In every run of operations that are given sorts and names without duplicates, and objects of the sort, every
container has the shape of its sort; and the projections of a structure on some of its names and on the others, joined,
hold every member of the structure once. -/
theorem varRun_shape {s : VarPool} (h : VarRun VarOp.Ok .init s) {c : VarContainer} (hc : c ∈ s.pool) :
    (∃ t, c.sort = some t ∧ c.Fits t) ∧
    ∀ t ms names, c = .struct t ms → names.Nodup → (∀ n ∈ names, n ∈ ms.map Prod.fst) →
      ∃ p q j ms', c.project names = some p ∧ c.projectWithout names = some q ∧ p.joinWith q = some j ∧
        j.members = some ms' ∧ ms'.Perm ms ∧ (ms'.map Prod.fst).Nodup := by
  have hgood := h.good c hc
  refine ⟨?_, fun t ms names heq hdistinct hnames => ?_⟩
  · obtain ⟨t, -, hfits⟩ := hgood
    exact ⟨t, hfits.sort, hfits⟩
  · subst heq
    exact VarContainer.project_joinWith hgood hdistinct hnames

/-- A structure of a Boolean and a byte. -/
def pairSort : VarSort := .struct [("a", .bool), ("b", .bv 8)]

def pairOf (x y : LeafExpr) : VarContainer := .struct pairSort [("a", .primitive x), ("b", .primitive y)]

theorem varRun_shape_pair : ∃ s c, VarRun VarOp.Ok .init s ∧ c ∈ s.pool ∧ (∃ t, c.sort = some t ∧ c.Fits t) ∧
    ∃ p q j ms', c.project ["b"] = some p ∧ c.projectWithout ["b"] = some q ∧ p.joinWith q = some j ∧
      j.members = some ms' ∧ ms'.length = 2 := by
  let c := pairOf ⟨0, "s_a_", .bool⟩ ⟨1, "s_b_", .bv 8⟩
  have hok : (VarOp.make "s" pairSort).Ok := by
    simp [VarOp.Ok, pairSort, VarSort.Ok, VarSort.OkAll]
  have hstep : VarStep (.make "s" pairSort) .init ⟨2, [c]⟩ := by
    have hargs : ∀ c ∈ (VarOp.make "s" pairSort).args, c.isNull ∨ c ∈ VarPool.init.pool := by simp [VarOp.args]
    have hmake : (VarOp.make "s" pairSort).run 0 = some ([c], 2) := by
      simp [VarOp.run, VarContainer.make, VarContainer.makeMembers, pairSort, c, pairOf]
    exact VarStep.mk hargs hmake
  have hrun : VarRun VarOp.Ok .init ⟨2, [c]⟩ := .single ⟨_, hok, hstep⟩
  obtain ⟨hfits, hjoin⟩ := varRun_shape hrun (c := c) (by simp)
  obtain ⟨p, q, j, ms', hp, hq, hj, hms', hperm, -⟩ :=
    hjoin pairSort _ ["b"] rfl (by simp) (by simp)
  exact ⟨_, c, hrun, by simp, hfits, p, q, j, ms', hp, hq, hj, hms', by simpa using hperm.length_eq⟩

/-- A structure with two members of one name. -/
def twinSort : VarSort := .struct [("a", .bool), ("a", .bv 8)]

/-- Two members of one name: after a projection without any of them, the Boolean stands for both, although the sort says
that the second one is a byte. No assertion fails on the way. -/
theorem varRun_twins_lose_shape : ¬ ∀ s, VarRun (fun _ => True) .init s → ∀ c ∈ s.pool, ∃ t, c.sort = some t ∧ c.Fits t := by
  intro h
  let x : VarContainer := .primitive ⟨0, "s_a_", .bool⟩
  let y : VarContainer := .primitive ⟨1, "s_a_", .bv 8⟩
  let c : VarContainer := .struct twinSort [("a", x), ("a", y)]
  let d : VarContainer := .struct twinSort [("a", x), ("a", x)]
  have hmake : VarStep (.make "s" twinSort) .init ⟨2, [c]⟩ := by
    have hargs : ∀ c ∈ (VarOp.make "s" twinSort).args, c.isNull ∨ c ∈ VarPool.init.pool := by simp [VarOp.args]
    have hrun : (VarOp.make "s" twinSort).run 0 = some ([c], 2) := by
      simp [VarOp.run, VarContainer.make, VarContainer.makeMembers, twinSort, c, x, y]
    exact VarStep.mk hargs hrun
  have hproject : VarStep (.projectWithout c ["b"]) ⟨2, [c]⟩ ⟨2, [c, d]⟩ := by
    have hargs : ∀ a ∈ (VarOp.projectWithout c ["b"]).args, a.isNull ∨ a ∈ [c] := by simp [VarOp.args]
    have hrun : (VarOp.projectWithout c ["b"]).run 2 = some ([d], 2) := by
      simp [VarOp.run, VarContainer.projectWithout, KeyVec.ofList, KeyVec.pushBack, VarSort.members,
        CppObj.toContainer_entries, twinSort, c, d, x]
    exact VarStep.mk (s := ⟨2, [c]⟩) hargs hrun
  have hrun : VarRun (fun _ => True) .init ⟨2, [c, d]⟩ := (ReflTransGen.single ⟨_, trivial, hmake⟩).tail ⟨_, trivial, hproject⟩
  obtain ⟨t, ht, hfits⟩ := h _ hrun d (by simp)
  obtain rfl : twinSort = t := Option.some.inj ht
  simp [d, x, twinSort, VarContainer.Fits, VarContainer.FitsMembers, VarSort.ofSrt] at hfits

end Ilang
