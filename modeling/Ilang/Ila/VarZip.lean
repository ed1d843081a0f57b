import Ilang.Ila.VarShape

/-!
# Zip and unzip

`zip` makes a vector of structures from a structure of vectors, and `unzip` goes the other way. Both find the members
of a structure by their names, so that of two members with one name `zip` takes the first for both, while `unzip`
puts the elements of both into one vector. With distinct names the two are inverse to each other.
-/

namespace Ilang

namespace VarContainer

/-- The members of a structure of vectors of one length, by the sorts of their elements. -/
def vecs (n : Nat) (atoms : List (String × VarSort)) : List (String × VarSort) := atoms.map fun a => (a.1, .vec a.2 n)

/-- The element of a vector. -/
def elem : VarContainer → Nat → VarContainer
  | .vector _ cs, i => cs.getD i .null
  | _, _ => .null

def isVector : VarContainer → Bool
  | .vector _ _ => true
  | _ => false

/-- The member under a name: the first one. -/
def first (ms : List (String × VarContainer)) (name : String) : VarContainer := (ms.lookup name).getD .null

def firstSort (ss : List (String × VarSort)) (name : String) : VarSort := (ss.lookup name).getD .null

/-- All the members of a structure under a name. -/
def column (name : String) : VarContainer → List VarContainer
  | .struct _ ms => (ms.filter fun m => m.1 = name).map Prod.snd
  | _ => []

/-! ### Zip -/

theorem zipSorts_vecs (atoms da : List (String × VarSort)) (n : Nat) :
    zipSorts (vecs n atoms) (some n) da = .ok (some n, da ++ atoms) := by
  induction atoms generalizing da with
  | nil => simp [vecs, zipSorts]
  | cons a atoms ih =>
    rw [vecs, List.map_cons, zipSorts, if_pos rfl, ← vecs, ih, List.append_assoc, List.singleton_append]

theorem zipSorts_vecs_none {atoms : List (String × VarSort)} (hne : atoms ≠ []) (n : Nat) :
    zipSorts (vecs n atoms) none [] = .ok (some n, atoms) := by
  cases atoms with
  | nil => exact absurd rfl hne
  | cons a atoms => rw [vecs, List.map_cons, zipSorts, ← vecs, zipSorts_vecs, List.nil_append, List.singleton_append]

theorem zipRow_eq {ms : List (String × VarContainer)} (hvec : ∀ m ∈ ms, m.2.isVector = true) (i : Nat) :
    zipRow ms i = some (ms.map fun m => (m.1, elem m.2 i)) := by
  rw [zipRow, MapM.eq_some_iff]
  induction ms with
  | nil => exact .nil
  | cons m ms ih =>
    refine .cons ?_ (ih fun m' hm' => hvec m' (List.mem_cons_of_mem m hm'))
    have hm := hvec m List.mem_cons_self
    cases hc : m.2 with
    | vector t cs => simp [nth, elem, hc]
    | null | primitive | struct => rw [hc] at hm; cases hm

theorem toElems_entries (ss : List (String × VarSort)) (n : Nat) (rows : List (List (String × VarContainer))) :
    CppObj.toElems (.vec (.struct ss) n) (rows.map entries) =
      some (rows.map fun row => .struct (.struct ss) (ss.map fun s => (s.1, first row s.1))) := by
  induction rows with
  | nil => rw [List.map_nil, CppObj.toElems, List.map_nil]
  | cons row rows ih =>
    rw [List.map_cons, CppObj.toElems, ih, VarSort.dataAtom, Option.bind_some, CppObj.toContainer_entries, Option.bind_some,
      Option.map_some, List.map_cons]
    rfl

theorem zip_eq {atoms : List (String × VarSort)} {n : Nat} {ms : List (String × VarContainer)} (hne : atoms ≠ [])
    (hms : ms ≠ []) (hvec : ∀ m ∈ ms, m.2.isVector = true) :
    (struct (.struct (vecs n atoms)) ms).zip = some (.vector (.vec (.struct atoms) n) ((List.range n).map fun i =>
      .struct (.struct atoms) (atoms.map fun a => (a.1, elem (first ms a.1) i)))) := by
  have hrows : (List.range n).mapM (zipRow ms) = some ((List.range n).map fun i => ms.map fun m => (m.1, elem m.2 i)) := by
    rw [MapM.eq_some_iff]
    refine List.forall₂_map_right_iff.mpr (List.forall₂_same.mpr fun i _ => zipRow_eq hvec i)
  rw [zip, if_neg (by simpa using hms), VarSort.members, Option.bind_some, zipSorts_vecs_none hne]
  simp only [hrows, Option.bind_some]
  rw [CppObj.toContainer, toElems_entries, Option.map_some, List.map_map]
  congr 2
  refine List.map_congr_left fun i _ => ?_
  rw [Function.comp_apply]
  congr 1
  refine List.map_congr_left fun a _ => ?_
  have hlookup := Entries.lookup_map (l := ms) (n := a.1) fun c => elem c i
  rw [first, hlookup, first]
  cases ms.lookup a.1 <;> rfl

/-! ### Unzip -/

theorem pushAt_names {res : List (String × List VarContainer)} {m : String × VarContainer} (h : m.1 ∈ res.map Prod.fst) :
    (pushAt res m).map Prod.fst = res.map Prod.fst := by
  rw [pushAt_of_mem h, List.map_map]
  refine List.map_congr_left fun r _ => ?_
  rw [Function.comp_apply]
  split <;> rfl

theorem foldl_pushAt_filter {ms : List (String × VarContainer)} {res : List (String × List VarContainer)}
    (hres : ∀ m ∈ ms, m.1 ∈ res.map Prod.fst) :
    ms.foldl pushAt res = res.map fun r => (r.1, r.2 ++ (ms.filter fun m => m.1 = r.1).map Prod.snd) := by
  induction ms generalizing res with
  | nil => simp
  | cons m ms ih =>
    have hm := hres m List.mem_cons_self
    rw [List.foldl_cons, ih fun m' hm' => pushAt_names hm ▸ hres m' (List.mem_cons_of_mem m hm'), pushAt_of_mem hm,
      List.map_map]
    refine List.map_congr_left fun r _ => ?_
    rw [Function.comp_apply, List.filter_cons]
    by_cases hr : r.1 = m.1
    · simp [hr]
    · simp [hr, Ne.symm hr]

/-- The members have names of the sort. -/
def Within (ss : List (String × VarSort)) (c : VarContainer) : Prop :=
  ∃ t ms, c = .struct t ms ∧ ∀ m ∈ ms, m.1 ∈ ss.map Prod.fst

theorem Fits.within {ss : List (String × VarSort)} {c : VarContainer} (h : c.Fits (.struct ss)) : Within ss c := by
  obtain ⟨ms, rfl, hall⟩ := h.exists_struct
  exact ⟨_, ms, rfl, fun m hm => names_eq hall ▸ List.mem_map_of_mem hm⟩

theorem unzipLoop_eq {ss : List (String × VarSort)} {cs : List VarContainer} (hcs : ∀ c ∈ cs, Within ss c)
    {res : List (String × List VarContainer)} (hres : ∀ s ∈ ss, s.1 ∈ res.map Prod.fst) :
    unzipLoop cs res = some (res.map fun r => (r.1, r.2 ++ cs.flatMap (column r.1))) := by
  induction cs generalizing res with
  | nil => simp [unzipLoop]
  | cons c cs ih =>
    obtain ⟨t, ms, rfl, hall⟩ := hcs c List.mem_cons_self
    have hnames : ∀ m ∈ ms, m.1 ∈ res.map Prod.fst := by
      intro m hm
      obtain ⟨s, hs, heq⟩ := List.mem_map.mp (hall m hm)
      exact heq ▸ hres s hs
    rw [unzipLoop, members, Option.bind_some, foldl_pushAt_filter hnames,
      ih (fun c' hc' => hcs c' (List.mem_cons_of_mem _ hc')) (by simpa [Function.comp_def] using hres), List.map_map]
    refine congrArg some (List.map_congr_left fun r _ => ?_)
    simp [column]

theorem toElems_containers {sort da : VarSort} (hda : sort.dataAtom = some da) (cs : List VarContainer) :
    CppObj.toElems sort (cs.map .container) = some cs := by
  induction cs with
  | nil => rw [List.map_nil, CppObj.toElems]
  | cons c cs ih =>
    rw [List.map_cons, CppObj.toElems, hda, Option.bind_some, CppObj.toContainer, Option.bind_some, ih, Option.map_some]

theorem toMembers_columns {ss : List (String × VarSort)} {k : Nat} (res : List (String × List VarContainer))
    (hres : ∀ r ∈ res, r.1 ∈ ss.map Prod.fst) (found : List (String × VarContainer)) :
    CppObj.toMembers (.struct (vecs k ss)) (res.map fun r => (r.1, .vec (r.2.map .container))) found =
      some ((res.map fun r => (r.1, vector (.vec (firstSort ss r.1) k) r.2)).foldl (KeyVec.pushBack Prod.fst) found) := by
  induction res generalizing found with
  | nil => rw [List.map_nil, CppObj.toMembers, List.map_nil, List.foldl_nil]
  | cons r res ih =>
    obtain ⟨s, hs⟩ := Entries.exists_lookup (hres r List.mem_cons_self)
    have hsort : (VarSort.struct (vecs k ss)).getMemberSort r.1 = some (.vec (firstSort ss r.1) k) := by
      have hlookup := Entries.lookup_map (l := ss) (n := r.1) fun x => VarSort.vec x k
      rw [hs, Option.map_some] at hlookup
      rw [VarSort.getMemberSort, vecs, hlookup, firstSort, hs]
      rfl
    rw [List.map_cons, CppObj.toMembers, hsort, Option.bind_some, CppObj.toContainer, toElems_containers rfl, Option.map_some,
      Option.bind_some, ih fun r' hr' => hres r' (List.mem_cons_of_mem r hr'), List.map_cons, List.foldl_cons]

theorem unzip_eq_columns {ss : List (String × VarSort)} {n : Nat} {cs : List VarContainer} (hne : ss ≠ [])
    (hcs : ∀ c ∈ cs, Within ss c) :
    (vector (.vec (.struct ss) n) cs).unzip = some (.struct (.struct (vecs cs.length ss)) (ss.map fun s =>
      (s.1, .vector (.vec (firstSort ss s.1) cs.length) (cs.flatMap (column s.1))))) := by
  have hres : ∀ s ∈ ss, s.1 ∈ (KeyVec.ofList Prod.fst (ss.map fun x => (x.1, ([] : List VarContainer)))).map Prod.fst := by
    intro s hs
    have hmem : s.1 ∈ (ss.map fun x => (x.1, ([] : List VarContainer))).map Prod.fst := by
      simpa using ⟨s.2, hs⟩
    obtain ⟨l, hl⟩ := Entries.exists_lookup hmem
    rw [← Entries.lookup_ofList] at hl
    exact Entries.name_mem_of_lookup hl
  have hempty : ∀ r ∈ KeyVec.ofList Prod.fst (ss.map fun x => (x.1, ([] : List VarContainer))), r.1 ∈ ss.map Prod.fst ∧ r.2 = [] := by
    intro r hr
    obtain ⟨s, hs, rfl⟩ := List.mem_map.mp (KeyVec.mem_of_mem_ofList hr)
    exact ⟨List.mem_map_of_mem hs, rfl⟩
  have hnames : ∀ r ∈ (KeyVec.ofList Prod.fst (ss.map fun x => (x.1, ([] : List VarContainer)))).map
      (fun r => (r.1, r.2 ++ cs.flatMap (column r.1))), r.1 ∈ ss.map Prod.fst := by
    intro r hr
    obtain ⟨r', hr', rfl⟩ := List.mem_map.mp hr
    exact (hempty r' hr').1
  rw [unzip_eq hne, unzipLoop_eq hcs hres, Option.bind_some, CppObj.toContainer, ← vecs, toMembers_columns _ hnames,
    Option.bind_some, VarSort.members, Option.map_some]
  congr 2
  rw [vecs, List.map_map]
  refine List.map_congr_left fun s hs => ?_
  rw [Function.comp_apply, Prod.mk.injEq]
  refine ⟨rfl, ?_⟩
  obtain ⟨t, ht⟩ := Entries.exists_lookup (List.mem_map_of_mem (f := Prod.fst) hs)
  have hcols := Entries.lookup_map_name (l := (KeyVec.ofList Prod.fst (ss.map fun x => (x.1, ([] : List VarContainer)))).map
    fun r => (r.1, r.2 ++ cs.flatMap (column r.1))) (n := s.1) fun name col => vector (.vec (firstSort ss name) cs.length) col
  have hcells := Entries.lookup_map_name (l := KeyVec.ofList Prod.fst (ss.map fun x => (x.1, ([] : List VarContainer))))
    (n := s.1) fun name l => l ++ cs.flatMap (column name)
  have hnil := Entries.lookup_map (l := ss) (n := s.1) fun _ => ([] : List VarContainer)
  rw [show ∀ l : List (String × VarContainer), l.foldl (KeyVec.pushBack Prod.fst) [] = KeyVec.ofList Prod.fst l from
    fun _ => rfl, Entries.lookup_ofList, hcols, hcells, Entries.lookup_ofList, hnil, ht]
  rfl

/-! ### There and back -/

theorem first_map (ss : List (String × VarSort)) (g : String → VarContainer) {s : String × VarSort} (hs : s ∈ ss) :
    first (ss.map fun s => (s.1, g s.1)) s.1 = g s.1 := by
  obtain ⟨t, ht⟩ := Entries.exists_lookup (List.mem_map_of_mem (f := Prod.fst) hs)
  rw [first, Entries.lookup_map_name fun name _ => g name, ht]
  rfl

theorem column_map (ss : List (String × VarSort)) (t : VarSort) (g : String → VarContainer) (name : String) :
    column name (.struct t (ss.map fun s => (s.1, g s.1))) = List.replicate ((ss.map Prod.fst).count name) (g name) := by
  induction ss with
  | nil => rfl
  | cons s ss ih =>
    rw [column] at ih ⊢
    rw [List.map_cons, List.filter_cons, List.map_cons, List.count_cons]
    by_cases hs : s.1 = name
    · simp only [hs, decide_true, if_true, List.map_cons, ih, beq_self_eq_true]
      rw [List.replicate_succ]
    · simp only [hs, decide_false, beq_iff_eq, if_false, Bool.false_eq_true, ih, Nat.add_zero]

theorem first_eq {ms : List (String × VarContainer)} (hnodup : (ms.map Prod.fst).Nodup) {m : String × VarContainer}
    (hm : m ∈ ms) : first ms m.1 = m.2 := by
  rw [first, Entries.lookup_of_mem hnodup hm, Option.getD_some]

theorem firstSort_eq {ss : List (String × VarSort)} (hnodup : (ss.map Prod.fst).Nodup) {s : String × VarSort}
    (hs : s ∈ ss) : firstSort ss s.1 = s.2 := by
  rw [firstSort, Entries.lookup_of_mem hnodup hs, Option.getD_some]

/-- A structure of vectors that comes back: its names are distinct, or there are no elements and the sorts under one
name are equal. -/
def ZipFaithful (atoms : List (String × VarSort)) (n : Nat) : Prop :=
  (atoms.map Prod.fst).Nodup ∨ n = 0 ∧ ∀ a ∈ atoms, ∀ b ∈ atoms, a.1 = b.1 → a.2 = b.2

/-- A vector of structures that comes back: under a name that comes twice there is one container, in all elements. -/
def UnzipFaithful (ss : List (String × VarSort)) (cs : List VarContainer) : Prop :=
  ∀ name, 2 ≤ (ss.map Prod.fst).count name → ∃ x, ∀ c ∈ cs, ∀ y ∈ column name c, y = x

section Struct

variable {atoms : List (String × VarSort)} {n : Nat} {ms : List (String × VarContainer)}

/-- What a member of a structure of vectors becomes. -/
def roundTrip (atoms : List (String × VarSort)) (n : Nat) (ms : List (String × VarContainer)) (name : String) :
    VarContainer :=
  .vector (.vec (firstSort atoms name) n)
    ((List.range n).flatMap fun i => List.replicate ((atoms.map Prod.fst).count name) (elem (first ms name) i))

theorem zip_unzip_eq (hne : atoms ≠ []) (hms : ms ≠ []) (hvec : ∀ m ∈ ms, m.2.isVector = true) :
    (struct (.struct (vecs n atoms)) ms).zip.bind unzip =
      some (.struct (.struct (vecs n atoms)) (atoms.map fun a => (a.1, roundTrip atoms n ms a.1))) := by
  have hwithin : ∀ c ∈ (List.range n).map fun i =>
      struct (.struct atoms) (atoms.map fun a => (a.1, elem (first ms a.1) i)), Within atoms c := by
    intro c hc
    obtain ⟨i, -, rfl⟩ := List.mem_map.mp hc
    refine ⟨_, _, rfl, fun m hm => ?_⟩
    obtain ⟨a, ha, rfl⟩ := List.mem_map.mp hm
    exact List.mem_map_of_mem ha
  rw [zip_eq hne hms hvec, Option.bind_some, unzip_eq_columns hne hwithin, List.length_map, List.length_range]
  congr 2
  refine List.map_congr_left fun a _ => ?_
  have hcol : ∀ i, column a.1 (struct (.struct atoms) (atoms.map fun b => (b.1, elem (first ms b.1) i))) =
      List.replicate ((atoms.map Prod.fst).count a.1) (elem (first ms a.1) i) := fun i =>
    column_map atoms _ (fun name => elem (first ms name) i) a.1
  rw [roundTrip, List.flatMap_map]
  simp only [hcol]

theorem vectors_of_fits (h : List.Forall₂ (fun m s => m.1 = s.1 ∧ Fits m.2 s.2) ms (vecs n atoms)) :
    (∀ m ∈ ms, m.2.isVector = true) ∧ ms.map Prod.fst = atoms.map Prod.fst := by
  refine ⟨fun m hm => ?_, ?_⟩
  · obtain ⟨k, hk, rfl⟩ := List.getElem_of_mem hm
    have hlen := h.length_eq
    have hget := h.get hk (hlen ▸ hk)
    simp only [vecs, List.get_eq_getElem, List.getElem_map] at hget
    obtain ⟨cs, hcs, -, -⟩ := hget.2.exists_vector
    rw [hcs]
    rfl
  · rw [names_eq h, vecs, List.map_map]
    rfl

theorem range_getD (cs : List VarContainer) : ((List.range cs.length).flatMap fun i => [cs.getD i .null]) = cs := by
  have hmap : ((List.range cs.length).flatMap fun i => [cs.getD i VarContainer.null]) =
      (List.range cs.length).map fun i => cs.getD i .null := by
    induction List.range cs.length with
    | nil => rfl
    | cons i l ih => rw [List.flatMap_cons, ih, List.map_cons, List.singleton_append]
  rw [hmap]
  refine List.ext_getElem (by simp) fun i hi hi' => ?_
  simp [hi']

theorem exists_zip {α β : Type} {l : List α} {l' : List β} (hlen : l.length = l'.length) {b : β} (hb : b ∈ l') :
    ∃ a, (a, b) ∈ l.zip l' := by
  rw [← @List.map_snd_zip _ _ l l' (le_of_eq hlen.symm)] at hb
  obtain ⟨p, hp, rfl⟩ := List.mem_map.mp hb
  exact ⟨p.1, hp⟩

theorem map_eq_iff_zip {α β : Type} {l : List α} {l' : List β} (hlen : l.length = l'.length) (g : β → α) :
    l'.map g = l ↔ ∀ p ∈ l.zip l', g p.2 = p.1 := by
  rw [eq_comm, ← List.forall₂_eq_eq_eq, List.forall₂_map_right_iff, List.forall₂_iff_zip]
  constructor
  · rintro ⟨-, h⟩ p hp
    exact (h hp).symm
  · intro h
    exact ⟨hlen, fun hp => (h _ hp).symm⟩

theorem roundTrip_eq_iff (h : List.Forall₂ (fun m s => m.1 = s.1 ∧ Fits m.2 s.2) ms (vecs n atoms)) :
    (atoms.map fun a => (a.1, roundTrip atoms n ms a.1)) = ms ↔ ZipFaithful atoms n := by
  have hnames := (vectors_of_fits h).2
  rw [vecs, List.forall₂_map_right_iff, List.forall₂_iff_zip] at h
  obtain ⟨hlen, hpairs⟩ := h
  rw [map_eq_iff_zip hlen]
  constructor
  · intro heq
    have hmember : ∀ a ∈ atoms, firstSort atoms a.1 = a.2 ∧ n * (atoms.map Prod.fst).count a.1 = n := by
      intro a ha
      obtain ⟨m, hm⟩ := exists_zip hlen ha
      obtain ⟨-, hfits⟩ := hpairs hm
      obtain ⟨cs, hcs, hlength, -⟩ := hfits.exists_vector
      have hround := congrArg Prod.snd (heq _ hm)
      rw [hcs, roundTrip] at hround
      injection hround with hsort hcells
      injection hsort with hsort
      refine ⟨hsort, ?_⟩
      have hcount := congrArg List.length hcells
      rw [hlength] at hcount
      simpa using hcount
    by_cases hn : n = 0
    · refine .inr ⟨hn, fun a ha b hb hab => ?_⟩
      rw [← (hmember a ha).1, ← (hmember b hb).1, hab]
    · refine .inl (List.nodup_iff_count_le_one.mpr fun name => ?_)
      by_cases hname : name ∈ atoms.map Prod.fst
      · obtain ⟨a, ha, rfl⟩ := List.mem_map.mp hname
        exact le_of_eq (Nat.eq_of_mul_eq_mul_left (Nat.pos_of_ne_zero hn) ((hmember a ha).2.trans (Nat.mul_one n).symm))
      · rw [List.count_eq_zero.mpr hname]
        exact Nat.zero_le 1
  · rintro hfaith ⟨m, a⟩ hp
    obtain ⟨hm, ha⟩ := List.of_mem_zip hp
    obtain ⟨hname, hfits⟩ := hpairs hp
    obtain ⟨cs, hcs, hlength, -⟩ := hfits.exists_vector
    have hmember : roundTrip atoms n ms a.1 = .vector (.vec a.2 n) cs := by
      rcases hfaith with hnodup | ⟨rfl, hsame⟩
      · have hfirst : first ms a.1 = .vector (.vec a.2 n) cs := by
          rw [← hcs, ← hname]
          exact first_eq (hnames ▸ hnodup) hm
        have hcount : (atoms.map Prod.fst).count a.1 = 1 :=
          List.count_eq_one_of_mem hnodup (List.mem_map_of_mem ha)
        rw [roundTrip, firstSort_eq hnodup ha, hfirst, hcount]
        simp only [List.replicate_one, elem]
        rw [← hlength, range_getD]
      · rw [List.length_eq_zero_iff] at hlength
        subst hlength
        obtain ⟨t, ht⟩ := Entries.exists_lookup (List.mem_map_of_mem (f := Prod.fst) ha)
        have hsort : firstSort atoms a.1 = a.2 := by
          rw [firstSort, ht]
          exact hsame _ (Entries.mem_of_lookup ht) a ha rfl
        rw [roundTrip, hsort]
        rfl
    rw [hmember, ← hname, ← hcs]

end Struct

section Vector

variable {ss : List (String × VarSort)} {cs : List VarContainer}

/-- What an element of a vector of structures becomes. -/
def roundTripElem (ss : List (String × VarSort)) (cs : List VarContainer) (i : Nat) : VarContainer :=
  .struct (.struct ss) (ss.map fun s => (s.1, (cs.flatMap (column s.1)).getD i .null))

theorem unzip_zip_eq (hne : ss ≠ []) (hcs : ∀ c ∈ cs, Within ss c) :
    (vector (.vec (.struct ss) cs.length) cs).unzip.bind zip =
      some (.vector (.vec (.struct ss) cs.length) ((List.range cs.length).map (roundTripElem ss cs))) := by
  have hvec : ∀ m ∈ ss.map fun s => (s.1, vector (.vec (firstSort ss s.1) cs.length) (cs.flatMap (column s.1))),
      m.2.isVector = true := by
    intro m hm
    obtain ⟨s, -, rfl⟩ := List.mem_map.mp hm
    rfl
  rw [unzip_eq_columns hne hcs, Option.bind_some, zip_eq hne (by simpa using hne) hvec]
  congr 2
  refine List.map_congr_left fun i _ => ?_
  rw [roundTripElem]
  congr 1
  refine List.map_congr_left fun s hs => ?_
  have hfirst := first_map ss (fun name => vector (.vec (firstSort ss name) cs.length) (cs.flatMap (column name))) hs
  rw [hfirst, elem]

theorem length_column {c : VarContainer} (h : c.Fits (.struct ss)) (name : String) :
    (column name c).length = (ss.map Prod.fst).count name := by
  obtain ⟨ms, rfl, hall⟩ := h.exists_struct
  rw [column, List.length_map, ← names_eq hall, List.count, List.countP_map, List.countP_eq_length_filter]
  rfl

theorem mem_column {t : VarSort} {ms : List (String × VarContainer)} {m : String × VarContainer} (hm : m ∈ ms) :
    m.2 ∈ column m.1 (.struct t ms) :=
  List.mem_map_of_mem (List.mem_filter.mpr ⟨hm, by simp⟩)

/-- The elements come back if and only if each has, under every name, what the vector of this name has at its place. -/
theorem roundTripElem_eq_iff (hcs : ∀ c ∈ cs, c.Fits (.struct ss)) :
    (List.range cs.length).map (roundTripElem ss cs) = cs ↔
      ∀ (i : Nat) (hi : i < cs.length) (name : String), ∀ y ∈ column name cs[i], y = (cs.flatMap (column name)).getD i .null := by
  have helem : ∀ (i : Nat) (hi : i < cs.length), roundTripElem ss cs i = cs[i] ↔
      ∀ name, ∀ y ∈ column name cs[i], y = (cs.flatMap (column name)).getD i .null := by
    intro i hi
    obtain ⟨ms, hms, hall⟩ := (hcs cs[i] (List.getElem_mem hi)).exists_struct
    rw [hms, roundTripElem]
    have hinj : struct (.struct ss) (ss.map fun s => (s.1, (cs.flatMap (column s.1)).getD i .null)) = .struct (.struct ss) ms ↔
        (ss.map fun s => (s.1, (cs.flatMap (column s.1)).getD i .null)) = ms := by simp
    rw [hinj, map_eq_iff_zip hall.length_eq]
    rw [List.forall₂_iff_zip] at hall
    constructor
    · intro heq name y hy
      obtain ⟨m, hm, rfl⟩ := List.mem_map.mp hy
      obtain ⟨hmem, hname⟩ := List.mem_filter.mp hm
      obtain ⟨s, hs⟩ := exists_zip (l := ss) hall.1.symm hmem
      have hpair : (m, s) ∈ ms.zip ss := by
        rw [← List.zip_swap]
        exact List.mem_map.mpr ⟨_, hs, rfl⟩
      have hround := heq _ hpair
      rw [← of_decide_eq_true hname, (hall.2 hpair).1]
      exact (congrArg Prod.snd hround).symm
    · rintro hcols ⟨m, s⟩ hp
      obtain ⟨hm, -⟩ := List.of_mem_zip hp
      have hround := hcols m.1 m.2 (mem_column hm)
      rw [← (hall.2 hp).1, ← hround]
  constructor
  · intro heq i hi
    refine (helem i hi).mp ?_
    have hget := List.getElem_map (roundTripElem ss cs) (l := List.range cs.length) (i := i) (h := by simpa using hi)
    rw [List.getElem_range] at hget
    rw [← hget]
    simp only [heq]
  · intro hcols
    refine List.ext_getElem (by simp) fun i hi hi' => ?_
    rw [List.getElem_map, List.getElem_range]
    exact (helem i hi').mpr (hcols i hi')

section Columns

variable {β γ : Type} {f : β → List γ} {l : List β} {q : Nat}

theorem exists_lt_mem (hlen : ∀ b ∈ l, (f b).length = q) (hq : 2 ≤ q) {i : Nat} (hi : 0 < i) (hil : i < l.length) :
    ∃ (j : Nat) (hj : j < l.length), j < i ∧ ∀ d, (l.flatMap f).getD i d ∈ f l[j] := by
  have htake : ((l.take i).flatMap f).length = i * q := by
    rw [List.length_flatMap, List.map_congr_left fun b hb => hlen b (List.mem_of_mem_take hb), List.map_const', List.sum_replicate,
      List.length_take, Nat.min_eq_left (le_of_lt hil), smul_eq_mul]
  have hlt : i < ((l.take i).flatMap f).length := by
    rw [htake]
    nlinarith
  have hmem : ((l.take i).flatMap f)[i] ∈ (l.take i).flatMap f := List.getElem_mem hlt
  obtain ⟨b, hb, hib⟩ := List.mem_flatMap.mp hmem
  obtain ⟨j, hj, rfl⟩ := List.getElem_of_mem hb
  rw [List.length_take] at hj
  refine ⟨j, by omega, by omega, fun d => ?_⟩
  have hsplit : l.flatMap f = (l.take i).flatMap f ++ (l.drop i).flatMap f := by
    rw [← List.flatMap_append, List.take_append_drop]
  rw [hsplit, List.getD_eq_getElem?_getD, List.getElem?_append_left hlt, List.getElem?_eq_getElem hlt, Option.getD_some]
  rw [List.getElem_take] at hib
  exact hib

theorem getD_flatMap_of_single (hlen : ∀ b ∈ l, (f b).length = 1) {i : Nat} (hi : i < l.length) (d : γ) :
    (l.flatMap f).getD i d ∈ f l[i] := by
  induction l generalizing i with
  | nil => exact absurd hi (Nat.not_lt_zero i)
  | cons b l ih =>
    obtain ⟨x, hx⟩ := List.length_eq_one_iff.mp (hlen b List.mem_cons_self)
    rw [List.flatMap_cons, hx]
    cases i with
    | zero => simp [hx]
    | succ i =>
      have hrest := ih (fun c hc => hlen c (List.mem_cons_of_mem b hc)) (Nat.lt_of_succ_lt_succ hi)
      simpa using hrest

end Columns

theorem columns_iff_faithful (hcs : ∀ c ∈ cs, c.Fits (.struct ss)) :
    (∀ (i : Nat) (hi : i < cs.length) (name : String), ∀ y ∈ column name cs[i],
      y = (cs.flatMap (column name)).getD i .null) ↔ UnzipFaithful ss cs := by
  constructor
  · intro hcols name hcount
    refine ⟨(cs.flatMap (column name)).getD 0 .null, ?_⟩
    have hsame : ∀ i, i < cs.length → (cs.flatMap (column name)).getD i .null = (cs.flatMap (column name)).getD 0 .null := by
      intro i
      induction i using Nat.strong_induction_on with
      | _ i ih =>
        intro hi
        by_cases hzero : i = 0
        · rw [hzero]
        · obtain ⟨j, hj, hji, hmem⟩ := exists_lt_mem (f := column name) (fun c hc => length_column (hcs c hc) name) hcount
            (Nat.pos_of_ne_zero hzero) hi
          rw [hcols j hj name _ (hmem .null)]
          exact ih j hji hj
    intro c hc y hy
    obtain ⟨i, hi, rfl⟩ := List.getElem_of_mem hc
    rw [hcols i hi name y hy]
    exact hsame i hi
  · intro hfaith i hi name y hy
    have hlen : ∀ c ∈ cs, (column name c).length = (ss.map Prod.fst).count name := fun c hc => length_column (hcs c hc) name
    have hci := List.getElem_mem hi
    by_cases hcount : 2 ≤ (ss.map Prod.fst).count name
    · obtain ⟨x, hx⟩ := hfaith name hcount
      have hlt : i < (cs.flatMap (column name)).length := by
        rw [List.length_flatMap, List.map_congr_left hlen, List.map_const', List.sum_replicate, smul_eq_mul]
        nlinarith
      rw [List.getD_eq_getElem?_getD, List.getElem?_eq_getElem hlt, Option.getD_some, hx _ hci y hy]
      obtain ⟨c, hc, hmem⟩ := List.mem_flatMap.mp (List.getElem_mem hlt)
      exact (hx c hc _ hmem).symm
    · have hone : (ss.map Prod.fst).count name = 1 := by
        have hpos : 0 < (column name cs[i]).length := List.length_pos_of_mem hy
        rw [hlen _ hci] at hpos
        omega
      have hmem := getD_flatMap_of_single (f := column name) (fun c hc => (hlen c hc).trans hone) hi .null
      obtain ⟨x, hx⟩ := List.length_eq_one_iff.mp ((hlen _ hci).trans hone)
      rw [hx, List.mem_singleton] at hy hmem
      rw [hy, hmem]

end Vector

/-- `unzip` of a `zip`, and `zip` of an `unzip`, give the container back exactly when it is faithful. -/
theorem zip_unzip_inverse_iff {c v : VarContainer} {atoms ss : List (String × VarSort)} {n k : Nat} (hatoms : atoms ≠ [])
    (hc : c.Fits (.struct (vecs n atoms))) (hss : ss ≠ []) (hv : v.Fits (.vec (.struct ss) k)) :
    (c.zip.bind unzip = some c ↔ ZipFaithful atoms n) ∧
      (v.unzip.bind zip = some v ↔ ∀ cs, v = .vector (.vec (.struct ss) k) cs → UnzipFaithful ss cs) := by
  constructor
  · obtain ⟨ms, rfl, hall⟩ := hc.exists_struct
    have hms : ms ≠ [] := by
      rintro rfl
      cases atoms with
      | nil => exact hatoms rfl
      | cons a atoms => cases hall
    rw [zip_unzip_eq hatoms hms (vectors_of_fits hall).1, ← roundTrip_eq_iff hall]
    simp
  · obtain ⟨cs, rfl, rfl, hcs⟩ := hv.exists_vector
    rw [unzip_zip_eq hss fun c hc => (hcs c hc).within]
    have hinj : (some (vector (.vec (.struct ss) cs.length) ((List.range cs.length).map (roundTripElem ss cs))) =
        some (vector (.vec (.struct ss) cs.length) cs)) ↔ (List.range cs.length).map (roundTripElem ss cs) = cs := by simp
    rw [hinj, roundTripElem_eq_iff hcs, columns_iff_faithful hcs]
    constructor
    · intro hfaith cs' heq
      obtain ⟨-, rfl⟩ := VarContainer.vector.inj heq
      exact hfaith
    · intro hfaith
      exact hfaith cs rfl

/-- A structure of two vectors, by their elements. -/
def columnsOf (b : String) (s : VarSort) (xs ys : List LeafExpr) : VarContainer :=
  .struct (.struct (vecs xs.length [("a", .bool), (b, s)]))
    [("a", .vector (.vec .bool xs.length) (xs.map .primitive)), (b, .vector (.vec s xs.length) (ys.map .primitive))]

theorem fitsAll_map {s : Smt.Srt} {xs : List LeafExpr} (hxs : ∀ x ∈ xs, x.sort = s) :
    FitsAll (xs.map .primitive) (.ofSrt s) := by
  refine fitsAll_iff.mpr fun c hc => ?_
  obtain ⟨x, hx, rfl⟩ := List.mem_map.mp hc
  rw [← hxs x hx]
  cases hsort : x.sort <;> simp [Fits, VarSort.ofSrt, hsort]

theorem columnsOf_fits {b : String} {s : Smt.Srt} {xs ys : List LeafExpr} (hlength : ys.length = xs.length)
    (hxs : ∀ x ∈ xs, x.sort = .bool) (hys : ∀ y ∈ ys, y.sort = s) :
    (columnsOf b (.ofSrt s) xs ys).Fits (.struct (vecs xs.length [("a", .bool), (b, .ofSrt s)])) := by
  have hx : FitsAll (xs.map .primitive) .bool := fitsAll_map hxs
  have hy := fitsAll_map hys
  simp [columnsOf, vecs, Fits, FitsMembers, hlength, hx, hy]

/-- A vector of structures with two members each. -/
def rowsOf (rows : List (LeafExpr × LeafExpr)) : VarContainer :=
  .vector (.vec pairSort rows.length) (rows.map fun row => pairOf row.1 row.2)

/-- The elements of two rows. -/
def leafX (i : Nat) : LeafExpr := ⟨2 * i, "x", .bool⟩

def leafY (i : Nat) : LeafExpr := ⟨2 * i + 1, "y", .bv 8⟩

theorem zip_unzip_pair :
    (columnsOf "b" (.bv 8) [leafX 0, leafX 1] [leafY 0, leafY 1]).zip.bind unzip =
        some (columnsOf "b" (.bv 8) [leafX 0, leafX 1] [leafY 0, leafY 1]) ∧
      (rowsOf [(leafX 0, leafY 0), (leafX 1, leafY 1)]).unzip.bind zip = some (rowsOf [(leafX 0, leafY 0), (leafX 1, leafY 1)]) := by
  have hfits : (rowsOf [(leafX 0, leafY 0), (leafX 1, leafY 1)]).Fits (.vec pairSort 2) := by
    simp [rowsOf, leafX, leafY, pairOf, pairSort, Fits, FitsMembers, FitsAll, VarSort.ofSrt]
  have hcolumns : (columnsOf "b" (.bv 8) [leafX 0, leafX 1] [leafY 0, leafY 1]).Fits
      (.struct (vecs 2 [("a", .bool), ("b", .bv 8)])) :=
    columnsOf_fits (s := .bv 8) rfl (by simp [leafX]) (by simp [leafY])
  have hinverse := zip_unzip_inverse_iff (List.cons_ne_nil _ _) hcolumns (List.cons_ne_nil _ _) hfits
  refine ⟨hinverse.1.mpr (.inl (by simp)), hinverse.2.mpr fun cs _ name hcount => ?_⟩
  have hnodup : (["a", "b"] : List String).Nodup := by simp
  have hle := List.nodup_iff_count_le_one.mp hnodup name
  exact absurd (le_trans hcount hle) (by decide)

/-- Two members of one name: after the round trip the vectors have twice the elements. -/
theorem zip_unzip_twins : ¬((∀ (c : VarContainer) (atoms : List (String × VarSort)) (n : Nat), atoms ≠ [] →
    c.Fits (.struct (vecs n atoms)) → c.zip.bind unzip = some c) ∧
      ∀ (v : VarContainer) (ss : List (String × VarSort)) (k : Nat), ss ≠ [] → 0 < k → v.Fits (.vec (.struct ss) k) →
        v.unzip.bind zip = some v) := by
  intro h
  have hfits : (columnsOf "a" .bool [⟨0, "x", .bool⟩] [⟨1, "y", .bool⟩]).Fits (.struct (vecs 1 [("a", .bool), ("a", .bool)])) :=
    columnsOf_fits (s := .bool) rfl (by simp) (by simp)
  have hback := h.1 _ _ 1 (List.cons_ne_nil _ _) hfits
  obtain ⟨ms, hms, hall⟩ := hfits.exists_struct
  have hne : ms ≠ [] := by
    rintro rfl
    cases hall
  rw [hms, zip_unzip_eq (List.cons_ne_nil _ _) hne (vectors_of_fits hall).1, Option.some.injEq] at hback
  have hfaith := (roundTrip_eq_iff hall).mp (VarContainer.struct.inj hback).2
  simp [ZipFaithful] at hfaith

end VarContainer

end Ilang
