import Ilang.Verilog.NameTarget

/-!
# The answers of the name lookups

The four lookups agree with what a path leads to on queries whose components are not empty and whose path does not come to an
instance of a module without a definition. What the buffers hold does not matter.
-/

namespace Ilang

namespace VerilogAnalyzer

open WireNames (split)

/-! ### The answers for what a path leads to -/

namespace Design

variable (d : Design)

def TypeFits (t : NameType) : Option Target → Prop
  | none => t = .none
  | some (.inst _ _) => t = .module
  | some (.signal m x) => t = (m.signalType x).1 ∧ t ≠ .none ∧ t ≠ .module

/-- Contradictory declarations of one name are reported, and not as a name that is not found. -/
def DeclFits (r : Except DeclError Decl) : Option Target → Prop
  | none => r = .error (if d.badState then .badState else .notFound)
  | some (.inst n _) => ∃ m, d.nameModuleMap n = some m ∧ r = .ok (.module m)
  | some (.signal m x) =>
    ((m.signalType x).1 = .others ∧ r = .error .unknownType) ∨ ((m.signalType x).1 ≠ .others ∧ ∃ decl, r = .ok decl ∧ decl.Of m x)

def LocFits (l : Loc) : Option Target → Prop
  | some (.inst _ l') => l = l' ∧ l ≠ noLoc
  | _ => l = noLoc

/-- The modules and instantiations on a path from a module to a module. -/
def Levels : Text → List (Module × Instantiation) → List Text → Text → Prop
  | n, [], [], n' => n = n'
  | n, (m, s) :: hier, x :: xs, n' =>
    d.nameModuleMap n = some m ∧ s ∈ m.instantiations ∧ (∃ i ∈ s.instances, i.name = x) ∧ Levels s.submodName hier xs n'
  | _, _, _, _ => False

def HierFits (r : Option (List (Module × Instantiation) × Module)) (path : List Text) : Prop :=
  match d.target path with
  | some (.inst n _) => ∃ hier m, d.nameModuleMap n = some m ∧ r = some (hier, m) ∧ d.Levels d.topModuleName hier path.tail n
  | _ => r = none

/-- The four functions return, with the answers for a path, and as they do before any other query. The last component is a name in
the module that `get_hierarchy_from_full_name` gives. -/
structure AnswersFor (path : List Text) (σ : Cache) (q : Text) : Prop where
  type : ∃ t σ', d.checkHierarchicalNameType q σ = some (t, σ') ∧ TypeFits t (d.target path)
  decl : ∃ r σ', d.findDeclarationOfName q σ = some (r, σ') ∧ d.DeclFits r (d.target path)
  loc : ∃ l σ', d.getModuleInstLoc q σ = some (l, σ') ∧ LocFits l (d.target path)
  hierarchy : ∃ r, d.getHierarchyFromFullName q = some r ∧ d.HierFits r path.dropLast
  sameModule : ∀ m x, d.target path = some (.signal m x) →
    ∃ l, d.target path.dropLast = some (.inst m.identifier.name l) ∧ d.nameModuleMap m.identifier.name = some m
  independent : (d.checkHierarchicalNameType q σ).map Prod.fst = (d.checkHierarchicalNameType q .empty).map Prod.fst ∧
    (d.findDeclarationOfName q σ).map Prod.fst = (d.findDeclarationOfName q .empty).map Prod.fst ∧
    (d.getModuleInstLoc q σ).map Prod.fst = (d.getModuleInstLoc q .empty).map Prod.fst

def Consistent (σ : Cache) (q : Text) : Prop := d.AnswersFor (components q) σ q

/-- The queries that are answered right. -/
structure Answerable (q : Text) : Prop where
  nonempty : split q '.' ≠ []
  good : d.badState = true → (split q '.').dropLast.head? ≠ some d.topInstName
  defined : ∀ path, path <+: split q '.' → ∀ n l, d.target path = some (.inst n l) → (d.nameModuleMap n).isSome = true
  exact : [] ∈ components q → d.target (split q '.') = none ∧ ∀ n l, d.target (split q '.').dropLast ≠ some (.inst n l)

end Design

/-! ### The buffers -/

/-- The buffers have what is computed without them. -/
def Cache.Sound (d : Design) (σ : Cache) : Prop :=
  ∀ q t, σ.type q = some t → ∃ decl, d.checkUncached q = some (t, decl) ∧ ∀ x, decl = some x → σ.decl q = some x

namespace Cache

variable {d : Design} {σ : Cache} {q : Text} {t : NameType} {decl : Option Decl}

theorem sound_empty : Cache.empty.Sound d := by
  intro q t h
  exact absurd h (by simp [Cache.empty])

theorem type_writeDecl : (σ.writeDecl q decl).type = σ.type := by cases decl <;> rfl

theorem decl_writeDecl_self (x : Decl) : (σ.writeDecl q (some x)).decl q = some x := Function.update_self q _ σ.decl

theorem decl_writeDecl_of_ne {q' : Text} (h : q' ≠ q) : (σ.writeDecl q decl).decl q' = σ.decl q' := by
  cases decl with
  | none => rfl
  | some x => exact Function.update_of_ne h _ σ.decl

theorem Sound.writeDecl (hσ : σ.Sound d) (h : d.checkUncached q = some (t, decl)) : (σ.writeDecl q decl).Sound d := by
  intro q' t' ht'
  rw [type_writeDecl] at ht'
  obtain ⟨decl', hdecl', hkept⟩ := hσ q' t' ht'
  refine ⟨decl', hdecl', fun x hx => ?_⟩
  by_cases hq : q' = q
  · subst hq
    have hpair : (t', decl') = (t, decl) := Option.some.inj (hdecl'.symm.trans h)
    rw [← (Prod.mk.inj hpair).2, hx]
    exact decl_writeDecl_self x
  · rw [decl_writeDecl_of_ne hq]
    exact hkept x hx

theorem Sound.insertType (hσ : σ.Sound d) (h : d.checkUncached q = some (t, decl))
    (hdecl : ∀ x, decl = some x → σ.decl q = some x) : (σ.insertType q t).Sound d := by
  intro q' t' ht'
  by_cases hq : q' = q
  · subst hq
    have heq : t' = t := by simpa [Cache.insertType] using ht'.symm
    rw [heq]
    exact ⟨decl, h, hdecl⟩
  · have hold : σ.type q' = some t' := (Function.update_of_ne hq _ σ.type).symm.trans ht'
    exact hσ q' t' hold

end Cache

namespace Design

variable {d : Design} {σ : Cache} {q : Text} {t : NameType} {decl : Option Decl}

theorem check_eq (hgood : d.badState = false) (hσ : σ.Sound d) (h : d.checkUncached q = some (t, decl)) :
    ∃ σ', d.checkHierarchicalNameType q σ = some (t, σ') ∧ σ'.Sound d ∧ (t ≠ .none → ∀ x, decl = some x → σ'.decl q = some x) := by
  rw [checkHierarchicalNameType, hgood, if_neg Bool.false_ne_true]
  cases htype : σ.type q with
  | some t' =>
    obtain ⟨decl', hdecl', hkept⟩ := hσ q t' htype
    obtain ⟨rfl, rfl⟩ := Prod.mk.inj (Option.some.inj (hdecl'.symm.trans h))
    exact ⟨σ, rfl, hσ, fun _ => hkept⟩
  | none =>
    have hwritten : ∀ x, decl = some x → (σ.writeDecl q decl).decl q = some x := by
      intro x hx
      rw [hx]
      exact Cache.decl_writeDecl_self x
    have hsound := hσ.writeDecl h
    simp only [h]
    by_cases ht : t = .none
    · rw [if_neg (not_not.mpr ht)]
      exact ⟨_, rfl, hsound, fun hne => absurd ht hne⟩
    · rw [if_pos ht]
      exact ⟨_, rfl, hsound.insertType h hwritten, fun _ => hwritten⟩

theorem check_eq_none (hgood : d.badState = false) (hσ : σ.Sound d) (h : d.checkUncached q = none) :
    d.checkHierarchicalNameType q σ = none := by
  rw [checkHierarchicalNameType, hgood, if_neg Bool.false_ne_true]
  cases htype : σ.type q with
  | some t' =>
    obtain ⟨decl', hdecl', _⟩ := hσ q t' htype
    rw [h] at hdecl'
    exact absurd hdecl'.symm (Option.some_ne_none _)
  | none => simp only [h]

/-- The answer of `find_declaration_of_name` for a type and a declaration. -/
def declAnswer (t : NameType) (decl : Option Decl) : Option (Except DeclError Decl) :=
  if t = .others then some (.error .unknownType) else if t = .none then some (.error .notFound) else decl.map .ok

theorem findTopModule_of_good (hgood : d.badState = false) : ∃ n, d.findTopModule = some n := by
  rw [badState, Option.isNone_eq_false_iff] at hgood
  exact Option.isSome_iff_exists.mp hgood

theorem find_eq (hgood : d.badState = false) (hσ : σ.Sound d) (h : d.checkUncached q = some (t, decl)) :
    ∃ r σ', d.findDeclarationOfName q σ = some (r, σ') ∧ σ'.Sound d ∧ declAnswer t decl = some r := by
  obtain ⟨n, htop⟩ := findTopModule_of_good hgood
  obtain ⟨σ', hcheck, hsound, hdecl⟩ := check_eq hgood hσ h
  rw [findDeclarationOfName, hgood, if_neg Bool.false_ne_true, hcheck]
  dsimp only
  by_cases hothers : t = .others
  · exact ⟨_, _, if_pos hothers, hsound, if_pos hothers⟩
  · by_cases hnone : t = .none
    · rw [declAnswer, if_neg hothers, if_pos hnone, if_neg hothers, if_pos hnone]
      exact ⟨_, _, rfl, hsound, rfl⟩
    · obtain ⟨x, hx⟩ := checkUncached_decl htop h hnone hothers
      rw [declAnswer, if_neg hothers, if_neg hnone, if_neg hothers, if_neg hnone, hdecl hnone x hx, hx]
      exact ⟨_, _, rfl, hsound, rfl⟩

theorem find_eq_none (hgood : d.badState = false) (hσ : σ.Sound d) (h : d.checkUncached q = none) :
    d.findDeclarationOfName q σ = none := by
  rw [findDeclarationOfName, hgood, if_neg Bool.false_ne_true, check_eq_none hgood hσ h]

theorem name2loc_eq (hgood : d.badState = false) (hσ : σ.Sound d) {m : Module}
    (h : d.checkUncached q = some (.module, some (.module m))) :
    ∃ σ', d.name2loc q σ = some (m.identifier.pos.toLoc, σ') ∧ σ'.Sound d := by
  obtain ⟨σ₁, hcheck, hsound₁, _⟩ := check_eq hgood hσ h
  obtain ⟨r, σ₂, hfind, hsound₂, hr⟩ := find_eq hgood hsound₁ h
  obtain rfl : r = .ok (.module m) := by simpa [declAnswer] using hr.symm
  rw [name2loc, hgood, if_neg Bool.false_ne_true, hcheck]
  dsimp only
  rw [hfind]
  exact ⟨σ₂, rfl, hsound₂⟩

/-! ### Locations and hierarchies -/

theorem toLoc_ne (m : Meta) : m.toLoc ≠ noLoc := fun h => Nat.ne_of_gt m.line_pos (congrArg Prod.snd h)

theorem lead_loc_ne {n : Text} {l : Loc} (hl : l ≠ noLoc) {xs : List Text} {n' : Text} {l' : Loc}
    (h : d.lead n l xs = some (.inst n' l')) : l' ≠ noLoc := by
  induction xs generalizing n l with
  | nil =>
    obtain ⟨_, rfl⟩ : n = n' ∧ l = l' := by simpa [lead] using h
    exact hl
  | cons x xs ih =>
    cases hmod : d.nameModuleMap n with
    | none => simp [lead, hmod] at h
    | some m => cases hsub : m.submodule x with
      | none => simp [lead, hmod, hsub] at h
      | some e =>
        simp only [lead, hmod, hsub] at h
        exact ih (toLoc_ne _) h

theorem topLoc_ne {n : Text} (htop : d.findTopModule = some n) : d.topLoc n ≠ noLoc := by
  obtain ⟨m, hm⟩ := d.exists_topModule htop
  rw [topLoc, hm]
  exact toLoc_ne _

theorem target_loc_ne {path : List Text} {n : Text} {l : Loc} (h : d.target path = some (.inst n l)) : l ≠ noLoc := by
  cases path with
  | nil => simp [target] at h
  | cons t xs =>
    cases htop : d.findTopModule with
    | none => simp [target, htop] at h
    | some n₀ =>
      by_cases ht : t = d.topInstName
      · rw [ht, target_cons htop] at h
        exact lead_loc_ne (topLoc_ne htop) h
      · rw [target_of_ne ht] at h
        exact absurd h.symm (Option.some_ne_none _)

/-- The location in the answer of `get_module_inst_loc`. -/
def locOf : Option Target → Loc
  | some (.inst _ l) => l
  | _ => noLoc

theorem locFits_locOf (path : List Text) : LocFits (locOf (d.target path)) (d.target path) := by
  cases htarget : d.target path with
  | none => rfl
  | some target =>
    cases target with
    | inst n l => exact ⟨rfl, target_loc_ne htarget⟩
    | signal m x => rfl

theorem getModuleInstLoc_concat (hgood : d.badState = false) {xs : List Text} {x : Text}
    (hsplit : split q '.' = d.topInstName :: (xs ++ [x])) (σ : Cache) :
    d.getModuleInstLoc q σ =
      match d.descend d.topModuleName xs with
      | none => none
      | some none => some (noLoc, σ)
      | some (some curr) =>
        match d.nameModuleMap curr with
        | none => none
        | some m => some (match m.submodule x with | some e => e.1.pos.toLoc | none => noLoc, σ) := by
  cases hxs : xs ++ [x] with
  | nil => exact absurd hxs (by simp)
  | cons y ys =>
    have hinit : (y :: ys).dropLast = xs := by rw [← hxs, List.dropLast_concat]
    have hlast : (y :: ys).getLast (List.cons_ne_nil y ys) = x := by simp only [← hxs, List.getLast_concat]
    simp only [getModuleInstLoc, hgood, Bool.false_eq_true, if_false, hsplit, hxs, ne_eq, not_true_eq_false, hinit, hlast]
    cases d.descend d.topModuleName xs with
    | none => rfl
    | some r => cases r with
      | none => rfl
      | some curr => cases hcurr : d.nameModuleMap curr with
        | none => simp only [hcurr]
        | some m => cases hsub : m.submodule x with
          | none => simp [hcurr, hsub]
          | some e => simp [hcurr, hsub, Module.findInstance_eq]

theorem getModuleInstLoc_single (hgood : d.badState = false) (hsplit : split q '.' = [d.topInstName]) {m : Module}
    (hm : d.nameModuleMap d.topModuleName = some m) (σ : Cache) :
    d.getModuleInstLoc q σ = d.name2loc q (σ.writeDecl q (some (.module m))) := by
  simp only [getModuleInstLoc, hgood, Bool.false_eq_true, if_false, hsplit, ne_eq, not_true_eq_false, hm]

theorem getModuleInstLoc_of_ne (hgood : d.badState = false) {u : Text} {xs : List Text} (hsplit : split q '.' = u :: xs)
    (hu : u ≠ d.topInstName) (σ : Cache) : d.getModuleInstLoc q σ = some (noLoc, σ) := by
  cases xs with
  | nil => simp only [getModuleInstLoc, hgood, Bool.false_eq_true, if_false, hsplit, if_pos hu]
  | cons x xs => simp only [getModuleInstLoc, hgood, Bool.false_eq_true, if_false, hsplit, if_pos hu]

theorem getModuleInstLoc_top (hgood : d.badState = false) (hσ : σ.Sound d) (hsplit : split q '.' = [d.topInstName]) {m : Module}
    (hm : d.nameModuleMap d.topModuleName = some m) :
    ∃ σ', d.getModuleInstLoc q σ = some (m.identifier.pos.toLoc, σ') ∧ σ'.Sound d := by
  have hcheck : d.checkUncached q = some (.module, some (.module m)) := by rw [checkUncached_single hsplit, hm]; rfl
  rw [getModuleInstLoc_single hgood hsplit hm]
  exact name2loc_eq hgood (hσ.writeDecl hcheck) hcheck

theorem getModuleInstLoc_eq (hgood : d.badState = false) (hσ : σ.Sound d) (hne : split q '.' ≠ []) (hdef : d.Defined (split q '.')) :
    ∃ σ', d.getModuleInstLoc q σ = some (locOf (d.target (split q '.')), σ') ∧ σ'.Sound d := by
  obtain ⟨n, htop⟩ := findTopModule_of_good hgood
  have hname := topModuleName_eq htop
  cases hsplit : split q '.' with
  | nil => exact absurd hsplit hne
  | cons u xs =>
    rw [hsplit] at hdef
    by_cases hu : u = d.topInstName
    · subst hu
      rw [target_cons htop]
      rcases List.eq_nil_or_concat' xs with rfl | ⟨ys, x, rfl⟩
      · obtain ⟨m, hm⟩ := d.exists_topModule htop
        have hloc : locOf (d.lead n (d.topLoc n) []) = m.identifier.pos.toLoc := by rw [lead, locOf, topLoc, hm]
        rw [hloc]
        exact getModuleInstLoc_top hgood hσ hsplit (hname.symm ▸ hm)
      · refine ⟨σ, ?_, hσ⟩
        rw [getModuleInstLoc_concat hgood hsplit, hname]
        rcases descend_of_defined htop hdef.dropLast with ⟨curr, l', m, hlead, hm, hdesc⟩ | ⟨hnot, hdesc⟩
        · rw [hdesc, lead_concat_of_inst hlead, lead_single hm]
          dsimp only
          rw [hm]
          cases hsub : m.submodule x with
          | some e => simp only [hsub, locOf]
          | none =>
            simp only [hsub]
            split_ifs <;> rfl
        · rw [hdesc, lead_concat_of_not hnot]
          rfl
    · rw [getModuleInstLoc_of_ne hgood hsplit hu, target_of_ne hu]
      exact ⟨σ, rfl, hσ⟩

theorem getModuleInstLoc_sound (hσ : σ.Sound d) {l : Loc} {σ' : Cache} (h : d.getModuleInstLoc q σ = some (l, σ')) : σ'.Sound d := by
  cases hgood : d.badState with
  | true =>
    rw [getModuleInstLoc, hgood, if_pos rfl] at h
    exact (Prod.mk.inj (Option.some.inj h)).2 ▸ hσ
  | false =>
    obtain ⟨n, htop⟩ := findTopModule_of_good hgood
    cases hsplit : split q '.' with
    | nil => simp [getModuleInstLoc, hgood, hsplit] at h
    | cons u xs =>
      by_cases hu : u = d.topInstName
      · subst hu
        rcases List.eq_nil_or_concat' xs with rfl | ⟨ys, x, rfl⟩
        · obtain ⟨m, hm⟩ := d.exists_topModule htop
          obtain ⟨σ₁, heq, hsound⟩ := getModuleInstLoc_top hgood hσ hsplit ((topModuleName_eq htop).symm ▸ hm)
          rw [heq] at h
          exact (Prod.mk.inj (Option.some.inj h)).2 ▸ hsound
        · rw [getModuleInstLoc_concat hgood hsplit] at h
          split at h
          · exact absurd h.symm (Option.some_ne_none _)
          · exact (Prod.mk.inj (Option.some.inj h)).2 ▸ hσ
          · split at h
            · exact absurd h.symm (Option.some_ne_none _)
            · exact (Prod.mk.inj (Option.some.inj h)).2 ▸ hσ
      · rw [getModuleInstLoc_of_ne hgood hsplit hu] at h
        exact (Prod.mk.inj (Option.some.inj h)).2 ▸ hσ

theorem walkHierarchy_eq {n : Text} (l : Loc) {xs : List Text} (hier : List (Module × Instantiation))
    (hdef : ∀ ys, ys <+: xs → ∀ n' l', d.lead n l ys = some (.inst n' l') → (d.nameModuleMap n').isSome = true) :
    (∃ n' l' hier' m, d.lead n l xs = some (.inst n' l') ∧ d.nameModuleMap n' = some m ∧
        d.walkHierarchy n xs hier = some (some (hier ++ hier', m)) ∧ d.Levels n hier' xs n') ∨
      (∀ n' l', d.lead n l xs ≠ some (.inst n' l')) ∧ d.walkHierarchy n xs hier = some none := by
  obtain ⟨m, hmod⟩ := Option.isSome_iff_exists.mp (hdef [] List.nil_prefix n l rfl)
  induction xs generalizing n l hier m with
  | nil => exact .inl ⟨n, l, [], m, rfl, hmod, by simp [walkHierarchy, hmod], rfl⟩
  | cons x xs ih =>
    cases hsub : m.submodule x with
    | none =>
      refine .inr ⟨fun n' l' hlead => ?_, by simp only [walkHierarchy, hmod, hsub]⟩
      simp only [lead, hmod, hsub] at hlead
      split_ifs at hlead
      simp at hlead
    | some e =>
      have hlead : ∀ ys, d.lead n l (x :: ys) = d.lead e.2.submodName e.1.pos.toLoc ys := by
        intro ys
        simp only [lead, hmod, hsub]
      have hdef' : ∀ ys, ys <+: xs → ∀ n' l', d.lead e.2.submodName e.1.pos.toLoc ys = some (.inst n' l') →
          (d.nameModuleMap n').isSome = true := by
        intro ys hys n' l' hys'
        exact hdef (x :: ys) (List.cons_prefix_cons.mpr ⟨rfl, hys⟩) n' l' (by rw [hlead, hys'])
      obtain ⟨sub, hsubmod⟩ := Option.isSome_iff_exists.mp (hdef' [] List.nil_prefix _ _ rfl)
      have hwalk : d.walkHierarchy n (x :: xs) hier = d.walkHierarchy e.2.submodName xs (hier ++ [(m, e.2)]) := by
        simp only [walkHierarchy, hmod, hsub]
      rw [hlead, hwalk]
      rcases ih e.1.pos.toLoc (hier ++ [(m, e.2)]) hdef' sub hsubmod with ⟨n', l', hier', m', hto, hm', heq, hlevels⟩ | hnone
      · have hmem := Module.of_submodule hsub
        refine .inl ⟨n', l', (m, e.2) :: hier', m', hto, hm', ?_, hmod, hmem.1, ⟨e.1, hmem.2.1, hmem.2.2⟩, hlevels⟩
        rw [heq, List.append_assoc, List.singleton_append]
      · exact .inr hnone

theorem getHierarchy_eq (hgood : d.badState = false) (hne : split q '.' ≠ []) (hdef : d.Defined (split q '.')) :
    ∃ r, d.getHierarchyFromFullName q = some r ∧ d.HierFits r (split q '.').dropLast := by
  obtain ⟨n, htop⟩ := findTopModule_of_good hgood
  have hname := topModuleName_eq htop
  cases hsplit : split q '.' with
  | nil => exact absurd hsplit hne
  | cons u xs =>
    rw [hsplit] at hdef
    cases hinit : (u :: xs).dropLast with
    | nil => exact ⟨none, by simp only [getHierarchyFromFullName, hsplit, hinit], rfl⟩
    | cons t ys =>
      have hpre : t :: ys <+: u :: xs := hinit ▸ List.dropLast_prefix _
      by_cases ht : t = d.topInstName
      · subst ht
        have hcall : d.getHierarchyFromFullName q = d.walkHierarchy n ys [] := by
          simp only [getHierarchyFromFullName, hsplit, hinit, ne_eq, not_true_eq_false, if_false, hname]
        have hdef' : d.Defined (d.topInstName :: ys) := fun path hpath => hdef path (hpath.trans hpre)
        unfold HierFits
        rw [hcall, target_cons htop, hname]
        rcases walkHierarchy_eq (d.topLoc n) [] (fun _ hzs _ _ hlead => hdef'.lead htop hzs hlead) with ⟨n', l', hier', m, hlead, hm, hwalk, hlevels⟩ | ⟨hnot, hwalk⟩
        · rw [hlead]
          exact ⟨_, hwalk, hier', m, hm, rfl, hlevels⟩
        · refine ⟨none, hwalk, ?_⟩
          cases hlead : d.lead n (d.topLoc n) ys with
          | none => rfl
          | some target =>
            cases target with
            | inst n' l' => exact absurd hlead (hnot n' l')
            | signal m x => rfl
      · refine ⟨none, by simp only [getHierarchyFromFullName, hsplit, hinit, ne_eq, ht, not_false_eq_true, if_true], ?_⟩
        unfold HierFits
        rw [target_of_ne ht]

/-! ### Runs -/

theorem sound_of_run {r : Query} {σ' : Cache} (hσ : σ.Sound d) (h : r.run d σ = some σ') : σ'.Sound d := by
  cases r with
  | check q =>
    obtain ⟨⟨t, σ₁⟩, hcheck, rfl⟩ := Option.map_eq_some_iff.mp h
    cases hgood : d.badState with
    | true =>
      rw [checkHierarchicalNameType, hgood, if_pos rfl] at hcheck
      exact (Prod.mk.inj (Option.some.inj hcheck)).2 ▸ hσ
    | false =>
      cases huncached : d.checkUncached q with
      | none =>
        rw [check_eq_none hgood hσ huncached] at hcheck
        exact absurd hcheck.symm (Option.some_ne_none _)
      | some p =>
        obtain ⟨σ₂, heq, hsound, _⟩ := check_eq hgood hσ huncached
        rw [heq] at hcheck
        exact (Prod.mk.inj (Option.some.inj hcheck)).2 ▸ hsound
  | find q =>
    obtain ⟨⟨r, σ₁⟩, hfind, rfl⟩ := Option.map_eq_some_iff.mp h
    cases hgood : d.badState with
    | true =>
      rw [findDeclarationOfName, hgood, if_pos rfl] at hfind
      exact (Prod.mk.inj (Option.some.inj hfind)).2 ▸ hσ
    | false =>
      cases huncached : d.checkUncached q with
      | none =>
        rw [find_eq_none hgood hσ huncached] at hfind
        exact absurd hfind.symm (Option.some_ne_none _)
      | some p =>
        obtain ⟨r', σ₂, heq, hsound, _⟩ := find_eq hgood hσ huncached
        rw [heq] at hfind
        exact (Prod.mk.inj (Option.some.inj hfind)).2 ▸ hsound
  | instLoc q =>
    obtain ⟨⟨l, σ₁⟩, hloc, rfl⟩ := Option.map_eq_some_iff.mp h
    exact getModuleInstLoc_sound hσ hloc
  | hierarchy q =>
    obtain ⟨_, _, rfl⟩ := Option.map_eq_some_iff.mp h
    exact hσ

theorem sound_of_runQueries {rs : List Query} {σ' : Cache} (hσ : σ.Sound d) (h : d.runQueries rs σ = some σ') : σ'.Sound d := by
  induction rs generalizing σ with
  | nil => exact Option.some.inj h ▸ hσ
  | cons r rs ih =>
    obtain ⟨σ₁, hfirst, hrest⟩ := Option.bind_eq_some_iff.mp h
    exact ih (sound_of_run hσ hfirst) hrest

/-! ### The answers -/

theorem target_signal {path : List Text} {m : Module} {x : Text} (h : d.target path = some (.signal m x)) :
    m.Declares x ∧
      ∃ l, d.target path.dropLast = some (.inst m.identifier.name l) ∧ d.nameModuleMap m.identifier.name = some m := by
  cases htop : d.findTopModule with
  | none =>
    rw [target_of_bad htop] at h
    exact absurd h.symm (Option.some_ne_none _)
  | some n =>
    cases path with
    | nil => simp [target] at h
    | cons t xs =>
      by_cases ht : t = d.topInstName
      · subst ht
        rw [target_cons htop] at h
        rcases List.eq_nil_or_concat' xs with rfl | ⟨ys, y, rfl⟩
        · simp [lead] at h
        · rw [lead_concat] at h
          split at h
          next n' l' hlead =>
            cases hmod : d.nameModuleMap n' with
            | none => simp [lead, hmod] at h
            | some m' =>
              rw [lead_single hmod] at h
              cases hsub : m'.submodule y with
              | some e => simp [hsub] at h
              | none =>
                simp only [hsub] at h
                split_ifs at h with hdecl
                obtain ⟨rfl, rfl⟩ : m' = m ∧ y = x := by simpa using h
                have hname := d.name_of_nameModuleMap hmod
                refine ⟨hdecl, l', ?_, by rw [hname, hmod]⟩
                rw [← List.cons_append, List.dropLast_concat, target_cons htop, hlead, hname]
          · exact absurd h.symm (Option.some_ne_none _)
      · rw [target_of_ne ht] at h
        exact absurd h.symm (Option.some_ne_none _)

theorem typeFits_expected (path : List Text) : TypeFits (d.expected (d.target path)).1 (d.target path) := by
  cases htarget : d.target path with
  | none => rfl
  | some target =>
    cases target with
    | inst n l => rfl
    | signal m x =>
      have hdecl := (target_signal htarget).1
      exact ⟨rfl, fun hnone => Module.signalType_eq_none_iff.mp hnone hdecl, Module.signalType_ne_module⟩

theorem declFits_expected (hgood : d.badState = false) {path : List Text} (hdef : d.Defined path) {r : Except DeclError Decl}
    (h : declAnswer (d.expected (d.target path)).1 (d.expected (d.target path)).2 = some r) : d.DeclFits r (d.target path) := by
  cases htarget : d.target path with
  | none =>
    rw [htarget] at h
    obtain rfl : r = .error .notFound := by simpa [declAnswer, expected] using h.symm
    rw [DeclFits, hgood]
    rfl
  | some target =>
    rw [htarget] at h
    cases target with
    | inst n l =>
      obtain ⟨m, hm⟩ := Option.isSome_iff_exists.mp (hdef path List.prefix_rfl n l htarget)
      obtain rfl : r = .ok (.module m) := by simpa [declAnswer, expected, hm] using h.symm
      exact ⟨m, hm, rfl⟩
    | signal m x =>
      have hdecl := (target_signal htarget).1
      have hnone : (m.signalType x).1 ≠ .none := fun hnone => Module.signalType_eq_none_iff.mp hnone hdecl
      simp only [expected] at h
      by_cases hothers : (m.signalType x).1 = .others
      · rw [declAnswer, if_pos hothers] at h
        exact .inl ⟨hothers, (Option.some.inj h).symm⟩
      · obtain ⟨y, hy, hof⟩ := Module.signalType_decl hnone hothers
        rw [declAnswer, if_neg hothers, if_neg hnone, hy] at h
        exact .inr ⟨hothers, y, (Option.some.inj h).symm, hof⟩

theorem hierFits_none {r : Option (List (Module × Instantiation) × Module)} {path : List Text}
    (hnot : ∀ n l, d.target path ≠ some (.inst n l)) (h : d.HierFits r path) : r = none := by
  unfold HierFits at h
  cases htarget : d.target path with
  | none => simpa [htarget] using h
  | some target =>
    cases target with
    | inst n l => exact absurd htarget (hnot n l)
    | signal m x => simpa [htarget] using h

theorem hierFits_of_none {path : List Text} (hnot : ∀ n l, d.target path ≠ some (.inst n l)) : d.HierFits none path := by
  unfold HierFits
  cases htarget : d.target path with
  | none => rfl
  | some target =>
    cases target with
    | inst n l => exact absurd htarget (hnot n l)
    | signal m x => rfl

theorem not_hierFits_none {path : List Text} {n : Text} {l : Loc} (hinst : d.target path = some (.inst n l)) :
    ¬ d.HierFits none path := by
  unfold HierFits
  rw [hinst]
  intro ⟨_, _, _, hr, _⟩
  exact absurd hr.symm (Option.some_ne_none _)

theorem target_eq_none_of_typeFits {t : NameType} {path : List Text} (ht : t = .none) (h : TypeFits t (d.target path)) :
    d.target path = none := by
  cases htarget : d.target path with
  | none => rfl
  | some target =>
    rw [htarget] at h
    cases target with
    | inst n l => exact absurd (ht.symm.trans h) (by decide)
    | signal m x => exact absurd ht h.2.1

theorem answersFor_split (hσ : σ.Sound d) (hne : split q '.' ≠ [])
    (hbad : d.badState = true → (split q '.').dropLast.head? ≠ some d.topInstName) (hdef : d.Defined (split q '.')) :
    d.AnswersFor (split q '.') σ q := by
  cases hgood : d.badState with
  | true =>
    have hnone : ∀ xs, d.target xs = none := target_of_bad (Option.isNone_iff_eq_none.mp hgood)
    have hcheck : ∀ σ, d.checkHierarchicalNameType q σ = some (.none, σ) := fun σ => by
      rw [checkHierarchicalNameType, hgood, if_pos rfl]
    have hfind : ∀ σ, d.findDeclarationOfName q σ = some (.error .badState, σ) := fun σ => by
      rw [findDeclarationOfName, hgood, if_pos rfl]
    have hloc : ∀ σ, d.getModuleInstLoc q σ = some (noLoc, σ) := fun σ => by rw [getModuleInstLoc, hgood, if_pos rfl]
    refine ⟨⟨_, _, hcheck σ, by rw [hnone]; rfl⟩, ⟨_, _, hfind σ, by rw [hnone, DeclFits, hgood]; rfl⟩, ⟨_, _, hloc σ, by rw [hnone]; rfl⟩,
      ⟨none, ?_, by unfold HierFits; rw [hnone]⟩, fun m x htarget => ?_, ?_⟩
    · have hhead := hbad hgood
      cases hsplit : split q '.' with
      | nil => exact absurd hsplit hne
      | cons u xs =>
        rw [hsplit] at hhead
        cases hinit : (u :: xs).dropLast with
        | nil => simp only [getHierarchyFromFullName, hsplit, hinit]
        | cons t ys =>
          have ht : t ≠ d.topInstName := fun ht => hhead (by rw [hinit, ht, List.head?_cons])
          simp only [getHierarchyFromFullName, hsplit, hinit, if_pos ht]
    · rw [hnone] at htarget
      exact absurd htarget.symm (Option.some_ne_none _)
    · rw [hcheck, hcheck, hfind, hfind, hloc, hloc]
      exact ⟨rfl, rfl, rfl⟩
  | false =>
    obtain ⟨n, htop⟩ := findTopModule_of_good hgood
    have huncached := checkUncached_of_defined htop hne hdef
    obtain ⟨σ₁, hcheck, _⟩ := check_eq hgood hσ huncached
    obtain ⟨r, σ₂, hfind, _, hr⟩ := find_eq hgood hσ huncached
    obtain ⟨σ₃, hloc, _⟩ := getModuleInstLoc_eq hgood hσ hne hdef
    obtain ⟨σ₁', hcheck', _⟩ := check_eq hgood Cache.sound_empty huncached
    obtain ⟨r', σ₂', hfind', _, hr'⟩ := find_eq hgood Cache.sound_empty huncached
    obtain ⟨σ₃', hloc', _⟩ := getModuleInstLoc_eq hgood Cache.sound_empty hne hdef
    have hsame : r = r' := Option.some.inj (hr.symm.trans hr')
    refine ⟨⟨_, _, hcheck, typeFits_expected _⟩, ⟨r, σ₂, hfind, declFits_expected hgood hdef hr⟩, ⟨_, _, hloc, locFits_locOf _⟩,
      getHierarchy_eq hgood hne hdef, fun m x htarget => (target_signal htarget).2, ?_⟩
    rw [hcheck, hcheck', hfind, hfind', hloc, hloc', hsame]
    exact ⟨rfl, rfl, rfl⟩

theorem split_eq_filter (q : Text) : split q '.' = (components q).filter fun w => !w.isEmpty := rfl

theorem split_of_not_mem (h : [] ∉ components q) : split q '.' = components q := by
  rw [split_eq_filter, List.filter_eq_self]
  intro w hw
  have hne : w ≠ [] := fun hnil => h (hnil ▸ hw)
  simpa using hne

theorem target_dropLast (h : [] ∈ components q) (hnone : d.target (split q '.') = none) (n : Text) (l : Loc) :
    d.target (components q).dropLast ≠ some (.inst n l) := by
  intro hinst
  have habsent : [] ∉ (components q).dropLast := by
    intro hmem
    rw [target_of_mem_nil hmem] at hinst
    exact absurd hinst.symm (Option.some_ne_none _)
  have hne : components q ≠ [] := List.ne_nil_of_mem h
  have hlast : (components q).getLast hne = [] := by
    have hsplit := List.dropLast_append_getLast hne
    rw [← hsplit, List.mem_append] at h
    exact (List.mem_singleton.mp (h.resolve_left habsent)).symm
  have hpath : split q '.' = (components q).dropLast := by
    have hself : (components q).dropLast.filter (fun w => !w.isEmpty) = (components q).dropLast := by
      rw [List.filter_eq_self]
      intro w hw
      have hw' : w ≠ [] := fun hnil => habsent (hnil ▸ hw)
      simpa using hw'
    have hall := split_eq_filter q
    rw [← List.dropLast_append_getLast hne, hlast, List.filter_append, hself] at hall
    simpa using hall
  rw [hpath, hinst] at hnone
  exact absurd hnone (Option.some_ne_none _)

theorem consistent_of_answerable (hσ : σ.Sound d) (h : d.Answerable q) : d.Consistent σ q := by
  have hsplit := answersFor_split hσ h.nonempty h.good h.defined
  by_cases hempty : [] ∈ components q
  · obtain ⟨hnone, hinst⟩ := h.exact hempty
    have htarget : d.target (components q) = d.target (split q '.') := by rw [target_of_mem_nil hempty, hnone]
    refine ⟨htarget ▸ hsplit.type, htarget ▸ hsplit.decl, htarget ▸ hsplit.loc, ?_, fun m x hx => ?_, hsplit.independent⟩
    · obtain ⟨r, hr, hfits⟩ := hsplit.hierarchy
      have hfalse : r = none := hierFits_none hinst hfits
      exact ⟨r, hr, hfalse ▸ hierFits_of_none (target_dropLast hempty hnone)⟩
    · rw [target_of_mem_nil hempty] at hx
      exact absurd hx.symm (Option.some_ne_none _)
  · rw [Consistent, ← split_of_not_mem hempty]
    exact hsplit

theorem answerable_of_consistent (hσ : σ.Sound d) (h : d.Consistent σ q) : d.Answerable q := by
  have hne : split q '.' ≠ [] := by
    intro hnil
    obtain ⟨r, hr, _⟩ := h.hierarchy
    simp [getHierarchyFromFullName, hnil] at hr
  cases hgood : d.badState with
  | true =>
    have hnone : ∀ xs, d.target xs = none := target_of_bad (Option.isNone_iff_eq_none.mp hgood)
    refine ⟨hne, fun _ hhead => ?_, fun path _ n l hpath => ?_, fun _ => ⟨hnone _, fun n l hinst => ?_⟩⟩
    · -- the name of the top module is empty then, and no module has it
      obtain ⟨r, hr, _⟩ := h.hierarchy
      have htop : d.topModuleName = [] := by rw [topModuleName, Option.isNone_iff_eq_none.mp hgood, Option.getD_none]
      cases hsplit : split q '.' with
      | nil => exact hne hsplit
      | cons u xs =>
        rw [hsplit] at hhead
        cases hinit : (u :: xs).dropLast with
        | nil => simp [hinit] at hhead
        | cons t ys =>
          have ht : t = d.topInstName := by simpa [hinit] using hhead
          cases ys with
          | nil => simp [getHierarchyFromFullName, hsplit, hinit, ht, walkHierarchy, htop, nameModuleMap_nil] at hr
          | cons y ys => simp [getHierarchyFromFullName, hsplit, hinit, ht, walkHierarchy, htop, nameModuleMap_nil] at hr
    · rw [hnone] at hpath
      exact absurd hpath.symm (Option.some_ne_none _)
    · rw [hnone] at hinst
      exact absurd hinst.symm (Option.some_ne_none _)
  | false =>
    obtain ⟨n, htop⟩ := findTopModule_of_good hgood
    obtain ⟨t, σ₁, hcheck, htype⟩ := h.type
    have hsome : d.checkUncached q ≠ none := by
      intro hnone
      rw [check_eq_none hgood hσ hnone] at hcheck
      exact absurd hcheck.symm (Option.some_ne_none _)
    have hdef := defined_of_checkUncached htop hsome
    have hbad : d.badState = true → (split q '.').dropLast.head? ≠ some d.topInstName := by
      intro hbad
      rw [hgood] at hbad
      exact absurd hbad Bool.false_ne_true
    have hsplit := answersFor_split hσ hne hbad hdef
    refine ⟨hne, hbad, hdef, fun hempty => ?_⟩
    have hnone : d.target (split q '.') = none := by
      obtain ⟨t', σ₁', hcheck', htype'⟩ := hsplit.type
      rw [hcheck] at hcheck'
      rw [target_of_mem_nil hempty] at htype
      have ht' : t' = .none := (Prod.mk.inj (Option.some.inj hcheck')).1.symm.trans htype
      exact target_eq_none_of_typeFits ht' htype'
    refine ⟨hnone, fun n' l hinst => ?_⟩
    obtain ⟨r, hr, hfits⟩ := h.hierarchy
    obtain ⟨r', hr', hfits'⟩ := hsplit.hierarchy
    have hfalse : r = none := hierFits_none (target_dropLast hempty hnone) hfits
    rw [hr, hfalse] at hr'
    rw [← Option.some.inj hr'] at hfits'
    exact not_hierFits_none hinst hfits'

/-- After any queries, a query is answered right if and only if it is answerable: no path of it comes to a module that is not there,
and no empty component is dropped that matters. -/
theorem consistent_iff (d : Design) (rs : List Query) {σ : Cache} (h : d.runQueries rs .empty = some σ) (q : Text) :
    d.Consistent σ q ↔ d.Answerable q := by
  have hσ : σ.Sound d := sound_of_runQueries Cache.sound_empty h
  exact ⟨answerable_of_consistent hσ, consistent_of_answerable hσ⟩

def place (line : ℕ) : Meta := ⟨['f'], line + 1, Nat.succ_pos line⟩

def word (c : Char) (line : ℕ) : Identifier := ⟨[c], place line, List.cons_ne_nil c []⟩

/-- A module `t` with an instance `u` of a module `s`, which has a port `c`, and an instance `v` of a module that is not there. -/
def twoInstances : Design where
  modules := [⟨word 't' 0, [⟨word 's' 1, some (word 's' 5), [word 'u' 1], by decide⟩, ⟨word 'x' 2, none, [word 'v' 2], by decide⟩],
      [], [], [], place 0⟩,
    ⟨word 's' 5, [], [⟨[word 'c' 6], false, .input, place 6⟩], [], [], place 5⟩]
  topInstName := ['m']
  optionalTopModule := []
  named := by decide

theorem twoInstances_port : ∃ σ, twoInstances.runQueries [.check "m.u.c".toList, .find "m.u".toList, .check "m.n".toList] .empty = some σ ∧
    twoInstances.Consistent σ "m.u.c".toList := by
  have hrun : ∃ σ, twoInstances.runQueries [.check "m.u.c".toList, .find "m.u".toList, .check "m.n".toList] .empty = some σ := ⟨_, rfl⟩
  obtain ⟨σ, hσ⟩ := hrun
  refine ⟨σ, hσ, (consistent_iff twoInstances _ hσ _).mpr ⟨by decide, by decide, fun path hpath n l htarget => ?_, ?_⟩⟩
  rotate_left
  · exact fun hempty => absurd hempty (by decide)
  have hmem := (List.mem_inits path _).mpr hpath
  have hinits : (split "m.u.c".toList '.').inits = [[], [['m']], [['m'], ['u']], [['m'], ['u'], ['c']]] := by decide
  rw [hinits] at hmem
  simp only [List.mem_cons, List.not_mem_nil, or_false] at hmem
  rcases hmem with rfl | rfl | rfl | rfl
  · exact absurd htarget (Option.some_ne_none _).symm
  · have heq : twoInstances.target [['m']] = some (.inst ['t'] (['f'], 1)) := by decide
    obtain ⟨rfl, _⟩ : ['t'] = n ∧ _ := by simpa [heq] using htarget
    decide
  · have heq : twoInstances.target [['m'], ['u']] = some (.inst ['s'] (['f'], 2)) := by decide
    obtain ⟨rfl, _⟩ : ['s'] = n ∧ _ := by simpa [heq] using htarget
    decide
  · have hsignal : ∀ n l, twoInstances.target [['m'], ['u'], ['c']] ≠ some (.inst n l) := by
      intro n l h
      have hnot : (match twoInstances.target [['m'], ['u'], ['c']] with | some (.inst _ _) => true | _ => false) = false := by decide
      rw [h] at hnot
      exact Bool.noConfusion hnot
    exact absurd htarget (hsignal n l)

/-- The instance whose module is not there cannot be asked for. -/
theorem twoInstances_missing : ¬ ∀ (rs : List Query) (σ : Cache), twoInstances.runQueries rs .empty = some σ →
    ∀ q, twoInstances.Consistent σ q := by
  intro h
  obtain ⟨t, σ', hcheck, _⟩ := (h [] .empty rfl "m.v".toList).type
  have hfails : twoInstances.checkHierarchicalNameType "m.v".toList .empty = none := rfl
  rw [hfails] at hcheck
  exact absurd hcheck.symm (Option.some_ne_none _)

end Design

end VerilogAnalyzer

end Ilang
