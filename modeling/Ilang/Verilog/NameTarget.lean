import Ilang.Verilog.NameLookup

/-!
# What a hierarchical name leads to

A path from the top instance leads to an instance or to a signal of a module, or to nothing. Here the walks of the lookups are
compared with that: they follow the path as long as no module on it is missing, and the type of a name is the one at its end.
-/

namespace Ilang

namespace VerilogAnalyzer

open WireNames (split)

/-! ### What a path leads to -/

def Module.Declares (m : Module) (x : Text) : Prop :=
  (∃ p ∈ m.ports, ∃ i ∈ p.names, i.name = x) ∨ (∃ r ∈ m.regs, r.identifier.name = x) ∨ ∃ n ∈ m.nets, n.identifier.name = x

instance (m : Module) (x : Text) : Decidable (m.Declares x) := by unfold Module.Declares; infer_instance

/-- The declaration is one of the module, and declares the name. -/
def Decl.Of (m : Module) (x : Text) : Decl → Prop
  | .port p => p ∈ m.ports ∧ ∃ i ∈ p.names, i.name = x
  | .reg r => r ∈ m.regs ∧ r.identifier.name = x
  | .net n => n ∈ m.nets ∧ n.identifier.name = x
  | .module _ => False

/-- An instance, with the name of its module and its location, or a signal of a module. -/
inductive Target
  | inst (moduleName : Text) (loc : Loc)
  | signal (m : Module) (x : Text)
  deriving DecidableEq, Repr

namespace Design

variable (d : Design)

/-- Where a path leads from an instance. -/
def lead : Text → Loc → List Text → Option Target
  | n, l, [] => some (.inst n l)
  | n, _, x :: xs =>
    match d.nameModuleMap n with
    | none => none
    | some m =>
      match m.submodule x with
      | some e => lead e.2.submodName e.1.pos.toLoc xs
      | none => if xs = [] ∧ m.Declares x then some (.signal m x) else none

def topLoc (n : Text) : Loc :=
  match d.nameModuleMap n with
  | some m => m.identifier.pos.toLoc
  | none => noLoc

/-- Where a path leads. It begins with the name of the top instance, whose location is that of its module. -/
def target : List Text → Option Target
  | [] => none
  | t :: xs =>
    match d.findTopModule with
    | none => none
    | some n => if t = d.topInstName then d.lead n (d.topLoc n) xs else none

/-- The components of a query, with the empty ones. -/
def components (q : Text) : List Text := q.splitOn '.'

end Design

/-! ### The names in a module -/

namespace Module

variable (m : Module) (x : Text)

theorem submodule_nil : m.submodule [] = none := by
  rw [submodule, List.find?_eq_none]
  intro e _
  simpa using e.1.nonempty

theorem not_declares_nil : ¬ m.Declares [] := by
  rintro (⟨p, _, i, _, hi⟩ | ⟨r, _, hr⟩ | ⟨n, _, hn⟩)
  · exact i.nonempty hi
  · exact r.identifier.nonempty hr
  · exact n.identifier.nonempty hn

variable {m x}

theorem of_submodule {e : Identifier × Instantiation} (h : m.submodule x = some e) :
    e.2 ∈ m.instantiations ∧ e.1 ∈ e.2.instances ∧ e.1.name = x := by
  have hname : e.1.name = x := by simpa using List.find?_some h
  have hmem : e ∈ m.instances := List.mem_of_find?_eq_some h
  rw [instances, List.mem_flatMap] at hmem
  obtain ⟨s, hs, he⟩ := hmem
  obtain ⟨i, hi, rfl⟩ := List.mem_map.mp he
  exact ⟨hs, hi, hname⟩

theorem findInstance_eq (m : Module) (x : Text) : Design.findInstance m x = (m.submodule x).map Prod.fst := by
  rw [Design.findInstance, submodule, instances]
  induction m.instantiations with
  | nil => rfl
  | cons s ss ih =>
    have hfirst : (s.instances.map fun i => (i, s)).find? (fun e => decide (e.1.name = x)) =
        (s.instances.find? fun i => decide (i.name = x)).map fun i => (i, s) := by
      rw [List.find?_map]
      rfl
    rw [List.findSome?_cons, List.flatMap_cons, List.find?_append, hfirst, ih]
    cases s.instances.find? fun i => decide (i.name = x) with
    | none => rfl
    | some i => rfl

theorem of_findPort {p : PortDecl} (h : m.findPort x = some p) : p ∈ m.ports ∧ ∃ i ∈ p.names, i.name = x := by
  have hmem : p ∈ m.ports := List.mem_reverse.mp (List.mem_of_find?_eq_some h)
  have hname := List.find?_some h
  simp only [List.any_eq_true, decide_eq_true_eq] at hname
  exact ⟨hmem, hname⟩

theorem of_findPort_none (h : m.findPort x = none) : ¬ ∃ p ∈ m.ports, ∃ i ∈ p.names, i.name = x := by
  rw [findPort, List.find?_eq_none] at h
  rintro ⟨p, hp, i, hi, hname⟩
  apply h p (List.mem_reverse.mpr hp)
  simp only [List.any_eq_true, decide_eq_true_eq]
  exact ⟨i, hi, hname⟩

theorem of_findInternal {i : RegDecl ⊕ NetDecl} (h : m.findInternal x = some i) : (internalDecl i).Of m x := by
  rw [findInternal] at h
  cases hreg : m.regs.reverse.find? fun r => r.identifier.name = x with
  | some r =>
    rw [hreg] at h
    obtain rfl := Option.some.inj h
    exact ⟨List.mem_reverse.mp (List.mem_of_find?_eq_some hreg), by simpa using List.find?_some hreg⟩
  | none =>
    rw [hreg] at h
    obtain ⟨n, hn, rfl⟩ := Option.map_eq_some_iff.mp h
    exact ⟨List.mem_reverse.mp (List.mem_of_find?_eq_some hn), by simpa using List.find?_some hn⟩

theorem of_findInternal_none (h : m.findInternal x = none) :
    ¬ ((∃ r ∈ m.regs, r.identifier.name = x) ∨ ∃ n ∈ m.nets, n.identifier.name = x) := by
  rw [findInternal] at h
  cases hreg : m.regs.reverse.find? fun r => r.identifier.name = x with
  | some r =>
    rw [hreg] at h
    exact absurd h (Option.some_ne_none _)
  | none =>
    rw [hreg] at h
    have hnet := List.find?_eq_none.mp (Option.map_eq_none_iff.mp h)
    have hregs := List.find?_eq_none.mp hreg
    rintro (⟨r, hr, hname⟩ | ⟨n, hn, hname⟩)
    · exact hregs r (List.mem_reverse.mpr hr) (by simpa using hname)
    · exact hnet n (List.mem_reverse.mpr hn) (by simpa using hname)

theorem declares_of {decl : Decl} (h : decl.Of m x) : m.Declares x := by
  cases decl with
  | module => exact h.elim
  | port p => exact .inl ⟨p, h⟩
  | reg r => exact .inr (.inl ⟨r, h⟩)
  | net n => exact .inr (.inr ⟨n, h⟩)

theorem signalType_ne_module : (m.signalType x).1 ≠ .module := by
  rw [signalType]
  cases m.findPort x with
  | none => cases m.findInternal x with
    | none => decide
    | some i => cases i <;> simp
  | some p => cases m.findInternal x with
    | none => dsimp only; split_ifs <;> cases p.direction <;> simp
    | some i => dsimp only; split_ifs <;> cases p.direction <;> simp

theorem signalType_eq_none_iff : (m.signalType x).1 = .none ↔ ¬ m.Declares x := by
  cases hport : m.findPort x with
  | none => cases hint : m.findInternal x with
    | none =>
      have habsent : ¬ m.Declares x := fun h => h.elim (of_findPort_none hport) (of_findInternal_none hint)
      simp [signalType, hport, hint, habsent]
    | some i =>
      have hdecl := declares_of (of_findInternal hint)
      cases i <;> simp [signalType, hport, hint, hdecl]
  | some p =>
    have hdecl : m.Declares x := .inl ⟨p, of_findPort hport⟩
    cases hint : m.findInternal x with
    | none => simp only [signalType, hport, hint, hdecl]; split_ifs <;> cases p.direction <;> simp
    | some i => simp only [signalType, hport, hint, hdecl]; split_ifs <;> cases p.direction <;> simp

theorem signalType_snd_of_none (h : (m.signalType x).1 = .none) : (m.signalType x).2 = none := by
  have habsent := signalType_eq_none_iff.mp h
  have hport : m.findPort x = none := by
    cases hport : m.findPort x with
    | none => rfl
    | some p => exact absurd (.inl ⟨p, of_findPort hport⟩) habsent
  have hint : m.findInternal x = none := by
    cases hint : m.findInternal x with
    | none => rfl
    | some i => exact absurd (declares_of (of_findInternal hint)) habsent
  simp only [signalType, hport, hint]

theorem signalType_decl (hnone : (m.signalType x).1 ≠ .none) (hothers : (m.signalType x).1 ≠ .others) :
    ∃ decl, (m.signalType x).2 = some decl ∧ decl.Of m x := by
  revert hnone hothers
  cases hport : m.findPort x with
  | none => cases hint : m.findInternal x with
    | none => simp [signalType, hport, hint]
    | some i =>
      have hof := of_findInternal hint
      simpa [signalType, hport, hint] using fun _ _ => hof
  | some p =>
    have hport' : (Decl.port p).Of m x := of_findPort hport
    cases hint : m.findInternal x with
    | none => simp only [signalType, hport, hint]; split_ifs <;> cases p.direction <;> simp [hport']
    | some i =>
      have hof := of_findInternal hint
      simp only [signalType, hport, hint]; split_ifs <;> cases p.direction <;> simp [hof]

end Module

/-! ### The walks -/

namespace Design

variable (d : Design)

theorem exists_topModule {n : Text} (h : d.findTopModule = some n) : ∃ m, d.nameModuleMap n = some m := by
  rw [findTopModule] at h
  split at h
  · exact absurd h (by simp)
  next n' ns hcands =>
    split_ifs at h with hopt hsome
    · rw [← Option.some.inj h]
      exact Option.isSome_iff_exists.mp hsome
    · have hmem : n' ∈ d.topModuleCandidates := by rw [hcands]; exact List.mem_cons_self
      rw [topModuleCandidates, List.mem_insertionSort, List.mem_filter, List.mem_map] at hmem
      obtain ⟨⟨m, hm, hname⟩, _⟩ := hmem
      rw [← Option.some.inj h, ← Option.isSome_iff_exists, nameModuleMap, List.find?_isSome]
      exact ⟨m, hm, by simpa using hname⟩

theorem name_of_nameModuleMap {n : Text} {m : Module} (h : d.nameModuleMap n = some m) : m.identifier.name = n := by
  simpa using List.find?_some h

theorem nameModuleMap_nil : d.nameModuleMap [] = none := by
  rw [nameModuleMap, List.find?_eq_none]
  intro m _
  simpa using m.identifier.nonempty

variable {d}

theorem descend_eq_some_iff {n n' : Text} (l : Loc) {xs : List Text} :
    d.descend n xs = some (some n') ↔ ∃ l', d.lead n l xs = some (.inst n' l') := by
  induction xs generalizing n l with
  | nil => simp [descend, lead]
  | cons x xs ih =>
    cases hmod : d.nameModuleMap n with
    | none => simp [descend, lead, hmod]
    | some m => cases hsub : m.submodule x with
      | none => simp [descend, lead, hmod, hsub]
      | some e =>
        simp only [descend, lead, hmod, hsub]
        exact ih e.1.pos.toLoc

theorem descend_eq_none_iff {n : Text} (l : Loc) {xs : List Text} :
    d.descend n xs = none ↔
      ∃ ys, ys <+: xs ∧ ys ≠ xs ∧ ∃ n' l', d.lead n l ys = some (.inst n' l') ∧ d.nameModuleMap n' = none := by
  induction xs generalizing n l with
  | nil =>
    constructor
    · intro h
      exact absurd h (by simp [descend])
    · intro ⟨ys, hpre, hne, _⟩
      exact absurd (List.prefix_nil.mp hpre) hne
  | cons x xs ih =>
    cases hmod : d.nameModuleMap n with
    | none =>
      have hnil : d.lead n l [] = some (.inst n l) := rfl
      simp only [descend, hmod, true_iff]
      exact ⟨[], List.nil_prefix, List.cons_ne_nil x xs |>.symm, n, l, hnil, hmod⟩
    | some m => cases hsub : m.submodule x with
      | none =>
        simp only [descend, hmod, hsub, reduceCtorEq, false_iff]
        intro ⟨ys, hpre, hne, n', l', hlead, hmissing⟩
        cases ys with
        | nil =>
          obtain ⟨rfl, rfl⟩ : n = n' ∧ l = l' := by simpa [lead] using hlead
          rw [hmod] at hmissing
          exact absurd hmissing (Option.some_ne_none m)
        | cons y ys =>
          obtain ⟨rfl, _⟩ := List.cons_prefix_cons.mp hpre
          simp [lead, hmod, hsub] at hlead
      | some e =>
        have hstep : d.descend n (x :: xs) = d.descend e.2.submodName xs := by simp only [descend, hmod, hsub]
        have hlead : ∀ ys, d.lead n l (x :: ys) = d.lead e.2.submodName e.1.pos.toLoc ys := by
          intro ys
          simp only [lead, hmod, hsub]
        rw [hstep, ih e.1.pos.toLoc]
        constructor
        · intro ⟨ys, hpre, hne, hrest⟩
          refine ⟨x :: ys, List.cons_prefix_cons.mpr ⟨rfl, hpre⟩, fun h => hne (List.cons.inj h).2, ?_⟩
          rw [hlead]
          exact hrest
        · intro ⟨ys, hpre, hne, n', l', hys, hmissing⟩
          cases ys with
          | nil =>
            obtain ⟨rfl, rfl⟩ : n = n' ∧ l = l' := by simpa [lead] using hys
            rw [hmod] at hmissing
            exact absurd hmissing (Option.some_ne_none m)
          | cons y ys =>
            obtain ⟨rfl, htail⟩ := List.cons_prefix_cons.mp hpre
            rw [hlead] at hys
            exact ⟨ys, htail, fun h => hne (by rw [h]), n', l', hys, hmissing⟩

theorem lead_concat (n : Text) (l : Loc) (xs : List Text) (x : Text) :
    d.lead n l (xs ++ [x]) =
      match d.lead n l xs with
      | some (.inst n' l') => d.lead n' l' [x]
      | _ => none := by
  induction xs generalizing n l with
  | nil => rfl
  | cons y ys ih =>
    cases hmod : d.nameModuleMap n with
    | none => simp [lead, hmod]
    | some m => cases hsub : m.submodule y with
      | none =>
        simp only [List.cons_append, lead, hmod, hsub]
        by_cases hys : ys = [] ∧ m.Declares y
        · simp [hys]
        · rw [if_neg hys, if_neg (by simp)]
      | some e =>
        have hstep : ∀ zs, d.lead n l (y :: zs) = d.lead e.2.submodName e.1.pos.toLoc zs := by
          intro zs
          simp only [lead, hmod, hsub]
        rw [List.cons_append, hstep, hstep, ih]

theorem lead_concat_of_inst {n n' : Text} {l l' : Loc} {xs : List Text} (h : d.lead n l xs = some (.inst n' l')) (x : Text) :
    d.lead n l (xs ++ [x]) = d.lead n' l' [x] := by rw [lead_concat, h]

theorem lead_concat_of_not {n : Text} {l : Loc} {xs : List Text} (h : ∀ n' l', d.lead n l xs ≠ some (.inst n' l')) (x : Text) :
    d.lead n l (xs ++ [x]) = none := by
  rw [lead_concat]
  split
  next n' l' hlead => exact absurd hlead (h n' l')
  · rfl

theorem lead_of_mem_nil {n : Text} {l : Loc} {xs : List Text} (h : [] ∈ xs) : d.lead n l xs = none := by
  induction xs generalizing n l with
  | nil => exact absurd h List.not_mem_nil
  | cons x xs ih =>
    cases hmod : d.nameModuleMap n with
    | none => simp only [lead, hmod]
    | some m =>
      rcases List.mem_cons.mp h with hx | hxs
      · subst hx
        simp [lead, hmod, m.submodule_nil, m.not_declares_nil]
      · cases hsub : m.submodule x with
        | none =>
          have hne : ¬ (xs = [] ∧ m.Declares x) := fun hnil => List.ne_nil_of_mem hxs hnil.1
          simp only [lead, hmod, hsub]
          rw [if_neg hne]
        | some e =>
          simp only [lead, hmod, hsub]
          exact ih hxs

theorem target_of_mem_nil {xs : List Text} (h : [] ∈ xs) : d.target xs = none := by
  cases xs with
  | nil => rfl
  | cons t xs =>
    rw [target]
    split
    · rfl
    · split_ifs with ht
      · rcases List.mem_cons.mp h with hnil | hmem
        · exact absurd (hnil.trans ht).symm d.named
        · exact lead_of_mem_nil hmem
      · rfl

/-- What the last level answers in the module that the path before it leads to. -/
def expected (d : Design) : Option Target → NameType × Option Decl
  | none => (.none, none)
  | some (.inst n _) => (.module, (d.nameModuleMap n).map .module)
  | some (.signal m x) => m.signalType x

/-- No beginning of a path leads to an instance of a module that is not there. -/
def Defined (d : Design) (xs : List Text) : Prop :=
  ∀ path, path <+: xs → ∀ n l, d.target path = some (.inst n l) → (d.nameModuleMap n).isSome = true

theorem lead_single {n : Text} {m : Module} (hmod : d.nameModuleMap n = some m) (l : Loc) (x : Text) :
    d.lead n l [x] =
      match m.submodule x with
      | some e => some (.inst e.2.submodName e.1.pos.toLoc)
      | none => if m.Declares x then some (.signal m x) else none := by
  cases hsub : m.submodule x with
  | some e => simp only [lead, hmod, hsub]
  | none => simp only [lead, hmod, hsub, true_and]

theorem target_cons {n : Text} (htop : d.findTopModule = some n) (xs : List Text) :
    d.target (d.topInstName :: xs) = d.lead n (d.topLoc n) xs := by
  rw [target, htop]
  exact if_pos rfl

theorem target_of_ne {t : Text} (ht : t ≠ d.topInstName) (xs : List Text) : d.target (t :: xs) = none := by
  rw [target]
  split
  · rfl
  · exact if_neg ht

theorem target_of_bad (hbad : d.findTopModule = none) (xs : List Text) : d.target xs = none := by
  cases xs with
  | nil => rfl
  | cons t xs => rw [target, hbad]

theorem checkLast_of_defined {n : Text} {m : Module} (hmod : d.nameModuleMap n = some m) (l : Loc) (x : Text)
    (hdef : ∀ n' l', d.lead n l [x] = some (.inst n' l') → (d.nameModuleMap n').isSome = true) :
    d.checkLast n x = some (d.expected (d.lead n l [x])) := by
  rw [lead_single hmod] at hdef ⊢
  rw [checkLast, hmod]
  cases hsub : m.submodule x with
  | some e =>
    rw [hsub] at hdef
    obtain ⟨sub, hsome⟩ := Option.isSome_iff_exists.mp (hdef _ _ rfl)
    simp only [hsub, expected, hsome, Option.map_some]
  | none =>
    by_cases hdecl : m.Declares x
    · simp only [hsub, if_pos hdecl, expected]
    · have hnone : (m.signalType x).1 = .none := Module.signalType_eq_none_iff.mpr hdecl
      have hpair : m.signalType x = (.none, none) := Prod.ext hnone (Module.signalType_snd_of_none hnone)
      simp only [hsub, if_neg hdecl, expected, hpair]

theorem checkUncached_concat {q : Text} {xs : List Text} {x : Text} (hsplit : split q '.' = d.topInstName :: (xs ++ [x])) :
    d.checkUncached q =
      match d.descend d.topModuleName xs with
      | none => none
      | some none => some (.none, none)
      | some (some curr) => d.checkLast curr x := by
  cases hxs : xs ++ [x] with
  | nil => exact absurd hxs (by simp)
  | cons y ys =>
    have hinit : (y :: ys).dropLast = xs := by rw [← hxs, List.dropLast_concat]
    have hlast : (y :: ys).getLast (List.cons_ne_nil y ys) = x := by simp only [← hxs, List.getLast_concat]
    rw [checkUncached, hsplit, hxs, ← hinit, ← hlast]
    exact if_neg (not_not.mpr rfl)

theorem checkUncached_single {q : Text} (hsplit : split q '.' = [d.topInstName]) :
    d.checkUncached q = (d.nameModuleMap d.topModuleName).map fun m => (.module, some (.module m)) := by
  simp only [checkUncached, hsplit, ne_eq, not_true_eq_false, if_false]

theorem checkUncached_of_ne {q t : Text} {xs : List Text} (hsplit : split q '.' = t :: xs) (ht : t ≠ d.topInstName) :
    d.checkUncached q = some (.none, none) := by
  cases xs with
  | nil => simp only [checkUncached, hsplit, if_pos ht]
  | cons x xs => simp only [checkUncached, hsplit, if_pos ht]

theorem topModuleName_eq {n : Text} (htop : d.findTopModule = some n) : d.topModuleName = n := by
  rw [topModuleName, htop, Option.getD_some]

theorem Defined.lead {n : Text} (htop : d.findTopModule = some n) {xs ys : List Text} (hdef : d.Defined (d.topInstName :: xs))
    (hys : ys <+: xs) {n' : Text} {l' : Loc} (hlead : d.lead n (d.topLoc n) ys = some (.inst n' l')) :
    (d.nameModuleMap n').isSome = true := by
  apply hdef (d.topInstName :: ys) (List.cons_prefix_cons.mpr ⟨rfl, hys⟩) n' l'
  rw [target_cons htop, hlead]

theorem descend_of_defined {n : Text} (htop : d.findTopModule = some n) {xs : List Text} (hdef : d.Defined (d.topInstName :: xs)) :
    (∃ n' l' m, d.lead n (d.topLoc n) xs = some (.inst n' l') ∧ d.nameModuleMap n' = some m ∧ d.descend n xs = some (some n')) ∨
      (∀ n' l', d.lead n (d.topLoc n) xs ≠ some (.inst n' l')) ∧ d.descend n xs = some none := by
  cases hdesc : d.descend n xs with
  | none =>
    obtain ⟨ys, hys, _, n', l', hlead, hmissing⟩ := (descend_eq_none_iff (d.topLoc n)).mp hdesc
    have hsome := hdef.lead htop hys hlead
    rw [hmissing] at hsome
    exact absurd hsome (by decide)
  | some r =>
    cases r with
    | none =>
      refine .inr ⟨fun n' l' hlead => ?_, rfl⟩
      rw [(descend_eq_some_iff (d.topLoc n)).mpr ⟨l', hlead⟩] at hdesc
      exact absurd (Option.some.inj hdesc) (Option.some_ne_none n')
    | some n' =>
      obtain ⟨l', hlead⟩ := (descend_eq_some_iff (d.topLoc n)).mp hdesc
      obtain ⟨m, hm⟩ := Option.isSome_iff_exists.mp (hdef.lead htop List.prefix_rfl hlead)
      exact .inl ⟨n', l', m, hlead, hm, rfl⟩

theorem Defined.dropLast {t x : Text} {xs : List Text} (hdef : d.Defined (t :: (xs ++ [x]))) : d.Defined (t :: xs) :=
  fun path hpath => hdef path (hpath.trans (List.cons_prefix_cons.mpr ⟨rfl, List.prefix_append xs [x]⟩))

theorem checkUncached_of_defined {q n : Text} (htop : d.findTopModule = some n) (hne : split q '.' ≠ [])
    (hdef : d.Defined (split q '.')) : d.checkUncached q = some (d.expected (d.target (split q '.'))) := by
  have hname := topModuleName_eq htop
  cases hsplit : split q '.' with
  | nil => exact absurd hsplit hne
  | cons t xs =>
    rw [hsplit] at hdef
    by_cases ht : t = d.topInstName
    · subst ht
      rw [target_cons htop]
      rcases List.eq_nil_or_concat' xs with rfl | ⟨ys, x, rfl⟩
      · obtain ⟨m, hm⟩ := d.exists_topModule htop
        rw [checkUncached_single hsplit, hname, hm]
        simp only [lead, expected, hm, Option.map_some]
      · rw [checkUncached_concat hsplit, hname]
        rcases descend_of_defined htop hdef.dropLast with ⟨curr, l', m, hlead, hm, hdesc⟩ | ⟨hnot, hdesc⟩
        · rw [hdesc, lead_concat_of_inst hlead]
          refine checkLast_of_defined hm l' x fun n' l'' hlast => ?_
          exact hdef.lead htop List.prefix_rfl ((lead_concat_of_inst hlead x).trans hlast)
        · rw [hdesc, lead_concat_of_not hnot]
          rfl
    · rw [checkUncached_of_ne hsplit ht, target_of_ne ht]
      rfl

theorem checkLast_eq_none {n n' : Text} {l l' : Loc} {x : Text} (hlead : d.lead n l [x] = some (.inst n' l'))
    (hmissing : d.nameModuleMap n' = none) : d.checkLast n x = none := by
  rw [checkLast]
  cases hmod : d.nameModuleMap n with
  | none => rfl
  | some m =>
    rw [lead_single hmod] at hlead
    cases hsub : m.submodule x with
    | none =>
      rw [hsub] at hlead
      dsimp only at hlead
      split_ifs at hlead
      simp at hlead
    | some e =>
      rw [hsub] at hlead
      obtain ⟨rfl, _⟩ : e.2.submodName = n' ∧ e.1.pos.toLoc = l' := by simpa using hlead
      simp only [hsub, hmissing, Option.map_none]

theorem checkUncached_eq_none {q n : Text} (htop : d.findTopModule = some n) {xs ys : List Text}
    (hsplit : split q '.' = d.topInstName :: xs) (hys : ys <+: xs) {n' : Text} {l' : Loc}
    (hlead : d.lead n (d.topLoc n) ys = some (.inst n' l')) (hmissing : d.nameModuleMap n' = none) : d.checkUncached q = none := by
  rcases List.eq_nil_or_concat' xs with rfl | ⟨zs, x, rfl⟩
  · obtain ⟨m, hm⟩ := d.exists_topModule htop
    rw [List.prefix_nil.mp hys] at hlead
    obtain ⟨rfl, _⟩ : n = n' ∧ d.topLoc n = l' := by simpa [lead] using hlead
    rw [hm] at hmissing
    exact absurd hmissing (Option.some_ne_none m)
  · rw [checkUncached_concat hsplit, topModuleName_eq htop]
    rcases List.prefix_concat_iff.mp hys with rfl | hshort
    · -- The query itself leads to the instance, whose module is looked up at the last level.
      by_cases hinst : ∃ n'' l'', d.lead n (d.topLoc n) zs = some (.inst n'' l'')
      · obtain ⟨n'', l'', hzs⟩ := hinst
        rw [(descend_eq_some_iff (d.topLoc n)).mpr ⟨l'', hzs⟩]
        exact checkLast_eq_none ((lead_concat_of_inst hzs x).symm.trans hlead) hmissing
      · rw [lead_concat_of_not fun n'' l'' hzs => hinst ⟨n'', l'', hzs⟩] at hlead
        exact absurd hlead.symm (Option.some_ne_none _)
    · by_cases hall : ys = zs
      · rw [hall] at hlead
        rw [(descend_eq_some_iff (d.topLoc n)).mpr ⟨l', hlead⟩]
        simp only [checkLast, hmissing]
      · rw [(descend_eq_none_iff (d.topLoc n)).mpr ⟨ys, hshort, hall, n', l', hlead, hmissing⟩]

theorem defined_of_checkUncached {q n : Text} (htop : d.findTopModule = some n) (h : d.checkUncached q ≠ none) :
    d.Defined (split q '.') := by
  intro path hpath n' l' htarget
  cases path with
  | nil => exact absurd htarget (by simp [target])
  | cons t ys =>
    obtain ⟨rest, hrest⟩ := hpath
    have hsplit : split q '.' = t :: (ys ++ rest) := by rw [← hrest, List.cons_append]
    by_cases ht : t = d.topInstName
    · subst ht
      rw [target_cons htop] at htarget
      by_contra hmissing
      rw [Bool.not_eq_true, Option.isSome_eq_false_iff, Option.isNone_iff_eq_none] at hmissing
      exact h (checkUncached_eq_none htop hsplit (List.prefix_append ys rest) htarget hmissing)
    · rw [target_of_ne ht] at htarget
      exact absurd htarget (by simp)

theorem checkUncached_decl {q n : Text} (htop : d.findTopModule = some n) {t : NameType} {decl : Option Decl}
    (h : d.checkUncached q = some (t, decl)) (hnone : t ≠ .none) (hothers : t ≠ .others) : ∃ x, decl = some x := by
  have hne : split q '.' ≠ [] := by
    intro hnil
    rw [checkUncached, hnil] at h
    exact absurd h (by simp)
  have hdef := defined_of_checkUncached htop (by rw [h]; exact Option.some_ne_none _)
  rw [checkUncached_of_defined htop hne hdef] at h
  cases htarget : d.target (split q '.') with
  | none =>
    rw [htarget] at h
    exact absurd (congrArg Prod.fst (Option.some.inj h)).symm hnone
  | some target =>
    rw [htarget] at h
    cases target with
    | inst n' l =>
      obtain ⟨m, hm⟩ := Option.isSome_iff_exists.mp (hdef _ List.prefix_rfl n' l htarget)
      have hdecl := congrArg Prod.snd (Option.some.inj h)
      simp only [expected, hm, Option.map_some] at hdecl
      exact ⟨_, hdecl.symm⟩
    | signal m x =>
      have htype : (m.signalType x).1 = t := congrArg Prod.fst (Option.some.inj h)
      have hdecl : (m.signalType x).2 = decl := congrArg Prod.snd (Option.some.inj h)
      obtain ⟨y, hy, _⟩ := Module.signalType_decl (htype ▸ hnone) (htype ▸ hothers)
      exact ⟨y, hdecl ▸ hy⟩

end Design

end VerilogAnalyzer

end Ilang
