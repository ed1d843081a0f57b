import Ilang.SmtInout.YosysSound

/-!
# The function that keeps a state

`AddNoChangeStateUpdateFunction` makes, for every module, a function of two flattened states that compares their registers and
calls the functions of the instances. It makes the functions as shared pointers of their own, and what `Export` writes are the
items of the file.
-/

namespace Ilang

/-- The parser: the datatypes, the flattened datatypes and the functions among the items of the file. -/
structure YosysSmtParser where
  dts : Datatypes
  flat : Datatypes
  items : List FlatFunc

namespace YosysSmtParser

/-- The parser of a design after `BreakDatatypes`. -/
def ofDesign (dts : Datatypes) (fs : List YFunc) : YosysSmtParser :=
  ⟨dts, constructFlattenDatatype dts, Ilang.breakDatatypes dts [] fs⟩

/-- `|m_k|`. -/
def keepName (m : YName) : YName := '|' :: m ++ "_k|".toList

/-- The two arguments of a keep function: a flattened state, and the next one. -/
def keepArgs (p : YosysSmtParser) (m : YName) : List StateVar := p.flat.vars m ++ (p.flat.vars m).map nextVar

/-- The part of the body for a field. An instance is a call with the names of its own module. -/
def keepField (p : YosysSmtParser) (v : StateVar) : Option SExp :=
  match v.type with
  | .datatype m =>
    if m ∈ p.flat.map Prod.fst then
      some (.list (.atom (keepName m) :: ((p.keepArgs m).map fun u => .atom u.internalName)))
    else none
  | _ => some (.list [.atom "=".toList, .atom v.internalName, .atom (nextVar v).internalName])

/-- The function of a module. `none` is an assertion that fails. -/
def keepFunc (p : YosysSmtParser) (m : YName) (vars : List StateVar) : Option FlatFunc :=
  if m ∈ p.flat.map Prod.fst then
    (vars.mapM p.keepField).map fun eqlist => ⟨keepName m, p.keepArgs m, [.list (.atom "and".toList :: eqlist)]⟩
  else none

/-- `add_no_change_function`: at the end of an iteration the pointer to the function goes out of scope. -/
def addNoChangeFunction (p : YosysSmtParser) : Option YosysSmtParser :=
  p.dts.foldlM (fun p d => (p.keepFunc d.1 d.2).map fun _ => p) p

/-- One of the functions that are written compares two flattened states of a module. -/
def EmitsKeep (B : SExp.Interp Smt.Value) (p : YosysSmtParser) (m : YName) : Prop :=
  ∃ pre f post, p.items = pre ++ f :: post ∧ f.args = p.keepArgs m ∧
    ∀ x y, IsState p.dts m x → IsState p.dts m y →
      ∃ b, f.denote B (denoteFlat B [] pre) (x.leaves ++ y.leaves) = some (.bool b) ∧ (b = true ↔ x.leaves = y.leaves)

/-- What the assertions ask for: the modules and the modules of all instances have been flattened. -/
def Flattened (p : YosysSmtParser) : Prop :=
  ∀ d ∈ p.dts, d.1 ∈ p.flat.map Prod.fst ∧ ∀ v ∈ d.2, ∀ m, v.type = .datatype m → m ∈ p.flat.map Prod.fst

variable {p : YosysSmtParser}

theorem keepField_isSome_iff (v : StateVar) :
    (p.keepField v).isSome = true ↔ ∀ m, v.type = .datatype m → m ∈ p.flat.map Prod.fst := by
  unfold keepField
  cases htype : v.type with
  | datatype n =>
    by_cases hn : n ∈ p.flat.map Prod.fst
    · dsimp only
      rw [if_pos hn]
      exact iff_of_true rfl fun m hm => YType.datatype.inj hm ▸ hn
    · dsimp only
      rw [if_neg hn]
      exact iff_of_false Bool.false_ne_true fun h => hn (h n rfl)
  | bool => simp
  | bv w => simp
  | array widths => simp

theorem keepFunc_isSome_iff (m : YName) (vars : List StateVar) : (p.keepFunc m vars).isSome = true ↔
    m ∈ p.flat.map Prod.fst ∧ ∀ v ∈ vars, ∀ n, v.type = .datatype n → n ∈ p.flat.map Prod.fst := by
  have hmapM : ∀ vs : List StateVar, (vs.mapM p.keepField).isSome = true ↔ ∀ v ∈ vs, (p.keepField v).isSome = true := by
    intro vs
    induction vs with
    | nil => simp
    | cons v vs ih =>
      rw [List.forall_mem_cons, ← ih, List.mapM_cons]
      cases p.keepField v <;> cases vs.mapM p.keepField <;> simp
  rw [keepFunc]
  by_cases hm : m ∈ p.flat.map Prod.fst
  · rw [if_pos hm, Option.isSome_map, hmapM, and_iff_right hm]
    exact forall₂_congr fun v _ => keepField_isSome_iff v
  · simp [hm]

theorem addNoChangeFunction_eq_some_iff {p' : YosysSmtParser} :
    p.addNoChangeFunction = some p' ↔ p.Flattened ∧ p' = p := by
  have hloop : ∀ ds : Datatypes, ds.foldlM (fun p d => (p.keepFunc d.1 d.2).map fun _ => p) p = some p' ↔
      (∀ d ∈ ds, (p.keepFunc d.1 d.2).isSome = true) ∧ p' = p := by
    intro ds
    induction ds with
    | nil =>
      rw [List.foldlM_nil, Option.pure_def, Option.some.injEq]
      exact ⟨fun h => ⟨fun d hd => absurd hd List.not_mem_nil, h.symm⟩, fun h => h.2.symm⟩
    | cons d ds ih =>
      rw [List.foldlM_cons, List.forall_mem_cons]
      cases hd : p.keepFunc d.1 d.2 with
      | none => simp
      | some f => simpa using ih
  rw [addNoChangeFunction, hloop, Flattened]
  exact and_congr_left' (forall₂_congr fun d _ => keepFunc_isSome_iff d.1 d.2)

/-- After the call a keep function is written for a module exactly when one was written before, by the design itself. -/
theorem emitsKeep_addNoChange_iff (B : SExp.Interp Smt.Value) (p : YosysSmtParser) (m : YName) :
    (∃ p', p.addNoChangeFunction = some p' ∧ p'.EmitsKeep B m) ↔ p.Flattened ∧ p.EmitsKeep B m := by
  constructor
  · intro ⟨p', hadd, hkeep⟩
    obtain ⟨hflat, rfl⟩ := addNoChangeFunction_eq_some_iff.mp hadd
    exact ⟨hflat, hkeep⟩
  · intro ⟨hflat, hkeep⟩
    exact ⟨p, addNoChangeFunction_eq_some_iff.mpr ⟨hflat, rfl⟩, hkeep⟩

section Latch

def latchName : YName := "m".toList

/-- A module with one register, which is set at every step. -/
def latch : YosysSmtParser :=
  ofDesign [(latchName, [⟨"|m#0|".toList, .bool⟩])]
    [⟨"|m_t|".toList, latchName, true, .list [.atom "|m#0|".toList, .atom nextStateName]⟩]

theorem latch_not_emitsKeep (B : SExp.Interp Smt.Value) : ¬ latch.EmitsKeep B latchName := by
  intro ⟨pre, f, post, hitems, _, hkeep⟩
  have hstate : IsState latch.dts latchName (.st latchName [.base (.bool false)]) := by
    refine .mk rfl (fun i v x hv hx _ => ?_) fun i v x n hv _ htype => ?_
    · rcases i with _ | i
      · cases hv
        cases hx
        exact ⟨_, rfl, rfl⟩
      · cases hv
    · rcases i with _ | i
      · cases hv
        cases htype
      · cases hv
  have hlen := congrArg List.length hitems
  obtain ⟨b, hval, hb⟩ := hkeep _ _ hstate hstate
  rcases pre with _ | ⟨g, pre⟩
  · have hf : f =
        ⟨"|m_t|".toList, [⟨"|m#0|".toList, .bool⟩, ⟨"|m#0_next|".toList, .bool⟩], [.atom "|m#0_next|".toList]⟩ :=
      (List.cons.inj hitems).1.symm
    rw [hf] at hval
    have hfalse : b = false := by
      cases hval
      rfl
    exact absurd (hb.mpr rfl) (by simp [hfalse])
  · simp [latch, ofDesign, Ilang.breakDatatypes] at hlen

theorem latch_keep_missing : ¬ ∃ p', latch.addNoChangeFunction = some p' ∧ p'.EmitsKeep boolOps latchName := by
  intro ⟨p', hadd, hkeep⟩
  obtain ⟨-, rfl⟩ := addNoChangeFunction_eq_some_iff.mp hadd
  exact latch_not_emitsKeep boolOps hkeep

end Latch

theorem flattened_ofDesign {dts : Datatypes} (hok : DesignOk dts) (fs : List YFunc) : (ofDesign dts fs).Flattened := by
  intro d hd
  have hnames : (ofDesign dts fs).flat.map Prod.fst = dts.map Prod.fst := construct_names dts
  rw [hnames]
  refine ⟨List.mem_map_of_mem hd, fun v hv m htype => ?_⟩
  obtain ⟨pre, post, hsplit⟩ := List.append_of_mem hd
  have hpre := hok.earlier pre d.1 d.2 post hsplit v hv m htype
  rw [show dts = pre ++ d :: post from hsplit, List.map_append]
  exact List.mem_append_left _ hpre

end YosysSmtParser

end Ilang
