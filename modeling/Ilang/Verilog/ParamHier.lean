import Mathlib.Data.List.Basic
import Mathlib.Data.List.Nodup

/-!
# Parameters of instances

`PopulateParameterDefByHierarchy` goes down a path of instances. On each level it gives the parameters of the module the values that
come from the level above, by their order or by name, or those of their defaults, and evaluates with them the overrides of the next
instance. Ordered overrides are looked up by the number of the declaration, while in Verilog they are for the parameters one by one,
and the type of a declaration is not looked at, while in Verilog a value is converted to it.

Expressions and their values are left open: whatever a constant expression evaluates to, the same is meant on both sides.
-/

namespace Ilang

namespace ParamHier

/-- A parameter declaration, with the range or type of its parameters, if it has one, and one or more parameters with defaults. -/
structure Decl (N E T : Type) where
  type : Option T
  assignments : List (N × E)
  nonempty : assignments ≠ []

/-- The overrides of an instance. -/
inductive Override (N E : Type)
  | ordered (values : List E)
  | named (values : List (N × E))

/-- The module of a level, and the overrides of the instance in it. -/
abbrev Level (N E T : Type) := List (Decl N E T) × Option (Override N E)

/-- The values of overrides: `prev_named_param_defs` and `prev_ordered_param_defs`. -/
structure Values (N V : Type) where
  named : N → Option V
  ordered : List V

def Values.none {N V : Type} : Values N V := ⟨fun _ => .none, []⟩

section Model

variable {N E T V : Type} [DecidableEq N] (eval : E → (N → Option V) → Option V)

/-- `insert`, which leaves a value that is there as it is. -/
def insert (env : N → Option V) (n : N) (v : V) : N → Option V := fun m => if m = n then some ((env n).getD v) else env m

/-! ### The evaluator -/

/-- One round of the loop over the assignments. An assignment that cannot be evaluated is skipped. -/
def parseAssignment (ov : Values N V) (pi : ℕ) (out : N → Option V) (a : N × E) : N → Option V :=
  match ov.ordered[pi]? with
  | some val => insert out a.1 val
  | none =>
    match ov.named a.1 with
    | some val => insert out a.1 val
    | none =>
      match eval a.2 out with
      | some val => insert out a.1 val
      | none => out

def parseDecls (ov : Values N V) : ℕ → List (Decl N E T) → (N → Option V) → N → Option V
  | _, [], out => out
  | pi, d :: ds, out => parseDecls ov (pi + 1) ds (d.assignments.foldl (parseAssignment eval ov pi) out)

def parseCurrentModuleParameters (m : List (Decl N E T)) (ov : Values N V) : N → Option V :=
  parseDecls eval ov 0 m fun _ => none

/-- The overrides of an instance, evaluated with the parameters of the module around it. -/
def evalOverride (env : N → Option V) : Override N E → Option (Values N V)
  | .ordered values => (values.mapM fun e => eval e env).map fun vs => ⟨fun _ => none, vs⟩
  | .named values => (values.foldlM (fun named p => (eval p.2 env).map (insert named p.1)) fun _ => none).map fun named => ⟨named, []⟩

/-- `PopulateParameterDefByHierarchy`, which stops when an override cannot be evaluated. -/
def populate : List (Level N E T) → Values N V → List (Decl N E T) → Option (N → Option V)
  | [], ov, currentModule => some (parseCurrentModuleParameters eval currentModule ov)
  | (_, none) :: hier, _, currentModule => populate hier .none currentModule
  | (m, some o) :: hier, ov, currentModule =>
    (evalOverride eval (parseCurrentModuleParameters eval m ov) o).bind fun ov' => populate hier ov' currentModule

/-! ### Elaboration -/

/-- A parameter with the number of its declaration, the type, the name and the default. -/
structure Param (N E T : Type) where
  decl : ℕ
  type : Option T
  name : N
  default : E

/-- The parameters from the declaration of the given number on. -/
def params : ℕ → List (Decl N E T) → List (Param N E T)
  | _, [] => []
  | pi, d :: ds => (d.assignments.map fun a => ⟨pi, d.type, a.1, a.2⟩) ++ params (pi + 1) ds

variable (conv : T → V → V)

/-- The value of the parameter at position `k`, before the conversion to the declared type. -/
def Param.value (ov : Values N V) (env : N → Option V) (k : ℕ) (p : Param N E T) : Option V :=
  match ov.ordered[k]? with
  | some v => some v
  | none =>
    match ov.named p.name with
    | some v => some v
    | none => eval p.default env

def Param.convert (p : Param N E T) (v : V) : V := p.type.elim v fun t => conv t v

def elabParams (ov : Values N V) : ℕ → List (Param N E T) → (N → Option V) → Option (N → Option V)
  | _, [], env => some env
  | k, p :: ps, env => (p.value eval ov env k).bind fun v => elabParams ov (k + 1) ps (insert env p.name (p.convert conv v))

def elabModule (m : List (Decl N E T)) (ov : Values N V) : Option (N → Option V) := elabParams eval conv ov 0 (params 0 m) fun _ => none

/-- The overrides that arrive at the end of a path. Without overrides an instance does not depend on the module around it. -/
def arriving : List (Level N E T) → Values N V → Option (Values N V)
  | [], ov => some ov
  | (_, none) :: hier, _ => arriving hier .none
  | (m, some o) :: hier, ov =>
    (elabModule eval conv m ov).bind fun env => (evalOverride eval env o).bind fun ov' => arriving hier ov'

/-- The parameters that Verilog gives the last module. -/
def elabHierarchy (hier : List (Level N E T)) (ov : Values N V) (currentModule : List (Decl N E T)) : Option (N → Option V) :=
  (arriving eval conv hier ov).bind fun ov' => elabModule eval conv currentModule ov'

/-! ### Where they agree -/

/-- The ordered override at the number of the declaration is the value of the parameter, and behind the ordered overrides the declared
type makes no difference. -/
def Agree (ov : Values N V) : ℕ → List (Param N E T) → (N → Option V) → Prop
  | _, [], _ => True
  | k, p :: ps, env => ∀ v, p.value eval ov env k = some v →
      (ov.ordered[p.decl]?).getD v = p.convert conv v ∧ Agree ov (k + 1) ps (insert env p.name (p.convert conv v))

def AgreeModule (m : List (Decl N E T)) (ov : Values N V) : Prop := Agree eval conv ov 0 (params 0 m) fun _ => none

/-- They agree on all levels whose parameters are used. -/
def AgreeOnTheWay : List (Level N E T) → Values N V → Prop
  | [], _ => True
  | (_, none) :: hier, _ => AgreeOnTheWay hier .none
  | (m, some o) :: hier, ov => AgreeModule eval conv m ov ∧
      ∀ env ov', elabModule eval conv m ov = some env → evalOverride eval env o = some ov' → AgreeOnTheWay hier ov'

end Model

/-! ### One module -/

section Module

variable {N E T V : Type} [DecidableEq N] {eval : E → (N → Option V) → Option V} {conv : T → V → V} {ov : Values N V}

theorem parseDecls_eq (pi : ℕ) (ds : List (Decl N E T)) (out : N → Option V) : parseDecls eval ov pi ds out =
    (params pi ds).foldl (fun out p => parseAssignment eval ov p.decl out (p.name, p.default)) out := by
  induction ds generalizing pi out with
  | nil => rfl
  | cons d ds ih =>
    rw [parseDecls, params, List.foldl_append, ih, List.foldl_map]

/-- A parameter at position `k` has at most `k` declarations in front. -/
def Indexed : ℕ → List (Param N E T) → Prop
  | _, [] => True
  | k, p :: ps => p.decl ≤ k ∧ Indexed (k + 1) ps

omit [DecidableEq N] in
theorem indexed_append {d : Decl N E T} {pi k : ℕ} (hk : pi ≤ k) {ps : List (Param N E T)} (assignments : List (N × E))
    (h : Indexed (k + assignments.length) ps) :
    Indexed k ((assignments.map fun a => (⟨pi, d.type, a.1, a.2⟩ : Param N E T)) ++ ps) := by
  induction assignments generalizing k with
  | nil => exact h
  | cons a assignments ih =>
    refine ⟨hk, ih (Nat.le_succ_of_le hk) ?_⟩
    rw [List.length_cons] at h
    rwa [Nat.add_right_comm, Nat.add_assoc]

omit [DecidableEq N] in
theorem indexed_params {pi k : ℕ} (hk : pi ≤ k) (ds : List (Decl N E T)) : Indexed k (params pi ds) := by
  induction ds generalizing pi k with
  | nil => trivial
  | cons d ds ih =>
    have hpos := List.length_pos_of_ne_nil d.nonempty
    exact indexed_append hk d.assignments (ih (by omega))

theorem parseAssignment_eq {k : ℕ} {p : Param N E T} (hk : p.decl ≤ k) {env : N → Option V} {v : V}
    (hv : p.value eval ov env k = some v) :
    parseAssignment eval ov p.decl env (p.name, p.default) = insert env p.name ((ov.ordered[p.decl]?).getD v) := by
  unfold parseAssignment
  cases hordered : ov.ordered[p.decl]? with
  | some u => rfl
  | none =>
    have hnone : ov.ordered[k]? = none :=
      List.getElem?_eq_none (Nat.le_trans (List.getElem?_eq_none_iff.mp hordered) hk)
    unfold Param.value at hv
    rw [hnone] at hv
    dsimp only at hv ⊢
    cases hnamed : ov.named p.name with
    | some u =>
      rw [hnamed] at hv
      rw [Option.some.inj hv]
      rfl
    | none =>
      rw [hnamed] at hv
      dsimp only at hv ⊢
      rw [hv]
      rfl

theorem foldl_of_agree {k : ℕ} {ps : List (Param N E T)} (hindexed : Indexed k ps) {env env' : N → Option V}
    (hparams : elabParams eval conv ov k ps env = some env') (hagree : Agree eval conv ov k ps env) :
    ps.foldl (fun out p => parseAssignment eval ov p.decl out (p.name, p.default)) env = env' := by
  induction ps generalizing k env with
  | nil => exact Option.some.inj hparams
  | cons p ps ih =>
    obtain ⟨v, hv, hparams⟩ := Option.bind_eq_some_iff.mp hparams
    obtain ⟨hsame, hagree⟩ := hagree v hv
    rw [List.foldl_cons, parseAssignment_eq hindexed.1 hv, hsame]
    exact ih hindexed.2 hparams hagree

/-! A value that is there stays. -/

theorem insert_of_some {env : N → Option V} {m : N} {x : V} (h : env m = some x) (n : N) (v : V) :
    insert env n v m = some x := by
  unfold insert
  split
  · rename_i hmn
    rw [← hmn, h]
    rfl
  · exact h

theorem insert_self {env : N → Option V} {n : N} (h : env n = none) (v : V) : insert env n v n = some v := by
  rw [insert, if_pos rfl, h]
  rfl

theorem parseAssignment_of_some {out : N → Option V} {m : N} {x : V} (h : out m = some x) (pi : ℕ) (a : N × E) :
    parseAssignment eval ov pi out a m = some x := by
  unfold parseAssignment
  cases ov.ordered[pi]? with
  | some u => exact insert_of_some h _ _
  | none =>
    cases ov.named a.1 with
    | some u => exact insert_of_some h _ _
    | none =>
      dsimp only
      cases eval a.2 out with
      | some u => exact insert_of_some h _ _
      | none => exact h

theorem foldl_of_some {ps : List (Param N E T)} {out : N → Option V} {m : N} {x : V} (h : out m = some x) :
    ps.foldl (fun out p => parseAssignment eval ov p.decl out (p.name, p.default)) out m = some x := by
  induction ps generalizing out with
  | nil => exact h
  | cons p ps ih => exact ih (parseAssignment_of_some h _ _)

theorem elabParams_of_some {k : ℕ} {ps : List (Param N E T)} {env env' : N → Option V} {m : N} {x : V} (h : env m = some x)
    (hparams : elabParams eval conv ov k ps env = some env') : env' m = some x := by
  induction ps generalizing k env with
  | nil => exact Option.some.inj hparams ▸ h
  | cons p ps ih =>
    obtain ⟨v, _, hparams⟩ := Option.bind_eq_some_iff.mp hparams
    exact ih (insert_of_some h _ _) hparams

theorem agree_of_foldl {k : ℕ} {ps : List (Param N E T)} (hindexed : Indexed k ps) (hnodup : (ps.map Param.name).Nodup)
    {env env' : N → Option V} (hfresh : ∀ p ∈ ps, env p.name = none) (hparams : elabParams eval conv ov k ps env = some env')
    (hsame : ps.foldl (fun out p => parseAssignment eval ov p.decl out (p.name, p.default)) env = env') :
    Agree eval conv ov k ps env := by
  induction ps generalizing k env with
  | nil => trivial
  | cons p ps ih =>
    intro v hv
    obtain ⟨hnotin, hnodup⟩ := List.nodup_cons.mp hnodup
    obtain ⟨hp, hfresh⟩ := List.forall_mem_cons.mp hfresh
    obtain ⟨v', hv', hparams⟩ := Option.bind_eq_some_iff.mp hparams
    obtain rfl := Option.some.inj (hv.symm.trans hv')
    rw [List.foldl_cons, parseAssignment_eq hindexed.1 hv] at hsame
    have hvalue : (ov.ordered[p.decl]?).getD v = p.convert conv v := by
      have hcode := @foldl_of_some N E T V _ eval ov ps _ _ _ (insert_self hp ((ov.ordered[p.decl]?).getD v))
      rw [hsame, elabParams_of_some (insert_self hp _) hparams] at hcode
      exact (Option.some.inj hcode).symm
    rw [hvalue] at hsame
    refine ⟨hvalue, ih hindexed.2 hnodup (fun q hq => ?_) hparams hsame⟩
    have hne : q.name ≠ p.name := fun heq => hnotin (heq ▸ List.mem_map_of_mem hq)
    rw [insert, if_neg hne]
    exact hfresh q hq

theorem parseCurrentModuleParameters_eq_iff {m : List (Decl N E T)} {env : N → Option V}
    (hnodup : ((params 0 m).map Param.name).Nodup) (hparams : elabModule eval conv m ov = some env) :
    parseCurrentModuleParameters eval m ov = env ↔ AgreeModule eval conv m ov := by
  rw [parseCurrentModuleParameters, parseDecls_eq]
  exact ⟨agree_of_foldl (indexed_params (Nat.le_refl 0) m) hnodup (fun _ _ => rfl) hparams,
    foldl_of_agree (indexed_params (Nat.le_refl 0) m) hparams⟩

theorem parseCurrentModuleParameters_of_agree {m : List (Decl N E T)} {env : N → Option V}
    (hparams : elabModule eval conv m ov = some env) (h : AgreeModule eval conv m ov) :
    parseCurrentModuleParameters eval m ov = env := by
  rw [parseCurrentModuleParameters, parseDecls_eq]
  exact foldl_of_agree (indexed_params (Nat.le_refl 0) m) hparams h

theorem agree_of_decls {k : ℕ} {ps : List (Param N E T)} (htype : ∀ p ∈ ps, p.type = none)
    (hsingle : ov.ordered = [] ∨ ∀ i p, ps[i]? = some p → p.decl = k + i) (env : N → Option V) :
    Agree eval conv ov k ps env := by
  induction ps generalizing k env with
  | nil => trivial
  | cons p ps ih =>
    intro v hv
    obtain ⟨hp, htype⟩ := List.forall_mem_cons.mp htype
    have hconvert : p.convert conv v = v := by
      rw [Param.convert, hp]
      rfl
    refine ⟨?_, ih htype ?_ _⟩
    · rw [hconvert]
      obtain hnone | hdecl := hsingle
      · rw [hnone]
        rfl
      · rw [show p.decl = k from hdecl 0 p rfl]
        unfold Param.value at hv
        cases hordered : ov.ordered[k]? with
        | none => rfl
        | some u =>
          rw [hordered] at hv
          exact Option.some.inj hv
    · exact hsingle.imp id fun hdecl i q hq => (hdecl (i + 1) q hq).trans (by omega)

omit [DecidableEq N] in
theorem type_of_mem_params {pi : ℕ} {ds : List (Decl N E T)} (h : ∀ d ∈ ds, d.type = none) :
    ∀ p ∈ params pi ds, p.type = none := by
  induction ds generalizing pi with
  | nil => exact List.forall_mem_nil _
  | cons d ds ih =>
    obtain ⟨hd, hds⟩ := List.forall_mem_cons.mp h
    intro p hp
    obtain hp | hp := List.mem_append.mp hp
    · obtain ⟨a, _, rfl⟩ := List.mem_map.mp hp
      exact hd
    · exact ih hds p hp

omit [DecidableEq N] in
theorem decl_of_single {pi : ℕ} {ds : List (Decl N E T)} (h : ∀ d ∈ ds, d.assignments.length = 1) :
    ∀ i p, (params pi ds)[i]? = some p → p.decl = pi + i := by
  induction ds generalizing pi with
  | nil => exact fun i p hp => nomatch hp
  | cons d ds ih =>
    obtain ⟨hd, hds⟩ := List.forall_mem_cons.mp h
    obtain ⟨a, ha⟩ := List.length_eq_one_iff.mp hd
    intro i p hp
    rw [params, ha, List.map_singleton, List.singleton_append] at hp
    cases i with
    | zero => exact Option.some.inj hp ▸ rfl
    | succ i =>
      rw [ih hds i p hp]
      omega

theorem agreeModule_of_single {m : List (Decl N E T)} (htype : ∀ d ∈ m, d.type = none)
    (hsingle : ov.ordered = [] ∨ ∀ d ∈ m, d.assignments.length = 1) : AgreeModule eval conv m ov :=
  agree_of_decls (type_of_mem_params htype) (hsingle.imp id decl_of_single) _

end Module

/-! ### Paths -/

section Hierarchy

variable {N E T V : Type} [DecidableEq N] {eval : E → (N → Option V) → Option V} {conv : T → V → V}

theorem populate_eq {hier : List (Level N E T)} {ov ov' : Values N V} (hway : AgreeOnTheWay eval conv hier ov)
    (harriving : arriving eval conv hier ov = some ov') (currentModule : List (Decl N E T)) :
    populate eval hier ov currentModule = some (parseCurrentModuleParameters eval currentModule ov') := by
  induction hier generalizing ov with
  | nil => rw [populate, Option.some.inj harriving]
  | cons level hier ih =>
    obtain ⟨m, o⟩ := level
    cases o with
    | none => exact ih hway harriving
    | some o =>
      obtain ⟨env, henv, harriving⟩ := Option.bind_eq_some_iff.mp harriving
      obtain ⟨next, hnext, harriving⟩ := Option.bind_eq_some_iff.mp harriving
      rw [populate, parseCurrentModuleParameters_of_agree henv hway.1, hnext, Option.bind_some]
      exact ih (hway.2 env next henv hnext) harriving

/-- If the levels on the way agree, the last module has the parameters of the elaboration exactly if it agrees as well. -/
theorem populate_iff {hier : List (Level N E T)} {currentModule : List (Decl N E T)} {env : N → Option V}
    (hparams : elabHierarchy eval conv hier .none currentModule = some env)
    (hnodup : ((params 0 currentModule).map Param.name).Nodup) (hway : AgreeOnTheWay eval conv hier .none) :
    populate eval hier .none currentModule = some env ↔
      ∀ ov, arriving eval conv hier .none = some ov → AgreeModule eval conv currentModule ov := by
  obtain ⟨ov, harriving, hmodule⟩ := Option.bind_eq_some_iff.mp hparams
  rw [populate_eq hway harriving, Option.some_inj, parseCurrentModuleParameters_eq_iff hnodup hmodule]
  constructor
  · intro h ov' hov'
    obtain rfl := Option.some.inj (harriving.symm.trans hov')
    exact h
  · exact fun h => h ov harriving

end Hierarchy

/-! ### Literals and names -/

/-- A literal, or the name of a parameter. -/
def evalAtom (e : ℕ ⊕ String) (env : String → Option ℕ) : Option ℕ := e.elim some env

def atomDecl (n : String) (e : ℕ ⊕ String) : Decl String (ℕ ⊕ String) Unit := ⟨none, [(n, e)], List.cons_ne_nil _ _⟩

/-- A named override that uses a parameter of the top module, and below it ordered ones, the first with a parameter that uses another
one. -/
def atomHier : List (Level String (ℕ ⊕ String) Unit) :=
  [([atomDecl "W" (.inl 8)], some (.named [("D", .inr "W")])),
    ([atomDecl "D" (.inl 1), atomDecl "E" (.inr "D")], some (.ordered [.inr "E", .inl 3]))]

def atomModule : List (Decl String (ℕ ⊕ String) Unit) := [atomDecl "A" (.inl 0), atomDecl "B" (.inl 0), atomDecl "C" (.inr "A")]

theorem atomHier_elab : (elabHierarchy evalAtom (fun _ v => v) atomHier .none atomModule).isSome = true := rfl

theorem populate_atomHier : populate evalAtom atomHier .none atomModule =
    some ((elabHierarchy evalAtom (fun _ v => v) atomHier .none atomModule).get atomHier_elab) := by
  have hway : AgreeOnTheWay evalAtom (fun (_ : Unit) v => v) atomHier .none := by
    refine ⟨?_, fun _ _ _ _ => ⟨?_, fun _ _ _ _ => trivial⟩⟩
    all_goals exact agreeModule_of_single (by decide) (Or.inr (by decide))
  exact (populate_iff (Option.some_get _).symm (by decide) hway).mpr fun ov _ =>
    agreeModule_of_single (by decide) (Or.inr (by decide))

/-- Two parameters in one declaration, and an ordered override for each: both get the first. -/
theorem ordered_by_declaration : ¬ ∀ (hier : List (Level String (ℕ ⊕ String) Unit)) (m : List (Decl String (ℕ ⊕ String) Unit))
    (env : String → Option ℕ), elabHierarchy evalAtom (fun _ v => v) hier .none m = some env →
      populate evalAtom hier .none m = some env := by
  intro h
  have hsame := h [([], some (.ordered [.inl 10, .inl 20]))] [⟨none, [("A", .inl 1), ("B", .inl 2)], List.cons_ne_nil _ _⟩] _ rfl
  have hB := congrArg (fun env => env.map fun env => env "B") hsame
  revert hB
  decide

end ParamHier

end Ilang
