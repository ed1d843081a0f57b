import Ilang.Mcm.MemoryModel
import Ilang.Mngr.RewriteExpr
import Ilang.Mngr.Unroller

/-!
# Initial conditions of the system

`GenSysInitConstraints` translates the initial conditions of all cores. A shared state is to be the one variable of the global ILA
in all of them, so a `HostRemoveRestore` overwrites the hosts of the variables of a condition before it is translated, and puts
them all back at the end. A variable is shared when a shared state has its name. The traversal of a condition comes to a variable
once for each time it occurs, and the hosts that are there already are compared with those that were recorded.
-/

namespace Ilang

namespace Mcm

open Smt Unroller

/-- An ILA that is a host: its pointer and its name. -/
structure Host where
  ptr : Nat
  name : String
  deriving DecidableEq

/-- The hosts of the variables, by the pointers of the variables. -/
abbrev Hosts := Nat → Option Host

/-- An expression, read with the hosts that its variables have. -/
def withHosts (hosts : Hosts) (e : Expr) : Expr :=
  e.subst fun v => some (.var { v with host := (hosts v.id).map Host.name })

/-! ### The helper -/

/-- `HostRemoveRestore`, together with the hosts that it changes. -/
structure HostRemoveRestore where
  hosts : Hosts
  map : List (Nat × Option Host)

namespace HostRemoveRestore

/-- `RecordAndReplaceIf` at a variable. -/
def recordVar (f : Var → Bool) (h : Host) (r : HostRemoveRestore) (v : Var) : Option HostRemoveRestore :=
  if f v then
    match r.map.lookup v.id with
    | some old =>
      if old = r.hosts v.id then some { r with hosts := Function.update r.hosts v.id (some h) } else none
    | none => some ⟨Function.update r.hosts v.id (some h), (v.id, r.hosts v.id) :: r.map⟩
  else some r

mutual

/-- `RecordAndReplaceIf`. `none` is the assertion that fails. -/
def recordAndReplaceIf (f : Var → Bool) (h : Host) : Expr → HostRemoveRestore → Option HostRemoveRestore
  | .var v, r => recordVar f h r v
  | .const _, r => some r
  | .op _ args, r => recordAndReplaceArgs f h args r
  | .appFunc _ args, r => recordAndReplaceArgs f h args r

def recordAndReplaceArgs (f : Var → Bool) (h : Host) : List Expr → HostRemoveRestore → Option HostRemoveRestore
  | [], r => some r
  | a :: as, r => (recordAndReplaceIf f h a r).bind (recordAndReplaceArgs f h as)

end

/-- `RestoreAll`. Every variable is in the map once, so their order does not matter. -/
def restoreAll (h : Host) (r : HostRemoveRestore) : Option Hosts :=
  r.map.foldlM (fun hosts p => if hosts p.1 = some h then some (Function.update hosts p.1 p.2) else none) r.hosts

end HostRemoveRestore

/-- The variables of an expression, once for each time they occur. -/
def occurrences (e : Expr) : List Var :=
  e.atoms.filterMap fun a => match a with
    | .var v => some v
    | .nondet _ => none

namespace System

variable (z3 : Z3) (u : System)

/-- `isSharedVar`. -/
def isSharedVar (v : Var) : Bool := decide (v.name ∈ u.shared)

/-- The loop over the initial conditions of a core. -/
def convInits (global : Host) (inits : List Expr) (s : HostRemoveRestore × List Term) :
    Option (HostRemoveRestore × List Term) :=
  inits.foldlM (fun s e => (HostRemoveRestore.recordAndReplaceIf u.isSharedVar global e s.1).map fun r =>
    (r, s.2 ++ [getExpr z3 "0" (withHosts r.hosts e)])) s

/-- The loop over the cores. The vector of conditions goes on from core to core. -/
def convCores (global : Host) (ilas : List IlaData) (s : HostRemoveRestore × List Term × List Term) :
    Option (HostRemoveRestore × List Term × List Term) :=
  ilas.foldlM (fun s d => (u.convInits z3 global d.inits (s.1, s.2.1)).map fun t =>
    (t.1, t.2, s.2.2 ++ [conjPred z3 t.2])) s

/-- `GenSysInitConstraints`: the constraints that are added and the hosts after the call. -/
def genSysInitConstraints (global : Host) (hosts : Hosts) : Option (List Term × Hosts) :=
  (u.convCores z3 global u.ilas (⟨hosts, []⟩, [], [])).bind fun s =>
    (s.1.restoreAll global).map fun hosts => (s.2.2, hosts)

/-- All initial conditions. -/
def sysInits : List Expr := u.ilas.flatMap IlaData.inits

/-- The variables that occur in the initial conditions. -/
def initVars : List Var := u.sysInits.flatMap occurrences

end System

/-- What the unroller starts from: the hosts of the variables and the ILA that it has made for the shared states. A pointer is
that of one variable, and no variable of a core has the new ILA as its host. -/
structure InitHosts (u : System) where
  hosts : Hosts
  global : Host
  global_name : global.name = globalName
  fresh : ∀ v ∈ u.initVars, hosts v.id ≠ some global
  object : ∀ v ∈ u.initVars, ∀ w ∈ u.initVars, v.id = w.id → v = w

/-- An initial condition in which every shared state is the variable of the global ILA. -/
def System.globalized (u : System) (hosts : Hosts) (e : Expr) : Expr :=
  e.subst fun v => some (.var { v with host := if u.isSharedVar v then some globalName else (hosts v.id).map Host.name })

theorem System.sym_global {u : System} {v : Var} (hv : v ∈ u.states)
    (hsort : ∀ w ∈ u.states, w.name = v.name → w.sort = v.sort) (suffix : String) :
    ({ v with host := some globalName } : Var).sym suffix = (u.globalVar v.name).sym suffix := by
  have hfound : ((u.states.find? fun w => w.name == v.name).map Var.sort).getD .bool = v.sort := by
    cases hfind : u.states.find? fun w => w.name == v.name with
    | none =>
      have hno := List.find?_eq_none.mp hfind v hv
      simp at hno
    | some w =>
      have hname : w.name = v.name := by simpa using List.find?_some hfind
      exact hsort w (List.mem_of_find?_eq_some hfind) hname
  rw [System.globalVar, hfound]
  rfl

/-- No assertion fails, the constraints are the conjunction of all initial conditions over the global variables, and every
variable has its host back. -/
def System.InitsLinked (z3 : Z3) (u : System) (s : InitHosts u) : Prop :=
  ∃ cstr, u.genSysInitConstraints z3 s.global s.hosts = some (cstr, s.hosts) ∧
    ∀ M : Model, (∀ c ∈ cstr, M.Sat c) ↔
      M.Sat (conjPred z3 (u.sysInits.map fun e => getExpr z3 "0" (u.globalized s.hosts e)))

/-! ### The traversal meets every occurrence -/

section Occurrences

theorem occurrences_var (v : Var) : occurrences (.var v) = [v] := rfl

theorem mem_occurrences {e : Expr} {v : Var} : v ∈ occurrences e ↔ .var v ∈ e.atoms := by
  rw [occurrences, List.mem_filterMap]
  constructor
  · intro ⟨a, ha, heq⟩
    cases a with
    | var w =>
      rw [← Option.some.inj heq]
      exact ha
    | nondet f => cases heq
  · exact fun h => ⟨.var v, h, rfl⟩

theorem occurrences_args {e : Expr} {args : List Expr}
    (h : e.atoms = Expr.atomsList args ∨ (args = [] ∧ ∃ f, e.atoms = [.nondet f])) :
    occurrences e = args.flatMap occurrences := by
  have hlist : ∀ as : List Expr, as.flatMap occurrences =
      (Expr.atomsList as).filterMap fun a => match a with
        | .var v => some v
        | .nondet _ => none := by
    intro as
    induction as with
    | nil => rfl
    | cons a as ih => rw [List.flatMap_cons, ih, Expr.atomsList, List.filterMap_append, occurrences]
  rw [hlist, occurrences]
  rcases h with h | ⟨rfl, f, h⟩ <;> rw [h]
  rfl

theorem occurrences_op (o : ExprOp) (args : List Expr) : occurrences (.op o args) = args.flatMap occurrences :=
  occurrences_args (.inl rfl)

theorem occurrences_appFunc (f : Func) (args : List Expr) : occurrences (.appFunc f args) = args.flatMap occurrences := by
  apply occurrences_args
  cases args with
  | nil => exact .inr ⟨rfl, f, rfl⟩
  | cons a as => exact .inl rfl

namespace HostRemoveRestore

variable {f : Var → Bool} {h : Host}

theorem recordAndReplaceArgs_eq {args : List Expr}
    (ih : ∀ a ∈ args, ∀ r, recordAndReplaceIf f h a r = (occurrences a).foldlM (recordVar f h) r) (r : HostRemoveRestore) :
    recordAndReplaceArgs f h args r = (args.flatMap occurrences).foldlM (recordVar f h) r := by
  induction args generalizing r with
  | nil => rfl
  | cons a as iha =>
    rw [recordAndReplaceArgs, ih a List.mem_cons_self, List.flatMap_cons, List.foldlM_append]
    apply congrArg (Option.bind _)
    funext r'
    exact iha (fun b hb => ih b (List.mem_cons_of_mem a hb)) r'

theorem recordAndReplaceIf_eq (e : Expr) (r : HostRemoveRestore) :
    recordAndReplaceIf f h e r = (occurrences e).foldlM (recordVar f h) r := by
  induction e using Expr.ind generalizing r with
  | var v =>
    rw [recordAndReplaceIf, occurrences_var]
    cases hr : recordVar f h r v <;> simp [hr]
  | const c => rfl
  | op o args ih => rw [recordAndReplaceIf, occurrences_op, recordAndReplaceArgs_eq ih]
  | appFunc g args ih => rw [recordAndReplaceIf, occurrences_appFunc, recordAndReplaceArgs_eq ih]

end HostRemoveRestore

end Occurrences

/-! ### What has been recorded -/

namespace HostRemoveRestore

variable {f : Var → Bool} {h : Host} {hosts : Hosts}

/-- The helper after it has recorded some variables. -/
def recorded (h : Host) (hosts : Hosts) (done : List Var) : HostRemoveRestore where
  hosts p := if p ∈ done.map Var.id then some h else hosts p
  map := (done.map fun v => (v.id, hosts v.id)).reverse

theorem recorded_hosts (done : List Var) (p : Nat) :
    (recorded h hosts done).hosts p = if p ∈ done.map Var.id then some h else hosts p := rfl

theorem recorded_nil : recorded h hosts [] = ⟨hosts, []⟩ := by
  rw [recorded, mk.injEq]
  refine ⟨?_, rfl⟩
  funext p
  exact if_neg List.not_mem_nil

theorem lookup_recorded (done : List Var) (p : Nat) :
    (recorded h hosts done).map.lookup p = if p ∈ done.map Var.id then some (hosts p) else none := by
  have hpairs : ∀ vs : List Var, (vs.map fun v => (v.id, hosts v.id)).lookup p =
      if p ∈ vs.map Var.id then some (hosts p) else none := by
    intro vs
    induction vs with
    | nil => rfl
    | cons v vs ih =>
      rw [List.map_cons, List.lookup_cons, ih]
      by_cases hp : p = v.id
      · simp [hp]
      · simp [hp, beq_eq_false_iff_ne.mpr hp]
  rw [recorded, ← List.map_reverse, hpairs, List.map_reverse]
  simp only [List.mem_reverse]

theorem recordVar_eq_some_iff {done : List Var} {v : Var} (hv : f v = true) (hfresh : hosts v.id ≠ some h)
    {r : HostRemoveRestore} :
    recordVar f h (recorded h hosts done) v = some r ↔ v.id ∉ done.map Var.id ∧ r = recorded h hosts (done ++ [v]) := by
  rw [recordVar, if_pos hv, lookup_recorded]
  by_cases hmem : v.id ∈ done.map Var.id
  · have hhost : (recorded h hosts done).hosts v.id = some h := if_pos hmem
    simp only [hmem, if_true, hhost, if_neg hfresh, not_true, false_and, reduceCtorEq]
  · have hhost : (recorded h hosts done).hosts v.id = hosts v.id := if_neg hmem
    have hnext : (⟨Function.update (recorded h hosts done).hosts v.id (some h),
        (v.id, (recorded h hosts done).hosts v.id) :: (recorded h hosts done).map⟩ : HostRemoveRestore) =
          recorded h hosts (done ++ [v]) := by
      rw [hhost, recorded, recorded, mk.injEq]
      refine ⟨?_, by simp⟩
      funext p
      by_cases hp : p = v.id
      · simp [hp]
      · rw [Function.update_of_ne hp]
        simp [hp]
    simp only [hmem, if_false, hnext, not_false_eq_true, true_and, Option.some.injEq]
    exact eq_comm

theorem foldlM_recordVar_eq_some_iff {l done : List Var} (hdone : (done.map Var.id).Nodup)
    (hfresh : ∀ v ∈ l, hosts v.id ≠ some h) {r : HostRemoveRestore} :
    l.foldlM (recordVar f h) (recorded h hosts done) = some r ↔
      ((done ++ l.filter f).map Var.id).Nodup ∧ r = recorded h hosts (done ++ l.filter f) := by
  induction l generalizing done with
  | nil =>
    rw [List.foldlM_nil, List.filter_nil, List.append_nil, Option.pure_def, Option.some.injEq, and_iff_right hdone]
    exact eq_comm
  | cons v l ih =>
    have hrest : ∀ w ∈ l, hosts w.id ≠ some h := fun w hw => hfresh w (List.mem_cons_of_mem v hw)
    rw [List.foldlM_cons, Option.bind_eq_bind, Option.bind_eq_some_iff]
    by_cases hv : f v = true
    · have hgrow : done ++ (v :: l).filter f = (done ++ [v]) ++ l.filter f := by
        rw [List.filter_cons_of_pos hv, List.append_assoc, List.singleton_append]
      rw [hgrow]
      constructor
      · intro ⟨r', hr', hrun⟩
        obtain ⟨hnew, rfl⟩ := (recordVar_eq_some_iff hv (hfresh v List.mem_cons_self)).mp hr'
        refine (ih ?_ hrest).mp hrun
        rw [List.map_append, List.nodup_append]
        refine ⟨hdone, List.nodup_singleton _, fun a ha b hb heq => ?_⟩
        apply hnew
        rw [← List.mem_singleton.mp hb, ← heq]
        exact ha
      · intro ⟨hnodup, hr⟩
        have hhead : ((done ++ [v]).map Var.id).Nodup := by
          rw [List.map_append] at hnodup
          exact hnodup.of_append_left
        refine ⟨_, (recordVar_eq_some_iff hv (hfresh v List.mem_cons_self)).mpr ⟨?_, rfl⟩,
          (ih hhead hrest).mpr ⟨hnodup, hr⟩⟩
        rw [List.map_append, List.nodup_append] at hhead
        exact fun hmem => hhead.2.2 _ hmem _ (List.mem_singleton.mpr rfl) rfl
    · have hskip : recordVar f h (recorded h hosts done) v = some (recorded h hosts done) := by rw [recordVar, if_neg hv]
      rw [List.filter_cons_of_neg hv, ← ih hdone hrest, hskip]
      simp

theorem restore_pairs {m : List (Nat × Option Host)} {now : Hosts} (hkeys : (m.map Prod.fst).Nodup)
    (hnow : ∀ p ∈ m, now p.1 = some h ∧ p.2 = hosts p.1) (hother : ∀ q, q ∉ m.map Prod.fst → now q = hosts q) :
    m.foldlM (fun hosts p => if hosts p.1 = some h then some (Function.update hosts p.1 p.2) else none) now = some hosts := by
  induction m generalizing now with
  | nil =>
    apply congrArg some
    funext q
    exact hother q List.not_mem_nil
  | cons p m ih =>
    obtain ⟨hhost, hold⟩ := hnow p List.mem_cons_self
    rw [List.map_cons, List.nodup_cons] at hkeys
    rw [List.foldlM_cons, if_pos hhost, Option.bind_eq_bind, Option.bind_some]
    refine ih hkeys.2 (fun q hq => ?_) fun q hq => ?_
    · have hne : q.1 ≠ p.1 := fun heq => hkeys.1 (heq ▸ List.mem_map_of_mem hq)
      rw [Function.update_of_ne hne]
      exact hnow q (List.mem_cons_of_mem p hq)
    · by_cases hqp : q = p.1
      · rw [hqp, Function.update_self, hold]
      · rw [Function.update_of_ne hqp]
        exact hother q (by simp [hqp, hq])

theorem restoreAll_recorded {done : List Var} (hdone : (done.map Var.id).Nodup) :
    (recorded h hosts done).restoreAll h = some hosts := by
  have hfst : (recorded h hosts done).map.map Prod.fst = (done.map Var.id).reverse := by
    rw [recorded, List.map_reverse, List.map_map]
    rfl
  apply restore_pairs
  · rw [hfst]
    exact List.nodup_reverse.mpr hdone
  · intro p hp
    obtain ⟨v, hv, rfl⟩ := List.mem_map.mp (List.mem_reverse.mp hp)
    exact ⟨if_pos (List.mem_map_of_mem hv), rfl⟩
  · intro q hq
    rw [hfst, List.mem_reverse] at hq
    exact if_neg hq

end HostRemoveRestore

/-! ### The call -/

namespace System

open HostRemoveRestore

variable {z3 : Z3} {u : System} (s : InitHosts u)

/-- The occurrences of shared variables in some conditions. -/
def sharedIn (u : System) (es : List Expr) : List Var := (es.flatMap occurrences).filter u.isSharedVar

theorem sharedIn_append (es fs : List Expr) : u.sharedIn (es ++ fs) = u.sharedIn es ++ u.sharedIn fs := by
  rw [sharedIn, List.flatMap_append, List.filter_append]
  rfl

theorem mem_initVars {e : Expr} (he : e ∈ u.sysInits) {v : Var} (hv : v ∈ occurrences e) : v ∈ u.initVars :=
  List.mem_flatMap.mpr ⟨e, he, hv⟩

theorem sharedIn_subset {es : List Expr} (hes : ∀ e ∈ es, e ∈ u.sysInits) {v : Var} (hv : v ∈ u.sharedIn es) :
    v ∈ u.initVars ∧ u.isSharedVar v = true := by
  obtain ⟨hmem, hshared⟩ := List.mem_filter.mp hv
  obtain ⟨e, he, hve⟩ := List.mem_flatMap.mp hmem
  exact ⟨mem_initVars (hes e he) hve, hshared⟩

theorem withHosts_recorded {done : List Var} (hdone : ∀ v ∈ done, v ∈ u.initVars ∧ u.isSharedVar v = true) {e : Expr}
    (he : e ∈ u.sysInits) (hrec : ∀ v ∈ occurrences e, u.isSharedVar v = true → v ∈ done) :
    withHosts (recorded s.global s.hosts done).hosts e = u.globalized s.hosts e := by
  rw [withHosts, globalized, Expr.subst_eq_iff]
  intro v hv
  have hocc := mem_occurrences.mpr hv
  have hhost : ((recorded s.global s.hosts done).hosts v.id).map Host.name =
      if u.isSharedVar v then some globalName else (s.hosts v.id).map Host.name := by
    by_cases hshared : u.isSharedVar v = true
    · have hin : v.id ∈ done.map Var.id := List.mem_map_of_mem (hrec v hocc hshared)
      rw [recorded_hosts, if_pos hin, if_pos hshared, Option.map_some, s.global_name]
    · have hout : v.id ∉ done.map Var.id := by
        intro hin
        obtain ⟨w, hw, heq⟩ := List.mem_map.mp hin
        have hsame := s.object w (hdone w hw).1 v (mem_initVars he hocc) heq
        exact hshared (hsame ▸ (hdone w hw).2)
      rw [recorded_hosts, if_neg hout, if_neg hshared]
  rw [hhost]

/-- The constraints that the conditions of some cores are translated to. -/
def terms (z3 : Z3) (es : List Expr) : List Term := es.map fun e => getExpr z3 "0" (u.globalized s.hosts e)

theorem convInits_cons (global : Host) (e : Expr) (es : List Expr) (t : HostRemoveRestore × List Term) :
    u.convInits z3 global (e :: es) t =
      ((recordAndReplaceIf u.isSharedVar global e t.1).map fun r =>
        (r, t.2 ++ [getExpr z3 "0" (withHosts r.hosts e)])).bind (u.convInits z3 global es) := by
  rw [convInits, List.foldlM_cons]
  rfl

theorem convInits_eq_some_iff {es before : List Expr} (hes : ∀ e ∈ before ++ es, e ∈ u.sysInits)
    (hdone : ((u.sharedIn before).map Var.id).Nodup) {vec : List Term} {r : HostRemoveRestore × List Term} :
    u.convInits z3 s.global es (recorded s.global s.hosts (u.sharedIn before), vec) = some r ↔
      ((u.sharedIn (before ++ es)).map Var.id).Nodup ∧
        r = (recorded s.global s.hosts (u.sharedIn (before ++ es)), vec ++ terms s z3 es) := by
  induction es generalizing before vec with
  | nil =>
    rw [convInits, List.foldlM_nil, List.append_nil, Option.pure_def, Option.some.injEq, and_iff_right hdone, terms,
      List.map_nil, List.append_nil]
    exact eq_comm
  | cons e es ih =>
    have hsplit : before ++ e :: es = (before ++ [e]) ++ es := by rw [List.append_assoc, List.singleton_append]
    have hesplit := hes
    rw [hsplit] at hesplit
    have he : e ∈ u.sysInits := hes e (List.mem_append_right _ List.mem_cons_self)
    have hbefore : u.sharedIn before ++ (occurrences e).filter u.isSharedVar = u.sharedIn (before ++ [e]) := by
      rw [sharedIn_append]
      simp [sharedIn]
    have hrecord := fun r => foldlM_recordVar_eq_some_iff (f := u.isSharedVar) (r := r) hdone
      fun v hv => s.fresh v (mem_initVars he hv)
    have hread : withHosts (recorded s.global s.hosts (u.sharedIn (before ++ [e]))).hosts e = u.globalized s.hosts e := by
      apply withHosts_recorded s (fun v hv => sharedIn_subset (fun d hd => hesplit d (List.mem_append_left _ hd)) hv) he
      intro v hv hshared
      rw [sharedIn_append]
      apply List.mem_append_right
      exact List.mem_filter.mpr ⟨List.mem_flatMap.mpr ⟨e, List.mem_singleton_self e, hv⟩, hshared⟩
    have htail : ∀ {vec : List Term}, ((u.sharedIn (before ++ [e])).map Var.id).Nodup →
        (u.convInits z3 s.global es (recorded s.global s.hosts (u.sharedIn (before ++ [e])), vec) = some r ↔
          ((u.sharedIn (before ++ [e] ++ es)).map Var.id).Nodup ∧
            r = (recorded s.global s.hosts (u.sharedIn (before ++ [e] ++ es)), vec ++ terms s z3 es)) :=
      fun hnodup => ih hesplit hnodup
    have hterms : vec ++ terms s z3 (e :: es) =
        vec ++ [getExpr z3 "0" (withHosts (recorded s.global s.hosts (u.sharedIn (before ++ [e]))).hosts e)] ++
          terms s z3 es := by
      rw [hread, List.append_assoc, List.singleton_append]
      rfl
    rw [convInits_cons, Option.bind_eq_some_iff, hsplit, hterms]
    constructor
    · intro ⟨t, ht, hrun⟩
      obtain ⟨r', hr', rfl⟩ := Option.map_eq_some_iff.mp ht
      rw [recordAndReplaceIf_eq, hrecord, hbefore] at hr'
      obtain ⟨hnodup, rfl⟩ := hr'
      exact (htail hnodup).mp hrun
    · intro ⟨hnodup, hr⟩
      have hhead : ((u.sharedIn (before ++ [e])).map Var.id).Nodup := by
        rw [sharedIn_append, List.map_append] at hnodup
        exact hnodup.of_append_left
      refine ⟨_, Option.map_eq_some_iff.mpr ⟨_, ?_, rfl⟩, (htail hhead).mpr ⟨hnodup, hr⟩⟩
      rw [recordAndReplaceIf_eq, hrecord, hbefore]
      exact ⟨hhead, rfl⟩

theorem convCores_cons (global : Host) (d : IlaData) (ds : List IlaData) (t : HostRemoveRestore × List Term × List Term) :
    u.convCores z3 global (d :: ds) t =
      ((u.convInits z3 global d.inits (t.1, t.2.1)).map fun r =>
        (r.1, r.2, t.2.2 ++ [conjPred z3 r.2])).bind (u.convCores z3 global ds) := by
  rw [convCores, List.foldlM_cons]
  rfl

theorem convCores_eq_some_iff {ds : List IlaData} {before : List Expr}
    (hes : ∀ e ∈ before ++ ds.flatMap IlaData.inits, e ∈ u.sysInits) (hdone : ((u.sharedIn before).map Var.id).Nodup)
    {cstr : List Term} (hcstr : ∀ M : Model, (∀ c ∈ cstr, M.Sat c) ↔ ∀ t ∈ terms s z3 before, M.Sat t) :
    (∀ r, u.convCores z3 s.global ds (recorded s.global s.hosts (u.sharedIn before), terms s z3 before, cstr) = some r →
      ((u.sharedIn (before ++ ds.flatMap IlaData.inits)).map Var.id).Nodup ∧
        r.1 = recorded s.global s.hosts (u.sharedIn (before ++ ds.flatMap IlaData.inits)) ∧
        ∀ M : Model, (∀ c ∈ r.2.2, M.Sat c) ↔ ∀ t ∈ terms s z3 (before ++ ds.flatMap IlaData.inits), M.Sat t) ∧
    (((u.sharedIn (before ++ ds.flatMap IlaData.inits)).map Var.id).Nodup →
      ∃ r, u.convCores z3 s.global ds (recorded s.global s.hosts (u.sharedIn before), terms s z3 before, cstr) = some r) := by
  induction ds generalizing before cstr with
  | nil =>
    rw [List.flatMap_nil, List.append_nil]
    refine ⟨fun r hr => ?_, fun _ => ⟨_, rfl⟩⟩
    cases hr
    exact ⟨hdone, rfl, hcstr⟩
  | cons d ds ih =>
    rw [List.flatMap_cons, ← List.append_assoc] at hes ⊢
    have hcore : ∀ t,
        u.convInits z3 s.global d.inits (recorded s.global s.hosts (u.sharedIn before), terms s z3 before) = some t ↔
        ((u.sharedIn (before ++ d.inits)).map Var.id).Nodup ∧
          t = (recorded s.global s.hosts (u.sharedIn (before ++ d.inits)), terms s z3 (before ++ d.inits)) := by
      intro t
      rw [convInits_eq_some_iff s (fun e he => hes e (List.mem_append_left _ he)) hdone, terms, terms, terms, List.map_append]
    have hnext : ∀ M : Model, (∀ c ∈ cstr ++ [conjPred z3 (terms s z3 (before ++ d.inits))], M.Sat c) ↔
        ∀ t ∈ terms s z3 (before ++ d.inits), M.Sat t := by
      intro M
      rw [List.forall_mem_append, List.forall_mem_singleton, sat_conjPred, hcstr, and_iff_right_iff_imp]
      intro hall t ht
      rw [terms, List.map_append] at hall
      exact hall t (List.mem_append_left _ ht)
    constructor
    · intro r hr
      rw [convCores_cons, Option.bind_eq_some_iff] at hr
      obtain ⟨t, ht, hrun⟩ := hr
      obtain ⟨t', ht', rfl⟩ := Option.map_eq_some_iff.mp ht
      obtain ⟨hnodup, rfl⟩ := (hcore t').mp ht'
      exact (ih hes hnodup hnext).1 r hrun
    · intro hnodup
      have hhead : ((u.sharedIn (before ++ d.inits)).map Var.id).Nodup := by
        rw [sharedIn_append, List.map_append] at hnodup
        exact hnodup.of_append_left
      obtain ⟨r, hr⟩ := (ih hes hhead hnext).2 hnodup
      refine ⟨r, ?_⟩
      rw [convCores_cons, (hcore _).mpr ⟨hhead, rfl⟩]
      exact hr

/-- The call is right exactly when every shared variable occurs at most once in all the initial conditions. -/
theorem initsLinked_iff (z3 : Z3) (u : System) (s : InitHosts u) :
    u.InitsLinked z3 s ↔ ((u.initVars.filter u.isSharedVar).map Var.id).Nodup := by
  change _ ↔ ((u.sharedIn (u.ilas.flatMap IlaData.inits)).map Var.id).Nodup
  obtain ⟨honly, hruns⟩ := @convCores_eq_some_iff z3 u s u.ilas [] (fun e he => he) List.nodup_nil [] fun M => Iff.rfl
  change _ → ∃ r, u.convCores z3 s.global u.ilas (recorded s.global s.hosts [], [], []) = some r at hruns
  change ∀ r, u.convCores z3 s.global u.ilas (recorded s.global s.hosts [], [], []) = some r → _ at honly
  rw [recorded_nil, List.nil_append] at hruns honly
  constructor
  · intro ⟨cstr, hgen, _⟩
    rw [genSysInitConstraints, Option.bind_eq_some_iff] at hgen
    obtain ⟨r, hr, -⟩ := hgen
    exact (honly r hr).1
  · intro hnodup
    obtain ⟨r, hr⟩ := hruns hnodup
    obtain ⟨-, hrec, hsat⟩ := honly r hr
    refine ⟨r.2.2, ?_, fun M => ?_⟩
    · rw [genSysInitConstraints, hr, Option.bind_some, hrec, restoreAll_recorded hnodup]
      rfl
    · rw [hsat, sat_conjPred]
      rfl

section Lock

/-- A lock that two cores share. -/
def lockVar (core : Nat) : Var := ⟨core, "lock", some (if core = 0 then "c0" else "c1"), .bool⟩

/-- The initial condition of the first core is that the lock is open or closed. -/
def lockInit : Expr := .op .or [.op .not [.var (lockVar 0)], .var (lockVar 0)]

def lockSystem : System where
  ilas :=
    [{ IlaData.new 0 "c0" with states := [lockVar 0], inits := [lockInit] },
      { IlaData.new 1 "c1" with states := [lockVar 1] }]
  tmpl := [[], []]
  ordered := [true, true]
  property := .const (.bool true)

theorem lockSystem_initVars : lockSystem.initVars = [lockVar 0, lockVar 0] := rfl

def lockHosts : InitHosts lockSystem where
  hosts p := some (if p = 0 then ⟨0, "c0"⟩ else ⟨1, "c1"⟩)
  global := ⟨2, globalName⟩
  global_name := rfl
  fresh v hv := by
    rw [lockSystem_initVars] at hv
    simp_all [lockVar]
  object v hv w hw _ := by
    rw [lockSystem_initVars] at hv hw
    simp_all

/-- The lock occurs twice in the condition, and at the second time it has the new host already. -/
theorem lockSystem_not_linked : ¬ lockSystem.InitsLinked default lockHosts := by
  intro ⟨cstr, hgen, _⟩
  have hnone : lockSystem.genSysInitConstraints default lockHosts.global lockHosts.hosts = none := rfl
  rw [hnone] at hgen
  cases hgen

end Lock

end System

end Mcm

end Ilang
