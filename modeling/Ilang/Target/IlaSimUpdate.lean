import Ilang.Target.IlaSimText
import Ilang.Target.IlatorMemory

/-!
# What the update functions of the older simulator compute
-/

namespace Ilang

open Smt

namespace IlaSim

/-! ### Applications and their members -/

/-- The applications in an expression, by their members. -/
def apps (n : Node) : Set Nat := {p | ∃ h args, Node.app p h args ∈ n.subs}

theorem mem_apps_app {p q : Nat} {h : Head} {args : List Node} :
    q ∈ apps (.app p h args) ↔ q = p ∨ ∃ a ∈ args, q ∈ apps a := by
  constructor
  · rintro ⟨h', args', hmem⟩
    rcases Node.mem_subs_app.mp hmem with heq | ⟨a, ha, hsub⟩
    · exact .inl (Node.app.inj heq).1
    · exact .inr ⟨a, ha, h', args', hsub⟩
  · rintro (rfl | ⟨a, ha, h', args', hsub⟩)
    · exact ⟨h, args, Node.mem_subs_self _⟩
    · exact ⟨h', args', Node.mem_subs_of_arg ha hsub⟩

theorem self_mem_apps {p : Nat} {h : Head} {args : List Node} : p ∈ apps (.app p h args) := mem_apps_app.mpr (.inl rfl)

theorem mem_apps_of_arg {p q : Nat} {h : Head} {args : List Node} {a : Node} (ha : a ∈ args) (hq : q ∈ apps a) :
    q ∈ apps (.app p h args) := mem_apps_app.mpr (.inr ⟨a, ha, hq⟩)

/-- Every application in an expression is assigned to a member, so that there is no update of a memory in it. -/
def HasTemps (n : Node) : Prop := ∀ p h args, .app p h args ∈ n.subs → ∃ r, dfsKernel (.app p h args) = some (.inr r)

theorem HasTemps.arg {p : Nat} {h : Head} {args : List Node} (hn : HasTemps (.app p h args)) {a : Node} (ha : a ∈ args) :
    HasTemps a := fun q h' args' hsub => hn q h' args' (Node.mem_subs_of_arg ha hsub)

section Values

variable {ν : Valuation} (σ : Ilator.Maps ν)

/-- An expression is safe whatever has been read before. -/
def AlwaysSafe (n : Node) : Prop := ∀ τ, Safe σ τ n

/-- What stands for the nodes of an expression is the same whatever has been read before, and for the expression there is a value. -/
def Denotes (n : Node) (u : ScVal) : Prop :=
  (∀ m ∈ n.subs, ∀ τ τ', (meaning σ τ).denote gen m = (meaning σ τ').denote gen m) ∧ ∀ τ, (meaning σ τ).denote gen n = some (some u)

/-- The member of an application has been assigned its value. -/
def Known (heap : Nat → Node) (temps : Members) (p : Nat) : Prop := ∃ u, Denotes σ (heap p) u ∧ temps.temps p = some u

variable {σ} {heap : Nat → Node} {temps temps' : Members}

theorem name_of_app {p : Nat} {h : Head} {args : List Node} {r : Name} (hpl : dfsKernel (.app p h args) = some (.inl r)) :
    r = .undeclared := by
  cases h with
  | op o =>
    unfold dfsKernel dfsOp dfsUnaryOp dfsBinaryOpBoolOut dfsBinaryOpNonMem dfsBinaryOpMem dfsIteOp checked at hpl
    grind
  | appFunc f =>
    unfold dfsKernel dfsFuncOp checked at hpl
    grind

theorem Denotes.app {p : Nat} {h : Head} {args : List Node} {u : ScVal} (hden : Denotes σ (.app p h args) u) :
    ∃ us r, List.Forall₂ (Denotes σ) args us ∧ dfsKernel (.app p h args) = some (.inr r) ∧
      ∀ reads, stmt ν r (us.map (ScVal.after reads)) = some u := by
  obtain ⟨hsame, hval⟩ := hden
  have hdenote := hval fun _ => []
  rw [Meaning.denote_eq, Option.bind_eq_some_iff] at hdenote
  obtain ⟨rs, hrs, hplan⟩ := hdenote
  obtain ⟨pl, hpl, hstmt⟩ := Option.map_eq_some_iff.mp hplan
  obtain ⟨k, hk, rfl⟩ := Option.map_eq_some_iff.mp hpl
  cases k with
  | inl r =>
    obtain rfl := name_of_app hk
    cases hstmt
  | inr r =>
    obtain ⟨us, hus, -⟩ := Option.bind_eq_some_iff.mp hstmt
    obtain rfl := MapM.id_eq_some_iff.mp hus
    have hargs := MapM.eq_some_iff.mp hrs
    have hsub {a : Node} (ha : a ∈ args) {m : Node} (hm : m ∈ a.subs) : m ∈ (Node.app p h args).subs := Node.mem_subs_of_arg ha hm
    refine ⟨us, r, ?_, hk, fun reads => ?_⟩
    · refine Pointwise.imp_of_mem (fun a ha x hx => ?_) (List.forall₂_map_right_iff.mp hargs)
      refine ⟨fun m hm => hsame m (hsub ha hm), fun τ => ?_⟩
      rw [hsame a (hsub ha a.mem_subs_self) τ fun _ => []]
      exact hx
    · have hread : args.mapM ((meaning σ fun _ => reads).denote gen) = some (us.map some) := by
        refine MapM.eq_some_iff.mpr (Pointwise.imp_of_mem (fun a ha x hx => ?_) hargs)
        exact (hsame a (hsub ha a.mem_subs_self) _ _).trans hx
      have hvalue := hval fun _ => reads
      rw [Meaning.denote_eq, Node.args, hread, Option.bind_some, plan_eq_inr hk, Option.map_some, Option.some.injEq] at hvalue
      change (((us.map some).mapM id).bind fun us => stmt ν r (us.map (ScVal.after reads))) = some u at hvalue
      rw [MapM.id_map_some_self, Option.bind_some] at hvalue
      exact hvalue

theorem Denotes.arg {p : Nat} {h : Head} {args : List Node} {u : ScVal} (hden : Denotes σ (.app p h args) u) {a : Node} (ha : a ∈ args) :
    ∃ x, Denotes σ a x := by
  obtain ⟨us, -, hus, -, -⟩ := hden.app
  obtain ⟨x, -, hx⟩ := Pointwise.exists_right hus ha
  exact ⟨x, hx⟩

theorem Denotes.inj {n : Node} {u u' : ScVal} (h : Denotes σ n u) (h' : Denotes σ n u') : u = u' :=
  Option.some.inj (Option.some.inj ((h.2 fun _ => []).symm.trans (h'.2 fun _ => [])))

theorem value_getArgStr {n : Node} {u : ScVal} (hheap : n.InHeap heap) (hden : Denotes σ n u)
    (hknown : ∀ p ∈ apps n, Known σ heap temps p) : (getArgStr n).value σ temps = some u := by
  cases n with
  | leaf p l =>
    cases l with
    | var v => exact Option.some.inj (hden.2 fun _ => [])
    | const c => exact Option.some.inj (hden.2 fun _ => [])
  | app p h args =>
    obtain ⟨u', hu', htemp⟩ := hknown p self_mem_apps
    have hself : heap p = .app p h args := hheap _ (Node.mem_subs_self _)
    rw [hself] at hu'
    obtain rfl := hden.inj hu'
    exact htemp

theorem mapM_getArgStr {args : List Node} {us : List ScVal} (hheap : ∀ a ∈ args, a.InHeap heap)
    (hden : List.Forall₂ (Denotes σ) args us) (hknown : ∀ a ∈ args, ∀ p ∈ apps a, Known σ heap temps p) :
    (args.map getArgStr).mapM (Arg.value σ temps) = some us := by
  rw [MapM.eq_some_iff, List.forall₂_map_left_iff]
  induction hden with
  | nil => exact .nil
  | cons ha _ ih =>
    rw [List.forall_mem_cons] at hheap hknown
    exact .cons (value_getArgStr hheap.1 ha hknown.1) (ih hheap.2 hknown.2)

/-- Members only gain their values. -/
def Grows (σ : Ilator.Maps ν) (heap : Nat → Node) (temps temps' : Members) : Prop :=
  ∀ p, Known σ heap temps p → Known σ heap temps' p

theorem known_write {p : Nat} {u : ScVal} {reads : List Ilator.Read} (hu : Denotes σ (heap p) u) :
    Known σ heap (temps.write p u reads) p ∧ Grows σ heap temps (temps.write p u reads) := by
  have hself : Known σ heap (temps.write p u reads) p := ⟨u, hu, Function.update_self ..⟩
  refine ⟨hself, fun q hq => ?_⟩
  by_cases heq : q = p
  · rw [heq]
    exact hself
  · obtain ⟨v, hv, htemp⟩ := hq
    exact ⟨v, hv, (Function.update_of_ne heq ..).trans htemp⟩

/-! ### Statements -/

theorem execLines_append (call : Nat → Env → Option Env) (lines lines' : List Line) (env : Env) :
    execLines σ call (lines ++ lines') env = (execLines σ call lines env).bind (execLines σ call lines') := List.foldlM_append

theorem execLines_singleton (call : Nat → Env → Option Env) (line : Line) (env : Env) :
    execLines σ call [line] env = execLine σ call env line := bind_pure (execLine σ call env line)

/-- Lines compute some expressions: where these have values, the members of the applications in them are known afterwards. What was
searched before has to be known. -/
def Computes (σ : Ilator.Maps ν) (heap : Nat → Node) (searched : Finset Nat) (ns : List Node) (lines : List Line) : Prop :=
  (∀ n ∈ ns, ∃ u, Denotes σ n u) → ∀ call temps m, (∀ n ∈ ns, ∀ p ∈ apps n, p ∈ searched → Known σ heap temps p) →
    ∃ temps', execLines σ call lines ⟨temps, m⟩ = some ⟨temps', m⟩ ∧ Grows σ heap temps temps' ∧
      ∀ n ∈ ns, ∀ p ∈ apps n, Known σ heap temps' p

/-- What a visit of expressions without updates of memories does to the text. -/
structure Wrote (σ : Ilator.Maps ν) (heap : Nat → Node) (ns : List Node) (t t' : Text) : Prop where
  storeIte : t'.storeIteSet = t.storeIteSet
  searched : ∀ p, p ∈ t'.searchedIdSet ↔ p ∈ t.searchedIdSet ∨ ∃ n ∈ ns, p ∈ apps n
  lines : ∃ lines, t'.lines = t.lines ++ lines ∧ Computes σ heap t.searchedIdSet ns lines

variable {t t' t₁ : Text} {ns ns' : List Node}

theorem Wrote.nil : Wrote σ heap [] t t where
  storeIte := rfl
  searched := by simp
  lines := ⟨[], (List.append_nil _).symm, fun _ call temps m _ => ⟨temps, rfl, fun _ hp => hp, by simp⟩⟩

theorem Wrote.append (h : Wrote σ heap ns t t₁) (h' : Wrote σ heap ns' t₁ t') : Wrote σ heap (ns ++ ns') t t' where
  storeIte := h'.storeIte.trans h.storeIte
  searched p := by rw [h'.searched, h.searched, or_assoc, ← exists_or]; simp only [List.mem_append, or_and_right]
  lines := by
    obtain ⟨l, hl, hcomp⟩ := h.lines
    obtain ⟨l', hl', hcomp'⟩ := h'.lines
    refine ⟨l ++ l', by rw [hl', hl, List.append_assoc], fun hden call temps m hpre => ?_⟩
    rw [List.forall_mem_append] at hden hpre
    obtain ⟨temps₁, hrun, hgrows, hknown⟩ := hcomp hden.1 call temps m hpre.1
    -- What is searched now was searched before, or is among the first expressions.
    have hpre' : ∀ n ∈ ns', ∀ p ∈ apps n, p ∈ t₁.searchedIdSet → Known σ heap temps₁ p := by
      intro n hn p hp hsearched
      rcases (h.searched p).mp hsearched with hold | ⟨k, hk, hpk⟩
      · exact hgrows p (hpre.2 n hn p hp hold)
      · exact hknown k hk p hpk
    obtain ⟨temps₂, hrun', hgrows', hknown'⟩ := hcomp' hden.2 call temps₁ m hpre'
    refine ⟨temps₂, by rw [execLines_append, hrun, Option.bind_some, hrun'], fun p hp => hgrows' p (hgrows p hp), ?_⟩
    rw [List.forall_mem_append]
    exact ⟨fun n hn p hp => hgrows' p (hknown n hn p hp), hknown'⟩

theorem execLine_assign {p : Nat} {h : Head} {args : List Node} {r : Rhs} {u : ScVal} (hheap : (Node.app p h args).InHeap heap)
    (hplan : dfsKernel (.app p h args) = some (.inr r)) (hden : Denotes σ (.app p h args) u)
    (hknown : ∀ a ∈ args, ∀ q ∈ apps a, Known σ heap temps q) (call : Nat → Env → Option Env) (m : Option (OrdMap Int Int)) :
    ∃ reads, execLine σ call ⟨temps, m⟩ (.assign p r (args.map getArgStr)) = some ⟨temps.write p u reads, m⟩ := by
  obtain ⟨us, r', hus, hplan', hstmt⟩ := hden.app
  obtain rfl : r = r' := Sum.inr.inj (Option.some.inj (hplan.symm.trans hplan'))
  refine ⟨readsOf r us, ?_⟩
  rw [execLine, mapM_getArgStr (fun a ha => hheap.arg ha) hus hknown, Option.bind_some, hstmt]
  rfl

theorem Wrote.app {p : Nat} {h : Head} {args : List Node} {r : Rhs} (hheap : (Node.app p h args).InHeap heap)
    (hplan : dfsKernel (.app p h args) = some (.inr r)) (hargs : Wrote σ heap args t t₁)
    (hself : Text.dfsKernel (.app p h args) t₁ = some t') : Wrote σ heap [.app p h args] t t' := by
  obtain ⟨l, hl, hcomp⟩ := hargs.lines
  have hrun_args : ∀ u, Denotes σ (.app p h args) u → ∀ call temps m,
      (∀ q ∈ apps (.app p h args), q ∈ t.searchedIdSet → Known σ heap temps q) →
      ∃ temps', execLines σ call l ⟨temps, m⟩ = some ⟨temps', m⟩ ∧ Grows σ heap temps temps' ∧
        ∀ a ∈ args, ∀ q ∈ apps a, Known σ heap temps' q := fun u hu call temps m hpre =>
    hcomp (fun a ha => hu.arg ha) call temps m fun a ha q hq => hpre q (mem_apps_of_arg ha hq)
  rw [Text.dfsKernel, hplan] at hself
  split_ifs at hself with hsearched
  · obtain rfl := Option.some.inj hself
    refine ⟨hargs.storeIte, fun q => ?_, l, hl, fun hden call temps m hpre => ?_⟩
    · rw [hargs.searched]
      simp only [List.mem_singleton, exists_eq_left, mem_apps_app]
      constructor
      · rintro (hold | harg)
        · exact .inl hold
        · exact .inr (.inr harg)
      · rintro (hold | rfl | harg)
        · exact .inl hold
        · exact (hargs.searched q).mp hsearched
        · exact .inr harg
    · simp only [List.forall_mem_singleton] at hden hpre ⊢
      obtain ⟨u, hu⟩ := hden
      obtain ⟨temps', hrun, hgrows, hknown⟩ := hrun_args u hu call temps m hpre
      refine ⟨temps', hrun, hgrows, fun q hq => ?_⟩
      rcases mem_apps_app.mp hq with rfl | ⟨a, ha, hqa⟩
      · rcases (hargs.searched q).mp hsearched with hold | ⟨a, ha, hqa⟩
        · exact hgrows q (hpre q hq hold)
        · exact hknown a ha q hqa
      · exact hknown a ha q hqa
  · obtain rfl := Option.some.inj hself
    refine ⟨hargs.storeIte, fun q => ?_, l ++ [.assign p r (args.map getArgStr)], ?_, fun hden call temps m hpre => ?_⟩
    · change q ∈ insert p t₁.searchedIdSet ↔ _
      rw [Finset.mem_insert, hargs.searched]
      simp only [List.mem_singleton, exists_eq_left, mem_apps_app]
      exact or_left_comm
    · change t₁.lines ++ _ = _
      rw [hl, List.append_assoc]
    · simp only [List.forall_mem_singleton] at hden hpre ⊢
      obtain ⟨u, hu⟩ := hden
      obtain ⟨temps', hrun, hgrows, hknown⟩ := hrun_args u hu call temps m hpre
      have hself : heap p = .app p h args := hheap _ (Node.mem_subs_self _)
      have hdenotes : Denotes σ (heap p) u := by
        rw [hself]
        exact hu
      obtain ⟨reads, hline⟩ := execLine_assign hheap hplan hu hknown call m
      obtain ⟨hnew, hgrows'⟩ : Known σ heap (temps'.write p u reads) p ∧ Grows σ heap temps' (temps'.write p u reads) :=
        known_write hdenotes
      refine ⟨temps'.write p u reads, ?_, fun q hq => hgrows' q (hgrows q hq), fun q hq => ?_⟩
      · rw [execLines_append, hrun, Option.bind_some, execLines_singleton, hline]
      · rcases mem_apps_app.mp hq with rfl | ⟨a, ha, hqa⟩
        · exact hnew
        · exact hgrows' q (hknown a ha q hqa)

end Values

/-! ### Updates of memories -/

/-- Stores and choices over variables and constants, with no update of a memory in their other arguments. -/
inductive MemUpdate : Node → Prop
  | leaf (p : Nat) (l : Leaf) : MemUpdate (.leaf p l)
  | store (p : Nat) {m addr data : Node} : MemUpdate m → HasTemps addr → HasTemps data →
    MemUpdate (.app p (.op .store) [m, addr, data])
  | ite (p : Nat) {c t e : Node} : HasTemps c → MemUpdate t → MemUpdate e → MemUpdate (.app p (.op .ite) [c, t, e])

/-- The choice to which a chain of stores is applied. -/
def choice : Node → Option Node
  | .app _ (.op .store) (m :: _) => choice m
  | .app p (.op .ite) args => some (.app p (.op .ite) args)
  | _ => none

/-- The applications in the choice below a chain of stores. -/
def below (n : Node) : Set Nat := {q | ∃ x ∈ choice n, q ∈ apps x}

/-- The applications in its arguments. -/
def inner (n : Node) : Set Nat := {q | ∃ x ∈ choice n, ∃ y ∈ x.args, q ∈ apps y}

section Chains

variable {heap : Nat → Node} {n x : Node}

end Chains

/-! ### The lines of a chain of stores -/

/-- An expression of a sort in the heap, as it is constructed. -/
structure Wf (heap : Nat → Node) (n : Node) (s : Srt) : Prop where
  heap : n.InHeap heap
  check : n.expr.check = some s
  pos : n.Positive
  fit : ConstsFit n

theorem Wf.arg {heap : Nat → Node} {p : Nat} {hd : Head} {args : List Node} {m : Node} {s s' : Srt} (h : Wf heap (.app p hd args) s)
    (hm : m ∈ args) (hcheck : m.expr.check = some s') : Wf heap m s' :=
  ⟨h.heap.arg hm, hcheck, h.pos.sub (Node.arg_mem_subs hm), h.fit.sub (Node.arg_mem_subs hm)⟩

theorem Wf.store {heap : Nat → Node} {p a d : Nat} {m addr data : Node} (h : Wf heap (.app p (.op .store) [m, addr, data]) (.mem a d)) :
    Wf heap m (.mem a d) ∧ Wf heap addr (.bv a) ∧ Wf heap data (.bv d) := by
  obtain ⟨hm, haddr, hdata⟩ := Expr.check_store h.check
  exact ⟨h.arg (by simp) hm, h.arg (by simp) haddr, h.arg (by simp) hdata⟩

theorem Wf.ite {heap : Nat → Node} {p : Nat} {c t e : Node} {s : Srt} (h : Wf heap (.app p (.op .ite) [c, t, e]) s) :
    Wf heap c .bool ∧ Wf heap t s ∧ Wf heap e s := by
  obtain ⟨hc, ht, he⟩ := Expr.check_ite h.check
  exact ⟨h.arg (by simp) hc, h.arg (by simp) ht, h.arg (by simp) he⟩

section Memory

variable {ν : Valuation} (σ : Ilator.Maps ν) {heap : Nat → Node} {a d : Nat}

/-- An address or a datum fits a non-negative `int`. -/
def Fits (ν : Valuation) (n : Node) : Prop := ∀ w x, n.expr.eval ν = some (.bv w x) → x.toNat < 2 ^ 31

/-- On the way down an update, the applications are safe, and what is stored fits. -/
def SafeMem : Node → Prop
  | .app _ (.op .store) [m, addr, data] => SafeMem m ∧ (AlwaysSafe σ addr ∧ Fits ν addr) ∧ AlwaysSafe σ data ∧ Fits ν data
  | .app _ (.op .ite) [c, t, e] => AlwaysSafe σ c ∧ if Value.isTrue (c.expr.eval ν) then SafeMem t else SafeMem e
  | _ => True

variable {σ} {n : Node} {t t' : Text}

end Memory

end IlaSim

end Ilang
