import Ilang.Target.Emit

/-!
# Straight-line code with effects

A statement can leave something behind that the statements after it see, as a read of a map does that makes an entry. What is left
behind is kept in a log. When the log that each statement finds is known beforehand the statements have a meaning of their own, and the
code is straight-line code again: both runs have the same locals as long as every statement leaves behind what it is expected to.
-/

namespace Ilang

variable {R S V E : Type}

/-- What the names mean, what a statement computes under a log, and what it adds to the log. -/
structure Effects (R S V E : Type) where
  name : R → V
  stmt : List E → S → List V → V
  effect : S → List V → List E

namespace Effects

variable (M : Effects R S V E)

/-- The meaning of the statements when the log before each of them is given. -/
def under (τ : S → List E) : Meaning R S V := ⟨M.name, fun s => M.stmt (τ s) s⟩

def value (env : List V) : Ref R → Option V := Ref.value (M.under fun _ => []) env

/-- One statement adds the value of one local, and what it leaves behind. -/
def step (st : List V × List E) (s : Stmt R S) : Option (List V × List E) :=
  (s.args.mapM (M.value st.1)).map fun vs => (st.1 ++ [M.stmt st.2 s.head vs], st.2 ++ M.effect s.head vs)

def run (past : List E) (code : List (Stmt R S)) : Option (List V × List E) := code.foldlM M.step ([], past)

/-- The value of the name that a buffer has for a node, after its code. -/
def read (past : List E) (b : Buffer R S) (n : Node) : Option V :=
  (M.run past b.code).bind fun st => (b.lut n.ptr).bind (M.value st.1)

variable {M} {τ : S → List E} {past : List E} {e : S → List E} {code : List (Stmt R S)} {env : List V} {log : List E}

theorem value_under : Ref.value (M.under τ) env = M.value env := by
  funext r
  cases r with
  | name x => rfl
  | loc i => rfl

theorem mapM_value_append {rs : List (Ref R)} {vs : List V} (h : rs.mapM (M.value env) = some vs) (tail : List V) :
    rs.mapM (M.value (env ++ tail)) = some vs := by
  rw [MapM.eq_some_iff] at h ⊢
  exact h.imp fun _ _ hr => Ref.value_append hr tail

/-- Each statement finds what the statements before it are expected to leave behind. -/
def Follows (past : List E) (e : S → List E) (τ : S → List E) (code : List (Stmt R S)) : Prop :=
  ∀ l s l', code = l ++ s :: l' → τ s.head = past ++ l.flatMap fun t => e t.head

theorem Follows.prefix {l l' : List (Stmt R S)} (h : Follows past e τ (l ++ l')) : Follows past e τ l := by
  intro a s a' heq
  refine h a s (a' ++ l') ?_
  rw [heq, List.append_assoc, List.cons_append]

theorem run_append (l l' : List (Stmt R S)) : M.run past (l ++ l') = (M.run past l).bind fun st => l'.foldlM M.step st :=
  List.foldlM_append

theorem run_concat_eq_some {s : Stmt R S} : M.run past (code ++ [s]) = some (env, log) ↔
    ∃ env₀ log₀ vs, M.run past code = some (env₀, log₀) ∧ s.args.mapM (M.value env₀) = some vs ∧
      env = env₀ ++ [M.stmt log₀ s.head vs] ∧ log = log₀ ++ M.effect s.head vs := by
  simp only [run_append, List.foldlM_cons, List.foldlM_nil, bind_pure, Option.bind_eq_some_iff, step, Option.map_eq_some_iff,
    Prod.mk.injEq, Prod.exists]
  constructor
  · rintro ⟨env₀, log₀, hrun, vs, hvs, rfl, rfl⟩
    exact ⟨env₀, log₀, vs, hrun, hvs, rfl, rfl⟩
  · rintro ⟨env₀, log₀, vs, hrun, hvs, rfl, rfl⟩
    exact ⟨env₀, log₀, hrun, vs, hvs, rfl, rfl⟩

theorem exec_concat_eq_some {s : Stmt R S} : (M.under τ).exec (code ++ [s]) = some env ↔
    ∃ env₀ vs, (M.under τ).exec code = some env₀ ∧ s.args.mapM (M.value env₀) = some vs ∧
      env = env₀ ++ [M.stmt (τ s.head) s.head vs] := by
  simp only [Meaning.exec, List.foldlM_append, List.foldlM_cons, List.foldlM_nil, bind_pure, Option.bind_eq_bind,
    Option.bind_eq_some_iff, Meaning.step, value_under, Option.map_eq_some_iff]
  constructor
  · rintro ⟨env₀, hexec, vs, hvs, rfl⟩
    exact ⟨env₀, vs, hexec, hvs, rfl⟩
  · rintro ⟨env₀, vs, hexec, hvs, rfl⟩
    exact ⟨env₀, hexec, vs, hvs, rfl⟩

theorem exec_congr {τ' : S → List E} (h : ∀ s ∈ code, τ s.head = τ' s.head) : (M.under τ).exec code = (M.under τ').exec code := by
  induction code using List.reverseRecOn with
  | nil => rfl
  | append_singleton l s ih =>
    refine Option.ext fun env => ?_
    rw [exec_concat_eq_some, exec_concat_eq_some, ih fun t ht => h t (List.mem_append_left _ ht), h s (by simp)]

/-- What each statement is expected to leave behind, it does leave behind. -/
def Leaves (M : Effects R S V E) (e : S → List E) (code : List (Stmt R S)) (env : List V) : Prop :=
  ∀ s ∈ code, ∀ vs, s.args.mapM (M.value env) = some vs → M.effect s.head vs = e s.head

theorem Leaves.prefix {l l' : List (Stmt R S)} {tail : List V} (h : M.Leaves e (l ++ l') (env ++ tail)) : M.Leaves e l env :=
  fun s hs vs hvs => h s (List.mem_append_left _ hs) vs (mapM_value_append hvs tail)

theorem log_eq (hrun : M.run past code = some (env, log)) (heff : M.Leaves e code env) :
    log = past ++ code.flatMap fun s => e s.head := by
  induction code using List.reverseRecOn generalizing env log with
  | nil =>
    obtain ⟨-, rfl⟩ := Prod.mk.inj (Option.some.inj hrun)
    simp
  | append_singleton l s ih =>
    obtain ⟨env₀, log₀, vs, hrun₀, hvs, rfl, rfl⟩ := run_concat_eq_some.mp hrun
    rw [ih hrun₀ heff.prefix, heff s (by simp) vs (mapM_value_append hvs _)]
    simp

theorem run_of_exec (hτ : Follows past e τ code) (heff : M.Leaves e code env) (hexec : (M.under τ).exec code = some env) :
    ∃ log, M.run past code = some (env, log) := by
  induction code using List.reverseRecOn generalizing env with
  | nil =>
    obtain rfl := Option.some.inj hexec
    exact ⟨past, rfl⟩
  | append_singleton l s ih =>
    obtain ⟨env₀, vs, hexec₀, hvs, rfl⟩ := exec_concat_eq_some.mp hexec
    obtain ⟨log₀, hrun⟩ := ih hτ.prefix heff.prefix hexec₀
    have hlog : τ s.head = log₀ := (hτ l s [] rfl).trans (log_eq hrun heff.prefix).symm
    exact ⟨_, run_concat_eq_some.mpr ⟨env₀, log₀, vs, hrun, hvs, by rw [hlog], rfl⟩⟩

theorem exec_of_run (key : S → Nat) (hnodup : (code.map fun s => key s.head).Nodup) (hrun : M.run past code = some (env, log)) :
    ∃ τ : Nat → List E, (M.under fun s => τ (key s)).exec code = some env ∧
      ∀ l s l', code = l ++ s :: l' → ∃ env₀ tail, env = env₀ ++ tail ∧ M.run past l = some (env₀, τ (key s.head)) := by
  induction code using List.reverseRecOn generalizing env log with
  | nil =>
    obtain ⟨rfl, -⟩ := Prod.mk.inj (Option.some.inj hrun)
    exact ⟨fun _ => [], rfl, fun l s l' h => absurd h (by simp)⟩
  | append_singleton l s ih =>
    obtain ⟨env₀, log₀, vs, hrun₀, hvs, rfl, rfl⟩ := run_concat_eq_some.mp hrun
    rw [List.map_append, List.nodup_append] at hnodup
    obtain ⟨τ, hexec, hlogs⟩ := ih hnodup.1 hrun₀
    have hne : ∀ t ∈ l, key t.head ≠ key s.head := fun t ht =>
      hnodup.2.2 _ (List.mem_map_of_mem ht) _ (List.mem_map_of_mem (List.mem_singleton.mpr rfl))
    refine ⟨Function.update τ (key s.head) log₀, exec_concat_eq_some.mpr ⟨env₀, vs, ?_, hvs, ?_⟩, fun a t a' heq => ?_⟩
    · rw [← hexec]
      exact exec_congr fun t ht => Function.update_of_ne (hne t ht) ..
    · rw [Function.update_self]
    · rcases List.eq_nil_or_concat a' with rfl | ⟨c, x, rfl⟩
      · obtain ⟨rfl, hst⟩ := List.append_inj' heq rfl
        obtain rfl : s = t := List.head_eq_of_cons_eq hst
        exact ⟨env₀, _, rfl, by rw [Function.update_self]; exact hrun₀⟩
      · rw [List.concat_eq_append, ← List.cons_append, ← List.append_assoc] at heq
        obtain ⟨rfl, -⟩ := List.append_inj' heq rfl
        obtain ⟨env₁, tail, rfl, hrun₁⟩ := hlogs a t c rfl
        refine ⟨env₁, _, List.append_assoc .., ?_⟩
        rw [Function.update_of_ne (hne t (by simp)), hrun₁]

theorem mapM_value_isSome {env' : List V} (h : env.length = env'.length) {rs : List (Ref R)} {vs : List V}
    (hvs : rs.mapM (M.value env) = some vs) : ∃ vs', rs.mapM (M.value env') = some vs' := by
  refine MapM.exists_eq_some fun r hr => ?_
  obtain ⟨v, hv⟩ := Option.isSome_iff_exists.mp (MapM.isSome_of_mem hvs hr)
  cases r with
  | name x => exact ⟨_, rfl⟩
  | loc i =>
    obtain ⟨hi, -⟩ := List.getElem?_eq_some_iff.mp hv
    exact ⟨_, List.getElem?_eq_getElem (h ▸ hi)⟩

theorem exists_run (past : List E) (hexec : (M.under τ).exec code = some env) :
    ∃ env' log, M.run past code = some (env', log) ∧ env'.length = env.length := by
  induction code using List.reverseRecOn generalizing env with
  | nil =>
    obtain rfl := Option.some.inj hexec
    exact ⟨[], past, rfl, rfl⟩
  | append_singleton l s ih =>
    obtain ⟨env₀, vs, hexec₀, hvs, rfl⟩ := exec_concat_eq_some.mp hexec
    obtain ⟨env₁, log₁, hrun, hlen⟩ := ih hexec₀
    obtain ⟨vs', hvs'⟩ := mapM_value_isSome hlen.symm hvs
    exact ⟨_, _, run_concat_eq_some.mpr ⟨env₁, log₁, vs', hrun, hvs', rfl, rfl⟩, by simp [hlen]⟩

theorem read_under {b : Buffer R S} (hrun : M.run past b.code = some (env, log)) (hexec : (M.under τ).exec b.code = some env) (n : Node) :
    M.read past b n = (M.under τ).read b n := by
  rw [read, Meaning.read, hrun, hexec, Option.bind_some, Option.bind_some, value_under]

end Effects

/-! ### The statements of a buffer -/

theorem Node.InHeap.ptr_ne {heap : Nat → Node} {p : Nat} {h : Head} {args : List Node} (hn : (Node.app p h args).InHeap heap)
    {a m : Node} (ha : a ∈ args) (hm : m ∈ a.subs) : m.ptr ≠ p := by
  intro heq
  have hself : heap p = m := by
    rw [← heq]
    exact hn m (Node.mem_subs_of_arg ha hm)
  have hm' : m = .app p h args := hself.symm.trans (hn _ (Node.mem_subs_self _))
  have hle := Node.length_subs_le hm
  have hlt : a.subs.length < (Node.app p h args).subs.length := Node.length_subs_lt ha
  rw [hm'] at hle
  omega

/-- Every statement is the one of its node, reads the names of the arguments, and is the only one of the node; and no node that is to
have a statement is without. -/
structure Buffer.Coded (g : Emitter R S) (node : S → Node) (heap : Nat → Node) (b : Buffer R S) : Prop where
  known : ∀ s ∈ b.code, (b.lut (node s.head).ptr).isSome
  inHeap : ∀ s ∈ b.code, (node s.head).InHeap heap
  plan : ∀ s ∈ b.code, g.plan (node s.head) = some (.inr s.head)
  args : ∀ s ∈ b.code, (node s.head).args.mapM (fun a => b.lut a.ptr) = some s.args
  nodup : (b.code.map fun s => (node s.head).ptr).Nodup
  complete : ∀ n, n.InHeap heap → (b.lut n.ptr).isSome → ∀ t, g.plan n = some (.inr t) → ∃ s ∈ b.code, s.head = t

namespace Buffer.Coded

variable {g : Emitter R S} {node : S → Node} {heap : Nat → Node} {b b' : Buffer R S} {n : Node} {p : R ⊕ S}

theorem empty : (Buffer.empty : Buffer R S).Coded g node heap where
  known s hs := by cases hs
  inHeap s hs := by cases hs
  plan s hs := by cases hs
  args s hs := by cases hs
  nodup := .nil
  complete n _ h := by cases h

theorem args_inHeap (hb : b.Coded g node heap) {s : Stmt R S} (hs : s ∈ b.code) : ∀ a ∈ (node s.head).args, a.InHeap heap :=
  fun a ha => (hb.inHeap s hs).sub (Node.mem_subs_iff.mpr (.inr ⟨a, ha, a.mem_subs_self⟩))

theorem args_update (hb : b.Coded g node heap) (hnew : ¬(b.lut n.ptr).isSome) (x : Ref R) {s : Stmt R S} (hs : s ∈ b.code) :
    (node s.head).args.mapM (fun a => Function.update b.lut n.ptr (some x) a.ptr) = some s.args := by
  have hargs := MapM.eq_some_iff.mp (hb.args s hs)
  rw [MapM.eq_some_iff]
  refine hargs.imp fun a r ha => ?_
  have hne : a.ptr ≠ n.ptr := by
    rintro heq
    rw [heq] at ha
    exact hnew (by rw [ha]; rfl)
  rw [Function.update_of_ne hne, ha]

theorem add (hnode : ∀ m s, g.plan m = some (.inr s) → node s = m) (hb : b.Coded g node heap) (hheap : n.InHeap heap)
    (hplan : g.plan n = some p) (hnew : ¬(b.lut n.ptr).isSome) (hargs : ∀ a ∈ n.args, a.ptr ≠ n.ptr) (h : b.add n p = some b') :
    b'.Coded g node heap := by
  have hold : ∀ s ∈ b.code, (b'.lut (node s.head).ptr).isSome := fun s hs =>
    (Buffer.Inv.lut_add h _).mpr (.inl (hb.known s hs))
  have hother {m : Node} (hm : m.InHeap heap) (hptr : m.ptr = n.ptr) : m = n := by
    rw [← hm m m.mem_subs_self, hptr, hheap n n.mem_subs_self]
  cases p with
  | inl r =>
    have hlut := Buffer.Inv.lut_add h
    obtain rfl := Option.some.inj h
    refine ⟨hold, hb.inHeap, hb.plan, fun s hs => hb.args_update hnew _ hs, hb.nodup, fun m hm hk t ht => ?_⟩
    rcases (hlut m.ptr).mp hk with hk | hptr
    · exact hb.complete m hm hk t ht
    · rw [hother hm hptr, hplan] at ht
      cases ht
  | inr t =>
    have hself : node t = n := hnode n t hplan
    have hknown : (b'.lut n.ptr).isSome := (Buffer.Inv.lut_add h _).mpr (.inr rfl)
    have hlut := Buffer.Inv.lut_add h
    rw [Buffer.add, Option.map_eq_some_iff] at h
    obtain ⟨refs, hrefs, rfl⟩ := h
    refine ⟨?_, ?_, ?_, ?_, ?_, fun m hm hk u hu => ?_⟩
    · rw [List.forall_mem_append, List.forall_mem_singleton, hself]
      exact ⟨hold, hknown⟩
    · rw [List.forall_mem_append, List.forall_mem_singleton, hself]
      exact ⟨hb.inHeap, hheap⟩
    · rw [List.forall_mem_append, List.forall_mem_singleton, hself]
      exact ⟨hb.plan, hplan⟩
    · rw [List.forall_mem_append, List.forall_mem_singleton, hself]
      refine ⟨fun s hs => hb.args_update hnew _ hs, ?_⟩
      rw [MapM.eq_some_iff] at hrefs ⊢
      exact Pointwise.imp_of_mem (fun a ha r har => (Function.update_of_ne (hargs a ha) ..).trans har) hrefs
    · rw [List.map_append, List.map_singleton, hself]
      refine List.Nodup.append hb.nodup (List.nodup_singleton _) fun q hq hq' => ?_
      obtain rfl := List.mem_singleton.mp hq'
      obtain ⟨s, hs, heq⟩ := List.mem_map.mp hq
      have hsk := hb.known s hs
      rw [heq] at hsk
      exact hnew hsk
    · rcases (hlut m.ptr).mp hk with hk | hptr
      · obtain ⟨s, hs, hsu⟩ := hb.complete m hm hk u hu
        exact ⟨s, List.mem_append_left _ hs, hsu⟩
      · rw [hother hm hptr, hplan] at hu
        exact ⟨⟨t, refs⟩, by simp, Sum.inr.inj (Option.some.inj hu)⟩

/-- What is expected to be left behind before the statement of a node. -/
def before (node : S → Node) (e : S → List E) (past : List E) (code : List (Stmt R S)) (p : Nat) : List E :=
  past ++ (code.takeWhile fun s => (node s.head).ptr ≠ p).flatMap fun s => e s.head

theorem takeWhile_eq (hb : b.Coded g node heap) {l l' : List (Stmt R S)} {s : Stmt R S} (hcode : b.code = l ++ s :: l') :
    b.code.takeWhile (fun t => (node t.head).ptr ≠ (node s.head).ptr) = l := by
  have hnodup := hb.nodup
  rw [hcode, List.map_append, List.map_cons, List.nodup_append] at hnodup
  have hne : ∀ t ∈ l, decide ((node t.head).ptr ≠ (node s.head).ptr) = true := fun t ht =>
    decide_eq_true (hnodup.2.2 _ (List.mem_map_of_mem ht) _ List.mem_cons_self)
  rw [hcode, List.takeWhile_append_of_pos hne, List.takeWhile_cons_of_neg (by simp), List.append_nil]

theorem follows (hb : b.Coded g node heap) (e : S → List E) (past : List E) :
    Effects.Follows past e (fun s => before node e past b.code (node s).ptr) b.code := by
  intro l s l' hcode
  change before node e past b.code (node s.head).ptr = _
  rw [before, hb.takeWhile_eq hcode]

/-- What holds of the names of a buffer under the logs that are given, on a condition on the logs at its statements, holds of them after
a run on this condition on the expected logs, if under the condition every statement leaves behind what is expected. -/
theorem read_iff {M : Effects R S V E} {e : S → List E} {past : List E} {P : (Node → Option V) → Prop}
    {Q : (Nat → List E) → Prop} (hb : b.Coded g node heap)
    (hexec : ∀ τ : Nat → List E, ∃ env, (M.under fun s => τ (node s).ptr).exec b.code = some env)
    (hiff : ∀ τ : Nat → List E, P ((M.under fun s => τ (node s).ptr).read b) ↔ Q τ)
    (hleaves : ∀ τ env, Q τ → (M.under fun s => τ (node s).ptr).exec b.code = some env → M.Leaves e b.code env)
    (hcongr : ∀ τ τ', (∀ s ∈ b.code, τ (node s.head).ptr = τ' (node s.head).ptr) → Q τ → Q τ') :
    P (M.read past b) ↔ Q (before node e past b.code) := by
  constructor
  · intro h
    obtain ⟨env₀, hexec₀⟩ := hexec fun _ => []
    obtain ⟨env, log, hrun, -⟩ := Effects.exists_run past hexec₀
    obtain ⟨τ, hτ, hlogs⟩ := Effects.exec_of_run (fun s => (node s).ptr) hb.nodup hrun
    rw [show M.read past b = _ from funext (Effects.read_under hrun hτ), hiff] at h
    -- Under the logs of the run the condition P, so that these are the expected ones.
    have heff := hleaves τ env h hτ
    refine hcongr τ _ (fun s hs => ?_) h
    obtain ⟨l, l', hcode⟩ := List.append_of_mem hs
    obtain ⟨env₁, tail, rfl, hrun₁⟩ := hlogs l s l' hcode
    rw [hcode] at heff
    rw [Effects.log_eq hrun₁ heff.prefix]
    exact (hb.follows e past l s l' hcode).symm
  · intro h
    obtain ⟨env, henv⟩ := hexec (before node e past b.code)
    obtain ⟨log, hrun⟩ := Effects.run_of_exec (hb.follows e past) (hleaves _ env h henv) henv
    rw [show M.read past b = _ from funext (Effects.read_under hrun henv)]
    exact (hiff _).mpr h

end Buffer.Coded

namespace Emitter

variable {g : Emitter R S} {node : S → Node} {heap : Nat → Node} {b b' : Buffer R S}

/-- After a visit the buffer is coded, and knows no nodes but those of the expressions besides what it knew. -/
structure Grown (g : Emitter R S) (node : S → Node) (heap : Nat → Node) (b b' : Buffer R S) (ns : List Node) : Prop where
  coded : b'.Coded g node heap
  only : ∀ q, (b'.lut q).isSome → (b.lut q).isSome ∨ ∃ n ∈ ns, ∃ m ∈ n.subs, m.ptr = q

theorem visitList_grown {as : List Node} (ih : ∀ a ∈ as, ∀ b b' : Buffer R S, b.Coded g node heap → g.visit a b = some b' →
    Grown g node heap b b' [a]) (hb : b.Coded g node heap) (h : g.visitList as b = some b') : Grown g node heap b b' as := by
  induction as generalizing b with
  | nil =>
    obtain rfl := Option.some.inj h
    exact ⟨hb, fun q hq => .inl hq⟩
  | cons a as iha =>
    rw [visitList, Option.bind_eq_some_iff] at h
    obtain ⟨b₁, ha, has⟩ := h
    have hhead := ih a List.mem_cons_self b b₁ hb ha
    have htail := iha (fun c hc => ih c (List.mem_cons_of_mem a hc)) hhead.coded has
    refine ⟨htail.coded, fun q hq => ?_⟩
    rcases htail.only q hq with hq | ⟨n, hn, m, hm, hmq⟩
    · rcases hhead.only q hq with hq | ⟨n, hn, hq⟩
      · exact .inl hq
      · exact .inr ⟨n, List.mem_cons.mpr (.inl (List.mem_singleton.mp hn)), hq⟩
    · exact .inr ⟨n, List.mem_cons_of_mem a hn, m, hm, hmq⟩

theorem visit_grown (hnode : ∀ m s, g.plan m = some (.inr s) → node s = m) {n : Node} (hheap : n.InHeap heap)
    (hb : b.Coded g node heap) (h : g.visit n b = some b') : Grown g node heap b b' [n] := by
  induction n using Node.ind generalizing b b' with
  | leaf p l =>
    rw [visit_eq] at h
    split_ifs at h with hknown
    · obtain rfl := Option.some.inj h
      exact ⟨hb, fun q hq => .inl hq⟩
    · simp only [Node.args, visitList, Option.bind_some, Option.bind_eq_some_iff] at h
      obtain ⟨pl, hpl, hadd⟩ := h
      refine ⟨hb.add hnode hheap hpl hknown (by simp [Node.args]) hadd, fun q hq => ?_⟩
      refine ((Buffer.Inv.lut_add hadd q).mp hq).imp_right fun hq => ?_
      exact ⟨_, List.mem_cons_self, _, Node.mem_subs_self _, hq.symm⟩
  | app p hd args ih =>
    rw [visit_eq] at h
    split_ifs at h with hknown
    · obtain rfl := Option.some.inj h
      exact ⟨hb, fun q hq => .inl hq⟩
    · obtain ⟨b₁, hargs, h⟩ := Option.bind_eq_some_iff.mp h
      obtain ⟨pl, hpl, hadd⟩ := Option.bind_eq_some_iff.mp h
      have hlist := visitList_grown (fun a ha b b' => ih a ha (hheap.arg ha)) hb hargs
      -- The node is not below its own arguments, so the visit of these has not given it a name.
      have hnew : ¬(b₁.lut p).isSome := by
        intro hp
        rcases hlist.only p hp with hp | ⟨a, ha, m, hm, hmp⟩
        · exact hknown hp
        · exact hheap.ptr_ne ha hm hmp
      refine ⟨hlist.coded.add hnode hheap hpl hnew (fun a ha => hheap.ptr_ne ha a.mem_subs_self) hadd, fun q hq => ?_⟩
      rcases (Buffer.Inv.lut_add hadd q).mp hq with hq | rfl
      · refine (hlist.only q hq).imp_right ?_
        rintro ⟨a, ha, m, hm, hmq⟩
        exact ⟨_, List.mem_cons_self, m, Node.mem_subs_of_arg ha hm, hmq⟩
      · exact .inr ⟨_, List.mem_cons_self, _, Node.mem_subs_self _, rfl⟩

theorem coded_of_roots (hnode : ∀ m s, g.plan m = some (.inr s) → node s = m) {roots : List Node}
    (hheap : ∀ n ∈ roots, n.InHeap heap) (h : g.visitList roots .empty = some b) :
    b.Coded g node heap ∧ ∀ s ∈ b.code, ∃ n ∈ roots, node s.head ∈ n.subs := by
  have hempty : (Buffer.empty : Buffer R S).Coded g node heap := .empty
  have hgrown := visitList_grown (fun a ha b b' => visit_grown hnode (hheap a ha)) hempty h
  refine ⟨hgrown.coded, fun s hs => ?_⟩
  rcases hgrown.only _ (hgrown.coded.known s hs) with hempty | ⟨n, hn, m, hm, hptr⟩
  · cases hempty
  · refine ⟨n, hn, ?_⟩
    have hself : node s.head = m := by
      rw [← hgrown.coded.inHeap s hs _ (Node.mem_subs_self _), ← hptr]
      exact hheap n hn m hm
    rw [hself]
    exact hm

end Emitter

end Ilang
