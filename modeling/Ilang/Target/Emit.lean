import Ilang.Ila.Node
import Ilang.Util.Container

/-!
# Straight-line code from shared expressions

The code generators visit an expression in post-order. A node that was met before keeps the name it has. A node
that is met for the first time either has a name already (an input, a state, a literal) or gets a new local name
and one statement that defines it from the names of its arguments. What differs between generators is the plan
for a node: its name or its statement, or a refusal.

The locals of a buffer are numbered in the order of their statements, so the code is executed into the list of
their values.
-/

namespace Ilang

inductive Ref (R : Type) where
  | name (r : R)
  | loc (i : Nat)
  deriving DecidableEq, Repr

structure Stmt (R S : Type) where
  head : S
  args : List (Ref R)
  deriving DecidableEq, Repr

/-- The names of the nodes met so far and the statements written so far. -/
structure Buffer (R S : Type) where
  lut : Nat → Option (Ref R)
  code : List (Stmt R S)

/-- A generator: what it does at a node. `none` is an assertion that fails. -/
structure Emitter (R S : Type) where
  plan : Node → Option (R ⊕ S)

/-- What the names mean, and what a statement computes from its operands. -/
structure Meaning (R S V : Type) where
  name : R → V
  stmt : S → List V → V

namespace Node

def args : Node → List Node
  | .leaf _ _ => []
  | .app _ _ args => args

theorem mem_subs_iff {n m : Node} : m ∈ n.subs ↔ m = n ∨ ∃ a ∈ n.args, m ∈ a.subs := by
  cases n with
  | leaf p l => simp [mem_subs_leaf, args]
  | app p h args => exact mem_subs_app

end Node

namespace Buffer

variable {R S V : Type}

def empty : Buffer R S := ⟨fun _ => none, []⟩

/-- The node gets a name: one that is there, or the next local. -/
def add (b : Buffer R S) (n : Node) : R ⊕ S → Option (Buffer R S)
  | .inl r => some { b with lut := Function.update b.lut n.ptr (some (.name r)) }
  | .inr s => (n.args.mapM fun a => b.lut a.ptr).map fun refs =>
    ⟨Function.update b.lut n.ptr (some (.loc b.code.length)), b.code ++ [⟨s, refs⟩]⟩

end Buffer

namespace Emitter

variable {R S V : Type} (g : Emitter R S)

mutual

def visit : Node → Buffer R S → Option (Buffer R S)
  | .leaf p l, b => if (b.lut p).isSome then some b else (g.plan (.leaf p l)).bind (b.add (.leaf p l))
  | .app p h args, b =>
    if (b.lut p).isSome then some b
    else (visitList args b).bind fun b' => (g.plan (.app p h args)).bind (b'.add (.app p h args))

def visitList : List Node → Buffer R S → Option (Buffer R S)
  | [], b => some b
  | a :: as, b => (visit a b).bind (visitList as)

end

theorem visit_eq (n : Node) (b : Buffer R S) :
    g.visit n b = if (b.lut n.ptr).isSome then some b
      else (g.visitList n.args b).bind fun b' => (g.plan n).bind (b'.add n) := by
  cases n with
  | leaf p l => rw [visit, Node.args, visitList, Option.bind_some, Node.ptr]
  | app p h args => rw [visit, Node.args, Node.ptr]

end Emitter

/-! ### The meaning of code -/

variable {R S V : Type}

def Ref.value (μ : Meaning R S V) (env : List V) : Ref R → Option V
  | .name r => some (μ.name r)
  | .loc i => env[i]?

namespace Meaning

variable (μ : Meaning R S V)

/-- One statement adds the value of one local. -/
def step (env : List V) (s : Stmt R S) : Option (List V) :=
  (s.args.mapM (Ref.value μ env)).map fun vs => env ++ [μ.stmt s.head vs]

def exec (code : List (Stmt R S)) : Option (List V) := code.foldlM μ.step []

/-- The value of the name that a buffer has for a node, after its code. -/
def read (b : Buffer R S) (n : Node) : Option V :=
  (μ.exec b.code).bind fun env => (b.lut n.ptr).bind (Ref.value μ env)

variable (g : Emitter R S)

mutual

/-- What the code of a node computes, by recursion over the node and without names. -/
def denote : Node → Option V
  | .leaf p l => (g.plan (.leaf p l)).map (Sum.elim μ.name fun s => μ.stmt s [])
  | .app p h args =>
    (denoteList args).bind fun vs => (g.plan (.app p h args)).map (Sum.elim μ.name fun s => μ.stmt s vs)

def denoteList : List Node → Option (List V)
  | [] => some []
  | a :: as => (denote a).bind fun v => (denoteList as).map (v :: ·)

end

theorem denoteList_eq_mapM (as : List Node) : μ.denoteList g as = as.mapM (μ.denote g) := by
  induction as with
  | nil => rfl
  | cons a as ih =>
    rw [denoteList, ih, List.mapM_cons]
    cases μ.denote g a <;> cases as.mapM (μ.denote g) <;> rfl

theorem denote_eq (n : Node) : μ.denote g n =
    (n.args.mapM (μ.denote g)).bind fun vs => (g.plan n).map (Sum.elim μ.name fun s => μ.stmt s vs) := by
  cases n with
  | leaf p l => rw [denote]; rfl
  | app p h args => rw [denote, denoteList_eq_mapM, Node.args]

end Meaning

/-! ### Code computes what it denotes -/

theorem Ref.value_append {μ : Meaning R S V} {env : List V} {r : Ref R} {v : V} (h : r.value μ env = some v)
    (tail : List V) : r.value μ (env ++ tail) = some v := by
  cases r with
  | name x => exact h
  | loc i =>
    rw [Ref.value] at h ⊢
    rw [List.getElem?_append_left (List.getElem?_eq_some_iff.mp h).1]
    exact h

/-- Every name in the buffer has the value that its node denotes, and the buffer is closed under going down. -/
structure Buffer.Inv (μ : Meaning R S V) (g : Emitter R S) (heap : Nat → Node) (b : Buffer R S) (env : List V) :
    Prop where
  exec : μ.exec b.code = some env
  length : env.length = b.code.length
  value : ∀ q r, b.lut q = some r → ∃ v, r.value μ env = some v ∧ μ.denote g (heap q) = some v
  closed : ∀ q, (b.lut q).isSome → ∀ m ∈ (heap q).subs, (b.lut m.ptr).isSome ∧ (g.plan m).isSome

namespace Buffer.Inv

variable {μ : Meaning R S V} {g : Emitter R S} {heap : Nat → Node} {b b' : Buffer R S} {env : List V}

theorem empty : (Buffer.empty : Buffer R S).Inv μ g heap [] :=
  ⟨rfl, rfl, fun _ _ h => by simp [Buffer.empty] at h, fun _ h => by simp [Buffer.empty] at h⟩

theorem args_value (hinv : b.Inv μ g heap env) {as : List Node} (hheap : ∀ a ∈ as, a.InHeap heap)
    {refs : List (Ref R)} (hrefs : as.mapM (fun a => b.lut a.ptr) = some refs) :
    ∃ vs, refs.mapM (Ref.value μ env) = some vs ∧ as.mapM (μ.denote g) = some vs := by
  induction as generalizing refs with
  | nil =>
    obtain rfl : refs = [] := by simpa [eq_comm] using hrefs
    exact ⟨[], rfl, rfl⟩
  | cons a as ih =>
    rw [List.mapM_cons] at hrefs
    simp only [Option.bind_eq_bind, Option.bind_eq_some_iff, Option.pure_def, Option.some.injEq] at hrefs
    obtain ⟨r, hr, rs, hrs, rfl⟩ := hrefs
    obtain ⟨v, hv, hden⟩ := hinv.value a.ptr r hr
    rw [hheap a List.mem_cons_self a a.mem_subs_self] at hden
    obtain ⟨vs, hvs, hdens⟩ := ih (fun c hc => hheap c (List.mem_cons_of_mem a hc)) hrs
    refine ⟨v :: vs, ?_, ?_⟩
    · rw [List.mapM_cons, hv, hvs]
      rfl
    · rw [List.mapM_cons, hden, hdens]
      rfl

theorem lut_add {n : Node} {p : R ⊕ S} (h : b.add n p = some b') (q : Nat) :
    (b'.lut q).isSome ↔ (b.lut q).isSome ∨ q = n.ptr := by
  have hupd : ∀ x : Ref R, (Function.update b.lut n.ptr (some x) q).isSome ↔ (b.lut q).isSome ∨ q = n.ptr := by
    intro x
    by_cases hq : q = n.ptr
    · simp [hq]
    · simp [hq]
  cases p with
  | inl r =>
    obtain rfl := Option.some.inj h
    exact hupd _
  | inr s =>
    rw [Buffer.add, Option.map_eq_some_iff] at h
    obtain ⟨refs, -, rfl⟩ := h
    exact hupd _

theorem closed_add (hinv : b.Inv μ g heap env) {n : Node} {p : R ⊕ S} (hheap : n.InHeap heap)
    (hplan : g.plan n = some p) (hargs : ∀ a ∈ n.args, (b.lut a.ptr).isSome) (h : b.add n p = some b') (q : Nat)
    (hq : (b'.lut q).isSome) : ∀ m ∈ (heap q).subs, (b'.lut m.ptr).isSome ∧ (g.plan m).isSome := by
  intro m hm
  have hold : ∀ k, (b.lut k).isSome → m ∈ (heap k).subs → (b'.lut m.ptr).isSome ∧ (g.plan m).isSome := by
    intro k hk hmk
    have hb := hinv.closed k hk m hmk
    exact ⟨(lut_add h m.ptr).mpr (.inl hb.1), hb.2⟩
  rcases (lut_add h q).mp hq with hq | rfl
  · exact hold q hq hm
  · rw [hheap n n.mem_subs_self, Node.mem_subs_iff] at hm
    rcases hm with rfl | ⟨a, ha, hma⟩
    · exact ⟨(lut_add h m.ptr).mpr (.inr rfl), by rw [hplan]; rfl⟩
    · have hself : heap a.ptr = a :=
        hheap a (Node.mem_subs_iff.mpr (.inr ⟨a, ha, a.mem_subs_self⟩))
      exact hold a.ptr (hargs a ha) (by rw [hself]; exact hma)

theorem add (hinv : b.Inv μ g heap env) {n : Node} {p : R ⊕ S} (hheap : n.InHeap heap)
    (hplan : g.plan n = some p) (hargs : ∀ a ∈ n.args, (b.lut a.ptr).isSome) (h : b.add n p = some b') :
    ∃ tail, b'.Inv μ g heap (env ++ tail) := by
  have hclosed := hinv.closed_add hheap hplan hargs h
  have hsub : ∀ a ∈ n.args, a.InHeap heap := fun a ha =>
    hheap.sub (Node.mem_subs_iff.mpr (.inr ⟨a, ha, a.mem_subs_self⟩))
  have hself : heap n.ptr = n := hheap n n.mem_subs_self
  cases p with
  | inl r =>
    obtain rfl := Option.some.inj h
    refine ⟨[], by rw [List.append_nil]; exact hinv.exec, by rw [List.append_nil]; exact hinv.length, ?_, hclosed⟩
    intro q x hx
    by_cases hq : q = n.ptr
    · subst hq
      obtain rfl : Ref.name r = x := by simpa using hx
      obtain ⟨vs, hvs⟩ : ∃ vs, n.args.mapM (μ.denote g) = some vs := by
        obtain ⟨refs, hrefs⟩ := MapM.exists_eq_some fun a ha => Option.isSome_iff_exists.mp (hargs a ha)
        obtain ⟨vs, -, hvs⟩ := hinv.args_value hsub hrefs
        exact ⟨vs, hvs⟩
      refine ⟨μ.name r, rfl, ?_⟩
      rw [hself, μ.denote_eq, hvs, hplan]
      rfl
    · rw [List.append_nil]
      exact hinv.value q x (by simpa [hq] using hx)
  | inr s =>
    rw [Buffer.add, Option.map_eq_some_iff] at h
    obtain ⟨refs, hrefs, rfl⟩ := h
    obtain ⟨vs, hvals, hdens⟩ := hinv.args_value hsub hrefs
    have hexec : μ.exec (b.code ++ [⟨s, refs⟩]) = some (env ++ [μ.stmt s vs]) := by
      rw [Meaning.exec, List.foldlM_append, show b.code.foldlM μ.step [] = some env from hinv.exec]
      simp [Meaning.step, hvals]
    refine ⟨[μ.stmt s vs], hexec, by simp [hinv.length], ?_, hclosed⟩
    intro q x hx
    by_cases hq : q = n.ptr
    · subst hq
      obtain rfl : Ref.loc b.code.length = x := by simpa using hx
      refine ⟨μ.stmt s vs, by simp [Ref.value, ← hinv.length], ?_⟩
      rw [hself, μ.denote_eq, hdens, hplan]
      rfl
    · obtain ⟨v, hv, hden⟩ := hinv.value q x (by simpa [hq] using hx)
      exact ⟨v, Ref.value_append hv _, hden⟩

end Buffer.Inv

namespace Emitter

variable {μ : Meaning R S V} {g : Emitter R S} {heap : Nat → Node} {b b' : Buffer R S} {env : List V}

/-- What a visit does to the buffer: the code is continued, nothing is forgotten, and the nodes are known. -/
structure Visited (μ : Meaning R S V) (g : Emitter R S) (heap : Nat → Node) (env : List V) (b b' : Buffer R S)
    (ns : List Node) : Prop where
  inv : ∃ tail, b'.Inv μ g heap (env ++ tail)
  kept : ∀ q, (b.lut q).isSome → (b'.lut q).isSome
  known : ∀ n ∈ ns, (b'.lut n.ptr).isSome

theorem visitList_visited {as : List Node} (ih : ∀ a ∈ as, ∀ (b b' : Buffer R S) env, b.Inv μ g heap env →
    g.visit a b = some b' → Visited μ g heap env b b' [a]) (hinv : b.Inv μ g heap env)
    (h : g.visitList as b = some b') : Visited μ g heap env b b' as := by
  induction as generalizing b env with
  | nil =>
    rw [visitList, Option.some.injEq] at h
    subst h
    exact ⟨⟨[], by rw [List.append_nil]; exact hinv⟩, fun _ hq => hq, fun n hn => by simp at hn⟩
  | cons a as iha =>
    rw [visitList, Option.bind_eq_some_iff] at h
    obtain ⟨b₁, hb₁, hrest⟩ := h
    have hhead := ih a List.mem_cons_self b b₁ env hinv hb₁
    obtain ⟨t, ht⟩ := hhead.inv
    have htail := iha (fun c hc => ih c (List.mem_cons_of_mem a hc)) ht hrest
    obtain ⟨t', ht'⟩ := htail.inv
    refine ⟨⟨t ++ t', by rw [← List.append_assoc]; exact ht'⟩, fun q hq => htail.kept q (hhead.kept q hq), ?_⟩
    intro n hn
    rcases List.mem_cons.mp hn with rfl | hn
    · exact htail.kept _ (hhead.known n List.mem_cons_self)
    · exact htail.known n hn

theorem visit_visited {n : Node} (hheap : n.InHeap heap) (hinv : b.Inv μ g heap env)
    (h : g.visit n b = some b') : Visited μ g heap env b b' [n] := by
  induction n using Node.ind generalizing b b' env with
  | leaf p l =>
    rw [visit_eq] at h
    split at h
    · obtain rfl := Option.some.inj h
      exact ⟨⟨[], by rw [List.append_nil]; exact hinv⟩, fun _ hq => hq, by simpa [Node.ptr]⟩
    · simp only [Node.args, visitList, Option.bind_some, Option.bind_eq_some_iff] at h
      obtain ⟨pl, hpl, hadd⟩ := h
      refine ⟨hinv.add hheap hpl (by simp [Node.args]) hadd, fun q hq => ?_, fun m hm => ?_⟩
      · exact (Buffer.Inv.lut_add hadd q).mpr (.inl hq)
      · rw [List.mem_singleton.mp hm]
        exact (Buffer.Inv.lut_add hadd _).mpr (.inr rfl)
  | app p hd args ih =>
    rw [visit_eq] at h
    split at h
    · obtain rfl := Option.some.inj h
      exact ⟨⟨[], by rw [List.append_nil]; exact hinv⟩, fun _ hq => hq, by simpa [Node.ptr]⟩
    · simp only [Node.args, Option.bind_eq_some_iff] at h
      obtain ⟨b₁, hargs, pl, hpl, hadd⟩ := h
      have hvis := visitList_visited (fun a ha b b' env => ih a ha (hheap.arg ha)) hinv hargs
      obtain ⟨t, ht⟩ := hvis.inv
      obtain ⟨t', ht'⟩ := ht.add hheap hpl hvis.known hadd
      refine ⟨⟨t ++ t', by rw [← List.append_assoc]; exact ht'⟩, fun q hq => ?_, fun m hm => ?_⟩
      · exact (Buffer.Inv.lut_add hadd q).mpr (.inl (hvis.kept q hq))
      · rw [List.mem_singleton.mp hm]
        exact (Buffer.Inv.lut_add hadd _).mpr (.inr rfl)

theorem read_eq_denote {roots : List Node} (hheap : ∀ n ∈ roots, n.InHeap heap)
    (h : g.visitList roots .empty = some b) {n m : Node} (hn : n ∈ roots) (hm : m ∈ n.subs) :
    (μ.read b m).isSome ∧ μ.read b m = μ.denote g m := by
  have hempty : (Buffer.empty : Buffer R S).Inv μ g heap [] := .empty
  have hvis := visitList_visited (fun a ha b b' env => visit_visited (hheap a ha)) hempty h
  obtain ⟨env, hinv⟩ := hvis.inv
  rw [List.nil_append] at hinv
  have hself : heap n.ptr = n := hheap n hn n n.mem_subs_self
  have hsome := (hinv.closed n.ptr (hvis.known n hn) m (by rw [hself]; exact hm)).1
  obtain ⟨r, hr⟩ := Option.isSome_iff_exists.mp hsome
  obtain ⟨v, hv, hden⟩ := hinv.value m.ptr r hr
  rw [hheap n hn m hm] at hden
  have hread : μ.read b m = some v := by
    rw [Meaning.read, hinv.exec, Option.bind_some, hr, Option.bind_some, hv]
  exact ⟨by rw [hread]; rfl, by rw [hread, hden]⟩

theorem known_and_planned {roots : List Node} (hheap : ∀ n ∈ roots, n.InHeap heap)
    (h : g.visitList roots .empty = some b) {n m : Node} (hn : n ∈ roots) (hm : m ∈ n.subs) :
    (b.lut m.ptr).isSome ∧ (g.plan m).isSome := by
  let μ : Meaning R S Unit := ⟨fun _ => (), fun _ _ => ()⟩
  have hempty : (Buffer.empty : Buffer R S).Inv μ g heap [] := .empty
  have hvis := visitList_visited (fun a ha b b' env => visit_visited (hheap a ha)) hempty h
  obtain ⟨env, hinv⟩ := hvis.inv
  rw [List.nil_append] at hinv
  have hself : heap n.ptr = n := hheap n hn n n.mem_subs_self
  exact hinv.closed n.ptr (hvis.known n hn) m (by rw [hself]; exact hm)

theorem plan_isSome {roots : List Node} (hheap : ∀ n ∈ roots, n.InHeap heap)
    (h : g.visitList roots .empty = some b) {n m : Node} (hn : n ∈ roots) (hm : m ∈ n.subs) : (g.plan m).isSome :=
  (known_and_planned hheap h hn hm).2

theorem exists_inv (μ : Meaning R S V) {roots : List Node} (hheap : ∀ n ∈ roots, n.InHeap heap) (h : g.visitList roots .empty = some b) :
    ∃ env, b.Inv μ g heap env := by
  have hempty : (Buffer.empty : Buffer R S).Inv μ g heap [] := .empty
  obtain ⟨env, hinv⟩ := (visitList_visited (fun a ha b b' env => visit_visited (hheap a ha)) hempty h).inv
  exact ⟨_, hinv⟩

end Emitter

end Ilang
