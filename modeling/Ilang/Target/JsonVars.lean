import Ilang.Target.JsonRead
import Ilang.Util.Position

/-!
# ILAs and variables that come back from JSON

What is asked of a hierarchy so that it comes back (`Exportable`), and the first pass of the deserializer on its file: every ILA is
made below its parent with the parent's variables, and its own variables are made from the nodes of the file. In the end there is
one new variable for every old one, and an ILA has the new variables of what it had.
-/

namespace Ilang

open Smt

/-! ### The order of the file -/

namespace Node

theorem mem_depthFirstList {args : List Node} {m : Node} : m ∈ depthFirstList args ↔ ∃ a ∈ args, m ∈ a.depthFirst := by
  induction args with
  | nil => simp [depthFirstList]
  | cons a as ih => simp [depthFirstList, ih]

theorem mem_depthFirst {n m : Node} : m ∈ n.depthFirst ↔ m ∈ n.subs := by
  induction n using ind with
  | leaf p l => rw [depthFirst, mem_subs_leaf, List.mem_singleton]
  | app p h args ih =>
    rw [depthFirst, mem_subs_app, List.mem_append, List.mem_singleton, mem_depthFirstList, or_comm]
    exact or_congr_right (exists_congr fun a => and_congr_right fun ha => ih a ha)

end Node

namespace I2JSer

variable {seen ms : List Node} {n m : Node}

theorem mem_visits {ns : List Node} : m ∈ visits ns ↔ ∃ n ∈ ns, m ∈ n.subs := by
  simp only [visits, List.mem_flatMap, Node.mem_depthFirst]

theorem mem_of_mem_see (h : m ∈ see seen ms) : m ∈ seen ∨ m ∈ ms := by
  induction ms generalizing seen with
  | nil => exact .inl h
  | cons k ms ih =>
    have hrest : m ∈ visit seen k ∨ m ∈ ms := ih h
    rcases hrest with h | h
    · rw [visit] at h
      split at h
      · exact .inl h
      · rcases List.mem_append.mp h with h | h
        · exact .inl h
        · exact .inr (List.mem_singleton.mp h ▸ List.mem_cons_self)
    · exact .inr (List.mem_cons_of_mem k h)

/-- The arguments of a node stand before it. -/
def Ordered (seen : List Node) : Prop :=
  ∀ pre m post, seen = pre ++ m :: post → ∀ a ∈ m.args, a.ptr ∈ pre.map Node.ptr

theorem ordered_visit (h : Ordered seen) (hargs : ∀ a ∈ n.args, a.ptr ∈ seen.map Node.ptr) : Ordered (visit seen n) := by
  rw [visit]
  split
  · exact h
  · intro pre m post heq a ha
    rcases List.eq_nil_or_concat post with rfl | ⟨post, k, rfl⟩
    · obtain ⟨rfl, hm⟩ := List.append_inj' heq rfl
      obtain rfl : n = m := List.singleton_inj.mp hm
      exact hargs a ha
    · rw [List.concat_eq_append, ← List.cons_append, ← List.append_assoc] at heq
      exact h pre m post (List.append_inj' heq rfl).1 a ha

theorem ordered_see_depthFirst (n : Node) {seen : List Node} (h : Ordered seen) : Ordered (see seen n.depthFirst) := by
  induction n using Node.ind generalizing seen with
  | leaf p l => exact ordered_visit h (by simp [Node.args])
  | app p hd args ih =>
    have hlist : ∀ as : List Node, (∀ a ∈ as, a ∈ args) → ∀ seen, Ordered seen → Ordered (see seen (Node.depthFirstList as)) := by
      intro as has
      induction as with
      | nil => exact fun seen h => h
      | cons a as iha =>
        intro seen h
        rw [Node.depthFirstList, see_append]
        rw [List.forall_mem_cons] at has
        exact iha has.2 _ (ih a has.1 h)
    rw [Node.depthFirst, see_append]
    refine ordered_visit (hlist args (fun _ ha => ha) seen h) fun a ha => mem_see (.inr ?_)
    exact Node.mem_depthFirstList.mpr ⟨a, ha, mem_depthFirst_self a⟩

theorem ordered_see_visits (ns : List Node) {seen : List Node} (h : Ordered seen) : Ordered (see seen (visits ns)) := by
  induction ns generalizing seen with
  | nil => exact h
  | cons n ns ih =>
    have hvisits : visits (n :: ns) = n.depthFirst ++ visits ns := List.flatMap_cons
    rw [hvisits, see_append]
    exact ih (ordered_see_depthFirst n h)

end I2JSer

/-! ### Hierarchies that come back -/

namespace GraphTree

theorem ilaList_eq_map (cs : List GraphTree) : ilaList cs = cs.map ila := by
  induction cs with
  | nil => rfl
  | cons c cs ih => rw [ilaList, ih, List.map_cons]

theorem exists_graph {t : GraphTree} {n : Ila} (h : n ∈ t.ila.preOrder) : ∃ g ∈ t.graphs, g.data = n.data := by
  induction t using ind with
  | mk g cs ih =>
    rw [ila, Ila.mem_preOrder_mk, ilaList_eq_map] at h
    rcases h with rfl | ⟨d, hd, hn⟩
    · exact ⟨g, mem_graphs_mk.mpr (.inl rfl), rfl⟩
    · obtain ⟨c, hc, rfl⟩ := List.mem_map.mp hd
      obtain ⟨g', hg', heq⟩ := ih c hc hn
      exact ⟨g', mem_graphs_mk.mpr (.inr ⟨c, hc, hg'⟩), heq⟩

end GraphTree

/-- What a hierarchy needs to come back. The conditions and decodes that the serializer dereferences are set, no name is taken by
two ILAs, a child has the variables of its parent, and its objects are known by their identities. -/
structure Exportable (t : GraphTree) : Prop where
  wellFormed : ∃ next, t.ila.WellFormed next
  complete : ∀ g ∈ t.graphs, g.Complete
  names : (t.graphs.map fun g => g.data.name).Nodup
  inherits : ∀ n ∈ t.ila.preOrder, ∀ c ∈ n.childs, ∀ k, ∀ v ∈ n.data.vars k, v ∈ c.data.vars k
  heap : ∃ heap, ∀ n ∈ t.roots, n.InHeap heap
  vars : ∀ n ∈ t.roots, ∀ p v, Node.leaf p (.var v) ∈ n.subs → p = v.id ∧ ∃ k, t.ila.Has k v
  funcs : ∀ n ∈ t.roots, ∀ n' ∈ t.roots, ∀ f ∈ n.funcs, ∀ f' ∈ n'.funcs, f.id = f'.id → f = f'
  consts : ∀ n ∈ t.roots, ∀ p c, Node.leaf p (.const c) ∈ n.subs → c.Made

namespace Exportable

open I2JSer

variable {t : GraphTree} (h : Exportable t) {m m' : Node} {v v' : Var}
include h

theorem eq_of_ptr (hm : m ∈ visits t.roots) (hm' : m' ∈ visits t.roots) (hptr : m.ptr = m'.ptr) : m = m' := by
  obtain ⟨heap, hheap⟩ := h.heap
  obtain ⟨n, hn, hm⟩ := mem_visits.mp hm
  obtain ⟨n', hn', hm'⟩ := mem_visits.mp hm'
  rw [← hheap n hn m hm, ← hheap n' hn' m' hm', hptr]

omit h in
theorem mem_visits_of_written (hm : m ∈ written t) : m ∈ visits t.roots := (mem_of_mem_see hm).resolve_left List.not_mem_nil

omit h in
theorem ofVar_mem (hv : ∃ k, t.ila.Has k v) : Node.ofVar v ∈ visits t.roots := by
  obtain ⟨k, n, hn, hv⟩ := hv
  obtain ⟨g, hg, hdata⟩ := GraphTree.exists_graph hn
  refine mem_visits.mpr ⟨.ofVar v, List.mem_flatMap.mpr ⟨g, hg, ?_⟩, Node.mem_subs_self _⟩
  rw [← hdata] at hv
  simp only [IlaGraph.roots, List.mem_append]
  cases k with
  | input => exact .inl (List.mem_map_of_mem hv)
  | state => exact .inr (.inl (List.mem_map_of_mem hv))

theorem eq_of_id (hv : ∃ k, t.ila.Has k v) (hv' : ∃ k, t.ila.Has k v') (hid : v.id = v'.id) : v = v' := by
  have heq := h.eq_of_ptr (ofVar_mem hv) (ofVar_mem hv') hid
  injection heq with _ heq
  injection heq

theorem kind_unique {k k' : Kind} (hv : t.ila.Has k v) (hv' : t.ila.Has k' v) : k = k' := by
  obtain ⟨next, hwf⟩ := h.wellFormed
  cases k <;> cases k'
  · rfl
  · exact absurd hv' (hwf.kinds v hv)
  · exact absurd hv (hwf.kinds v hv')
  · rfl

end Exportable

namespace GraphTree

mutual

/-- Trees of one shape whose ILAs are related one by one. -/
def Rel (R : IlaGraph → IlaData → Prop) : GraphTree → Ila → Prop
  | .mk g cs, .mk e es => R g e ∧ RelList R cs es

def RelList (R : IlaGraph → IlaData → Prop) : List GraphTree → List Ila → Prop
  | [], [] => True
  | c :: cs, e :: es => Rel R c e ∧ RelList R cs es
  | [], _ :: _ => False
  | _ :: _, [] => False

end

variable {R R' : IlaGraph → IlaData → Prop}

theorem RelList.imp {cs : List GraphTree} (ih : ∀ c ∈ cs, ∀ r, c.Rel R r → c.Rel R' r) {rs : List Ila} (h : RelList R cs rs) :
    RelList R' cs rs := by
  induction cs generalizing rs with
  | nil =>
    cases rs with
    | nil => trivial
    | cons r rs => exact h.elim
  | cons c cs ihcs =>
    cases rs with
    | nil => exact h.elim
    | cons r rs => exact ⟨ih c List.mem_cons_self r h.1, ihcs (fun d hd => ih d (List.mem_cons_of_mem c hd)) h.2⟩

theorem Rel.imp {t : GraphTree} {r : Ila} (h : t.Rel R r) (himp : ∀ g ∈ t.graphs, ∀ e, R g e → R' g e) : t.Rel R' r := by
  induction t using ind generalizing r with
  | mk g cs ih =>
    cases r with
    | mk e es =>
      refine ⟨himp g (mem_graphs_mk.mpr (.inl rfl)) e h.1, RelList.imp (fun c hc r hr => ih c hc hr ?_) h.2⟩
      exact fun g' hg' => himp g' (mem_graphs_mk.mpr (.inr ⟨c, hc, hg'⟩))

end GraphTree

/-! ### ILAs and their variables -/

theorem Entries.lookup_concat {κ α : Type} [BEq κ] [LawfulBEq κ] {l : List (κ × α)} {n k : κ} {x y : α} :
    (l ++ [(k, x)]).lookup n = some y ↔ l.lookup n = some y ∨ (l.lookup n = none ∧ n = k ∧ y = x) := by
  rw [Entries.lookup_append, Option.or_eq_some_iff, List.lookup_cons]
  refine or_congr_right (and_congr_right fun _ => ?_)
  by_cases hk : n = k
  · rw [hk, beq_self_eq_true]
    simp [eq_comm]
  · rw [beq_false_of_ne hk]
    simp [hk]

namespace J2IDes

open I2JSer

/-- The variable that is made for one of the file. -/
def Knows (s : J2IDes) (v w : Var) : Prop := s.idExprMap.lookup v.id = some (.var w)

/-- An identity has an expression. -/
def Has (s : J2IDes) (q : Nat) : Prop := q ∈ s.idExprMap.map Prod.fst

/-- An ILA has the variables that are made for these ones and no others. -/
structure Tracks (s : J2IDes) (S : Kind → Var → Prop) (e : IlaData) : Prop where
  here : ∀ k v, S k v → ∃ w ∈ e.vars k, s.Knows v w
  only : ∀ k, ∀ w ∈ e.vars k, ∃ v, S k v ∧ s.Knows v w

/-- An entry stays. -/
def Grows (s s' : J2IDes) : Prop := ∀ q x, s.idExprMap.lookup q = some x → s'.idExprMap.lookup q = some x

/-- There are no entries but those of variables, which are different for different identities. -/
structure VarsOnly (t : GraphTree) (s : J2IDes) : Prop where
  entry : ∀ q x, s.idExprMap.lookup q = some x → ∃ v w, (∃ k, t.ila.Has k v) ∧ v.id = q ∧ x = .var w
  var : ∀ v w, (∃ k, t.ila.Has k v) → s.Knows v w → w.name = v.name ∧ w.sort = v.sort ∧ w.id < s.next
  inj : ∀ q q' w w', s.idExprMap.lookup q = some (.var w) → s.idExprMap.lookup q' = some (.var w') → w.id = w'.id → q = q'

/-- The ILA is as it was made, apart from its variables. -/
structure Blank (g : IlaGraph) (e : IlaData) : Prop where
  name : e.name = g.data.name
  inits : e.inits = []
  instrs : e.instrs = []

/-- The ILA has its variables. -/
def Founded (s : J2IDes) (g : IlaGraph) (e : IlaData) : Prop := s.Tracks (fun k v => v ∈ g.data.vars k) e ∧ Blank g e

/-- What a part of `DesVarHier` leaves behind, for the ILAs of some names and some more variables. -/
structure After (t : GraphTree) (s s' : J2IDes) (names : List String) (D : Var → Prop) : Prop where
  vars : VarsOnly t s'
  ilaNames : s'.ilaNames = s.ilaNames ++ names
  idFuncMap : s'.idFuncMap = s.idFuncMap
  grows : s.Grows s'
  has : ∀ v, (∃ k, t.ila.Has k v) → (s'.Has v.id ↔ s.Has v.id ∨ D v)

variable {t : GraphTree} {s s' s'' : J2IDes} {v w : Var}

theorem Knows.has (h : s.Knows v w) : s.Has v.id := Entries.name_mem_of_lookup h

theorem Knows.grows (h : s.Knows v w) (hs : s.Grows s') : s'.Knows v w := hs _ _ h

theorem Tracks.grows {S : Kind → Var → Prop} {e : IlaData} (h : s.Tracks S e) (hs : s.Grows s') : s'.Tracks S e where
  here k v hv := by
    obtain ⟨w, hw, hknows⟩ := h.here k v hv
    exact ⟨w, hw, hknows.grows hs⟩
  only k w hw := by
    obtain ⟨v, hv, hknows⟩ := h.only k w hw
    exact ⟨v, hv, hknows.grows hs⟩

theorem After.trans {names names' : List String} {D D' : Var → Prop} (h : After t s s' names D)
    (h' : After t s' s'' names' D') : After t s s'' (names ++ names') fun v => D v ∨ D' v where
  vars := h'.vars
  ilaNames := by rw [h'.ilaNames, h.ilaNames, List.append_assoc]
  idFuncMap := h'.idFuncMap.trans h.idFuncMap
  grows q x hx := h'.grows q x (h.grows q x hx)
  has v hv := by rw [h'.has v hv, h.has v hv, or_assoc]

theorem After.congr {names : List String} {D D' : Var → Prop} (h : After t s s' names D) (hD : ∀ v, D v ↔ D' v) :
    After t s s' names D' := by
  obtain rfl : D = D' := funext fun v => propext (hD v)
  exact h

section VarUnit

/-- The variables of an ILA that are there after a part of the file: those of its parent, and those that were met. -/
def met (g : IlaGraph) (P : Kind → Var → Prop) (pre : List Node) (k : Kind) (v : Var) : Prop :=
  v ∈ g.data.vars k ∧ (P k v ∨ .ofVar v ∈ pre)

/-- The loop of `DesVarUnit` after a part of the file. -/
structure VarLoop (t : GraphTree) (g : IlaGraph) (P : Kind → Var → Prop) (s : J2IDes) (pre : List Node)
    (r : IlaData × J2IDes) : Prop where
  after : After t s r.2 [g.data.name] fun v => ∃ k, v ∈ g.data.vars k ∧ .ofVar v ∈ pre
  tracks : r.2.Tracks (met g P pre) r.1
  blank : Blank g r.1

variable {g : IlaGraph} {P : Kind → Var → Prop} {pre : List Node} {r : IlaData × J2IDes} {m : Node} {k : Kind}

theorem met_concat : met g P (pre ++ [m]) k v ↔ met g P pre k v ∨ (v ∈ g.data.vars k ∧ .ofVar v = m) := by
  rw [met, met, List.mem_append, List.mem_singleton, ← or_assoc, and_or_left]

theorem VarLoop.skip (hl : VarLoop t g P s pre r) (hP : ∀ k v, P k v → s.Has v.id)
    (hm : ∀ k v, v ∈ g.data.vars k → .ofVar v = m → met g P pre k v) : VarLoop t g P s (pre ++ [m]) r where
  after := by
    obtain ⟨hvars, hnames, hfuncs, hgrows, hhas⟩ := hl.after
    refine ⟨hvars, hnames, hfuncs, hgrows, fun v hv => ?_⟩
    rw [hhas v hv]
    constructor
    · rintro (h | ⟨k, hk, hpre⟩)
      · exact .inl h
      · exact .inr ⟨k, hk, List.mem_append_left _ hpre⟩
    · rintro (h | ⟨k, hk, hpre⟩)
      · exact .inl h
      · rcases List.mem_append.mp hpre with hpre | hpre
        · exact .inr ⟨k, hk, hpre⟩
        · rcases (hm k v hk (List.mem_singleton.mp hpre)).2 with h | h
          · exact .inl (hP k v h)
          · exact .inr ⟨k, hk, h⟩
  tracks := by
    have hmet : met g P (pre ++ [m]) = met g P pre := by
      funext k v
      rw [met_concat, eq_iff_iff, or_iff_left_of_imp]
      exact fun h => hm k v h.1 h.2
    rw [hmet]
    exact hl.tracks
  blank := hl.blank

theorem VarsOnly.newVar (hs : VarsOnly t s) (hv : ∃ k, t.ila.Has k v) (hid : ∀ u, (∃ k, t.ila.Has k u) → u.id = v.id → u = v)
    (hname : w.name = v.name) (hsort : w.sort = v.sort) (hw : w.id = s.next) :
    VarsOnly t { s with next := s.next + 1, idExprMap := s.idExprMap ++ [(v.id, .var w)] } := by
  have hlookup {q : Nat} {x : Expr} (h : (s.idExprMap ++ [(v.id, Expr.var w)]).lookup q = some x) :
      s.idExprMap.lookup q = some x ∨ (q = v.id ∧ x = .var w) := (Entries.lookup_concat.mp h).imp_right And.right
  refine ⟨fun q x hx => ?_, fun u w' hu hknow => ?_, fun q q' x x' hx hx' heq => ?_⟩
  · rcases hlookup hx with hx | ⟨rfl, rfl⟩
    · exact hs.entry q x hx
    · exact ⟨v, w, hv, rfl, rfl⟩
  · rcases hlookup hknow with hold | ⟨huv, heq⟩
    · obtain ⟨hname, hsort, hlt⟩ := hs.var u w' hu hold
      exact ⟨hname, hsort, Nat.lt_succ_of_lt hlt⟩
    · rw [hid u hu huv, Expr.var.inj heq]
      exact ⟨hname, hsort, hw ▸ Nat.lt_succ_self _⟩
  · -- the new identity is above the old ones
    have hold {q : Nat} {x : Var} (h : s.idExprMap.lookup q = some (.var x)) : x.id ≠ w.id := by
      obtain ⟨u, w', hu, rfl, heq⟩ := hs.entry q _ h
      have hlt := (hs.var u x hu h).2.2
      omega
    rcases hlookup hx with hx | ⟨rfl, hxw⟩ <;> rcases hlookup hx' with hx' | ⟨rfl, hxw'⟩
    · exact hs.inj q q' x x' hx hx' heq
    · exact absurd (Expr.var.inj hxw' ▸ heq) (hold hx)
    · exact absurd (Expr.var.inj hxw ▸ heq).symm (hold hx')
    · rfl

theorem VarLoop.newVar (hl : VarLoop t g P s pre r) (hall : ∀ k, ∀ u ∈ g.data.vars k, t.ila.Has k u)
    (hkind : ∀ k', v ∈ g.data.vars k' → k' = k) (hv : v ∈ g.data.vars k)
    (hid : ∀ u, (∃ k, t.ila.Has k u) → u.id = v.id → u = v)
    (hnames : ((g.data.vars k).map Var.name).Nodup) (hnew : r.2.idExprMap.lookup v.id = none) :
    ∃ r', desExprVar k v.id v.name (serSort v.sort) r = some r' ∧ VarLoop t g P s (pre ++ [.ofVar v]) r' := by
  obtain ⟨e, s₁⟩ := r
  obtain ⟨⟨hvars, hilas, hfuncs, hgrows, hhas⟩, ⟨hhere, honly⟩, hblank⟩ := hl
  simp only at hvars hilas hfuncs hgrows hhas hhere honly hblank hnew
  let w : Var := ⟨s₁.next, v.name, some e.rootName, v.sort⟩
  let s₂ : J2IDes := { s₁ with next := s₁.next + 1, idExprMap := s₁.idExprMap ++ [(v.id, .var w)] }
  have hgrow : s₁.Grows s₂ := fun q x hx => Entries.lookup_concat.mpr (.inl hx)
  have hknows : s₂.Knows v w := Entries.lookup_concat.mpr (.inr ⟨hnew, rfl, rfl⟩)
  -- the name is not taken, since a variable of that name is there
  have hfree : w.name ∉ (e.vars k).map Var.name := by
    intro hmem
    obtain ⟨w', hw', hname⟩ := List.mem_map.mp hmem
    obtain ⟨u, hu, hknow⟩ := honly k w' hw'
    obtain ⟨hname', -, -⟩ := hvars.var u w' ⟨k, hall k u hu.1⟩ hknow
    have huv : u = v := List.inj_on_of_nodup_map hnames hu.1 hv (hname'.symm.trans hname)
    rw [huv, Knows, hnew] at hknow
    cases hknow
  have hadd : (e.addVar k w).vars k = e.vars k ++ [w] := by
    rw [Ila.addVar_vars, if_pos rfl, KeyVec.pushBack_of_notMem hfree]
  have hmem (k' : Kind) {x : Var} : x ∈ (e.addVar k w).vars k' ↔ x ∈ e.vars k' ∨ (k' = k ∧ x = w) := by
    by_cases hk : k' = k
    · rw [hk, hadd, List.mem_append, List.mem_singleton]
      simp
    · rw [Ila.addVar_vars, if_neg hk]
      simp [hk]
  have hmake : desExprVar k v.id v.name (serSort v.sort) (e, s₁) = some (e.addVar k w, s₂) := by
    rw [desExprVar, desSort_serSort]
    rfl
  refine ⟨(e.addVar k w, s₂), hmake, ⟨VarsOnly.newVar (w := w) hvars ⟨k, hall k v hv⟩ hid rfl rfl rfl, hilas, hfuncs, ?_, ?_⟩,
    ⟨?_, ?_⟩, ?_⟩
  · exact fun q x hx => hgrow q x (hgrows q x hx)
  · intro u hu
    have hkeys : s₂.Has u.id ↔ s₁.Has u.id ∨ u.id = v.id := by
      simp only [Has, s₂, List.map_append, List.mem_append, List.map_cons, List.map_nil, List.mem_singleton]
    rw [hkeys, hhas u hu, or_assoc]
    refine or_congr_right ?_
    simp only [List.mem_append, List.mem_singleton, and_or_left, exists_or]
    refine or_congr_right ⟨fun h => ?_, fun h => ?_⟩
    · rw [hid u hu h]
      exact ⟨k, hv, rfl⟩
    · obtain ⟨k', -, heq⟩ := h
      exact congrArg Node.ptr heq
  · intro k' u hu
    rcases met_concat.mp hu with hmet | ⟨huk, heq⟩
    · obtain ⟨w', hw', hknow⟩ := hhere k' u hmet
      exact ⟨w', (hmem k').mpr (.inl hw'), hknow.grows hgrow⟩
    · have huv : u = v := hid u ⟨k', hall k' u huk⟩ (congrArg Node.ptr heq)
      rw [huv] at huk ⊢
      exact ⟨w, (hmem k').mpr (.inr ⟨hkind k' huk, rfl⟩), hknows⟩
  · intro k' w' hw'
    rcases (hmem k').mp hw' with hw' | ⟨rfl, rfl⟩
    · obtain ⟨u, hu, hknow⟩ := honly k' w' hw'
      exact ⟨u, met_concat.mpr (.inl hu), hknow.grows hgrow⟩
    · exact ⟨v, met_concat.mpr (.inr ⟨hv, rfl⟩), hknows⟩
  · obtain ⟨hname, hinits, hinstrs⟩ := hblank
    cases k <;> exact ⟨hname, hinits, hinstrs⟩

theorem natAt_uid_leaf (p : Nat) (v : Var) : (nodeJson (.leaf p (.var v))).natAt "u" = some ExprTypeId.kVar := Json.natAt_object rfl

theorem natAt_uid_ne {m : Node} (hm : m.isVar = false) : ∃ uid, (nodeJson m).natAt "u" = some uid ∧ uid ≠ ExprTypeId.kVar := by
  cases m with
  | leaf p l =>
    cases l with
    | var v => cases hm
    | const c => exact ⟨ExprTypeId.kConst, Json.natAt_object rfl, by decide⟩
  | app p h args => cases h <;> exact ⟨ExprTypeId.kOp, Json.natAt_object rfl, by decide⟩

theorem VarLoop.step (h : Exportable t) (hl : VarLoop t g P s pre r) (hall : ∀ k, ∀ u ∈ g.data.vars k, t.ila.Has k u)
    (hnames : ∀ k, ((g.data.vars k).map Var.name).Nodup) (hP : ∀ k v, P k v → s.Has v.id)
    (hfresh : ∀ k, ∀ v ∈ g.data.vars k, s.Has v.id → P k v) (hm : m ∈ written t) :
    ∃ r', desVarAst (g.data.inputs.map Var.id) (g.data.states.map Var.id) r (nodeJson m) = some r' ∧
      VarLoop t g P s (pre ++ [m]) r' := by
  have hvisit := Exportable.mem_visits_of_written hm
  rw [desVarAst, natAt_nodeJson, Option.bind_some]
  cases hlookup : r.2.idExprMap.lookup m.ptr with
  | some x =>
    refine ⟨r, rfl, hl.skip hP fun k v hv heq => ⟨hv, ?_⟩⟩
    subst heq
    rcases (hl.after.has v ⟨k, hall k v hv⟩).mp (Entries.name_mem_of_lookup hlookup) with hold | ⟨-, -, hpre⟩
    · exact .inl (hfresh k v hv hold)
    · exact .inr hpre
  | none =>
    by_cases hvar : m.isVar = true
    swap
    · obtain ⟨uid, huid, hne⟩ := natAt_uid_ne (Bool.not_eq_true _ ▸ hvar)
      refine ⟨r, ?_, hl.skip hP fun k v _ heq => ?_⟩
      · change ((nodeJson m).natAt "u").bind _ = _
        rw [huid, Option.bind_some, if_neg hne]
      · rw [← heq] at hvar
        exact absurd rfl hvar
    obtain ⟨v, rfl, hv⟩ : ∃ v, m = .ofVar v ∧ ∃ k, t.ila.Has k v := by
      cases m with
      | app p hd args => cases hvar
      | leaf p l =>
        cases l with
        | const c => cases hvar
        | var v =>
          obtain ⟨n, hn, hsub⟩ := mem_visits.mp hvisit
          obtain ⟨rfl, hv⟩ := h.vars n hn p v hsub
          exact ⟨v, rfl, hv⟩
    have hid (u : Var) (hu : ∃ k, t.ila.Has k u) (heq : u.id = v.id) : u = v := h.eq_of_id hu hv heq
    have hkind {k k' : Kind} (hk : v ∈ g.data.vars k) (hk' : v ∈ g.data.vars k') : k' = k :=
      h.kind_unique (hall k' v hk') (hall k v hk)
    have hmem (k : Kind) : v.id ∈ (g.data.vars k).map Var.id ↔ v ∈ g.data.vars k := by
      constructor
      · intro hin
        obtain ⟨u, hu, heq⟩ := List.mem_map.mp hin
        rw [← hid u ⟨k, hall k u hu⟩ heq]
        exact hu
      · exact fun hin => List.mem_map_of_mem hin
    have hname : (nodeJson (.ofVar v)).strAt "n" = some v.name := Json.strAt_object rfl
    have hsort : (nodeJson (.ofVar v)).field "s" = some (serSort v.sort) := Json.field_object.trans rfl
    change ∃ r', ((nodeJson (.ofVar v)).natAt "u").bind _ = some r' ∧ _
    rw [Node.ofVar, natAt_uid_leaf, Option.bind_some, if_pos rfl]
    change ∃ r', ((nodeJson (.ofVar v)).strAt "n").bind (fun name => ((nodeJson (.ofVar v)).field "s").bind fun sort =>
      if v.id ∈ (g.data.vars .state).map Var.id then desExprVar .state v.id name sort r
      else if v.id ∈ (g.data.vars .input).map Var.id then desExprVar .input v.id name sort r else some r) = some r' ∧ _
    rw [hname, Option.bind_some, hsort, Option.bind_some]
    simp only [hmem]
    split
    · rename_i hstate
      exact hl.newVar hall (fun k' => hkind hstate) hstate hid (hnames _) hlookup
    · rename_i hstate
      split
      · rename_i hinput
        exact hl.newVar hall (fun k' => hkind hinput) hinput hid (hnames _) hlookup
      · rename_i hinput
        refine ⟨r, rfl, hl.skip hP fun k u hu heq => ?_⟩
        obtain rfl : u = v := hid u ⟨k, hall k u hu⟩ (congrArg Node.ptr heq)
        cases k
        · exact absurd hu hinput
        · exact absurd hu hstate

end VarUnit

theorem Founded.grows {g : IlaGraph} {e : IlaData} (h : s.Founded g e) (hs : s.Grows s') : s'.Founded g e :=
  ⟨h.1.grows hs, h.2⟩

theorem Rel.name {t : GraphTree} {r : Ila} (h : t.Rel s.Founded r) : r.data.name = t.graph.data.name := by
  cases t
  cases r
  exact h.1.2.name

end J2IDes

end Ilang
