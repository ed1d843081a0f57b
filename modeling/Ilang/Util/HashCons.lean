import Ilang.Util.Container
import Mathlib.Logic.Function.Basic

/-!
# Sharing nodes of a graph in place

Nodes live in a heap and refer to their arguments by pointers. A manager keeps one representative for every key, where
the key of a node is computed from its label and the pointers of its arguments, and from its own pointer for labels
that are not shared. Nodes are visited in post-order; a visit points the arguments of a node to their representatives,
in place, and makes the node the representative of its key if there is none.

What a pointer stands for is the tree below it (`Shape`), in which pointers remain only where nodes are not shared.
Pointing an argument to another node of the same shape changes no shape, so the shapes are the invariant that carries
everything: a node is never changed once its arguments are representatives, and two representatives of one shape are
one node.
-/

namespace HashCons

structure Cell (L : Type) where
  label : L
  args : List Nat

inductive Shape (L : Type) where
  | node (label : L) (id : Option Nat) (args : List (Shape L))

/-- The keys, and the labels whose nodes are equal to themselves only. The keys tell nodes apart that are legal: a label
may be tied to its pointer and to a number of arguments. -/
structure Scheme (L K : Type) where
  ident : L → Bool
  legal : Nat → L → Nat → Prop
  key : Nat → Cell L → K
  key_eq_iff : ∀ {p q c d}, legal p c.label c.args.length → legal q d.label d.args.length →
    (key p c = key q d ↔ c = d ∧ (ident c.label = true → p = q))

structure Mngr (L K : Type) where
  heap : Nat → Option (Cell L)
  map : K → Option Nat

variable {L K : Type}

namespace Mngr

def empty : Mngr L K := ⟨fun _ => none, fun _ => none⟩

/-- A node is created. -/
def alloc (m : Mngr L K) (p : Nat) (c : Cell L) : Mngr L K := { m with heap := Function.update m.heap p (some c) }

variable (S : Scheme L K)

/-- The entry for a node as it is. -/
def find (m : Mngr L K) (p : Nat) : Option Nat := (m.heap p).bind fun c => m.map (S.key p c)

variable [DecidableEq K]

/-- What is done at a node when its arguments have been visited. -/
def share (m : Mngr L K) (p : Nat) : Option (Mngr L K) :=
  (m.heap p).bind fun c => (c.args.mapM (m.find S)).map fun reps =>
    let c' : Cell L := { c with args := reps }
    let k := S.key p c'
    { heap := Function.update m.heap p (some c')
      map := if (m.map k).isSome then m.map else Function.update m.map k (some p) }

/-- The visit in post-order. The fuel bounds the depth. -/
def visit : Nat → Nat → Mngr L K → Option (Mngr L K)
  | 0, _, _ => none
  | fuel + 1, p, m => (m.heap p).bind fun c => (c.args.foldlM (fun m a => visit fuel a m) m).bind fun m' => share S m' p

def visitArgs (fuel : Nat) (as : List Nat) (m : Mngr L K) : Option (Mngr L K) :=
  as.foldlM (fun m a => visit S fuel a m) m

theorem visit_succ (fuel p : Nat) (m : Mngr L K) : visit S (fuel + 1) p m =
    (m.heap p).bind fun c => (visitArgs S fuel c.args m).bind fun m' => share S m' p := rfl

theorem visitArgs_nil (fuel : Nat) (m : Mngr L K) : visitArgs S fuel [] m = some m := rfl

theorem visitArgs_cons (fuel a : Nat) (as : List Nat) (m : Mngr L K) :
    visitArgs S fuel (a :: as) m = (visit S fuel a m).bind fun m' => visitArgs S fuel as m' := by
  simp [visitArgs, List.foldlM_cons]

/-- The representative of a node. -/
def getRep (fuel p : Nat) (m : Mngr L K) : Option (Nat × Mngr L K) :=
  (visit S fuel p m).bind fun m' => (m'.find S p).map fun r => (r, m')

end Mngr

namespace Shape

@[elab_as_elim]
theorem ind {P : Shape L → Prop} (node : ∀ l id args, (∀ a ∈ args, P a) → P (.node l id args)) : ∀ t, P t
  | .node l id args => node l id args fun a _ => ind node a

mutual

def height : Shape L → Nat
  | .node _ _ args => heightList args + 1

def heightList : List (Shape L) → Nat
  | [] => 0
  | a :: as => max (height a) (heightList as)

end

theorem height_le_heightList {a : Shape L} {as : List (Shape L)} (h : a ∈ as) : a.height ≤ heightList as := by
  induction as with
  | nil => simp at h
  | cons b bs ih =>
    rw [heightList]
    rcases List.mem_cons.mp h with rfl | h
    · exact Nat.le_max_left _ _
    · exact Nat.le_trans (ih h) (Nat.le_max_right _ _)

end Shape

/-! ### Shapes -/

/-- The tree that a pointer stands for. -/
inductive Unfolds (S : Scheme L K) (heap : Nat → Option (Cell L)) : Nat → Shape L → Prop
  | mk {p : Nat} {c : Cell L} {ts : List (Shape L)} : heap p = some c → List.Forall₂ (Unfolds S heap) c.args ts →
    Unfolds S heap p (.node c.label (if S.ident c.label then some p else none) ts)

variable {S : Scheme L K} {heap : Nat → Option (Cell L)}

theorem Unfolds.inv {p : Nat} {t : Shape L} (h : Unfolds S heap p t) : ∃ c ts, heap p = some c ∧
    List.Forall₂ (Unfolds S heap) c.args ts ∧ t = .node c.label (if S.ident c.label then some p else none) ts := by
  cases h with
  | mk hc hargs => exact ⟨_, _, hc, hargs, rfl⟩

theorem forall₂_unique {as : List Nat} {ts us : List (Shape L)}
    (ih : ∀ t ∈ ts, ∀ a u, Unfolds S heap a t → Unfolds S heap a u → t = u)
    (h : List.Forall₂ (Unfolds S heap) as ts) (h' : List.Forall₂ (Unfolds S heap) as us) : ts = us := by
  induction h generalizing us with
  | nil =>
    cases h'
    rfl
  | @cons a t as ts hat _ ihs =>
    cases h' with
    | @cons _ u _ us' hau htail =>
      rw [ih t List.mem_cons_self a u hat hau, ihs (fun s hs => ih s (List.mem_cons_of_mem t hs)) htail]

theorem Unfolds.unique {p : Nat} {t u : Shape L} (h : Unfolds S heap p t) (h' : Unfolds S heap p u) : t = u := by
  induction t using Shape.ind generalizing p u with
  | node l id args ih =>
    obtain ⟨c, ts, hc, hargs, ht⟩ := h.inv
    obtain ⟨d, us, hd, hargs', rfl⟩ := h'.inv
    rw [hc, Option.some.injEq] at hd
    subst hd
    obtain ⟨rfl, rfl, rfl⟩ : l = c.label ∧ id = (if S.ident c.label then some p else none) ∧ args = ts := by
      simpa using ht
    rw [forall₂_unique (fun s hs a u ha hu => ih s hs ha hu) hargs hargs']

theorem Unfolds.transfer {heap' : Nat → Option (Cell L)}
    (h : ∀ q c, heap q = some c → ∃ c', heap' q = some c' ∧ c'.label = c.label ∧
      ∀ ts, List.Forall₂ (Unfolds S heap) c.args ts → List.Forall₂ (Unfolds S heap) c'.args ts)
    {p : Nat} {t : Shape L} (hp : Unfolds S heap p t) : Unfolds S heap' p t := by
  induction t using Shape.ind generalizing p with
  | node l id args ih =>
    obtain ⟨c, ts, hc, hargs, ht⟩ := hp.inv
    obtain ⟨rfl, rfl, rfl⟩ : l = c.label ∧ id = (if S.ident c.label then some p else none) ∧ args = ts := by
      simpa using ht
    obtain ⟨c', hc', hlabel, hsame⟩ := h p c hc
    have hall : ∀ as, List.Forall₂ (Unfolds S heap) as args → List.Forall₂ (Unfolds S heap') as args := by
      intro as has
      clear ht hp hargs hsame
      induction has with
      | nil => exact .nil
      | cons hhead _ iht =>
        exact .cons (ih _ List.mem_cons_self hhead) (iht fun s hs => ih s (List.mem_cons_of_mem _ hs))
    rw [← hlabel]
    exact .mk hc' (hall _ (hsame args hargs))

/-! ### Representatives -/

variable {m m' : Mngr L K}

/-- A node that is the entry of its own key. -/
def Rep (S : Scheme L K) (m : Mngr L K) (p : Nat) : Prop := m.find S p = some p

/-- A node that has been visited: its arguments are representatives, and its key has an entry. -/
structure Visited (S : Scheme L K) (m : Mngr L K) (p : Nat) : Prop where
  args : ∀ c, m.heap p = some c → ∀ a ∈ c.args, Rep S m a
  entry : ∃ r, m.find S p = some r

structure Inv (S : Scheme L K) (m : Mngr L K) : Prop where
  legal : ∀ p c, m.heap p = some c → S.legal p c.label c.args.length
  total : ∀ p c, m.heap p = some c → ∃ t, Unfolds S m.heap p t
  /-- An entry is under its key, and has been visited. -/
  key : ∀ k r, m.map k = some r → ∃ c, m.heap r = some c ∧ S.key r c = k
  args : ∀ k r, m.map k = some r → ∀ c, m.heap r = some c → ∀ a ∈ c.args, Rep S m a

/-- What no operation of the manager undoes. -/
structure Extends (S : Scheme L K) (m m' : Mngr L K) : Prop where
  shape : ∀ p t, Unfolds S m.heap p t → Unfolds S m'.heap p t
  map : ∀ k r, m.map k = some r → m'.map k = some r
  cell : ∀ p, Visited S m p → m'.heap p = m.heap p

theorem find_eq_some_iff {p r : Nat} : m.find S p = some r ↔ ∃ c, m.heap p = some c ∧ m.map (S.key p c) = some r :=
  Option.bind_eq_some_iff

namespace Inv

theorem rep (hinv : Inv S m) {k : K} {r : Nat} (h : m.map k = some r) : Rep S m r := by
  obtain ⟨c, hc, hk⟩ := hinv.key k r h
  exact find_eq_some_iff.mpr ⟨c, hc, by rw [hk]; exact h⟩

theorem visited_rep (hinv : Inv S m) {r : Nat} (h : Rep S m r) : Visited S m r := by
  obtain ⟨c, -, hmap⟩ := find_eq_some_iff.mp h
  exact ⟨hinv.args _ r hmap, r, h⟩

theorem find_shape (hinv : Inv S m) {p r : Nat} (h : m.find S p = some r) {t : Shape L} (hp : Unfolds S m.heap p t) :
    Rep S m r ∧ Unfolds S m.heap r t := by
  obtain ⟨c, hc, hmap⟩ := find_eq_some_iff.mp h
  obtain ⟨d, hd, hkey⟩ := hinv.key _ r hmap
  obtain ⟨rfl, hident⟩ := (S.key_eq_iff (hinv.legal r d hd) (hinv.legal p c hc)).mp hkey
  refine ⟨hinv.rep hmap, ?_⟩
  obtain ⟨c', ts, hc', hargs, rfl⟩ := hp.inv
  rw [hc, Option.some.injEq] at hc'
  subst hc'
  have hid : (if S.ident d.label then some p else none) = if S.ident d.label then some r else none := by
    split
    · rename_i hi
      rw [hident hi]
    · rfl
  rw [hid]
  exact .mk hd hargs

theorem rep_unique (hinv : Inv S m) {r r' : Nat} (h : Rep S m r) (h' : Rep S m r') {t : Shape L}
    (ht : Unfolds S m.heap r t) (ht' : Unfolds S m.heap r' t) : r = r' := by
  induction t using Shape.ind generalizing r r' with
  | node l id args ih =>
    obtain ⟨c, hc, hmap⟩ := find_eq_some_iff.mp h
    obtain ⟨d, hd, hmap'⟩ := find_eq_some_iff.mp h'
    obtain ⟨c', ts, hc', hargs, heq⟩ := ht.inv
    obtain ⟨d', us, hd', hargs', heq'⟩ := ht'.inv
    rw [hc, Option.some.injEq] at hc'
    rw [hd, Option.some.injEq] at hd'
    subst hc' hd'
    obtain ⟨hl, hid, rfl⟩ : l = c.label ∧ id = (if S.ident c.label then some r else none) ∧ args = ts := by
      simpa using heq
    obtain ⟨hl', hid', rfl⟩ : l = d.label ∧ id = (if S.ident d.label then some r' else none) ∧ args = us := by
      simpa using heq'
    have hreps := hinv.args _ r hmap c hc
    have hreps' := hinv.args _ r' hmap' d hd
    have hsame : ∀ as bs, (∀ a ∈ as, Rep S m a) → (∀ b ∈ bs, Rep S m b) →
        List.Forall₂ (Unfolds S m.heap) as args → List.Forall₂ (Unfolds S m.heap) bs args → as = bs := by
      intro as bs has hbs hts hus
      clear heq heq' ht ht' hargs hargs'
      induction hts generalizing bs with
      | nil =>
        cases hus
        rfl
      | cons hhead _ ihs =>
        cases hus with
        | cons hhead' htail' =>
          rw [ih _ List.mem_cons_self (has _ List.mem_cons_self) (hbs _ List.mem_cons_self) hhead hhead']
          rw [ihs (fun t ht => ih t (List.mem_cons_of_mem _ ht)) _ (fun a ha => has a (List.mem_cons_of_mem _ ha))
            (fun b hb => hbs b (List.mem_cons_of_mem _ hb)) htail']
    have hcd : c = d := by
      have hlabel : c.label = d.label := hl.symm.trans hl'
      have hargsEq := hsame c.args d.args hreps hreps' hargs hargs'
      cases c
      cases d
      simp only at hlabel hargsEq
      rw [hlabel, hargsEq]
    subst hcd
    have hident : S.ident c.label = true → r = r' := by
      intro hi
      rw [hid, if_pos hi, if_pos hi] at hid'
      exact Option.some.inj hid'
    rw [(S.key_eq_iff (hinv.legal r c hc) (hinv.legal r' c hd)).mpr ⟨rfl, hident⟩, hmap'] at hmap
    exact (Option.some.inj hmap).symm

end Inv

namespace Extends

theorem refl (S : Scheme L K) (m : Mngr L K) : Extends S m m := ⟨fun _ _ h => h, fun _ _ h => h, fun _ _ => rfl⟩

theorem find (h : Extends S m m') {p r : Nat} (hvis : Visited S m p) (hfind : m.find S p = some r) :
    m'.find S p = some r := by
  obtain ⟨c, hc, hmap⟩ := find_eq_some_iff.mp hfind
  exact find_eq_some_iff.mpr ⟨c, by rw [h.cell p hvis, hc], h.map _ _ hmap⟩

theorem rep (h : Extends S m m') (hinv : Inv S m) {r : Nat} (hr : Rep S m r) : Rep S m' r :=
  h.find (hinv.visited_rep hr) hr

theorem visited (h : Extends S m m') (hinv : Inv S m) {p : Nat} (hvis : Visited S m p) : Visited S m' p := by
  refine ⟨fun c hc a ha => ?_, ?_⟩
  · rw [h.cell p hvis] at hc
    exact h.rep hinv (hvis.args c hc a ha)
  · obtain ⟨r, hr⟩ := hvis.entry
    exact ⟨r, h.find hvis hr⟩

theorem trans {m'' : Mngr L K} (hinv : Inv S m) (h : Extends S m m') (h' : Extends S m' m'') : Extends S m m'' :=
  ⟨fun p t ht => h'.shape p t (h.shape p t ht), fun k r hk => h'.map k r (h.map k r hk),
    fun p hvis => by rw [h'.cell p (h.visited hinv hvis), h.cell p hvis]⟩

end Extends

/-! ### The operations -/

theorem inv_empty (S : Scheme L K) : Inv S (Mngr.empty : Mngr L K) :=
  ⟨fun _ _ h => by simp [Mngr.empty] at h, fun _ _ h => by simp [Mngr.empty] at h,
    fun _ _ h => by simp [Mngr.empty] at h, fun _ _ h => by simp [Mngr.empty] at h⟩

theorem exists_unfolds {as : List Nat} (h : ∀ a ∈ as, ∃ t, Unfolds S heap a t) :
    ∃ ts, List.Forall₂ (Unfolds S heap) as ts := by
  induction as with
  | nil => exact ⟨[], .nil⟩
  | cons a as ih =>
    obtain ⟨t, ht⟩ := h a List.mem_cons_self
    obtain ⟨ts, hts⟩ := ih fun b hb => h b (List.mem_cons_of_mem a hb)
    exact ⟨t :: ts, .cons ht hts⟩

theorem alloc_spec (hinv : Inv S m) {p : Nat} {c : Cell L} (hfresh : m.heap p = none) (hlegal : S.legal p c.label c.args.length)
    (hargs : ∀ a ∈ c.args, m.heap a ≠ none) : Inv S (m.alloc p c) ∧ Extends S m (m.alloc p c) := by
  have hself : (m.alloc p c).heap p = some c := by simp [Mngr.alloc]
  have hother : ∀ q, q ≠ p → (m.alloc p c).heap q = m.heap q := fun q hq => by simp [Mngr.alloc, hq]
  have hkept : ∀ q d, m.heap q = some d → (m.alloc p c).heap q = some d := by
    intro q d hq
    rw [hother q (fun hqp => by rw [hqp, hfresh] at hq; cases hq)]
    exact hq
  have hext : Extends S m (m.alloc p c) := by
    refine ⟨fun q t ht => ht.transfer fun q d hq => ⟨d, hkept q d hq, rfl, fun ts hts => hts⟩, fun k r hk => hk,
      fun q hvis => ?_⟩
    obtain ⟨r, hr⟩ := hvis.entry
    obtain ⟨d, hd, -⟩ := find_eq_some_iff.mp hr
    rw [hkept q d hd, hd]
  refine ⟨⟨fun q d hq => ?_, fun q d hq => ?_, fun k r hk => ?_, fun k r hk d hr a ha => ?_⟩, hext⟩
  · by_cases hqp : q = p
    · subst hqp
      rw [hself, Option.some.injEq] at hq
      exact hq ▸ hlegal
    · exact hinv.legal q d (by rw [← hother q hqp]; exact hq)
  · by_cases hqp : q = p
    · subst hqp
      have hall : ∀ a ∈ c.args, ∃ t, Unfolds S (m.alloc q c).heap a t := by
        intro a ha
        obtain ⟨d', hd'⟩ := Option.ne_none_iff_exists'.mp (hargs a ha)
        obtain ⟨t, ht⟩ := hinv.total a d' hd'
        exact ⟨t, hext.shape a t ht⟩
      obtain ⟨ts, hts⟩ := exists_unfolds hall
      exact ⟨_, .mk hself hts⟩
    · obtain ⟨t, ht⟩ := hinv.total q d (by rw [← hother q hqp]; exact hq)
      exact ⟨t, hext.shape q t ht⟩
  · obtain ⟨d, hd, hkey⟩ := hinv.key k r hk
    exact ⟨d, hkept r d hd, hkey⟩
  · obtain ⟨d', hd', -⟩ := hinv.key k r hk
    rw [hkept r d' hd', Option.some.injEq] at hr
    exact hext.rep hinv (hinv.args k r hk d' hd' a (by rw [hr]; exact ha))

theorem rep_of_find {as reps : List Nat} (hinv : Inv S m)
    (h : List.Forall₂ (fun a r => m.find S a = some r) as reps) : ∀ r ∈ reps, Rep S m r := by
  induction h with
  | nil => simp
  | cons hfind _ ih =>
    intro r hr
    rcases List.mem_cons.mp hr with rfl | hr
    · obtain ⟨c, -, hmap⟩ := find_eq_some_iff.mp hfind
      exact hinv.rep hmap
    · exact ih r hr

theorem unfolds_of_find {as reps : List Nat} (hinv : Inv S m)
    (h : List.Forall₂ (fun a r => m.find S a = some r) as reps) {ts : List (Shape L)}
    (hts : List.Forall₂ (Unfolds S m.heap) as ts) : List.Forall₂ (Unfolds S m.heap) reps ts := by
  induction h generalizing ts with
  | nil =>
    cases hts
    exact .nil
  | cons hfind _ ih =>
    cases hts with
    | cons hhead htail => exact .cons (hinv.find_shape hfind hhead).2 (ih htail)

theorem eq_of_find_rep {as reps : List Nat} (h : List.Forall₂ (fun a r => m.find S a = some r) as reps)
    (hrep : ∀ a ∈ as, Rep S m a) : reps = as := by
  induction h with
  | nil => rfl
  | cons hfind _ ih =>
    have hself := hrep _ List.mem_cons_self
    rw [Rep, hfind, Option.some.injEq] at hself
    rw [hself, ih fun a ha => hrep a (List.mem_cons_of_mem _ ha)]

variable [DecidableEq K]

/-- Nodes above some height are not touched. -/
def Below (S : Scheme L K) (n : Nat) (m m' : Mngr L K) : Prop :=
  ∀ q u, Unfolds S m.heap q u → n < u.height → m'.heap q = m.heap q

theorem share_spec (hinv : Inv S m) {p : Nat} {c : Cell L} (hc : m.heap p = some c)
    (hargs : ∀ a ∈ c.args, Visited S m a) :
    ∃ m', Mngr.share S m p = some m' ∧ Inv S m' ∧ Extends S m m' ∧ Visited S m' p ∧
      ∀ q, q ≠ p → m'.heap q = m.heap q := by
  obtain ⟨reps, hreps⟩ := MapM.exists_eq_some fun a ha => (hargs a ha).entry
  have hfind := MapM.eq_some_iff.mp hreps
  have hrepsRep := rep_of_find hinv hfind
  let c' : Cell L := { c with args := reps }
  let k := S.key p c'
  let m' : Mngr L K :=
    { heap := Function.update m.heap p (some c')
      map := if (m.map k).isSome then m.map else Function.update m.map k (some p) }
  have hshare : Mngr.share S m p = some m' := by
    rw [Mngr.share, hc, Option.bind_some, hreps]
    rfl
  have hself : m'.heap p = some c' := Function.update_self p (some c') m.heap
  have hother : ∀ q, q ≠ p → m'.heap q = m.heap q := fun q hq => Function.update_of_ne hq (some c') m.heap
  have hmapEq : ∀ k' r, m'.map k' = some r ↔ m.map k' = some r ∨ (m.map k = none ∧ k' = k ∧ r = p) := by
    intro k' r
    change (if (m.map k).isSome then m.map else Function.update m.map k (some p)) k' = some r ↔ _
    cases hk : m.map k with
    | some r₀ => simp
    | none =>
      by_cases hkk : k' = k
      · subst hkk
        simp [hk, eq_comm]
      · simp [hkk]
  have hext : Extends S m m' := by
    refine ⟨fun q t ht => ht.transfer fun q c₀ hq => ?_, fun k' r hk => (hmapEq k' r).mpr (.inl hk), fun q hvis => ?_⟩
    · by_cases hqp : q = p
      · subst hqp
        rw [hc, Option.some.injEq] at hq
        subst hq
        exact ⟨c', hself, rfl, fun ts hts => unfolds_of_find hinv hfind hts⟩
      · exact ⟨c₀, by rw [hother q hqp, hq], rfl, fun ts hts => hts⟩
    · by_cases hqp : q = p
      · subst hqp
        rw [hself, hc]
        have heq := eq_of_find_rep hfind (hvis.args c hc)
        simp only [c', heq]
      · exact hother q hqp
  have hold : ∀ k' r, m.map k' = some r → m'.heap r = m.heap r := fun k' r hk =>
    hext.cell r (hinv.visited_rep (hinv.rep hk))
  refine ⟨m', hshare, ⟨fun q c₀ hq => ?_, fun q c₀ hq => ?_, fun k' r hk => ?_, fun k' r hk c₀ hr a ha => ?_⟩, hext, ?_, hother⟩
  · by_cases hqp : q = p
    · subst hqp
      rw [hself, Option.some.injEq] at hq
      subst hq
      simp only [c', ← hfind.length_eq]
      exact hinv.legal q c hc
    · exact hinv.legal q c₀ (by rw [← hother q hqp]; exact hq)
  · obtain ⟨c₁, hc₁⟩ : ∃ c₁, m.heap q = some c₁ := by
      by_cases hqp : q = p
      · exact ⟨c, by rw [hqp]; exact hc⟩
      · exact ⟨c₀, by rw [← hother q hqp]; exact hq⟩
    obtain ⟨t, ht⟩ := hinv.total q c₁ hc₁
    exact ⟨t, hext.shape q t ht⟩
  · rcases (hmapEq k' r).mp hk with hk | ⟨-, rfl, rfl⟩
    · obtain ⟨c₀, hc₀, hkey⟩ := hinv.key k' r hk
      exact ⟨c₀, by rw [hold k' r hk]; exact hc₀, hkey⟩
    · exact ⟨c', hself, rfl⟩
  · rcases (hmapEq k' r).mp hk with hk | ⟨-, -, rfl⟩
    · rw [hold k' r hk] at hr
      exact hext.rep hinv (hinv.args k' r hk c₀ hr a ha)
    · rw [hself, Option.some.injEq] at hr
      subst hr
      exact hext.rep hinv (hrepsRep a ha)
  · refine ⟨fun c₀ hp a ha => ?_, ?_⟩
    · rw [hself, Option.some.injEq] at hp
      subst hp
      exact hext.rep hinv (hrepsRep a ha)
    · cases hk : m.map k with
      | some r => exact ⟨r, find_eq_some_iff.mpr ⟨c', hself, (hmapEq k r).mpr (.inl hk)⟩⟩
      | none => exact ⟨p, find_eq_some_iff.mpr ⟨c', hself, (hmapEq k p).mpr (.inr ⟨hk, rfl, rfl⟩)⟩⟩

/-- What a visit does: it returns, the node has been visited, and the nodes above are as they were. -/
def VisitOk (S : Scheme L K) (fuel n : Nat) (m : Mngr L K) (p : Nat) : Prop :=
  ∃ m', Mngr.visit S fuel p m = some m' ∧ Inv S m' ∧ Extends S m m' ∧ Visited S m' p ∧ Below S n m m'

theorem visitArgs_spec {fuel n : Nat} {ts : List (Shape L)}
    (ih : ∀ t ∈ ts, ∀ (m : Mngr L K) a, Inv S m → Unfolds S m.heap a t → VisitOk S fuel n m a) (hinv : Inv S m)
    {as : List Nat} (has : List.Forall₂ (Unfolds S m.heap) as ts) :
    ∃ m', Mngr.visitArgs S fuel as m = some m' ∧ Inv S m' ∧ Extends S m m' ∧ (∀ a ∈ as, Visited S m' a) ∧
      Below S n m m' := by
  induction ts generalizing m as with
  | nil =>
    cases has
    exact ⟨m, Mngr.visitArgs_nil S fuel m, hinv, .refl S m, by simp, fun _ _ _ _ => rfl⟩
  | cons t ts ihs =>
    cases has with
    | @cons a _ as' _ hat htail =>
      obtain ⟨m₁, hm₁, hinv₁, hext₁, hvis₁, hbelow₁⟩ := ih t List.mem_cons_self m a hinv hat
      have htail₁ : List.Forall₂ (Unfolds S m₁.heap) as' ts := htail.imp fun _ _ h => hext₁.shape _ _ h
      obtain ⟨m₂, hm₂, hinv₂, hext₂, hvis₂, hbelow₂⟩ := ihs (fun u hu => ih u (List.mem_cons_of_mem t hu)) hinv₁ htail₁
      refine ⟨m₂, by rw [Mngr.visitArgs_cons, hm₁, Option.bind_some, hm₂], hinv₂, hext₁.trans hinv hext₂, ?_, ?_⟩
      · intro b hb
        rcases List.mem_cons.mp hb with rfl | hb
        · exact hext₂.visited hinv₁ hvis₁
        · exact hvis₂ b hb
      · intro q u hu hn
        rw [hbelow₂ q u (hext₁.shape q u hu) hn, hbelow₁ q u hu hn]

theorem visit_spec (hinv : Inv S m) {p fuel : Nat} {t : Shape L} (hp : Unfolds S m.heap p t) (hfuel : t.height ≤ fuel) :
    VisitOk S fuel t.height m p := by
  induction t using Shape.ind generalizing m p fuel with
  | node l id args ih =>
    cases fuel with
    | zero => simp [Shape.height] at hfuel
    | succ fuel =>
      rw [Shape.height, Nat.succ_le_succ_iff] at hfuel
      obtain ⟨c, ts, hc, hargs, ht⟩ := hp.inv
      obtain ⟨-, -, rfl⟩ : l = c.label ∧ id = (if S.ident c.label then some p else none) ∧ args = ts := by
        simpa using ht
      have hchild : ∀ u ∈ args, ∀ (m : Mngr L K) a, Inv S m → Unfolds S m.heap a u →
          VisitOk S fuel (Shape.heightList args) m a := by
        intro u hu m a hm hau
        have hle := Shape.height_le_heightList hu
        obtain ⟨m', hm', hinv', hext', hvis', hbelow'⟩ := ih u hu hm hau (Nat.le_trans hle hfuel)
        exact ⟨m', hm', hinv', hext', hvis', fun q v hv hn => hbelow' q v hv (Nat.lt_of_le_of_lt hle hn)⟩
      obtain ⟨m₁, hm₁, hinv₁, hext₁, hvis₁, hbelow₁⟩ := visitArgs_spec hchild hinv hargs
      -- The node itself is higher than its arguments, so it still has the arguments that were visited.
      have hc₁ : m₁.heap p = some c := by
        rw [hbelow₁ p _ hp (by rw [Shape.height]; exact Nat.lt_succ_self _), hc]
      obtain ⟨m₂, hm₂, hinv₂, hext₂, hvis₂, hother⟩ := share_spec hinv₁ hc₁ hvis₁
      refine ⟨m₂, by rw [Mngr.visit_succ, hc, Option.bind_some, hm₁, Option.bind_some, hm₂], hinv₂, hext₁.trans hinv hext₂,
        hvis₂, fun q u hu hn => ?_⟩
      have hqp : q ≠ p := by
        rintro rfl
        rw [hu.unique hp] at hn
        exact Nat.lt_irrefl _ hn
      rw [Shape.height] at hn
      rw [hother q hqp, hbelow₁ q u hu (Nat.lt_of_succ_lt hn)]

theorem visitArgs_mono {fuel fuel' : Nat}
    (ih : ∀ p (m m' : Mngr L K), Mngr.visit S fuel p m = some m' → Mngr.visit S fuel' p m = some m') {as : List Nat}
    (h : Mngr.visitArgs S fuel as m = some m') : Mngr.visitArgs S fuel' as m = some m' := by
  induction as generalizing m with
  | nil => exact h
  | cons a as ihs =>
    rw [Mngr.visitArgs_cons, Option.bind_eq_some_iff] at h
    obtain ⟨m₁, hm₁, hm'⟩ := h
    rw [Mngr.visitArgs_cons, ih a m m₁ hm₁, Option.bind_some, ihs hm']

theorem visit_mono {fuel fuel' p : Nat} (hle : fuel ≤ fuel') (h : Mngr.visit S fuel p m = some m') :
    Mngr.visit S fuel' p m = some m' := by
  induction fuel generalizing fuel' p m m' with
  | zero => simp [Mngr.visit] at h
  | succ fuel ih =>
    obtain ⟨fuel', rfl⟩ : ∃ n, fuel' = n + 1 := ⟨fuel' - 1, by omega⟩
    rw [Mngr.visit_succ, Option.bind_eq_some_iff] at h
    obtain ⟨c, hc, hrest⟩ := h
    obtain ⟨m₁, hm₁, hm'⟩ := Option.bind_eq_some_iff.mp hrest
    rw [Mngr.visit_succ, hc, Option.bind_some,
      visitArgs_mono (fun q n n' hn => ih (Nat.le_of_succ_le_succ hle) hn) hm₁, Option.bind_some, hm']

theorem getRep_mono {fuel fuel' p r : Nat} (hle : fuel ≤ fuel') (h : Mngr.getRep S fuel p m = some (r, m')) :
    Mngr.getRep S fuel' p m = some (r, m') := by
  rw [Mngr.getRep, Option.bind_eq_some_iff] at h
  obtain ⟨m₁, hm₁, hrest⟩ := h
  rw [Mngr.getRep, visit_mono hle hm₁, Option.bind_some, hrest]

theorem getRep_spec (hinv : Inv S m) {p fuel : Nat} {t : Shape L} (hp : Unfolds S m.heap p t) (hfuel : t.height ≤ fuel) :
    ∃ r m', Mngr.getRep S fuel p m = some (r, m') ∧ Inv S m' ∧ Extends S m m' ∧ Rep S m' r ∧ Unfolds S m'.heap r t ∧
      (Rep S m p → r = p) := by
  obtain ⟨m', hm', hinv', hext, hvis, -⟩ := visit_spec hinv hp hfuel
  obtain ⟨r, hr⟩ := hvis.entry
  obtain ⟨hrep, hshape⟩ := hinv'.find_shape hr (hext.shape p t hp)
  refine ⟨r, m', by rw [Mngr.getRep, hm', Option.bind_some, hr, Option.map_some], hinv', hext, hrep, hshape, fun h => ?_⟩
  have hself := hext.rep hinv h
  rw [Rep, hr, Option.some.injEq] at hself
  exact hself

end HashCons
