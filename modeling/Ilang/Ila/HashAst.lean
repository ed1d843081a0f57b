import Ilang.Ila.Ast
import Ilang.Util.HashCons
import Ilang.Util.Name
import Mathlib.Logic.Relation

/-!
# Sharing of expressions

`ExprMngr` keeps one node for every expression, up to its structure. The nodes are shared objects: a node holds the
pointers of its arguments, and a visit replaces them in place by the representatives. A representative is found under
a text that is made from the sort, the operator, the identifiers of the arguments and the parameters of the node, so
everything rests on two nodes never having one text by accident.

Identifiers come from one counter (`Symbol::counter_`), and stand for the pointers here.
-/

namespace Ilang

open Smt HashCons Relation

/-! ### Nodes -/

/-- A node without arguments. -/
inductive AstLeaf where
  | var (name : String) (host : Option String) (sort : Srt)
  | const (c : ConstVal)
  deriving DecidableEq, Repr

/-- What a node holds apart from its arguments. The sort of an operation is the one its constructor recorded, and a
function is known by its identifier. -/
inductive Label where
  | leaf (l : AstLeaf)
  | op (o : ExprOp) (sort : Srt)
  | appFunc (func : Nat) (sort : Srt)
  deriving DecidableEq, Repr

/-- The variables, constants and functions by their identifiers, none of which is given twice. -/
structure Objects where
  leaf : Nat → AstLeaf
  func : Nat → Func

def AstLeaf.sort : AstLeaf → Srt
  | .var _ _ s => s
  | .const c => c.sort

/-- `Expr::sort`. -/
def Label.sort : Label → Srt
  | .leaf l => l.sort
  | .op _ s => s
  | .appFunc _ s => s

/-- A node is equal to itself only: the variables, and the memory constants, whose sharing is skipped. -/
def Label.ident : Label → Bool
  | .leaf (.var ..) => true
  | .leaf (.const (.mem ..)) => true
  | _ => false

mutual

/-- The expression that the tree below a node stands for. -/
def exprOf (O : Objects) : Shape Label → Expr
  | .node (.leaf (.var name host sort)) id _ => .var ⟨id.getD 0, name, host, sort⟩
  | .node (.leaf (.const c)) _ _ => .const c
  | .node (.op o _) _ args => .op o (exprOfList O args)
  | .node (.appFunc f _) _ args => .appFunc (O.func f) (exprOfList O args)

def exprOfList (O : Objects) : List (Shape Label) → List Expr
  | [] => []
  | a :: as => exprOf O a :: exprOfList O as

end

/-! ### The text of a node -/

/-- `AstUidExprOp`. -/
def ExprOp.uid : ExprOp → Nat
  | .neg => 1
  | .not => 2
  | .compl => 3
  | .and => 4
  | .or => 5
  | .xor => 6
  | .shl => 7
  | .ashr => 8
  | .lshr => 9
  | .add => 10
  | .sub => 11
  | .mul => 12
  | .eq => 13
  | .lt => 14
  | .gt => 15
  | .ult => 16
  | .ugt => 17
  | .load => 18
  | .store => 19
  | .concat => 20
  | .extract .. => 21
  | .zext _ => 22
  | .sext _ => 23
  | .imply => 25
  | .ite => 26
  | .div => 27
  | .lRotate _ => 28
  | .rRotate _ => 29
  | .srem => 30
  | .urem => 31
  | .smod => 32

/-- `AstUidExprOp::kApplyFunc`. -/
def uidApplyFunc : Nat := 24

def ExprOp.params : ExprOp → List Nat
  | .extract hi lo => [hi, lo]
  | .zext w | .sext w => [w]
  | .lRotate n | .rRotate n => [n]
  | _ => []

/-- `AstUidSort`. -/
def sortUid : Srt → Nat
  | .bool => 1
  | .bv _ => 2
  | .mem _ _ => 3

/-- `Sort::addr_width`. -/
def addrWidth : Srt → Nat
  | .mem a _ => a
  | _ => 0

/-- `GetSortHash`, with a zero for a width that the sort does not have. -/
def sortHash (s : Srt) : String :=
  toString (sortUid s) ++ "_" ++ toString (bitWidth s) ++ "_" ++ toString (addrWidth s) ++ "_" ++ toString (dataWidth s)

def valueText (p : Nat) : ConstVal → String
  | .bool b => if b then "TRUE" else "FALSE"
  | .bv x _ => toString x
  | .mem .. => toString p

/-- `ExprMngr::Hash`. -/
def hash (p : Nat) (c : Cell Label) : String :=
  match c.label with
  | .leaf (.var _ _ s) => "var" ++ "::" ++ sortHash s ++ "::" ++ toString p
  | .leaf (.const v) => "const" ++ "::" ++ sortHash v.sort ++ "::" ++ valueText p v
  | .op o s =>
    "op" ++ "::" ++ sortHash s ++ "::" ++ toString o.uid ++ "::" ++ Name.joinNat c.args ++ "::" ++ Name.joinNat o.params
  | .appFunc f s =>
    "op" ++ "::" ++ sortHash s ++ "::" ++ toString uidApplyFunc ++ "::" ++ Name.joinNat (c.args ++ [f]) ++ "::" ++
      Name.joinNat []

/-! ### Reading the text back -/

theorem ExprOp.uid_params_inj {o o' : ExprOp} (huid : o.uid = o'.uid) (hparams : o.params = o'.params) : o = o' := by
  cases o <;> cases o' <;> simp_all [ExprOp.uid, ExprOp.params]

theorem ExprOp.uid_ne_applyFunc (o : ExprOp) : o.uid ≠ uidApplyFunc := by
  cases o <;> simp [ExprOp.uid, uidApplyFunc]

theorem sortHash_inj {s s' : Srt} (h : sortHash s = sortHash s') : s = s' := by
  have hnum : ∀ n : Nat, '_' ∉ (toString n).toList := fun n => Name.underscore_notMem_toString (Int.ofNat n)
  unfold sortHash at h
  obtain ⟨h, hdata⟩ := Name.tagged_inj h (hnum _) (hnum _)
  obtain ⟨h, haddr⟩ := Name.tagged_inj h (hnum _) (hnum _)
  obtain ⟨huid, hbit⟩ := Name.tagged_inj h (hnum _) (hnum _)
  replace hdata := Name.toString_nat_inj hdata
  replace haddr := Name.toString_nat_inj haddr
  replace hbit := Name.toString_nat_inj hbit
  replace huid := Name.toString_nat_inj huid
  clear h hnum
  cases s <;> cases s' <;> simp_all [sortUid, bitWidth, addrWidth, dataWidth]

theorem colon_notMem_toString (n : Nat) : ':' ∉ (toString n).toList := fun h => by
  simpa using Name.isDigit_of_mem_toString h

theorem colon_notMem_joinNat (l : List Nat) : ':' ∉ (Name.joinNat l).toList := fun h => by
  rcases Name.isDigit_of_mem_joinNat h with h | h
  · simp at h
  · simp at h

theorem colon_notMem_sortHash (s : Srt) : ':' ∉ (sortHash s).toList := by
  simp only [sortHash, String.toList_append, List.mem_append, not_or]
  exact ⟨⟨⟨⟨⟨⟨colon_notMem_toString _, by decide⟩, colon_notMem_toString _⟩, by decide⟩, colon_notMem_toString _⟩, by decide⟩,
    colon_notMem_toString _⟩

theorem colon_notMem_valueText (p : Nat) (v : ConstVal) : ':' ∉ (valueText p v).toList := by
  cases v with
  | bool b => cases b <;> simp [valueText]
  | bv x w => exact colon_notMem_toString x
  | mem d m a w => exact colon_notMem_toString p

theorem fields_inj {b₁ b₂ t₁ t₂ : String} (h : b₁ ++ "::" ++ t₁ = b₂ ++ "::" ++ t₂) (h₁ : ':' ∉ t₁.toList)
    (h₂ : ':' ∉ t₂.toList) : b₁ = b₂ ∧ t₁ = t₂ :=
  Name.separated_inj (l := [':']) rfl h h₁ h₂

theorem opText_inj {s s' : Srt} {u u' : Nat} {as as' ps ps' : List Nat}
    (h : "op" ++ "::" ++ sortHash s ++ "::" ++ toString u ++ "::" ++ Name.joinNat as ++ "::" ++ Name.joinNat ps =
      "op" ++ "::" ++ sortHash s' ++ "::" ++ toString u' ++ "::" ++ Name.joinNat as' ++ "::" ++ Name.joinNat ps') :
    s = s' ∧ u = u' ∧ as = as' ∧ ps = ps' := by
  obtain ⟨h, hps⟩ := fields_inj h (colon_notMem_joinNat _) (colon_notMem_joinNat _)
  obtain ⟨h, has⟩ := fields_inj h (colon_notMem_joinNat _) (colon_notMem_joinNat _)
  obtain ⟨h, hu⟩ := fields_inj h (colon_notMem_toString _) (colon_notMem_toString _)
  obtain ⟨-, hs⟩ := fields_inj h (colon_notMem_sortHash _) (colon_notMem_sortHash _)
  exact ⟨sortHash_inj hs, Name.toString_nat_inj hu, Name.joinNat_inj has, Name.joinNat_inj hps⟩

theorem hash_head (p : Nat) (c : Cell Label) : (hash p c).toList.head? = some
    (match c.label with | .leaf (.var ..) => 'v' | .leaf (.const _) => 'c' | .op .. => 'o' | .appFunc .. => 'o') := by
  unfold hash
  split <;> simp [String.toList_append]

/-- The nodes that occur: a variable or a constant is the one of its identifier, and has no arguments. -/
def Objects.legal (O : Objects) (p : Nat) (l : Label) (arity : Nat) : Prop :=
  match l with
  | .leaf l => l = O.leaf p ∧ arity = 0
  | _ => True

theorem valueText_inj {p q : Nat} {v w : ConstVal} (hsort : v.sort = w.sort) (h : valueText p v = valueText q w)
    (hident : p = q → v = w) : v = w := by
  cases v <;> cases w <;> simp only [ConstVal.sort, reduceCtorEq, Srt.bv.injEq] at hsort
  case bool.bool a b => cases a <;> cases b <;> simp_all [valueText]
  case bv.bv x m y n =>
    rw [hsort, Name.toString_nat_inj (m := x) (n := y) h]
  case mem.mem => exact hident (Name.toString_nat_inj h)

theorem hash_inj {O : Objects} {p q : Nat} {c d : Cell Label} (hc : O.legal p c.label c.args.length)
    (hd : O.legal q d.label d.args.length) (h : hash p c = hash q d) : c = d ∧ (c.label.ident = true → p = q) := by
  have hhead := hash_head p c
  rw [h, hash_head q d] at hhead
  obtain ⟨l, as⟩ := c
  obtain ⟨l', as'⟩ := d
  match l, l' with
  | .leaf (.var n ho s), .leaf (.var n' ho' s') =>
    obtain ⟨-, hp⟩ := fields_inj h (colon_notMem_toString p) (colon_notMem_toString q)
    obtain rfl := Name.toString_nat_inj hp
    obtain ⟨hl, has⟩ := hc
    obtain ⟨hl', has'⟩ := hd
    obtain rfl : as = [] := List.length_eq_zero_iff.mp has
    obtain rfl : as' = [] := List.length_eq_zero_iff.mp has'
    rw [hl, hl']
    exact ⟨rfl, fun _ => rfl⟩
  | .leaf (.const v), .leaf (.const v') =>
    obtain ⟨hb, hv⟩ := fields_inj h (colon_notMem_valueText p v) (colon_notMem_valueText q v')
    obtain ⟨-, hs⟩ := fields_inj hb (colon_notMem_sortHash _) (colon_notMem_sortHash _)
    obtain ⟨hl, has⟩ := hc
    obtain ⟨hl', has'⟩ := hd
    have hvv : v = v' := valueText_inj (sortHash_inj hs) hv fun hpq => by
      subst hpq
      exact AstLeaf.const.inj (hl.trans hl'.symm)
    subst hvv
    obtain rfl : as = [] := List.length_eq_zero_iff.mp has
    obtain rfl : as' = [] := List.length_eq_zero_iff.mp has'
    refine ⟨rfl, fun hi => ?_⟩
    cases v with
    | bool | bv => simp [Label.ident] at hi
    | mem => exact Name.toString_nat_inj hv
  | .op o s, .op o' s' =>
    obtain ⟨rfl, hu, rfl, hps⟩ := opText_inj h
    rw [ExprOp.uid_params_inj hu hps]
    exact ⟨rfl, fun hi => by simp [Label.ident] at hi⟩
  | .appFunc f s, .appFunc f' s' =>
    obtain ⟨rfl, -, has, -⟩ := opText_inj h
    obtain ⟨rfl, hf⟩ := List.append_inj' has rfl
    rw [List.cons.inj hf |>.1]
    exact ⟨rfl, fun hi => by simp [Label.ident] at hi⟩
  | .op o s, .appFunc f s' => exact absurd (opText_inj h).2.1 o.uid_ne_applyFunc
  | .appFunc f s, .op o s' => exact absurd (opText_inj h).2.1.symm o.uid_ne_applyFunc
  | .leaf (.var ..), .leaf (.const _) | .leaf (.var ..), .op .. | .leaf (.var ..), .appFunc ..
  | .leaf (.const _), .leaf (.var ..) | .leaf (.const _), .op .. | .leaf (.const _), .appFunc ..
  | .op .., .leaf (.var ..) | .op .., .leaf (.const _) | .appFunc .., .leaf (.var ..) | .appFunc .., .leaf (.const _) =>
    simp at hhead

theorem hash_congr {p q : Nat} {c : Cell Label} (h : c.label.ident = true → p = q) : hash p c = hash q c := by
  obtain ⟨l, as⟩ := c
  match l with
  | .leaf (.var ..) => rw [h rfl]
  | .leaf (.const (.mem ..)) => rw [h rfl]
  | .leaf (.const (.bool _)) | .leaf (.const (.bv ..)) | .op .. | .appFunc .. => rfl

/-- Nodes under their texts. -/
def scheme (O : Objects) : Scheme Label String where
  ident := Label.ident
  legal := O.legal
  key := hash
  key_eq_iff {p q c d} hc hd :=
    ⟨fun h => hash_inj hc hd h, fun ⟨hcd, hident⟩ => by rw [← hcd]; exact hash_congr hident⟩

/-! ### Runs -/

/-- A manager with the nodes that exist, and the calls of `ExprMngr::GetRep` so far, each with its answer. -/
structure ShareState where
  mngr : Mngr Label String
  calls : List (Nat × Nat)

def ShareState.init : ShareState := ⟨.empty, []⟩

/-- `Expr::sort` of a node. -/
def sortAt (m : Mngr Label String) (p : Nat) : Option Srt := (m.heap p).map fun c => c.label.sort

/-- What happens between the calls: nodes are made, from any nodes there are. -/
inductive ShareStep (O : Objects) : ShareState → ShareState → Prop
  | leaf {s : ShareState} {p : Nat} : s.mngr.heap p = none →
    ShareStep O s { s with mngr := s.mngr.alloc p ⟨.leaf (O.leaf p), []⟩ }
  | op {s : ShareState} {p : Nat} {o : ExprOp} {args : List Nat} {ss : List Srt} : s.mngr.heap p = none →
    args.mapM (sortAt s.mngr) = some ss → ShareStep O s { s with mngr := s.mngr.alloc p ⟨.op o (o.sortOf ss), args⟩ }
  | appFunc {s : ShareState} {p f : Nat} {args : List Nat} : s.mngr.heap p = none →
    (∀ a ∈ args, s.mngr.heap a ≠ none) →
    ShareStep O s { s with mngr := s.mngr.alloc p ⟨.appFunc f (O.func f).out, args⟩ }
  | getRep {s : ShareState} {p r : Nat} {m' : Mngr Label String} (fuel : Nat) :
    Mngr.getRep (scheme O) fuel p s.mngr = some (r, m') → ShareStep O s ⟨m', s.calls ++ [(p, r)]⟩

/-- The value of the expression at a pointer. -/
def HasValue (O : Objects) (m : Mngr Label String) (ν : Valuation) (p : Nat) (v : Option Value) : Prop :=
  ∃ t, Unfolds (scheme O) m.heap p t ∧ (exprOf O t).eval ν = v

/-- The same operators, sorts, parameters, functions, variables and constants all the way down, however the nodes are
shared. Variables and memory constants are the same node. -/
def StructEq (O : Objects) (m : Mngr Label String) (p q : Nat) : Prop :=
  ∃ t, Unfolds (scheme O) m.heap p t ∧ Unfolds (scheme O) m.heap q t

structure ShareInv (O : Objects) (s : ShareState) : Prop where
  inv : Inv (scheme O) s.mngr
  calls : ∀ p r, (p, r) ∈ s.calls → Rep (scheme O) s.mngr r ∧ StructEq O s.mngr p r

variable {O : Objects} {s s' : ShareState}

theorem ShareInv.init (O : Objects) : ShareInv O .init :=
  ⟨inv_empty _, fun _ _ h => by simp [ShareState.init] at h⟩

theorem HasValue.unique {m : Mngr Label String} {ν : Valuation} {p : Nat} {v w : Option Value}
    (hv : HasValue O m ν p v) (hw : HasValue O m ν p w) : v = w := by
  obtain ⟨t, ht, rfl⟩ := hv
  obtain ⟨u, hu, rfl⟩ := hw
  rw [ht.unique hu]

theorem ShareInv.extend (h : ShareInv O s) {m' : Mngr Label String} (hinv : Inv (scheme O) m')
    (hext : Extends (scheme O) s.mngr m') : ShareInv O { s with mngr := m' } := by
  refine ⟨hinv, fun p r hpr => ?_⟩
  obtain ⟨hrep, t, hp, hr⟩ := h.calls p r hpr
  exact ⟨hext.rep h.inv hrep, t, hext.shape p t hp, hext.shape r t hr⟩

theorem heap_ne_none_of_sortAt {m : Mngr Label String} {args : List Nat} {ss : List Srt}
    (h : args.mapM (sortAt m) = some ss) : ∀ a ∈ args, m.heap a ≠ none := by
  intro a ha hnone
  induction args generalizing ss with
  | nil => simp at ha
  | cons b args ih =>
    rw [List.mapM_cons, Option.bind_eq_bind, Option.bind_eq_some_iff] at h
    obtain ⟨t, ht, hrest⟩ := h
    obtain ⟨ts, hts, -⟩ := Option.bind_eq_some_iff.mp hrest
    rcases List.mem_cons.mp ha with rfl | ha
    · simp [sortAt, hnone] at ht
    · exact ih hts ha

theorem getRep_of_eq_some (hinv : Inv (scheme O) s.mngr) {fuel p r : Nat} {m' : Mngr Label String}
    (h : Mngr.getRep (scheme O) fuel p s.mngr = some (r, m')) :
    ∃ t, Unfolds (scheme O) s.mngr.heap p t ∧ Inv (scheme O) m' ∧ Extends (scheme O) s.mngr m' ∧
      Rep (scheme O) m' r ∧ Unfolds (scheme O) m'.heap r t ∧ (Rep (scheme O) s.mngr p → r = p) := by
  obtain ⟨c, hc⟩ : ∃ c, s.mngr.heap p = some c := by
    cases hc : s.mngr.heap p with
    | some c => exact ⟨c, rfl⟩
    | none => cases fuel <;> simp [Mngr.getRep, Mngr.visit, hc] at h
  obtain ⟨t, ht⟩ := hinv.total p c hc
  obtain ⟨r₁, m₁, h₁, hspec⟩ := getRep_spec hinv ht (Nat.le_max_right fuel t.height)
  have heq := (getRep_mono (Nat.le_max_left fuel t.height) h).symm.trans h₁
  obtain ⟨rfl, rfl⟩ : r = r₁ ∧ m' = m₁ := by simpa using heq
  exact ⟨t, ht, hspec⟩

theorem ShareStep.inv (hstep : ShareStep O s s') (h : ShareInv O s) :
    ShareInv O s' ∧ Extends (scheme O) s.mngr s'.mngr := by
  cases hstep with
  | @leaf p hfresh =>
    obtain ⟨hinv, hext⟩ := alloc_spec (c := ⟨.leaf (O.leaf p), []⟩) h.inv hfresh ⟨rfl, rfl⟩ (by simp)
    exact ⟨h.extend hinv hext, hext⟩
  | @op p o args ss hfresh hsorts =>
    obtain ⟨hinv, hext⟩ := alloc_spec (c := ⟨.op o (o.sortOf ss), args⟩) h.inv hfresh trivial
      (heap_ne_none_of_sortAt hsorts)
    exact ⟨h.extend hinv hext, hext⟩
  | @appFunc p f args hfresh hargs =>
    obtain ⟨hinv, hext⟩ := alloc_spec (c := ⟨.appFunc f (O.func f).out, args⟩) h.inv hfresh trivial hargs
    exact ⟨h.extend hinv hext, hext⟩
  | @getRep p r m' fuel hget =>
    obtain ⟨t, hp, hinv, hext, hrep, hr, -⟩ := getRep_of_eq_some h.inv hget
    refine ⟨⟨hinv, fun q q' hq => ?_⟩, hext⟩
    rcases List.mem_append.mp hq with hq | hq
    · exact (h.extend hinv hext).calls q q' hq
    · obtain ⟨rfl, rfl⟩ : q = p ∧ q' = r := by simpa using hq
      exact ⟨hrep, t, hext.shape q t hp, hr⟩

theorem share_run_inv (hrun : ReflTransGen (ShareStep O) s s') (h : ShareInv O s) :
    ShareInv O s' ∧ Extends (scheme O) s.mngr s'.mngr := by
  induction hrun with
  | refl => exact ⟨h, .refl _ _⟩
  | tail _ hstep ih =>
    obtain ⟨hinv, hext⟩ := ih
    obtain ⟨hinv', hext'⟩ := hstep.inv hinv
    exact ⟨hinv', hext.trans h.inv hext'⟩

/-- In every run, in which nodes are made and calls are answered in any order: a call on any node returns; an answer
has the value of what it was asked for; no value ever changes; two calls have one answer if and only if they were
asked for the same structure; and an answer is its own representative. -/
theorem getRep_sound (O : Objects) (s : ShareState) (hrun : ReflTransGen (ShareStep O) .init s) :
    (∀ p, s.mngr.heap p ≠ none → ∃ n r m', ∀ fuel, n ≤ fuel → Mngr.getRep (scheme O) fuel p s.mngr = some (r, m')) ∧
    (∀ p r, (p, r) ∈ s.calls → ∀ ν, ∃ v, HasValue O s.mngr ν p v ∧ HasValue O s.mngr ν r v) ∧
    (∀ s', ReflTransGen (ShareStep O) s s' → ∀ ν p v, HasValue O s.mngr ν p v → HasValue O s'.mngr ν p v) ∧
    (∀ p r q r', (p, r) ∈ s.calls → (q, r') ∈ s.calls → (r = r' ↔ StructEq O s.mngr p q)) ∧
    ∀ p r, (p, r) ∈ s.calls → ∀ fuel r' m', Mngr.getRep (scheme O) fuel r s.mngr = some (r', m') → r' = r := by
  obtain ⟨h, -⟩ := share_run_inv hrun (.init O)
  refine ⟨fun p hp => ?_, fun p r hpr ν => ?_, fun s' hrun' ν p v hv => ?_, fun p r q r' hpr hqr => ⟨fun heq => ?_,
    fun heq => ?_⟩, fun p r hpr fuel r' m' hget => ?_⟩
  · obtain ⟨c, hc⟩ := Option.ne_none_iff_exists'.mp hp
    obtain ⟨t, ht⟩ := h.inv.total p c hc
    obtain ⟨r, m', hget, -⟩ := getRep_spec h.inv ht (Nat.le_refl _)
    exact ⟨t.height, r, m', fun fuel hle => getRep_mono hle hget⟩
  · obtain ⟨-, t, hp, hr⟩ := h.calls p r hpr
    exact ⟨_, ⟨t, hp, rfl⟩, ⟨t, hr, rfl⟩⟩
  · obtain ⟨-, hext⟩ := share_run_inv hrun' h
    obtain ⟨t, ht, hval⟩ := hv
    exact ⟨t, hext.shape p t ht, hval⟩
  · subst heq
    obtain ⟨-, t, hp, hr⟩ := h.calls p r hpr
    obtain ⟨-, u, hq, hr'⟩ := h.calls q r hqr
    rw [hr'.unique hr] at hq
    exact ⟨t, hp, hq⟩
  · obtain ⟨hrep, t, hp, hr⟩ := h.calls p r hpr
    obtain ⟨hrep', u, hq, hr'⟩ := h.calls q r' hqr
    obtain ⟨w, hpw, hqw⟩ := heq
    rw [hp.unique hpw] at hr
    rw [hq.unique hqw] at hr'
    exact h.inv.rep_unique hrep hrep' hr hr'
  · obtain ⟨t, -, -, -, -, -, hself⟩ := getRep_of_eq_some h.inv hget
    exact hself (h.calls p r hpr).1

/-- One variable, and no other objects. -/
def negObjects : Objects := ⟨fun _ => .var "x" none .bool, fun i => ⟨i, "f", "", "", .bool, []⟩⟩

/-- A variable and two negations of it. -/
def negNodes : Mngr Label String :=
  ((Mngr.empty.alloc 1 ⟨.leaf (negObjects.leaf 1), []⟩).alloc 2 ⟨.op .not .bool, [1]⟩).alloc 3 ⟨.op .not .bool, [1]⟩

/-- The two negations are shared. -/
theorem getRep_sound_negations : ∃ s, ReflTransGen (ShareStep negObjects) .init s ∧ s.calls = [(2, 2), (3, 2)] ∧
    StructEq negObjects s.mngr 2 3 := by
  have hnodes : ReflTransGen (ShareStep negObjects) .init ⟨negNodes, []⟩ :=
    .tail (.tail (.tail .refl (ShareStep.leaf (s := .init) (p := 1) rfl))
      (@ShareStep.op negObjects ⟨.alloc .empty 1 _, []⟩ 2 .not [1] [.bool] rfl rfl))
      (@ShareStep.op negObjects ⟨(Mngr.empty.alloc 1 _).alloc 2 _, []⟩ 3 .not [1] [.bool] rfl rfl)
  have hcalls : ((Mngr.getRep (scheme negObjects) 2 2 negNodes).bind fun x =>
      (Mngr.getRep (scheme negObjects) 2 3 x.2).map fun y => (x.1, y.1)) = some (2, 2) := by decide +kernel
  obtain ⟨⟨r, m'⟩, hfirst, hrest⟩ := Option.bind_eq_some_iff.mp hcalls
  obtain ⟨⟨r', m''⟩, hsecond, heq⟩ := Option.map_eq_some_iff.mp hrest
  obtain ⟨rfl, rfl⟩ : r = 2 ∧ r' = 2 := by simpa using heq
  have hrun : ReflTransGen (ShareStep negObjects) .init ⟨m'', [(2, 2), (3, 2)]⟩ :=
    (hnodes.tail (.getRep 2 hfirst)).tail (.getRep 2 hsecond)
  exact ⟨_, hrun, rfl, ((getRep_sound negObjects _ hrun).2.2.2.1 2 2 3 2 (by simp) (by simp)).mp rfl⟩

end Ilang
