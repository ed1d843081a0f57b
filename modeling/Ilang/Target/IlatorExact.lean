import Ilang.Target.Ilator

/-!
# Generated SystemC against the solver

The locals that `Ilator` declares for an expression, against the values that Z3 gives the expression and its
sub-expressions. The locals of a function all agree exactly when every application in its expressions is one whose statement has the
value of its operator, on the values and the run-time lengths of its arguments, and on the maps as the loads above have left them.
-/

namespace Ilang

open Smt

namespace Ilator

section Nodes

variable {ν : Valuation}

/-- The run-time length of a local, given those of the operands: an extension and a choice are declared with `auto`. -/
def opLen (o : ExprOp) (w : Nat) (cond : Bool) (lens : List Nat) : Nat :=
  match o, lens with
  | .zext _, [l] => l
  | .sext _, [l] => l
  | .ite, [_, l, l'] => if cond then l else l'
  | _, _ => w

mutual

/-- The run-time length of what stands for a node under a valuation. -/
def len (ν : Valuation) : Node → Nat
  | .leaf p l => bitWidth (Node.leaf p l).expr.sort
  | .app p (.op o) args =>
    opLen o (bitWidth (Node.app p (.op o) args).expr.sort)
      (Value.isTrue (args.head?.bind fun a => a.expr.eval ν)) (lenList ν args)
  | .app _ (.appFunc f) _ => bitWidth f.out

def lenList (ν : Valuation) : List Node → List Nat
  | [] => []
  | a :: as => len ν a :: lenList ν as

end

/-- The member of a variable, or a constant. -/
def leafVal (σ : Maps ν) : Node → ScVal
  | .leaf _ (.var v) => scVar σ v
  | .leaf p (.const c) => constLocal p c
  | .app _ _ _ => .bool false

/-- What is found there after some reads. -/
def found (σ : Maps ν) (reads : List Read) (n : Node) : ScVal := (leafVal σ n).after reads

/-- Two maps with the same entries. -/
def SameEntries : ScVal → ScVal → Prop
  | .map _ a d f, .map _ a' d' g =>
    ∃ (ha : a' = a) (hd : d' = d), f = fun i => (g (i.cast ha.symm)).map (BitVec.cast hd)
  | _, _ => False

/-- A load reads the word of the memory, and maps that stand for equal memories have the same entries. Both can fail:
the map of a constant lacks its default value, and zeros may be stored or left out, or be put in by a load. -/
def MemSafe (o : ExprOp) (us : List ScVal) (vs : List Value) : Prop :=
  match o, us, vs with
  | .load, [.map _ a _ f, _], [.mem a' _ c, .bv _ x] => ((f (x.setWidth a)).getD 0).toNat = (c (x.setWidth a')).toNat
  | .eq, [u, u'], [.mem a d c, t] => SameEntries u u' ↔ .mem a d c = t
  | _, _, _ => True

/-- What a function finds in an argument: a memory is passed as a map. -/
def passed (u : ScVal) (v : Value) : Value :=
  match u, v with
  | .map _ a _ f, .mem a' d _ => .mem a' d fun i => ((f (i.setWidth a)).getD 0).setWidth d
  | _, v => v

/-- The application at a node is one whose statement is right on the values of the arguments, and a constant has literals. -/
def SafeAt (σ : Maps ν) (τ : Nat → List Read) : Node → Prop
  | .leaf _ (.var _) => True
  | .leaf _ (.const c) => HasLiterals c
  | .app p (.op o) args => ∀ vs, Expr.evalList ν (Node.exprList args) = some vs →
    OpSafe o (lenList ν args) vs ∧ MemSafe o (args.map (found σ (τ p))) vs
  | .app p (.appFunc f) args => ∀ vs, Expr.evalList ν (Node.exprList args) = some vs →
    ν.app f (List.zipWith passed (args.map (found σ (τ p))) vs) = ν.app f vs

/-- Every node of an expression is. -/
def Safe (σ : Maps ν) (τ : Nat → List Read) (n : Node) : Prop := ∀ m ∈ n.subs, SafeAt σ τ m

/-- What stands for an argument: a local with its value and its length, or the map of a memory. -/
def Holds (ν : Valuation) (mem : Node → ScVal) (a : Node) (u : ScVal) (v : Value) : Prop :=
  (Agrees u v ∧ u.len = len ν a) ∨ ∃ id i d c f, v = .mem i d c ∧ u = .map id i d f ∧ mem a = .map id i d f

inductive Operands (ν : Valuation) (mem : Node → ScVal) : List Node → List ScVal → List Value → Prop
  | nil : Operands ν mem [] [] []
  | cons {a : Node} {u : ScVal} {v : Value} {as : List Node} {us : List ScVal} {vs : List Value} :
    Holds ν mem a u v → Operands ν mem as us vs → Operands ν mem (a :: as) (u :: us) (v :: vs)

/-- The name of a node is defined, and stands for the value of the node. -/
def Ready (σ : Maps ν) (τ : Nat → List Read) (a : Node) : Prop :=
  ∃ u v, (meaning σ τ).denote gen a = some (some u) ∧ a.expr.eval ν = some v ∧ Holds ν (leafVal σ) a u v

variable {σ : Maps ν} {τ : Nat → List Read} {mem : Node → ScVal} {o : ExprOp} {args : List Node} {us : List ScVal} {vs : List Value} {v : Value}

theorem exists_operands (hargs : ∀ a ∈ args, Ready σ τ a) (hvs : Expr.evalList ν (Node.exprList args) = some vs) :
    ∃ us, (meaning σ τ).denoteList gen args = some (us.map some) ∧ Operands ν (leafVal σ) args us vs := by
  induction args generalizing vs with
  | nil =>
    obtain rfl : vs = [] := by simpa [Node.exprList, Expr.evalList, eq_comm] using hvs
    exact ⟨[], rfl, .nil⟩
  | cons a as ih =>
    simp only [Node.exprList, Expr.evalList, Option.bind_eq_some_iff, Option.map_eq_some_iff] at hvs
    obtain ⟨v, hv, ts, hts, rfl⟩ := hvs
    obtain ⟨u, v', hu, hv', hhold⟩ := hargs a List.mem_cons_self
    rw [hv, Option.some.injEq] at hv'
    subst hv'
    obtain ⟨us, hus, hops⟩ := ih (fun b hb => hargs b (List.mem_cons_of_mem a hb)) hts
    refine ⟨u :: us, ?_, .cons hhold hops⟩
    rw [Meaning.denoteList, hu, hus]
    rfl

theorem agrees_not_mem {u : ScVal} (h : Agrees u v) : v.sort.isMem = false := by
  cases v with
  | bool b => rfl
  | bv w x => rfl
  | mem i d c => cases u <;> exact h.elim

theorem Operands.after (h : Operands ν (leafVal σ) args us vs) (reads : List Read) :
    Operands ν (found σ reads) args (us.map (ScVal.after reads)) vs := by
  induction h with
  | nil => exact .nil
  | cons hhold _ ih =>
    refine .cons ?_ ih
    rcases hhold with ⟨hag, hlen⟩ | ⟨id, i, d, c, f, rfl, rfl, hleaf⟩
    · rw [hag.after]
      exact .inl ⟨hag, hlen⟩
    · refine .inr ⟨id, i, d, c, _, rfl, rfl, ?_⟩
      rw [found, hleaf]
      rfl

theorem Operands.agrees (h : Operands ν mem args us vs) (hmem : ∀ t ∈ vs, t.sort.isMem = false) :
    List.Forall₂ Agrees us vs ∧ us.map ScVal.len = lenList ν args := by
  induction h with
  | nil => exact ⟨.nil, rfl⟩
  | cons hhold _ ih =>
    obtain ⟨hall, hlens⟩ := ih fun t ht => hmem t (List.mem_cons_of_mem _ ht)
    rcases hhold with ⟨hag, hlen⟩ | ⟨id, i, d, c, f, rfl, -⟩
    · refine ⟨.cons hag hall, ?_⟩
      rw [List.map_cons, hlen, hlens, lenList]
    · exact absurd (hmem _ List.mem_cons_self) (by simp [Value.sort, Srt.isMem])

theorem not_mem_of_bvs {w w' : Nat} {x : BitVec w} {y : BitVec w'} {t : Value} (ht : t ∈ [Value.bv w x, .bv w' y]) :
    t.sort.isMem = false := by
  rcases List.mem_cons.mp ht with rfl | ht
  · rfl
  · rw [List.mem_singleton.mp ht]
    rfl

theorem not_mem_of_boolBin {f : Bool → Bool → Bool} (hv : Op.boolBin f vs = some v) {t : Value} (ht : t ∈ vs) :
    t.sort.isMem = false := by
  obtain ⟨a, b, rfl, -⟩ := Op.boolBin_eq_some hv
  rcases List.mem_cons.mp ht with rfl | ht
  · rfl
  · rw [List.mem_singleton.mp ht]
    rfl

theorem not_mem_of_bvUn {f : (w : Nat) → BitVec w → BitVec w} (hv : Op.bvUn f vs = some v) {t : Value} (ht : t ∈ vs) :
    t.sort.isMem = false := by
  obtain ⟨w, x, rfl, -⟩ := Op.bvUn_eq_some hv
  rw [List.mem_singleton.mp ht]
  rfl

theorem not_mem_of_bvBin {f : (w : Nat) → BitVec w → BitVec w → BitVec w} (hv : Op.bvBin f vs = some v) {t : Value}
    (ht : t ∈ vs) : t.sort.isMem = false := by
  obtain ⟨w, x, y, rfl, -⟩ := Op.bvBin_eq_some hv
  exact not_mem_of_bvs ht

theorem not_mem_of_bvCmp {f : (w : Nat) → BitVec w → BitVec w → Bool} (hv : Op.bvCmp f vs = some v) {t : Value}
    (ht : t ∈ vs) : t.sort.isMem = false := by
  obtain ⟨w, x, y, rfl, -⟩ := Op.bvCmp_eq_some hv
  exact not_mem_of_bvs ht

theorem not_mem_of_apply (hv : o.apply vs = some v) (hnot : v.sort.isMem = false) (hload : o ≠ .load) (heq : o ≠ .eq)
    {t : Value} (ht : t ∈ vs) : t.sort.isMem = false := by
  obtain ⟨-, hv⟩ := ExprOp.apply_eq_smt hv
  cases o with
  | load => exact absurd rfl hload
  | eq => exact absurd rfl heq
  | neg | compl | lRotate n | rRotate n => exact not_mem_of_bvUn hv ht
  | shl | ashr | lshr | add | sub | div | srem | urem | smod | mul => exact not_mem_of_bvBin hv ht
  | lt | ult => exact not_mem_of_bvCmp hv ht
  | gt => exact not_mem_of_bvCmp (f := fun _ x y => y.slt x) hv ht
  | ugt => exact not_mem_of_bvCmp (f := fun _ x y => y.ult x) hv ht
  | imply => exact not_mem_of_boolBin hv ht
  | and | or | xor =>
    simp only [ExprOp.smt] at hv
    split at hv
    · exact not_mem_of_boolBin hv ht
    · exact not_mem_of_bvBin hv ht
  | not =>
    obtain ⟨a, rfl, -⟩ := Op.not_eq_some hv
    rw [List.mem_singleton.mp ht]
    rfl
  | concat =>
    obtain ⟨w, w', x, y, rfl, -⟩ := Op.concat_eq_some hv
    exact not_mem_of_bvs ht
  | extract hi lo =>
    obtain ⟨w, x, rfl, -⟩ := Op.extract_eq_some hv
    rw [List.mem_singleton.mp ht]
    rfl
  | zext w =>
    obtain ⟨n, x, rfl, -⟩ := Op.zeroExtend_eq_some hv
    rw [List.mem_singleton.mp ht]
    rfl
  | sext w =>
    obtain ⟨n, x, rfl, -⟩ := Op.signExtend_eq_some hv
    rw [List.mem_singleton.mp ht]
    rfl
  | ite =>
    obtain ⟨c, t₁, t₂, rfl, hs, rfl⟩ := Op.ite_eq_some hv
    have hsort : (if c then t₁ else t₂).sort = t₁.sort := by
      cases c with
      | true => rfl
      | false => exact hs.symm
    rw [hsort] at hnot
    simp only [List.mem_cons, List.not_mem_nil, or_false] at ht
    rcases ht with rfl | rfl | rfl
    · rfl
    · exact hnot
    · rw [← hs]
      exact hnot
  | store =>
    obtain ⟨a, d, f, x, y, -, rfl⟩ := Op.store_eq_some hv
    cases hnot

theorem memSafe_of_not_mem (h : ∀ t ∈ vs, t.sort.isMem = false) (us : List ScVal) : MemSafe o us vs := by
  unfold MemSafe
  split
  · exact absurd (h _ List.mem_cons_self) (by simp [Value.sort, Srt.isMem])
  · exact absurd (h _ List.mem_cons_self) (by simp [Value.sort, Srt.isMem])
  · trivial

theorem rightIff_load {id : MapId} {a d l : Nat} {c : BitVec a → BitVec d} {f : BitVec a → Option (BitVec d)} {x : BitVec a}
    {x' : BitVec l} (hx : x'.toNat = x.toNat) :
    RightIff (stmt ν .load [.map id a d f, .big l x']) (.bv d (c x))
      (((f (x.setWidth a)).getD 0).toNat = (c (x.setWidth a)).toNat) := by
  have haddr : x'.setWidth a = x := BitVec.eq_of_toNat_eq (by rw [BitVec.toNat_setWidth, hx, Nat.mod_eq_of_lt x.isLt])
  refine rightIff_big ?_
  rw [haddr, BitVec.setWidth_eq]

theorem rightIff_mapEq {id id' : MapId} {a d : Nat} {f g : BitVec a → Option (BitVec d)} {b : Bool} {P : Prop} (hb : b = true ↔ P) :
    RightIff (stmt ν (.regular .eq .bool) [.map id a d f, .map id' a d g]) (.bool b)
      (SameEntries (.map id a d f) (.map id' a d g) ↔ P) := by
  have hcast : (fun i : BitVec a => (g (i.cast rfl)).map (BitVec.cast rfl)) = g := by
    funext i
    change (g i).map (BitVec.cast rfl) = g i
    cases g i <;> rfl
  have hsame : SameEntries (.map id a d f) (.map id' a d g) ↔ mapEq f g = true := by
    rw [SameEntries, exists_prop_of_true rfl, exists_prop_of_true rfl, hcast, mapEq_eq_true]
  have hstmt : stmt ν (.regular .eq .bool) [.map id a d f, .map id' a d g] = some (.bool (mapEq f g)) := by
    rw [stmt, assignBinary, dif_pos rfl, dif_pos rfl, if_pos rfl, hcast]
  rw [hstmt, hsame, ← hb, ← Bool.eq_iff_iff]
  exact rightIff_bool Iff.rfl

theorem Operands.load {a d : Nat} {c : BitVec a → BitVec d} {x : BitVec a}
    (h : Operands ν mem args us [.mem a d c, .bv a x]) : ∃ m n id f l x', args = [m, n] ∧ us = [.map id a d f, .big l x'] ∧
      x'.toNat = x.toNat ∧ mem m = .map id a d f := by
  cases h with
  | cons h₀ h =>
    cases h with
    | cons h₁ h =>
      cases h
      rcases h₀ with ⟨h₀, -⟩ | ⟨id, i, d', c', f, hval, rfl, hleaf⟩
      · exact absurd (agrees_not_mem h₀) (by simp [Value.sort, Srt.isMem])
      · obtain ⟨rfl, rfl, -⟩ := Value.mem.inj hval
        rcases h₁ with ⟨h₁, -⟩ | ⟨_, _, _, _, _, hval', -⟩
        · obtain ⟨l, x', rfl, hx⟩ := agrees_bv h₁
          exact ⟨_, _, id, f, l, x', rfl, rfl, hx, hleaf⟩
        · simp at hval'

theorem stmt_iff_safe {r : Rhs} (hpl : dfsOp o v.sort args = some r) (hv : o.apply vs = some v)
    (hargs : args.map (fun n => n.expr.sort) = vs.map Value.sort) (hpos : ∀ t ∈ vs, t.sort.Pos)
    (hops : Operands ν mem args us vs) :
    RightIff (stmt ν r us) v (OpSafe o (lenList ν args) vs ∧ MemSafe o (args.map mem) vs) := by
  have hmem : v.sort.isMem = false := by
    by_contra h
    simp [dfsOp, h] at hpl
  by_cases hnot : ∀ t ∈ vs, t.sort.isMem = false
  · obtain ⟨hag, hlens⟩ := hops.agrees hnot
    have hload : o ≠ .load := by
      rintro rfl
      obtain ⟨a, d, f, x, rfl, -⟩ := Op.select_eq_some (ExprOp.apply_eq_smt hv).2
      exact absurd (hnot _ List.mem_cons_self) (by simp [Value.sort, Srt.isMem])
    rw [and_iff_left (memSafe_of_not_mem hnot _), ← hlens]
    exact stmt_iff_opSafe hpl hv hargs hpos hag hload
  · by_cases hload : o = .load
    · subst hload
      obtain ⟨a, d, c, x, rfl, rfl⟩ := Op.select_eq_some (ExprOp.apply_eq_smt hv).2
      obtain rfl : Rhs.load = r := Option.some.inj hpl
      obtain ⟨m, n, id, f, l, x', rfl, rfl, hx, hleaf⟩ := hops.load
      rw [show OpSafe .load (lenList ν [m, n]) [.mem a d c, .bv a x] = True from rfl, true_and, List.map_cons, hleaf]
      exact rightIff_load hx
    · by_cases heq : o = .eq
      · subst heq
        obtain ⟨t, t', rfl, hs, b, rfl, hb⟩ := Op.eq_eq_some (ExprOp.apply_eq_smt hv).2
        obtain rfl : Rhs.regular .eq .bool = r := Option.some.inj hpl
        cases hops with
        | cons h₀ hops =>
          cases hops with
          | cons h₁ hops =>
            cases hops
            rcases h₀ with ⟨h₀, -⟩ | ⟨id, i, d, c, f, rfl, rfl, hf⟩
            · refine absurd (fun u hu => ?_) hnot
              have hu' : u.sort = t.sort := by
                rcases List.mem_cons.mp hu with rfl | hu
                · rfl
                · rw [List.mem_singleton.mp hu, hs]
              rw [hu']
              exact agrees_not_mem h₀
            · rcases h₁ with ⟨h₁, -⟩ | ⟨id', i', d', c', g, rfl, rfl, hg⟩
              · have hnm := agrees_not_mem h₁
                rw [← hs] at hnm
                simp [Value.sort, Srt.isMem] at hnm
              · obtain ⟨rfl, rfl⟩ := Srt.mem.inj hs
                rw [show OpSafe .eq (lenList ν _) [.mem i d c, .mem i d c'] = True from rfl, true_and, List.map_cons,
                  List.map_cons, hf, hg]
                exact rightIff_mapEq hb
      · exact absurd (fun t ht => not_mem_of_apply hv hmem hload heq ht) hnot

theorem len_regular {type : Srt} {u : ScVal} (h : stmt ν (.regular o type) us = some u) : u.len = bitWidth type := by
  match us, h with
  | [v], h =>
    simp only [stmt] at h
    unfold assignUnary at h
    split at h <;> first | (obtain rfl := Option.some.inj h; rfl) | simp at h
  | [v, v'], h =>
    simp only [stmt] at h
    unfold assignBinary at h
    split at h
    · obtain ⟨b, -, rfl⟩ := Option.map_eq_some_iff.mp h
      rfl
    · obtain ⟨b, -, rfl⟩ := Option.map_eq_some_iff.mp h
      rfl
    · split at h
      · split at h
        · obtain ⟨-, h⟩ := Option.ite_none_right_eq_some.mp h
          obtain rfl := Option.some.inj h
          rfl
        · cases h
      · cases h
    · obtain ⟨b, -, rfl⟩ := Option.map_eq_some_iff.mp h
      rfl
    · simp at h

theorem len_extend {sign l : Nat} {x : BitVec l} {u : ScVal} (h : stmt ν (.extend sign) [.big l x] = some u) :
    u.len = l := by
  obtain ⟨-, h⟩ := Option.ite_none_right_eq_some.mp h
  obtain rfl := Option.some.inj h
  rfl

theorem stmt_len {r : Rhs} {u : ScVal} (hpl : dfsOp o v.sort args = some r) (hv : o.apply vs = some v)
    (hargs : args.map (fun n => n.expr.sort) = vs.map Value.sort) (hops : Operands ν mem args us vs)
    (hu : stmt ν r us = some u) : u.len = opLen o (bitWidth v.sort) (Value.isTrue vs.head?) (lenList ν args) := by
  have hmem : v.sort.isMem = false := by
    by_contra h
    simp [dfsOp, h] at hpl
  have hsmt := (ExprOp.apply_eq_smt hv).2
  have hdfs : ∀ {r'}, (∀ h : v.sort.isMem ≠ true, dfsOp o v.sort args = some r') → r' = r := by
    intro r' h
    exact Option.some.inj ((h (by simp [hmem])).symm.trans hpl)
  have hnot : o ≠ .load → o ≠ .eq → List.Forall₂ Agrees us vs ∧ us.map ScVal.len = lenList ν args :=
    fun hload heq => hops.agrees fun t ht => not_mem_of_apply hv hmem hload heq ht
  cases o with
  | neg | not | compl | eq | lt | gt | ult | ugt | and | or | xor | shl | lshr | ashr | add | sub | mul | div | urem =>
    obtain rfl := hdfs fun h => if_neg h
    exact len_regular hu
  | srem | smod | lRotate _ | rRotate _ | store => simp [dfsOp, hasSymbol] at hpl
  | load =>
    obtain ⟨a, d, c, x, rfl, rfl⟩ := Op.select_eq_some hsmt
    obtain rfl : Rhs.load = r := Option.some.inj hpl
    obtain ⟨m, n, id, f, l, x', rfl, rfl, -, -⟩ := hops.load
    obtain rfl := Option.some.inj hu
    rfl
  | concat =>
    obtain ⟨hag, hlens⟩ := hnot (by simp) (by simp)
    obtain ⟨w, w', x, y, rfl, rfl⟩ := Op.concat_eq_some hsmt
    obtain ⟨u₀, u₁, rfl, h₀, h₁⟩ := forall₂_bin hag
    obtain ⟨l, x', rfl, hx⟩ := agrees_bv h₀
    obtain ⟨l', y', rfl, hy⟩ := agrees_bv h₁
    obtain rfl := hdfs fun h => if_neg h
    rw [hargs] at hu
    obtain rfl := Option.some.inj hu
    rfl
  | extract hi lo =>
    obtain ⟨hag, hlens⟩ := hnot (by simp) (by simp)
    obtain ⟨w, x, rfl, hle, -, rfl⟩ := Op.extract_eq_some hsmt
    obtain ⟨u, rfl, hu₀⟩ := forall₂_un hag
    obtain ⟨l, x', rfl, hx⟩ := agrees_bv hu₀
    obtain rfl := hdfs fun h => if_neg h
    obtain ⟨-, hu⟩ := Option.ite_none_right_eq_some.mp hu
    obtain rfl := Option.some.inj hu
    rfl
  | zext outw =>
    obtain ⟨hag, hlens⟩ := hnot (by simp) (by simp)
    obtain ⟨n, x, -, rfl, -⟩ := ExprOp.zext_eq_some hv
    obtain ⟨u, rfl, hu₀⟩ := forall₂_un hag
    obtain ⟨l, x', rfl, hx⟩ := agrees_bv hu₀
    obtain rfl := hdfs fun h => if_neg h
    rw [← hlens, len_extend hu]
    rfl
  | sext outw =>
    obtain ⟨hag, hlens⟩ := hnot (by simp) (by simp)
    obtain ⟨n, x, -, rfl, -⟩ := ExprOp.sext_eq_some hv
    obtain ⟨u, rfl, hu₀⟩ := forall₂_un hag
    obtain ⟨l, x', rfl, hx⟩ := agrees_bv hu₀
    obtain rfl := hdfs fun h => if_neg h
    rw [← hlens, len_extend hu]
    rfl
  | imply =>
    obtain ⟨hag, hlens⟩ := hnot (by simp) (by simp)
    obtain ⟨a, b, rfl, rfl⟩ := Op.boolBin_eq_some hsmt
    obtain ⟨u₀, u₁, rfl, h₀, h₁⟩ := forall₂_bin hag
    rw [agrees_bool h₀, agrees_bool h₁] at hu
    obtain rfl := hdfs fun h => if_neg h
    obtain rfl := Option.some.inj hu
    rfl
  | ite =>
    obtain ⟨hag, hlens⟩ := hnot (by simp) (by simp)
    obtain ⟨c, t, e, rfl, -, rfl⟩ := Op.ite_eq_some hsmt
    obtain ⟨u₀, u₁, u₂, rfl, h₀, h₁, h₂⟩ := forall₂_ter hag
    rw [agrees_bool h₀] at hu
    obtain rfl := hdfs fun h => if_neg h
    obtain rfl := Option.some.inj hu
    rw [← hlens]
    cases c <;> rfl

/-- The local of a node holds the value of the node. -/
def Right (σ : Maps ν) (τ : Nat → List Read) (n : Node) : Prop :=
  ∃ u v, (meaning σ τ).denote gen n = some (some u) ∧ n.expr.eval ν = some v ∧ Agrees u v

theorem Operands.mapM_valueOf (h : Operands ν mem args us vs) :
    ((vs.map Value.sort).zip us).mapM (fun p => valueOf p.1 p.2) =
      some (List.zipWith passed (args.map mem) vs) := by
  induction h with
  | nil => rfl
  | @cons a u v as us vs hhold _ ih =>
    have hval : valueOf v.sort u = some (passed (mem a) v) := by
      rcases hhold with ⟨hag, -⟩ | ⟨id, i, d, c, f, rfl, rfl, hleaf⟩
      · cases v with
        | bool b =>
          rw [agrees_bool hag]
          cases mem a <;> rfl
        | bv w y =>
          obtain ⟨l, x, rfl, hx⟩ := agrees_bv hag
          have hy : x.setWidth w = y :=
            BitVec.eq_of_toNat_eq (by rw [BitVec.toNat_setWidth, hx, Nat.mod_eq_of_lt y.isLt])
          rw [Value.sort, valueOf, hy]
          cases mem a <;> rfl
        | mem i d c => exact absurd (agrees_not_mem hag) (by simp [Value.sort, Srt.isMem])
      · rw [hleaf]
        rfl
    rw [List.map_cons, List.zip_cons_cons, List.mapM_cons, hval, ih]
    rfl

theorem denote_decl {p : Nat} {h : Head} {r : Rhs} (hpl : plan (.app p h args) = some (.inr ⟨.app p h args, r⟩))
    (hus : (meaning σ τ).denoteList gen args = some (us.map some)) :
    (meaning σ τ).denote gen (.app p h args) = some (stmt ν r (us.map (ScVal.after (τ p)))) := by
  rw [Meaning.denote, hus, Option.bind_some, gen_plan, hpl]
  change some (((us.map some).mapM id).bind fun us => stmt ν r (us.map (ScVal.after (τ p)))) = _
  rw [MapM.id_map_some_self]
  rfl

theorem passed_sort (u : ScVal) (v : Value) : (passed u v).sort = v.sort := by
  unfold passed
  split <;> rfl

theorem map_sort_passed (us : List ScVal) (h : us.length = vs.length) :
    (List.zipWith passed us vs).map Value.sort = vs.map Value.sort := by
  induction vs generalizing us with
  | nil =>
    rw [List.zipWith_nil_right]
  | cons v vs ih =>
    match us, h with
    | u :: us, h => rw [List.zipWith_cons_cons, List.map_cons, List.map_cons, passed_sort, ih us (Nat.succ.inj h)]

theorem Operands.length (h : Operands ν mem args us vs) : args.length = vs.length := by
  induction h with
  | nil => rfl
  | cons _ _ ih => rw [List.length_cons, List.length_cons, ih]

theorem stmt_appFunc {f : Func} (hout : f.out.isMem = false) (hv : ν.app f vs = some v) (hops : Operands ν mem args us vs) :
    (∃ u, stmt ν (.appFunc f) us = some u ∧ u.len = bitWidth f.out) ∧
      RightIff (stmt ν (.appFunc f) us) v (ν.app f (List.zipWith passed (args.map mem) vs) = ν.app f vs) := by
  have hdom : vs.map Value.sort = f.args := (Option.ite_none_right_eq_some.mp hv).1
  have hsort : v.sort = f.out := by
    have happ := ν.app_sort f vs
    rw [hv, if_pos hdom] at happ
    exact Option.some.inj happ
  obtain ⟨v', hv', hsort'⟩ : ∃ v', ν.app f (List.zipWith passed (args.map mem) vs) = some v' ∧ v'.sort = f.out := by
    have happ := ν.app_sort f (List.zipWith passed (args.map mem) vs)
    rw [map_sort_passed _ (by rw [List.length_map, hops.length]), if_pos hdom] at happ
    exact Option.map_eq_some_iff.mp happ
  have hstmt : stmt ν (.appFunc f) us = scOf v' := by
    rw [stmt, ← hdom, hops.mapM_valueOf, Option.bind_some, hv', Option.bind_some]
  rw [hstmt, hv', hv, Option.some.injEq]
  rw [← hsort'] at hsort
  rw [← hsort'] at hout ⊢
  match v', v, hsort with
  | .bool b', .bool b, _ =>
    refine ⟨⟨_, rfl, rfl⟩, rightIff_bool ?_⟩
    rw [Value.bool.injEq]
  | .bv w x, .bv w' y, hsort =>
    obtain rfl : w' = w := Srt.bv.inj hsort
    refine ⟨⟨_, rfl, rfl⟩, rightIff_big ?_⟩
    rw [BitVec.toNat_inj]
    simp
  | .mem a d c, _, _ => simp [Value.sort, Srt.isMem] at hout

theorem ready_leaf {p : Nat} {l : Leaf} (hsafe : SafeAt σ τ (.leaf p l)) : Ready σ τ (.leaf p l) := by
  cases l with
  | var v =>
    refine ⟨scVar σ v, ν.atom (.var v), rfl, rfl, ?_⟩
    have hsort : (ν.atom (.var v)).sort = v.sort := ν.atom_sort (.var v)
    cases hval : ν.atom (.var v) with
    | bool b => exact .inl ⟨by rw [scVar, hval]; rfl, by rw [scVar, hval, len, Node.expr, Expr.sort, ← hsort, hval]; rfl⟩
    | bv w x => exact .inl ⟨by rw [scVar, hval]; rfl, by rw [scVar, hval, len, Node.expr, Expr.sort, ← hsort, hval]; rfl⟩
    | mem a d c =>
      have hmap : scVar σ v = .map (.var v) a d (σ.entries v a d) := by rw [scVar, hval]
      exact .inr ⟨_, a, d, c, σ.entries v a d, rfl, hmap, hmap⟩
  | const c =>
    refine ⟨constLocal p c, c.value, congrArg some (if_pos hsafe), rfl, ?_⟩
    cases c with
    | bool b => exact .inl ⟨rfl, rfl⟩
    | bv x w => exact .inl ⟨rfl, rfl⟩
    | mem x m a d => exact .inr ⟨_, a, d, _, _, rfl, rfl, rfl⟩

theorem safeAt_leaf {p : Nat} {l : Leaf} {u : ScVal} (h : (meaning σ τ).denote gen (.leaf p l) = some (some u)) :
    SafeAt σ τ (.leaf p l) := by
  cases l with
  | var v => trivial
  | const c =>
    have hconst : scConst p c = some u := Option.some.inj h
    exact (Option.ite_none_right_eq_some.mp hconst).1

theorem right_of_denote {n : Node} {res : Option ScVal} {P : Prop}
    (hdenote : (meaning σ τ).denote gen n = some res) (hv : n.expr.eval ν = some v) (hiff : RightIff res v P)
    (hlen : ∀ u, res = some u → u.len = len ν n) : (Right σ τ n ↔ P) ∧ (Right σ τ n → Ready σ τ n) := by
  refine ⟨Iff.trans ⟨?_, ?_⟩ hiff, ?_⟩
  · rintro ⟨u, v', hu, hv', hag⟩
    rw [hv, Option.some.injEq] at hv'
    rw [hdenote, Option.some.injEq] at hu
    exact ⟨u, hu, by rw [hv']; exact hag⟩
  · rintro ⟨u, hu, hag⟩
    exact ⟨u, v, by rw [hdenote, hu], hv, hag⟩
  · rintro ⟨u, v', hu, hv', hag⟩
    rw [hdenote, Option.some.injEq] at hu
    exact ⟨u, v', by rw [hdenote, hu], hv', .inl ⟨hag, hlen u hu⟩⟩

theorem not_mem_of_plan {p : Nat} {hd : Head} {args : List Node} (h : (plan (.app p hd args)).isSome) :
    (Node.app p hd args).expr.sort.isMem = false := by
  by_contra hcon
  rw [Bool.not_eq_false] at hcon
  cases hd with
  | op o => simp [plan, dfsOp, hcon] at h
  | appFunc f =>
    have hout : f.out.isMem = true := by simpa [Node.expr, Expr.sort] using hcon
    simp [plan, hout] at h

theorem head?_eval (h : Expr.evalList ν (Node.exprList args) = some vs) :
    (args.head?.bind fun a => a.expr.eval ν) = vs.head? := by
  cases args with
  | nil =>
    obtain rfl : vs = [] := by simpa [Node.exprList, Expr.evalList, eq_comm] using h
    rfl
  | cons a as =>
    simp only [Node.exprList, Expr.evalList, Option.bind_eq_some_iff, Option.map_eq_some_iff] at h
    obtain ⟨v, hv, ts, -, rfl⟩ := h
    exact hv

theorem exists_decl {p : Nat} {hd : Head} {args : List Node} (h : (plan (.app p hd args)).isSome) :
    ∃ s, plan (.app p hd args) = some (.inr s) := by
  cases hd with
  | op o =>
    rw [plan, Option.isSome_map] at h
    obtain ⟨r, hr⟩ := Option.isSome_iff_exists.mp h
    exact ⟨_, congrArg (Option.map _) hr⟩
  | appFunc f =>
    have hout : f.out.isMem = false := not_mem_of_plan h
    exact ⟨_, if_neg (by simp [hout])⟩

/-- At a node whose arguments are ready, the local is right exactly when the application is safe; then the node is
ready too. -/
theorem right_iff_safeAt {n : Node} {s : Srt} (hcheck : n.expr.check = some s) (hpos : n.Positive)
    (hplan : (plan n).isSome) (hargs : ∀ a ∈ n.args, Ready σ τ a) (hmem : s.isMem = false) :
    (Right σ τ n ↔ SafeAt σ τ n) ∧ (Right σ τ n → Ready σ τ n) := by
  obtain ⟨v, hv, hvsort⟩ := Expr.eval_of_check hcheck ν
  rw [← hvsort] at hmem
  have hagree : ∀ {u}, Holds ν (leafVal σ) n u v → Agrees u v := by
    intro u h
    rcases h with ⟨h, -⟩ | ⟨id, i, d, c, f, rfl, -⟩
    · exact h
    · simp [Value.sort, Srt.isMem] at hmem
  cases n with
  | leaf p l =>
    have hready : SafeAt σ τ (.leaf p l) → Right σ τ (.leaf p l) := by
      intro hsafe
      obtain ⟨u, v', hu, hv', hhold⟩ := ready_leaf hsafe
      obtain rfl : v = v' := Option.some.inj (hv.symm.trans hv')
      exact ⟨u, v, hu, hv, hagree hhold⟩
    have hsafe : Right σ τ (.leaf p l) → SafeAt σ τ (.leaf p l) := by
      rintro ⟨u, -, hu, -⟩
      exact safeAt_leaf hu
    exact ⟨⟨hsafe, hready⟩, fun h => ready_leaf (hsafe h)⟩
  | app p hd args =>
    obtain ⟨ss, hss⟩ := Node.check_app hcheck
    cases hd with
    | op o =>
      have hev := hv
      rw [Node.expr, Expr.eval, Option.bind_eq_some_iff] at hv
      obtain ⟨vs, hvs, hv⟩ := hv
      obtain ⟨us, hus, hops⟩ := exists_operands hargs hvs
      have hsorts := Node.map_sort_eq hss hvs
      obtain ⟨r, hr⟩ : ∃ r, dfsOp o (Node.app p (.op o) args).expr.sort args = some r := by
        simpa [plan, Option.isSome_iff_exists] using hplan
      have hdenote := denote_decl (σ := σ) (τ := τ) (p := p) (h := .op o) (r := r) (congrArg (Option.map _) hr) hus
      have hsort : (Node.app p (.op o) args).expr.sort = v.sort := by rw [Expr.sort_of_check hcheck, hvsort]
      rw [hsort] at hr
      have hposv : ∀ t ∈ vs, t.sort.Pos := by
        intro t ht
        have hts : t.sort ∈ args.map fun a => a.expr.sort := by
          rw [hsorts]
          exact List.mem_map_of_mem ht
        obtain ⟨a, ha, heq⟩ := List.mem_map.mp hts
        rw [← heq]
        exact hpos a (Node.arg_mem_subs ha)
      have hiff := stmt_iff_safe hr hv hsorts hposv (hops.after (τ p))
      refine right_of_denote hdenote hev ?_ fun u hu => ?_
      · simpa only [SafeAt, hvs, Option.some.injEq, forall_eq'] using hiff
      · rw [stmt_len hr hv hsorts (hops.after (τ p)) hu, len, hsort, head?_eval hvs]
    | appFunc f =>
      have hev := hv
      rw [Node.expr, Expr.eval, Option.bind_eq_some_iff] at hv
      obtain ⟨vs, hvs, hv⟩ := hv
      obtain ⟨us, hus, hops⟩ := exists_operands (show ∀ a ∈ args, Ready σ τ a from hargs) hvs
      have hout : f.out.isMem = false := not_mem_of_plan hplan
      obtain ⟨⟨u, hu, hlen⟩, hiff⟩ := stmt_appFunc hout hv (hops.after (τ p))
      have hpl : plan (.app p (.appFunc f) args) = some (.inr ⟨.app p (.appFunc f) args, .appFunc f⟩) := by
        rw [plan, if_neg (by simp [hout])]
      refine right_of_denote (denote_decl hpl hus) hev ?_ fun u' hu' => ?_
      · simpa only [SafeAt, hvs, Option.some.injEq, forall_eq'] using hiff
      · rw [hu, Option.some.injEq] at hu'
        rw [← hu', hlen, len]

/-- An expression is safe whatever has been read before. -/
def AlwaysSafe (σ : Maps ν) (n : Node) : Prop := ∀ τ, Safe σ τ n

theorem ready_of_safe {n : Node} {s : Srt} (hcheck : n.expr.check = some s) (hpos : n.Positive)
    (hplan : ∀ m ∈ n.subs, (plan m).isSome) (h : Safe σ τ n) : ∀ m ∈ n.subs, Ready σ τ m := by
  intro m hm
  induction m using Node.ind with
  | leaf p l => exact ready_leaf (h _ hm)
  | app p hd args ih =>
    have hargs : ∀ a ∈ args, Ready σ τ a := fun a ha =>
      ih a ha (Node.subs_trans hm (Node.arg_mem_subs ha))
    obtain ⟨t, ht⟩ := Node.check_sub hcheck hm
    have hmem := not_mem_of_plan (hplan _ hm)
    rw [Expr.sort_of_check ht] at hmem
    obtain ⟨hiff, hready⟩ := right_iff_safeAt ht (hpos.sub hm) (hplan _ hm) hargs hmem
    exact hready (hiff.mpr (h _ hm))

theorem denote_arg {p : Nat} {hd : Head} {u : ScVal} (h : (meaning σ τ).denote gen (.app p hd args) = some (some u)) {a : Node}
    (ha : a ∈ args) : ∃ w, (meaning σ τ).denote gen a = some (some w) := by
  rw [Meaning.denote_eq, Option.bind_eq_some_iff] at h
  obtain ⟨rs, hrs, hplan⟩ := h
  obtain ⟨pl, hpl, hval⟩ := Option.map_eq_some_iff.mp hplan
  obtain ⟨x, hx, hax⟩ := Pointwise.exists_right (MapM.eq_some_iff.mp hrs) ha
  rw [hax]
  cases pl with
  | inl r =>
    rw [gen_plan] at hpl
    cases hd with
    | op o => simp [plan] at hpl
    | appFunc f => simp [plan] at hpl
  | inr r =>
    obtain ⟨us, hus, -⟩ := Option.bind_eq_some_iff.mp hval
    obtain ⟨w, -, hw⟩ := Pointwise.exists_right (MapM.eq_some_iff.mp hus) hx
    exact ⟨w, congrArg some hw⟩

theorem safe_of_right {n : Node} {s : Srt} (hcheck : n.expr.check = some s) (hmem : s.isMem = false) (hpos : n.Positive)
    (hplan : ∀ m ∈ n.subs, (plan m).isSome) (h : ∀ m ∈ n.subs, m.expr.sort.isMem = false → Right σ τ m) :
    ∀ m ∈ n.subs, SafeAt σ τ m ∧ Ready σ τ m := by
  induction n using Node.ind generalizing s with
  | leaf p l =>
    intro m hm
    rw [Node.mem_subs_leaf.mp hm] at *
    obtain ⟨hiff, hready⟩ := right_iff_safeAt (σ := σ) (τ := τ) hcheck hpos (hplan _ (Node.mem_subs_self _)) (by simp [Node.args]) hmem
    have hright := h _ (Node.mem_subs_self _) (by rw [Expr.sort_of_check hcheck, hmem])
    exact ⟨hiff.mp hright, hready hright⟩
  | app p hd args ih =>
    have hself := Node.mem_subs_self (.app p hd args)
    have hright := h _ hself (by rw [Expr.sort_of_check hcheck, hmem])
    have hargs : ∀ a ∈ args, ∀ m ∈ a.subs, SafeAt σ τ m ∧ Ready σ τ m := by
      intro a ha
      have hsub {m : Node} (hm : m ∈ a.subs) : m ∈ (Node.app p hd args).subs := Node.mem_subs_of_arg ha hm
      obtain ⟨t, ht⟩ := Node.check_sub hcheck (Node.arg_mem_subs ha)
      by_cases htm : t.isMem = false
      · exact ih a ha ht htm (hpos.sub (Node.arg_mem_subs ha)) (fun m hm => hplan m (hsub hm)) fun m hm => h m (hsub hm)
      · -- A memory is a variable or a constant, and has a local because the application has one.
        obtain ⟨u, -, hu, -⟩ := hright
        obtain ⟨w, hw⟩ := denote_arg hu ha
        cases a with
        | leaf q l =>
          have hsafe := safeAt_leaf hw
          intro m hm
          rw [Node.mem_subs_leaf.mp hm]
          exact ⟨hsafe, ready_leaf hsafe⟩
        | app q hd' args' =>
          have hnot := not_mem_of_plan (hplan _ (Node.arg_mem_subs ha))
          rw [Expr.sort_of_check ht] at hnot
          exact absurd hnot htm
    obtain ⟨hiff, hready⟩ := right_iff_safeAt hcheck hpos (hplan _ hself)
      (show ∀ a ∈ args, Ready σ τ a from fun a ha => (hargs a ha a a.mem_subs_self).2) hmem
    intro m hm
    rcases Node.mem_subs_app.mp hm with rfl | ⟨a, ha, hma⟩
    · exact ⟨hiff.mp hright, hready hright⟩
    · exact hargs a ha m hma

theorem right_of_safe {n m : Node} {s : Srt} (hcheck : n.expr.check = some s) (hpos : n.Positive)
    (hplan : ∀ m ∈ n.subs, (plan m).isSome) (h : Safe σ τ n) (hm : m ∈ n.subs) (hmem : m.expr.sort.isMem = false) : Right σ τ m := by
  have hready := ready_of_safe hcheck hpos hplan h
  obtain ⟨t, ht⟩ := Node.check_sub hcheck hm
  rw [Expr.sort_of_check ht] at hmem
  refine (right_iff_safeAt ht (hpos.sub hm) (hplan m hm) (fun a ha => hready a ?_) hmem).1.mpr (h m hm)
  exact Node.subs_trans hm (Node.mem_subs_iff.mpr (.inr ⟨a, ha, a.mem_subs_self⟩))

theorem right_subs_iff_safe {n : Node} {s : Srt} (hcheck : n.expr.check = some s) (hmem : s.isMem = false) (hpos : n.Positive)
    (hplan : ∀ m ∈ n.subs, (plan m).isSome) :
    (∀ m ∈ n.subs, m.expr.sort.isMem = false → Right σ τ m) ↔ Safe σ τ n :=
  ⟨fun h m hm => (safe_of_right hcheck hmem hpos hplan h m hm).1, fun h _ hm hm' => right_of_safe hcheck hpos hplan h hm hm'⟩

end Nodes

end Ilator

end Ilang
