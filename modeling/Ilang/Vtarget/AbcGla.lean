import Ilang.Vtarget.AbcSound

/-!
# The two variants of the ABC parser

With the map of an abstraction that maps each flop to itself, the parser has the same registers to choose from as without a map.
In BLIF mode the two variants then do the same. In AIGER mode they differ at the latch behind the last register, which is read as
1: without a map the latch is looked for first, and its inversion is ignored; with a map the sign is changed first.
-/

namespace Ilang

namespace Abc

/-- Each flop of the abstraction stands for itself. -/
def GlaMap.Identity (g : GlaMap) : Prop := ∀ k f, g.flops[k]? = some f → (f.1 - g.piCount - 1).toNat = k

/-- What a run leaves behind: the literals of the expression as texts, the status, and the clauses that were handed to the CNF. -/
structure Outcome where
  expr : Option (List (List VText))
  succeed : Bool
  insertions : List (List CnfLit)
  deriving DecidableEq, Repr

def litText (l : Bool × VText) : VText := if l.1 then '~' :: l.2 else l.2

def outcome (i : Input) (cubes : List Cube) : Outcome :=
  ⟨(parseResult cubes).map (List.map (List.map litText)), (parseResult cubes).isSome,
    if i.aiger.isSome then cubes.map Cube.clause else []⟩

/-! ### Lines as registers -/

/-- The register of a literal number with its sign. The latch behind the last register is none. -/
def AigerMap.register (m : AigerMap) (flop : Nat) : Option (Bool × VText × Nat) :=
  (m.order[flop / 2]?).map fun s => (isNeg flop ^^ decide (flop / 2 ∈ m.inv), s.1, s.2)

/-- What a register adds to a cube; the latch behind the last register is taken without its sign. -/
def registerLiteral (o : Options) : Option (Bool × VText × Nat) → LitOut
  | none => extraLiteral false
  | some (neg, name, bit) => aigerLiteral o name bit neg

/-- A literal of the latch behind the last register that is false, if `inv` changes its sign. -/
def AigerMap.isFalse (m : AigerMap) (inv : Bool) (flop : Nat) : Bool := flop / 2 == m.order.length && (isNeg flop ^^ inv)

/-- The lines that no literal drops, as registers. -/
def readings (o : Options) (m : AigerMap) (inv : Bool) (lines : List (List Nat)) : List (List (Option (Bool × VText × Nat))) :=
  (lines.filter fun line => line.all fun flop => !(registerLiteral o (m.register flop)).remove && !m.isFalse inv flop).map
    (List.map m.register)

/-! ### Reading with a total decoder -/

section Total

variable {decode : Nat → Option LitOut} {f : Nat → LitOut}

def cubeOf (ls : List LitOut) : Cube := ⟨ls.flatMap fun l => l.text.toList, ls.any LitOut.remove, ls.flatMap fun l => l.cnf.toList⟩

theorem foldlM_eq (h : ∀ flop l, decode flop = some l → l = f flop) {line : List Nat} {c c' : Cube}
    (hread : line.foldlM (fun c flop => (decode flop).map c.add) c = some c') :
    c' = ⟨c.lits ++ (cubeOf (line.map f)).lits, c.remove || (cubeOf (line.map f)).remove,
      c.clause ++ (cubeOf (line.map f)).clause⟩ := by
  induction line generalizing c with
  | nil =>
    cases hread
    simp [cubeOf]
  | cons flop line ih =>
    rw [List.foldlM_cons] at hread
    obtain ⟨d, hd, hread⟩ := Option.bind_eq_some_iff.mp hread
    obtain ⟨l, hl, rfl⟩ := Option.map_eq_some_iff.mp hd
    obtain rfl := h flop l hl
    rw [ih hread]
    simp [cubeOf, Cube.add, Bool.or_assoc]

theorem readResult_eq (h : ∀ flop l, decode flop = some l → l = f flop) {lines : List (List Nat)} {cubes : List Cube}
    (hread : readResult decode lines = some cubes) :
    cubes = (lines.map fun line => cubeOf (line.map f)).filter fun c => !c.remove := by
  have hcube : ∀ line c, readCube decode line = some c → c = cubeOf (line.map f) := by
    intro line c hc
    rw [foldlM_eq h hc]
    simp
  have hall : ∀ (lines : List (List Nat)) all, lines.mapM (readCube decode) = some all →
      all = lines.map fun line => cubeOf (line.map f) := by
    intro lines
    induction lines with
    | nil =>
      intro all hread
      exact (Option.some.inj hread).symm
    | cons line lines ih =>
      intro all hread
      rw [List.mapM_cons] at hread
      obtain ⟨c, hc, hread⟩ := Option.bind_eq_some_iff.mp hread
      obtain ⟨rest, hrest, hread⟩ := Option.bind_eq_some_iff.mp hread
      rw [← Option.some.inj hread, ih rest hrest, hcube line c hc, List.map_cons]
  obtain ⟨all, hlines, rfl⟩ := Option.map_eq_some_iff.mp hread
  rw [hall lines all hlines]

end Total

/-! ### The decoders -/

section Decoders

variable {o : Options} {m : AigerMap} {gla : List Nat}

/-- What a literal number adds to a cube, if `inv` changes the sign of the latch behind the last register. -/
def flopLiteral (o : Options) (m : AigerMap) (inv : Bool) (flop : Nat) : LitOut :=
  if flop / 2 = m.order.length then extraLiteral (isNeg flop ^^ inv) else registerLiteral o (m.register flop)

theorem aigerFlop_eq {flop : Nat} {l : LitOut} (h : aigerFlop o m flop = some l) : l = flopLiteral o m false flop := by
  unfold aigerFlop at h
  unfold flopLiteral
  split at h
  · rename_i hextra
    rw [if_pos hextra, Bool.xor_false, ← Option.some.inj h]
  · rename_i hextra
    obtain ⟨s, hs, rfl⟩ := Option.map_eq_some_iff.mp h
    rw [if_neg hextra, AigerMap.register, hs]
    rfl

theorem aigerGlaFlop_eq (hgla : ∀ k id : Nat, gla[k]? = some id → id = k) {flop : Nat} {l : LitOut}
    (h : aigerGlaFlop o m gla flop = some l) : l = flopLiteral o m (decide (m.order.length ∈ m.inv)) flop := by
  obtain ⟨id, hid, h⟩ := Option.bind_eq_some_iff.mp h
  obtain rfl := hgla _ _ hid
  unfold flopLiteral
  split at h
  · rename_i hextra
    rw [if_pos hextra, ← Option.some.inj h, hextra]
  · rename_i hextra
    obtain ⟨s, hs, rfl⟩ := Option.map_eq_some_iff.mp h
    rw [if_neg hextra, AigerMap.register, hs]
    rfl

theorem blifGlaFlop_eq {blif : List BlifLatch} (hgla : ∀ k id : Nat, gla[k]? = some id → id = k) {flop : Nat} {l : LitOut}
    (h : blifGlaFlop o blif gla flop = some l) : blifFlop o blif flop = some l := by
  obtain ⟨id, hid, h⟩ := Option.bind_eq_some_iff.mp h
  obtain rfl := hgla _ _ hid
  exact h

theorem readGlaFlops_identity {pis : UInt32} {ok : Nat → Bool} {last : UInt32} {flops : List (UInt32 × UInt32)}
    (h : readGlaFlops pis ok last flops = some gla) : gla = flops.map fun f : UInt32 × UInt32 => (f.1 - pis - 1).toNat := by
  induction flops generalizing last gla with
  | nil => exact (Option.some.inj h).symm
  | cons f flops ih =>
    obtain ⟨old, new⟩ := f
    unfold readGlaFlops at h
    split at h
    · dsimp only at h
      split at h
      · obtain ⟨ids, hids, rfl⟩ := Option.map_eq_some_iff.mp h
        rw [ih hids, List.map_cons]
      · cases h
    · cases h

theorem GlaMap.Identity.readGla {g : GlaMap} (hid : g.Identity) {ok : Nat → Bool} (h : Abc.readGla g ok = some gla) :
    ∀ k id : Nat, gla[k]? = some id → id = k := by
  intro k id hk
  unfold Abc.readGla at h
  split at h
  · cases h
  · rw [readGlaFlops_identity h, List.getElem?_map] at hk
    obtain ⟨f, hf, rfl⟩ := Option.map_eq_some_iff.mp hk
    exact hid k f hf

theorem cubes_eq_readings {decode : Nat → Option LitOut} {inv : Bool}
    (h : ∀ flop l, decode flop = some l → l = flopLiteral o m inv flop) {lines : List (List Nat)} {cubes : List Cube}
    (hread : readResult decode lines = some cubes) :
    cubes = (readings o m inv lines).map fun rs => cubeOf (rs.map (registerLiteral o)) := by
  have hextra : ∀ flop, flop / 2 = m.order.length → m.register flop = none := by
    intro flop hflop
    rw [AigerMap.register, hflop, List.getElem?_eq_none (Nat.le_refl _), Option.map_none]
  have hremove : ∀ flop, (flopLiteral o m inv flop).remove = false ↔
      (registerLiteral o (m.register flop)).remove = false ∧ m.isFalse inv flop = false := by
    intro flop
    unfold flopLiteral AigerMap.isFalse
    by_cases hflop : flop / 2 = m.order.length
    · rw [if_pos hflop, hextra flop hflop, hflop, beq_self_eq_true, Bool.true_and]
      exact (and_iff_right rfl).symm
    · rw [if_neg hflop, beq_false_of_ne hflop, Bool.false_and]
      exact (and_iff_left rfl).symm
  have hsame : ∀ flop, m.isFalse inv flop = false → flopLiteral o m inv flop = registerLiteral o (m.register flop) := by
    intro flop hfalse
    unfold flopLiteral
    unfold AigerMap.isFalse at hfalse
    by_cases hflop : flop / 2 = m.order.length
    · rw [hflop, beq_self_eq_true, Bool.true_and] at hfalse
      rw [if_pos hflop, hextra flop hflop, hfalse]
      rfl
    · rw [if_neg hflop]
  have hkeep : ∀ line : List Nat, (cubeOf (line.map (flopLiteral o m inv))).remove = false ↔
      ∀ flop ∈ line, (registerLiteral o (m.register flop)).remove = false ∧ m.isFalse inv flop = false := by
    intro line
    rw [cubeOf, List.any_map, List.any_eq_false]
    exact forall₂_congr fun flop _ => by rw [← hremove flop, Function.comp_apply, Bool.not_eq_true]
  rw [readResult_eq h hread, readings, List.filter_map, List.map_map]
  have hfilter : (lines.filter ((fun c : Cube => !c.remove) ∘ fun line => cubeOf (line.map (flopLiteral o m inv)))) =
      lines.filter fun line => line.all fun flop => !(registerLiteral o (m.register flop)).remove && !m.isFalse inv flop := by
    refine List.filter_congr fun line _ => ?_
    rw [Bool.eq_iff_iff, Function.comp_apply, Bool.not_eq_true', hkeep, List.all_eq_true]
    exact forall₂_congr fun flop _ => by rw [Bool.and_eq_true, Bool.not_eq_true', Bool.not_eq_true']
  rw [hfilter]
  refine List.map_congr_left fun line hline => ?_
  have hall := List.all_eq_true.mp (List.mem_filter.mp hline).2
  rw [Function.comp_apply, List.map_map]
  refine congrArg cubeOf (List.map_congr_left fun flop hflop => hsame flop ?_)
  have hboth := hall flop hflop
  rw [Bool.and_eq_true, Bool.not_eq_true', Bool.not_eq_true'] at hboth
  exact hboth.2

end Decoders

/-! ### The texts and the clauses of kept registers -/

section Kept

variable {o : Options}

theorem mem_replaceAllAux {a b : VText} {c : Char} (hc : c ∉ a) (fuel : Nat) {s : VText} (h : c ∈ s) :
    c ∈ replaceAllAux a b fuel s := by
  induction fuel generalizing s with
  | zero => exact h
  | succ fuel ih =>
    cases s with
    | nil => cases h
    | cons d s =>
      unfold replaceAllAux
      split
      · rename_i hpre
        obtain ⟨rest, hrest⟩ := List.isPrefixOf_iff_prefix.mp hpre
        rw [← hrest] at h ⊢
        rw [List.drop_left]
        exact List.mem_append_right _ (ih ((List.mem_append.mp h).resolve_left hc))
      · obtain rfl | h := List.mem_cons.mp h
        · exact List.mem_cons_self
        · exact List.mem_cons_of_mem _ (ih h)

theorem replaceAllAux_getLast? {a b : VText} (hb : b ≠ []) (fuel : Nat) (s : VText) :
    (replaceAllAux a b fuel s).getLast? = s.getLast? ∨ (replaceAllAux a b fuel s).getLast? = b.getLast? := by
  obtain ⟨x, hx⟩ := Option.ne_none_iff_exists'.mp (mt List.getLast?_eq_none_iff.mp hb)
  induction fuel generalizing s with
  | zero => exact .inl rfl
  | succ fuel ih =>
    cases s with
    | nil => exact .inl rfl
    | cons d s =>
      unfold replaceAllAux
      split
      · rename_i hpre
        obtain ⟨rest, hrest⟩ := List.isPrefixOf_iff_prefix.mp hpre
        rw [← hrest, List.drop_left, List.getLast?_append, List.getLast?_append]
        obtain h | h := ih rest
        · cases hlast : rest.getLast? with
          | none => exact .inr (by rw [h, hlast, Option.none_or])
          | some y => exact .inl (by rw [h, hlast, Option.some_or, Option.some_or])
        · exact .inr (by rw [h, Option.or_self])
      · rw [List.getLast?_cons, List.getLast?_cons]
        obtain h | h := ih s
        · exact .inl (by rw [h])
        · exact .inr (by rw [h, hx, Option.getD_some])

/-- A register that no cube is dropped for, its text in the expression, and its literal of the clause. -/
inductive Kept (o : Options) : Option (Bool × VText × Nat) → VText → Option CnfLit → Prop
  | behind : Kept o none (litText (false, oneText)) none
  | assumed {name bit} (houtside : o.replaceOutsideVarRef = true) (hname : rangeRef name bit = allAssumedReg) :
      Kept o (some (true, name, bit)) (litText (true, zeroText)) none
  | ref {neg name bit} (hdut : o.replaceOutsideVarRef = true → '.' ∈ rangeRef name bit) :
      Kept o (some (neg, name, bit)) (litText (neg, replaceAll (rangeRef name bit) allAssumedReg zeroText))
        (some ⟨neg, name, bit⟩)

/-- The text of a kept register tells whether the clause mentions it, and if not, which register it is. -/
theorem Kept.unique {r r' : Option (Bool × VText × Nat)} {t : VText} {c c' : Option CnfLit} (h : Kept o r t c)
    (h' : Kept o r' t c') : (r = r' ∧ c = c') ∨ (c.isSome = true ∧ c'.isSome = true) := by
  have hbehind : ∀ neg name bit, litText (false, oneText) ≠
      litText (neg, replaceAll (rangeRef name bit) allAssumedReg zeroText) := by
    intro neg name bit heq
    have hlast : (litText (neg, replaceAll (rangeRef name bit) allAssumedReg zeroText)).getLast? =
        (replaceAll (rangeRef name bit) allAssumedReg zeroText).getLast? := by
      cases neg with
      | false => rfl
      | true =>
        show ('~' :: _).getLast? = _
        obtain h | h := replaceAllAux_getLast? (a := allAssumedReg) (show zeroText ≠ [] by decide) (rangeRef name bit).length
          (rangeRef name bit)
        · rw [List.getLast?_cons, replaceAll, h, rangeRef_getLast?, Option.getD_some]
        · rw [List.getLast?_cons, replaceAll, h]
          decide
    rw [← heq, replaceAll] at hlast
    obtain h | h := replaceAllAux_getLast? (a := allAssumedReg) (show zeroText ≠ [] by decide) (rangeRef name bit).length
      (rangeRef name bit)
    · rw [h, rangeRef_getLast?] at hlast
      revert hlast
      decide
    · rw [h] at hlast
      revert hlast
      decide
  have hassumed : ∀ neg name bit, '.' ∈ rangeRef name bit → litText (true, zeroText) ≠
      litText (neg, replaceAll (rangeRef name bit) allAssumedReg zeroText) := by
    intro neg name bit hdot heq
    have hmem : '.' ∈ litText (neg, replaceAll (rangeRef name bit) allAssumedReg zeroText) := by
      have hmem := mem_replaceAllAux (b := zeroText) (show '.' ∉ allAssumedReg by decide) (rangeRef name bit).length hdot
      cases neg with
      | false => exact hmem
      | true => exact List.mem_cons_of_mem _ hmem
    rw [← heq] at hmem
    revert hmem
    decide
  generalize ht : t = t' at h'
  cases h with
  | behind =>
    cases h' with
    | behind => exact .inl ⟨rfl, rfl⟩
    | assumed => exact absurd ht (by decide)
    | ref => exact absurd ht (hbehind _ _ _)
  | assumed houtside hname =>
    cases h' with
    | behind => exact absurd ht (by decide)
    | assumed _ hname' =>
      obtain ⟨rfl, rfl⟩ := rangeRef_injective (hname.trans hname'.symm)
      exact .inl ⟨rfl, rfl⟩
    | ref hdut => exact absurd ht (hassumed _ _ _ (hdut houtside))
  | ref hdut =>
    cases h' with
    | behind => exact absurd ht.symm (hbehind _ _ _)
    | assumed houtside => exact absurd ht.symm (hassumed _ _ _ (hdut houtside))
    | ref => exact .inr ⟨rfl, rfl⟩

theorem Kept.eq_of_some {r r' : Option (Bool × VText × Nat)} {t t' : VText} {l : CnfLit} (h : Kept o r t (some l))
    (h' : Kept o r' t' (some l)) : r = r' := by
  cases h
  cases h'
  rfl

/-- The texts that the literals of a cube have in the expression. -/
def Cube.texts (c : Cube) : List VText := (replaced c.lits).map litText

theorem registerLiteral_kept {r : Option (Bool × VText × Nat)} (h : (registerLiteral o r).remove = false) :
    ∃ t c, Kept o r t c ∧ (cubeOf [registerLiteral o r]).texts = [t] ∧ (registerLiteral o r).cnf = c := by
  cases r with
  | none => exact ⟨_, _, .behind, show (cubeOf [extraLiteral false]).texts = _ by decide, rfl⟩
  | some s =>
    obtain ⟨neg, name, bit⟩ := s
    unfold registerLiteral aigerLiteral at h ⊢
    dsimp only at h ⊢
    split
    · rename_i hdut
      refine ⟨_, _, .ref fun _ => ?_, rfl, rfl⟩
      obtain ⟨rest, hrest⟩ := List.isPrefixOf_iff_prefix.mp hdut
      rw [← hrest]
      simp
    · rename_i hdut
      rw [if_neg hdut] at h
      split
      · rename_i houtside
        rw [if_pos houtside] at h
        split
        · rename_i hname
          rw [if_pos hname] at h
          obtain rfl : neg = true := by simpa using h
          exact ⟨_, _, .assumed houtside hname, by decide, rfl⟩
        · rename_i hname
          rw [if_neg hname] at h
          split at h
          · cases h
          · cases h
      · rename_i houtside
        exact ⟨_, _, .ref fun h => absurd h houtside, rfl, rfl⟩

theorem cubeOf_cons (l : LitOut) (ls : List LitOut) :
    (cubeOf (l :: ls)).texts = (cubeOf [l]).texts ++ (cubeOf ls).texts ∧
    (cubeOf (l :: ls)).clause = l.cnf.toList ++ (cubeOf ls).clause := by
  simp [cubeOf, Cube.texts, replaced]

theorem cubeOf_injective {rs rs' : List (Option (Bool × VText × Nat))} (hrs : ∀ r ∈ rs, (registerLiteral o r).remove = false)
    (hrs' : ∀ r ∈ rs', (registerLiteral o r).remove = false)
    (htexts : (cubeOf (rs.map (registerLiteral o))).texts = (cubeOf (rs'.map (registerLiteral o))).texts)
    (hclause : (cubeOf (rs.map (registerLiteral o))).clause = (cubeOf (rs'.map (registerLiteral o))).clause) : rs = rs' := by
  induction rs generalizing rs' with
  | nil =>
    cases rs' with
    | nil => rfl
    | cons r' rs' =>
      obtain ⟨t', _, _, ht', _⟩ := registerLiteral_kept (hrs' r' List.mem_cons_self)
      rw [List.map_cons, (cubeOf_cons _ _).1, ht'] at htexts
      cases htexts
  | cons r rs ih =>
    obtain ⟨t, c, hkept, ht, hc⟩ := registerLiteral_kept (hrs r List.mem_cons_self)
    rw [List.map_cons, (cubeOf_cons _ _).1, ht] at htexts
    rw [List.map_cons, (cubeOf_cons _ _).2, hc] at hclause
    cases rs' with
    | nil => cases htexts
    | cons r' rs' =>
      obtain ⟨t', c', hkept', ht', hc'⟩ := registerLiteral_kept (hrs' r' List.mem_cons_self)
      rw [List.map_cons, (cubeOf_cons _ _).1, ht'] at htexts
      rw [List.map_cons, (cubeOf_cons _ _).2, hc'] at hclause
      rw [List.singleton_append, List.singleton_append] at htexts
      obtain ⟨rfl, htail⟩ := List.cons.inj htexts
      have hsame : r = r' ∧ c = c' := by
        obtain h | ⟨h, h'⟩ := hkept.unique hkept'
        · exact h
        · obtain ⟨l, rfl⟩ := Option.isSome_iff_exists.mp h
          obtain ⟨l', rfl⟩ := Option.isSome_iff_exists.mp h'
          obtain ⟨rfl, _⟩ := List.cons.inj hclause
          exact ⟨hkept.eq_of_some hkept', rfl⟩
      obtain ⟨rfl, rfl⟩ := hsame
      rw [ih (fun r hr => hrs r (List.mem_cons_of_mem _ hr)) (fun r hr => hrs' r (List.mem_cons_of_mem _ hr)) htail
        (List.append_cancel_left hclause)]

end Kept

/-! ### Agreement -/

section Agreement

variable {o : Options} {i : Input} {g : GlaMap} {cubes cubes' : List Cube}

theorem outcome_expr (i : Input) (cubes : List Cube) :
    (outcome i cubes).expr = if cubes = [] then none else some (cubes.map Cube.texts) := by
  cases cubes <;> simp [outcome, parseResult, Cube.texts]

theorem blif_agrees {blif : List BlifLatch} (hid : g.Identity) {lines : List (List Nat)} (h : parseWoGLA o blif lines = some cubes)
    (h' : parseWithGLA o blif g lines = some cubes') : cubes = cubes' := by
  obtain ⟨gla, hgla, h'⟩ := Option.bind_eq_some_iff.mp h'
  let f := fun flop => (blifFlop o blif flop).getD ⟨none, false, none⟩
  have hplain : ∀ flop l, blifFlop o blif flop = some l → l = f flop := by
    intro flop l hl
    show l = (blifFlop o blif flop).getD _
    rw [hl, Option.getD_some]
  have hmapped : ∀ flop l, blifGlaFlop o blif gla flop = some l → l = f flop :=
    fun flop l hl => hplain flop l (blifGlaFlop_eq (hid.readGla hgla) hl)
  rw [readResult_eq hplain h, readResult_eq hmapped h']

theorem readings_kept {m : AigerMap} {inv : Bool} {lines : List (List Nat)} {rs : List (Option (Bool × VText × Nat))}
    (h : rs ∈ readings o m inv lines) : ∀ r ∈ rs, (registerLiteral o r).remove = false := by
  intro r hr
  obtain ⟨line, hline, rfl⟩ := List.mem_map.mp h
  obtain ⟨flop, hflop, rfl⟩ := List.mem_map.mp hr
  have hboth := List.all_eq_true.mp (List.mem_filter.mp hline).2 flop hflop
  rw [Bool.and_eq_true, Bool.not_eq_true'] at hboth
  exact hboth.1

theorem cubes_injective {all all' : List (List (Option (Bool × VText × Nat)))}
    (hkept : ∀ rs ∈ all, ∀ r ∈ rs, (registerLiteral o r).remove = false)
    (hkept' : ∀ rs ∈ all', ∀ r ∈ rs, (registerLiteral o r).remove = false)
    (htexts : all.map (Cube.texts ∘ fun rs => cubeOf (rs.map (registerLiteral o))) =
      all'.map (Cube.texts ∘ fun rs => cubeOf (rs.map (registerLiteral o))))
    (hclauses : all.map (Cube.clause ∘ fun rs => cubeOf (rs.map (registerLiteral o))) =
      all'.map (Cube.clause ∘ fun rs => cubeOf (rs.map (registerLiteral o)))) : all = all' := by
  induction all generalizing all' with
  | nil =>
    cases all' with
    | nil => rfl
    | cons rs' all' => cases htexts
  | cons rs all ih =>
    cases all' with
    | nil => cases htexts
    | cons rs' all' =>
      obtain ⟨ht, htexts⟩ := List.cons.inj htexts
      obtain ⟨hc, hclauses⟩ := List.cons.inj hclauses
      rw [cubeOf_injective (hkept rs List.mem_cons_self) (hkept' rs' List.mem_cons_self) ht hc,
        ih (fun rs hrs => hkept rs (List.mem_cons_of_mem _ hrs)) (fun rs hrs => hkept' rs (List.mem_cons_of_mem _ hrs))
          htexts hclauses]

theorem outcome_readings {map : List MapLine} (haiger : i.aiger = some map) {m : AigerMap} {inv inv' : Bool}
    (h : outcome i ((readings o m inv i.lines).map fun rs => cubeOf (rs.map (registerLiteral o))) =
      outcome i ((readings o m inv' i.lines).map fun rs => cubeOf (rs.map (registerLiteral o)))) :
    readings o m inv i.lines = readings o m inv' i.lines := by
  have hexpr := congrArg Outcome.expr h
  have hinsertions := congrArg Outcome.insertions h
  simp only [outcome, haiger, Option.isSome_some, if_true, List.map_map] at hinsertions
  simp only [outcome_expr, List.map_map] at hexpr
  have hlength := congrArg List.length hinsertions
  rw [List.length_map, List.length_map] at hlength
  refine cubes_injective (fun _ => readings_kept) (fun _ => readings_kept) ?_ hinsertions
  cases hall : readings o m inv i.lines with
  | nil =>
    rw [hall, List.length_nil] at hlength
    rw [List.length_eq_zero_iff.mp hlength.symm]
  | cons rs all =>
    cases hall' : readings o m inv' i.lines with
    | nil =>
      rw [hall, hall'] at hlength
      cases hlength
    | cons rs' all' =>
      rw [hall, hall'] at hexpr
      exact Option.some.inj hexpr

/-- With a map of the abstraction that maps each flop to itself, the parser does the same as without a map exactly if the lines
read the same whether or not the latch behind the last register is inverted, in case it is. -/
theorem gla_agrees_iff (hgla : i.gla = none) (hid : g.Identity) (h : parse o i = some cubes)
    (h' : parse o { i with gla := some g } = some cubes') :
    outcome i cubes = outcome i cubes' ↔
      ∀ map m, i.aiger = some map → readAigerMap i.blif map = some m → m.order.length ∈ m.inv →
        readings o m true i.lines = readings o m false i.lines := by
  unfold parse at h h'
  dsimp only at h'
  rw [hgla] at h
  cases haiger : i.aiger with
  | none =>
    rw [haiger] at h h'
    rw [blif_agrees hid h h']
    exact iff_of_true rfl fun map m hnone => nomatch hnone
  | some map =>
    rw [haiger] at h h'
    obtain ⟨m, hm, h⟩ := Option.bind_eq_some_iff.mp h
    obtain ⟨m', hm', h'⟩ := Option.bind_eq_some_iff.mp h'
    obtain rfl := Option.some.inj (hm.symm.trans hm')
    obtain ⟨gla, hread, h'⟩ := Option.bind_eq_some_iff.mp h'
    rw [cubes_eq_readings (fun _ _ => aigerFlop_eq) h,
      cubes_eq_readings (fun _ _ => aigerGlaFlop_eq (hid.readGla hread)) h']
    constructor
    · intro hsame map' m' hmap hm' hinv
      obtain rfl := Option.some.inj hmap
      obtain rfl := Option.some.inj (hm.symm.trans hm')
      rw [decide_eq_true hinv] at hsame
      exact (outcome_readings haiger hsame).symm
    · intro hcond
      by_cases hinv : m.order.length ∈ m.inv
      · rw [decide_eq_true hinv, hcond map m rfl hm hinv]
      · rw [decide_eq_false hinv]

end Agreement

/-! ### An inverted latch behind the last register -/

/-- One register of the design, and the inverted latch of the property behind it. -/
def invertedExtra : Input where
  blif := [⟨"m1.x".toList, 0⟩]
  aiger := some [⟨false, 0, 0, "m1.x".toList⟩, ⟨true, 1, 0, "extra".toList⟩]
  gla := none
  lines := [[0, 2]]

/-- Both flops are kept under their own numbers. -/
def keepBoth : GlaMap := ⟨0, 2, [(1, 1), (2, 2)]⟩

theorem keepBoth_identity : keepBoth.Identity := by
  intro k f hf
  match k, hf with
  | 0, hf => rw [← Option.some.inj hf]; decide
  | 1, hf => rw [← Option.some.inj hf]; decide

def m1Options : Options := ⟨"m1".toList, true⟩

/-- The same files with a line that does not mention the latch behind the last register. -/
theorem gla_agrees_iff_inverted :
    parse m1Options { invertedExtra with lines := [[1]] } = some [⟨[(true, "m1.x[0:0]".toList)], false, [⟨true, "m1.x".toList, 0⟩]⟩] ∧
    (outcome invertedExtra [⟨[(true, "m1.x[0:0]".toList)], false, [⟨true, "m1.x".toList, 0⟩]⟩] =
      outcome invertedExtra [⟨[(true, "m1.x[0:0]".toList)], false, [⟨true, "m1.x".toList, 0⟩]⟩] ↔
      ∀ map m, invertedExtra.aiger = some map → readAigerMap invertedExtra.blif map = some m → m.order.length ∈ m.inv →
        readings m1Options m true [[1]] = readings m1Options m false [[1]]) :=
  ⟨by decide +kernel,
    gla_agrees_iff (i := { invertedExtra with lines := [[1]] }) (g := keepBoth) rfl keepBoth_identity (by decide +kernel)
      (by decide +kernel)⟩

/-- A line that mentions it is dropped with a map, and becomes the invariant without one. -/
theorem inverted_extra_differs : ¬ ∀ (o : Options) (i : Input) (g : GlaMap) (cubes cubes' : List Cube),
    i.gla = none → g.Identity → parse o i = some cubes → parse o { i with gla := some g } = some cubes' →
      outcome i cubes = outcome i cubes' := by
  intro h
  have hplain : parse m1Options invertedExtra = some
      [⟨[(false, "m1.x[0:0]".toList), (false, oneText)], false, [⟨false, "m1.x".toList, 0⟩]⟩] := by decide +kernel
  have hmapped : parse m1Options { invertedExtra with gla := some keepBoth } = some [] := by decide +kernel
  exact absurd (h m1Options invertedExtra keepBoth _ _ rfl keepBoth_identity hplain hmapped) (by decide +kernel)

end Abc

end Ilang
