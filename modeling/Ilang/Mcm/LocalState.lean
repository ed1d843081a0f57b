import Ilang.Mcm.ReadSet
import Ilang.Util.Container

/-!
# Private states of a core

`SetLocalState` has to give the private states of a core the values that its program gives them. A core that is in order is
executed step by step; in a core that is not, a step reads what the last writer before it wrote. Every step has its own copy of
each state, and only the copies that the step reads are constrained, so the code relies on steps reading what they need.
-/

namespace Ilang

namespace Mcm

open Smt

section

variable (u : System) (core : Nat)

/-! ### The program of a core -/

/-- The number of instructions. -/
def progLength : Nat := ((u.tmpl[core]?).getD []).length

def readSetAt (pos : Nat) : List String := (u.step (.inst core pos)).readSet

/-- The instructions are those of the core: a variable with the name of a private state is this state, and updates have the sorts
of their states. The code looks at the first step. -/
structure CoreOk : Prop where
  nonempty : 0 < progLength u core
  decode : ∀ pos < progLength u core, (u.instr core pos).decode.check = some .bool
  update : ∀ pos < progLength u core, ∀ s ∈ u.privateNames core, ∀ e, (u.instr core pos).update s = some e →
    e.check = some (u.coreVar core s).sort
  decodeVars : ∀ pos < progLength u core, ∀ v, Atom.var v ∈ (u.instr core pos).decode.atoms → v.name ∈ u.privateNames core →
    v = u.coreVar core v.name
  updateVars : ∀ pos < progLength u core, ∀ s ∈ u.privateNames core, ∀ e, (u.instr core pos).update s = some e →
    ∀ v, Atom.var v ∈ e.atoms → v.name ∈ u.privateNames core → v = u.coreVar core v.name

/-- A step that writes a private state also reads the private memories that it stores into. -/
def ReadsBases : Prop :=
  ∀ pos < progLength u core, ∀ s ∈ u.privateNames core, ∀ e, (u.instr core pos).update s = some e →
    ∀ n ∈ storeBases (u.instr core pos).decode ++ storeBases e, n ∈ u.privateNames core → n ∈ readSetAt u core pos

/-! ### Execution -/

variable (M : Model)

/-- The copy of a private state at a step. -/
def valueAt (suffix s : String) : Value := (frame M suffix).atom (.var (u.coreVar core s))

/-- The frame of a step, with the private states of the execution instead of their copies. -/
def runFrame (σ : String → Value) (pos : Nat) : Valuation where
  atom
    | .var v =>
      if v.name ∈ u.privateNames core ∧ (σ v.name).sort = v.sort then σ v.name
      else (frame M (toString (pos + 1))).atom (.var v)
    | .nondet f => (frame M (toString (pos + 1))).atom (.nondet f)
  atom_sort
    | .var v => by
      dsimp only
      split
      · rename_i h
        exact h.2
      · exact (frame M (toString (pos + 1))).atom_sort (.var v)
    | .nondet f => (frame M (toString (pos + 1))).atom_sort (.nondet f)
  func := (frame M (toString (pos + 1))).func
  func_sort := (frame M (toString (pos + 1))).func_sort

/-- The private states after one step. A step that is not decoded changes nothing. -/
def execStep (σ : String → Value) (pos : Nat) (s : String) : Value :=
  match (u.instr core pos).update s with
  | none => σ s
  | some e =>
    if Value.isTrue ((u.instr core pos).decode.eval (runFrame u core M σ pos)) then
      (e.eval (runFrame u core M σ pos)).getD (σ s)
    else σ s

/-- The private states before a step, executed in order from the initial state. -/
def exec : Nat → String → Value
  | 0, s => valueAt u core M "0" s
  | pos + 1, s => execStep u core M (exec pos) pos s

/-- A step that is not decoded reads the private states that it would write. -/
def ReadsKept : Prop :=
  ∀ pos < progLength u core, ∀ s ∈ u.privateNames core, ((u.instr core pos).update s).isSome →
    s ∈ readSetAt u core pos ∨
      (u.instr core pos).decode.eval (runFrame u core M (exec u core M pos) pos) = some (.bool true)

/-- The copies that the steps read, and the final ones, have the values of the execution. -/
def Executes : Prop :=
  (∀ pos < progLength u core, ∀ s ∈ u.privateNames core, s ∈ readSetAt u core pos →
    valueAt u core M (toString (pos + 1)) s = exec u core M pos s) ∧
  ∀ s ∈ u.privateNames core, valueAt u core M "final" s = exec u core M (progLength u core) s

end

/-! ### Steps that read what they need -/

section

variable {u : System} {core : Nat} {M : Model} {pos : Nat} {σ : String → Value} {s : String}

theorem eval_runFrame {e : Expr} (hvars : ∀ v, Atom.var v ∈ e.atoms → v.name ∈ u.privateNames core → v = u.coreVar core v.name)
    (hσ : ∀ v, Atom.var v ∈ e.atoms → v.name ∈ u.privateNames core → valueAt u core M (toString (pos + 1)) v.name = σ v.name) :
    e.eval (frame M (toString (pos + 1))) = e.eval (runFrame u core M σ pos) := by
  refine Expr.eval_congr (fun f _ => rfl) fun x hx => ?_
  cases x with
  | nondet f => rfl
  | var v =>
    by_cases h : v.name ∈ u.privateNames core ∧ (σ v.name).sort = v.sort
    · have hval := hσ v hx h.1
      rw [valueAt, ← hvars v hx h.1] at hval
      rw [hval]
      exact (if_pos h).symm
    · exact (if_neg h).symm

theorem mem_readSetAt (hreads : ReadsBases u core) (hpos : pos < progLength u core) (hs : s ∈ u.privateNames core) {e : Expr}
    (he : (u.instr core pos).update s = some e) {v : Var}
    (hv : Atom.var v ∈ (u.instr core pos).decode.atoms ∨ Atom.var v ∈ e.atoms) (hname : v.name ∈ u.privateNames core) :
    v.name ∈ readSetAt u core pos := by
  have hbases := hreads pos hpos s hs e he
  rw [List.forall_mem_append] at hbases
  rcases hv with hv | hv
  · rcases mem_uses_or_storeBases hv with huse | hbase
    · exact List.mem_append_left _ huse
    · exact hbases.1 v.name hbase hname
  · rcases mem_uses_or_storeBases hv with huse | hbase
    · exact List.mem_append_right _ (List.mem_flatMap.mpr ⟨(s, e), Entries.mem_of_lookup he, huse⟩)
    · exact hbases.2 v.name hbase hname

theorem eval_own (hok : CoreOk u core) (hreads : ReadsBases u core) (hpos : pos < progLength u core)
    (hσ : ∀ n ∈ u.privateNames core, n ∈ readSetAt u core pos →
      valueAt u core M (toString (pos + 1)) n = exec u core M pos n)
    (hs : s ∈ u.privateNames core) {e : Expr} (he : (u.instr core pos).update s = some e) :
    (u.instr core pos).decode.eval (frame M (toString (pos + 1))) =
        (u.instr core pos).decode.eval (runFrame u core M (exec u core M pos) pos) ∧
      e.eval (frame M (toString (pos + 1))) = e.eval (runFrame u core M (exec u core M pos) pos) := by
  refine ⟨eval_runFrame (hok.decodeVars pos hpos) fun v hv hname => hσ v.name hname ?_,
    eval_runFrame (hok.updateVars pos hpos s hs e he) fun v hv hname => hσ v.name hname ?_⟩
  · exact mem_readSetAt hreads hpos hs he (.inl hv) hname
  · exact mem_readSetAt hreads hpos hs he (.inr hv) hname

theorem exec_succ_of_decoded (hok : CoreOk u core) (hpos : pos < progLength u core) (hs : s ∈ u.privateNames core) {e : Expr}
    (he : (u.instr core pos).update s = some e)
    (hdec : (u.instr core pos).decode.eval (runFrame u core M (exec u core M pos) pos) = some (.bool true)) :
    e.eval (runFrame u core M (exec u core M pos) pos) = some (exec u core M (pos + 1) s) := by
  obtain ⟨x, hx, -⟩ := Expr.eval_of_check (hok.update pos hpos s hs e he) (runFrame u core M (exec u core M pos) pos)
  have hnext : exec u core M (pos + 1) s = x := by
    simp only [exec, execStep, he, hdec, hx]
    rfl
  rw [hx, hnext]

theorem exec_succ_of_not (hs : ∀ e, (u.instr core pos).update s = some e →
      (u.instr core pos).decode.eval (runFrame u core M (exec u core M pos) pos) ≠ some (.bool true)) :
    exec u core M (pos + 1) s = exec u core M pos s := by
  rw [exec, execStep]
  split
  · rfl
  · rename_i e he
    have hfalse : ¬Value.isTrue ((u.instr core pos).decode.eval (runFrame u core M (exec u core M pos) pos)) = true :=
      fun htrue => hs e he ((Value.isTrue_iff _).mp htrue)
    rw [if_neg hfalse]

/-! ### A core that is in order -/

variable {z3 : Z3} {T : Ev → Int}

theorem sat_eq {l r : Term} : (ZForm.eq l r).Sat M T ↔ ∃ v, l.eval M = some v ∧ r.eval M = some v := Iff.rfl

theorem eval_coreVar (suffix : String) : (getExpr z3 suffix (.var (u.coreVar core s))).eval M = some (valueAt u core M suffix s) :=
  getExpr_eval z3 M suffix rfl

/-- The last update of every private state, read where it was made, has the value of the execution. -/
def LastOk (u : System) (core : Nat) (M : Model) (pos : Nat) (last : LastUpdate) : Prop :=
  ∀ s ∈ u.privateNames core, (lastOf u core last s).1.check = some (u.coreVar core s).sort ∧
    (lastOf u core last s).1.eval (frame M (toString (lastOf u core last s).2)) = some (exec u core M pos s)

theorem lastOk_init : LastOk u core M 0 [] := by
  intro s _
  refine ⟨rfl, ?_⟩
  change some ((frame M (toString 0)).atom (.var (u.coreVar core s))) = some (valueAt u core M "0" s)
  rfl

theorem sat_link {last : LastUpdate} (hlast : LastOk u core M pos last) (hs : s ∈ u.privateNames core) {suffix : String} :
    (ZForm.eq (getExpr z3 suffix (.var (u.coreVar core s)))
        (getExpr z3 (toString (lastOf u core last s).2) (lastOf u core last s).1)).Sat M T ↔
      valueAt u core M suffix s = exec u core M pos s := by
  obtain ⟨hcheck, heval⟩ := hlast s hs
  rw [sat_eq, eval_coreVar, getExpr_eval z3 M _ hcheck, heval]
  constructor
  · rintro ⟨v, hl, hr⟩
    exact (Option.some.inj hl).trans (Option.some.inj hr).symm
  · exact fun heq => ⟨_, rfl, congrArg some heq.symm⟩

theorem mem_writeSet : s ∈ (u.step (.inst core pos)).writeSet ↔ ((u.instr core pos).update s).isSome := by
  rw [← not_iff_not, Bool.not_eq_true, Option.isSome_eq_false_iff, Option.isNone_iff_eq_none]
  exact Entries.lookup_eq_none_iff.symm

theorem lastOf_addWrites {last : LastUpdate} (hs : s ∈ u.privateNames core) :
    lastOf u core (addWrites u core pos last (u.step (.inst core pos))) s =
      if ((u.instr core pos).update s).isSome then (conditionalUpdate (u.step (.inst core pos)) s, pos + 1) else
        lastOf u core last s := by
  rw [lastOf, addWrites, Entries.lookup_append]
  by_cases hsome : ((u.instr core pos).update s).isSome
  · rw [if_pos hsome, List.lookup_graph _ (List.mem_filter.mpr ⟨hs, decide_eq_true (mem_writeSet.mpr hsome)⟩)]
    rfl
  · have hnone : ((((u.privateNames core).filter fun s => s ∈ (u.step (.inst core pos)).writeSet).map fun s =>
        (s, conditionalUpdate (u.step (.inst core pos)) s, pos + 1)).lookup s) = none := by
      rw [Entries.lookup_eq_none_iff, List.map_map]
      intro hmem
      obtain ⟨n, hn, rfl⟩ := List.mem_map.mp hmem
      exact hsome (mem_writeSet.mp (of_decide_eq_true (List.mem_filter.mp hn).2))
    rw [if_neg hsome, hnone, Option.none_or]
    rfl

/-- What the copies that a step reads are linked to. -/
def ReadsLinked (u : System) (core : Nat) (M : Model) (pos : Nat) : Prop :=
  ∀ s ∈ u.privateNames core, s ∈ readSetAt u core pos → valueAt u core M (toString (pos + 1)) s = exec u core M pos s

theorem lastOk_succ (hok : CoreOk u core) (hbases : ReadsBases u core) (hkept : ReadsKept u core M)
    (hpos : pos < progLength u core) {last : LastUpdate} (hlast : LastOk u core M pos last)
    (hlinked : ReadsLinked u core M pos) :
    LastOk u core M (pos + 1) (addWrites u core pos last (u.step (.inst core pos))) := by
  intro s hs
  rw [lastOf_addWrites hs]
  cases he : (u.instr core pos).update s with
  | none =>
    have hsame : exec u core M (pos + 1) s = exec u core M pos s :=
      exec_succ_of_not fun e hsome => by rw [he] at hsome; cases hsome
    rw [hsame]
    exact hlast s hs
  | some e =>
    obtain ⟨hdecode, heval⟩ := eval_own hok hbases hpos hlinked hs he
    have hupdate : conditionalUpdate (u.step (.inst core pos)) s =
        .op .ite [(u.instr core pos).decode, e, .var (u.coreVar core s)] := by
      change Expr.op .ite [(u.instr core pos).decode, ((u.instr core pos).update s).getD _, _] = _
      rw [he]
      rfl
    have hcheck : (Expr.op .ite [(u.instr core pos).decode, e, .var (u.coreVar core s)]).check = some (u.coreVar core s).sort :=
      Expr.check_ite' (hok.decode pos hpos) (hok.update pos hpos s hs e he) rfl
    rw [Option.isSome_some, if_pos rfl, hupdate]
    refine ⟨hcheck, ?_⟩
    rw [Expr.eval_ite hcheck, hdecode]
    by_cases hdec : (u.instr core pos).decode.eval (runFrame u core M (exec u core M pos) pos) = some (.bool true)
    · rw [if_pos ((Value.isTrue_iff _).mpr hdec), heval]
      exact exec_succ_of_decoded hok hpos hs he hdec
    · rw [if_neg fun htrue => hdec ((Value.isTrue_iff _).mp htrue), exec_succ_of_not fun _ _ => hdec]
      have hread : s ∈ readSetAt u core pos := (hkept pos hpos s hs (by rw [he]; rfl)).resolve_right hdec
      exact congrArg some (hlinked s hs hread)

theorem executes_from (hok : CoreOk u core) (hbases : ReadsBases u core) (hkept : ReadsKept u core M) {n : Nat}
    (hn : pos + n = progLength u core) {last : LastUpdate} (hlast : LastOk u core M pos last)
    (hsat : ∀ f ∈ linkOrdered z3 u core pos n last, f.Sat M T) :
    (∀ q, pos ≤ q → q < progLength u core → ReadsLinked u core M q) ∧
      ∀ s ∈ u.privateNames core, valueAt u core M "final" s = exec u core M (progLength u core) s := by
  induction n generalizing pos last with
  | zero =>
    obtain rfl : pos = progLength u core := hn
    refine ⟨fun q hge hlt => absurd hge (by omega), fun s hs => ?_⟩
    exact (sat_link hlast hs).mp (hsat _ (List.mem_map_of_mem hs))
  | succ n ih =>
    have hpos : pos < progLength u core := by omega
    rw [linkOrdered, List.forall_mem_append, List.forall_mem_append] at hsat
    obtain ⟨⟨hreads, -⟩, hrest⟩ := hsat
    have hlinked : ReadsLinked u core M pos := by
      intro s hs hread
      have hlink := hreads _ (List.mem_map_of_mem (List.mem_filter.mpr ⟨hs, decide_eq_true hread⟩))
      exact (sat_link hlast hs).mp hlink
    obtain ⟨hlater, hfinal⟩ := ih (by omega) (lastOk_succ hok hbases hkept hpos hlast hlinked) hrest
    refine ⟨fun q hge hlt => ?_, hfinal⟩
    rcases Nat.eq_or_lt_of_le hge with rfl | hgt
    · exact hlinked
    · exact hlater q hgt hlt

theorem executes_of_ordered (hok : CoreOk u core) (hbases : ReadsBases u core) (hkept : ReadsKept u core M)
    (hsat : ∀ f ∈ linkOrdered z3 u core 0 (progLength u core) [], f.Sat M T) : Executes u core M := by
  obtain ⟨hreads, hfinal⟩ := executes_from hok hbases hkept (by omega) lastOk_init hsat
  exact ⟨fun pos hpos => hreads pos (Nat.zero_le pos) hpos, hfinal⟩

end

/-! ### A core that is not in order -/

section

variable (u : System) (core : Nat) (M : Model) (T : Ev → Int)

/-- A step that writes a private state and is decoded in its own frame. -/
def DecodedWrite (pos : Nat) (s : String) : Prop :=
  ((u.instr core pos).update s).isSome ∧ (u.instr core pos).decode.eval (frame M (toString (pos + 1))) = some (.bool true)

/-- A step is before a reader. Every step is before the final one, which has no position. -/
def Before (reader : Option Nat) (pos : Nat) : Prop := ∀ q, reader = some q → T (.inst core pos) < T (.inst core q)

/-- The value that the last decoded writer before a reader gives to a private state, the initial value if there is none. -/
inductive LastWritten (s : String) (reader : Option Nat) : Value → Prop
  | initial (hnone : ∀ pos < progLength u core, DecodedWrite u core M pos s → ¬Before core T reader pos) :
    LastWritten s reader (valueAt u core M "0" s)
  | step {pos : Nat} {e : Expr} {v : Value} (hpos : pos < progLength u core) (he : (u.instr core pos).update s = some e)
    (hdec : DecodedWrite u core M pos s) (hbefore : Before core T reader pos)
    (hlast : ∀ q < progLength u core, q ≠ pos → DecodedWrite u core M q s → Before core T reader q →
      T (.inst core q) < T (.inst core pos))
    (hv : e.eval (frame M (toString (pos + 1))) = some v) : LastWritten s reader v

/-- Every read, and every final value, is from the last writer. -/
def ReadsLast : Prop :=
  (∀ pos < progLength u core, ∀ s ∈ u.privateNames core, s ∈ readSetAt u core pos →
    LastWritten u core M T s (some pos) (valueAt u core M (toString (pos + 1)) s)) ∧
  ∀ s ∈ u.privateNames core, LastWritten u core M T s none (valueAt u core M "final" s)

/-- The times of the steps follow the program. -/
def InOrder : Prop := ∀ p q, p < q → q < progLength u core → T (.inst core p) < T (.inst core q)

end

section

variable {u : System} {core : Nat} {M : Model} {T : Ev → Int} {z3 : Z3} {pos : Nat} {s : String}

theorem sat_exists_define {l : List Define} {base : Define → ZForm} {p : Define → Define → Bool} {g : Define → Define → ZForm} :
    (ZForm.Sat M T <| (l.map fun d => (l.filter (p d)).foldl (fun f i => ZForm.and f (g d i)) (base d)).foldl .or .false) ↔
      ∃ d ∈ l, (base d).Sat M T ∧ ∀ i ∈ l, p d i → (g d i).Sat M T := by
  have hinner : ∀ d, ((l.filter (p d)).foldl (fun f i => ZForm.and f (g d i)) (base d)).Sat M T ↔
      (base d).Sat M T ∧ ∀ i ∈ l, p d i → (g d i).Sat M T := by
    intro d
    rw [← List.foldl_map (f := g d) (g := ZForm.and), ZForm.sat_foldl_and, List.forall_mem_map]
    simp only [List.mem_filter, and_imp]
  simp only [ZForm.sat_foldl_or, ZForm.sat_false, false_or, List.mem_map, exists_exists_and_eq_and, hinner]

theorem mem_defines {d : Define} : d ∈ defines u core s ↔ d = ⟨.var (u.coreVar core s), .const (.bool true), .init, 0⟩ ∨
    ∃ pos < progLength u core, ∃ e, (u.instr core pos).update s = some e ∧
      d = ⟨e, (u.instr core pos).decode, .inst core pos, pos + 1⟩ := by
  rw [defines, List.mem_cons, List.mem_map]
  refine or_congr_right ⟨?_, ?_⟩
  · rintro ⟨pos, hpos, rfl⟩
    rw [List.mem_filter, List.mem_range] at hpos
    obtain ⟨e, he⟩ := Option.isSome_iff_exists.mp (mem_writeSet.mp (of_decide_eq_true hpos.2))
    exact ⟨pos, hpos.1, e, he, by rw [he]; rfl⟩
  · rintro ⟨pos, hpos, e, he, rfl⟩
    have hwrite : s ∈ (u.step (.inst core pos)).writeSet := mem_writeSet.mpr (by rw [he]; rfl)
    exact ⟨pos, List.mem_filter.mpr ⟨List.mem_range.mpr hpos, decide_eq_true hwrite⟩, by rw [he]; rfl⟩

theorem sat_defineDecode (hok : CoreOk u core) (hpos : pos < progLength u core) {e : Expr} :
    (defineDecode z3 ⟨e, (u.instr core pos).decode, .inst core pos, pos + 1⟩).Sat M T ↔
      (u.instr core pos).decode.eval (frame M (toString (pos + 1))) = some (.bool true) := by
  change (getExpr z3 (toString (pos + 1)) (u.instr core pos).decode).eval M = _ ↔ _
  rw [getExpr_eval z3 M _ (hok.decode pos hpos)]

theorem lastWritten_of_define (hok : CoreOk u core) (hs : s ∈ u.privateNames core)
    (hpositive : ∀ pos < progLength u core, 0 < T (.inst core pos)) {reader : Option Nat} {suffix : String} {d : Define}
    (hd : d ∈ defines u core s)
    (heq : (ZForm.eq (getExpr z3 suffix (.var (u.coreVar core s))) (getExpr z3 (toString d.pos) d.expr)).Sat M T)
    (hdec : (defineDecode z3 d).Sat M T) (hbefore : ∀ q, reader = some q → d.ev.time T < T (.inst core q))
    (hothers : ∀ i ∈ defines u core s, i.pos ≠ d.pos → (defineDecode z3 i).Sat M T →
      (∀ q, reader = some q → i.ev.time T < T (.inst core q)) → i.ev.time T < d.ev.time T) :
    LastWritten u core M T s reader (valueAt u core M suffix s) := by
  rw [sat_eq, eval_coreVar] at heq
  obtain ⟨v, hv, hexpr⟩ := heq
  obtain rfl := Option.some.inj hv
  have hother : ∀ q < progLength u core, q + 1 ≠ d.pos → DecodedWrite u core M q s → Before core T reader q →
      T (.inst core q) < d.ev.time T := by
    intro q hq hne hwrite hbefore
    obtain ⟨e, he⟩ := Option.isSome_iff_exists.mp hwrite.1
    exact hothers _ (mem_defines.mpr (.inr ⟨q, hq, e, he, rfl⟩)) hne ((sat_defineDecode hok hq).mpr hwrite.2) hbefore
  rcases mem_defines.mp hd with rfl | ⟨pos, hpos, e, he, rfl⟩
  · have hinitial : LastWritten u core M T s reader (valueAt u core M "0" s) := by
      refine .initial fun q hq hwrite hbefore => ?_
      have hlt : T (.inst core q) < 0 := hother q hq (Nat.succ_ne_zero q) hwrite hbefore
      have hgt := hpositive q hq
      omega
    rw [eval_coreVar] at hexpr
    have hzero : toString 0 = "0" := rfl
    rw [← Option.some.inj hexpr, hzero]
    exact hinitial
  · rw [getExpr_eval z3 M _ (hok.update pos hpos s hs e he)] at hexpr
    have hwrite : DecodedWrite u core M pos s := ⟨by rw [he]; rfl, (sat_defineDecode hok hpos).mp hdec⟩
    exact .step hpos he hwrite hbefore (fun q hq hne => hother q hq fun heq => hne (Nat.succ.inj heq)) hexpr

theorem readsLast_of_unordered (hok : CoreOk u core) (hpositive : ∀ pos < progLength u core, 0 < T (.inst core pos))
    (hsat : ∀ f ∈ linkUnordered z3 u core, f.Sat M T) : ReadsLast u core M T := by
  rw [linkUnordered, List.forall_mem_append, List.forall_mem_flatMap, List.forall_mem_map] at hsat
  obtain ⟨hreads, hfinal⟩ := hsat
  refine ⟨fun pos hpos s hs hread => ?_, fun s hs => ?_⟩
  · have hlink := hreads pos (List.mem_range.mpr hpos) _
      (List.mem_map_of_mem (List.mem_filter.mpr ⟨hs, decide_eq_true hread⟩))
    rw [linkUnorderedRead, sat_exists_define] at hlink
    obtain ⟨d, hd, ⟨⟨heq, hbefore⟩, hdec⟩, hothers⟩ := hlink
    refine lastWritten_of_define hok hs hpositive (List.mem_filter.mp hd).1 heq hdec (fun q hq => ?_) fun i hi hne hdeci hlt => ?_
    · obtain rfl := Option.some.inj hq
      exact hbefore
    · have hlt : i.ev.time T < T (.inst core pos) := hlt pos rfl
      by_cases hself : i.pos = pos + 1
      · rcases mem_defines.mp hi with rfl | ⟨q, -, e, -, rfl⟩
        · cases hself
        · obtain rfl : q = pos := Nat.succ.inj hself
          exact absurd hlt (lt_irrefl _)
      · have hor := hothers i (List.mem_filter.mpr ⟨hi, decide_eq_true hself⟩) (decide_eq_true hne) hdeci
        exact hor.resolve_right (not_lt_of_gt hlt)
  · have hlink := hfinal s hs
    rw [linkUnorderedFinal, sat_exists_define] at hlink
    obtain ⟨d, hd, ⟨heq, hdec⟩, hothers⟩ := hlink
    refine lastWritten_of_define hok hs hpositive hd heq hdec (fun q hq => by cases hq) fun i hi hne hdeci _ => ?_
    exact hothers i hi (decide_eq_true hne) hdeci

/-! ### Both modes agree -/

theorem decodedWrite_iff (hok : CoreOk u core) (hbases : ReadsBases u core) (hpos : pos < progLength u core)
    (hlinked : ReadsLinked u core M pos) (hs : s ∈ u.privateNames core) {e : Expr} (he : (u.instr core pos).update s = some e) :
    DecodedWrite u core M pos s ↔
      (u.instr core pos).decode.eval (runFrame u core M (exec u core M pos) pos) = some (.bool true) := by
  rw [DecodedWrite, he, (eval_own hok hbases hpos hlinked hs he).1]
  exact and_iff_right rfl

theorem exec_eq_of_not_written (hok : CoreOk u core) (hbases : ReadsBases u core) (hs : s ∈ u.privateNames core) {p : Nat}
    (hp : p ≤ pos) (hpos : pos ≤ progLength u core) (hlinked : ∀ q < pos, ReadsLinked u core M q)
    (hnone : ∀ q, p ≤ q → q < pos → ¬DecodedWrite u core M q s) : exec u core M pos s = exec u core M p s := by
  induction pos, hp using Nat.le_induction with
  | base => rfl
  | succ pos hp ih =>
    have hstep : exec u core M (pos + 1) s = exec u core M pos s := by
      refine exec_succ_of_not fun e he hdec => hnone pos hp (Nat.lt_succ_self pos) ?_
      exact (decodedWrite_iff hok hbases hpos (hlinked pos (Nat.lt_succ_self pos)) hs he).mpr hdec
    rw [hstep]
    exact ih (by omega) (fun q hq => hlinked q (by omega)) fun q hge hlt => hnone q hge (by omega)

theorem eq_exec_of_lastWritten (hok : CoreOk u core) (hbases : ReadsBases u core) (horder : InOrder u core T)
    (hs : s ∈ u.privateNames core) (hpos : pos ≤ progLength u core) (hlinked : ∀ q < pos, ReadsLinked u core M q)
    {reader : Option Nat} (hreader : ∀ q < progLength u core, Before core T reader q ↔ q < pos) {v : Value}
    (hlast : LastWritten u core M T s reader v) : v = exec u core M pos s := by
  cases hlast with
  | initial hnone =>
    have hkept := exec_eq_of_not_written hok hbases hs (Nat.zero_le pos) hpos hlinked fun q _ hq hwrite =>
      hnone q (by omega) hwrite ((hreader q (by omega)).mpr hq)
    rw [hkept]
    rfl
  | @step p e v hp he hdec hbefore hothers hv =>
    have hlt : p < pos := (hreader p hp).mp hbefore
    have hkept : exec u core M pos s = exec u core M (p + 1) s := by
      refine exec_eq_of_not_written hok hbases hs hlt hpos hlinked fun q hge hq hwrite => ?_
      have hlater := hothers q (by omega) (by omega) hwrite ((hreader q (by omega)).mpr hq)
      exact absurd hlater (not_lt_of_gt (horder p q hge (by omega)))
    have hdec' := (decodedWrite_iff hok hbases hp (hlinked p hlt) hs he).mp hdec
    rw [(eval_own hok hbases hp (hlinked p hlt) hs he).2, exec_succ_of_decoded hok hp hs he hdec'] at hv
    rw [hkept]
    exact (Option.some.inj hv).symm

theorem before_some_iff (horder : InOrder u core T) (hpos : pos < progLength u core) {q : Nat} (hq : q < progLength u core) :
    Before core T (some pos) q ↔ q < pos := by
  constructor
  · intro hbefore
    by_contra hge
    have hlt : T (.inst core q) < T (.inst core pos) := hbefore pos rfl
    rcases Nat.eq_or_lt_of_le (Nat.le_of_not_lt hge) with rfl | hgt
    · exact absurd hlt (lt_irrefl _)
    · exact absurd (horder pos q hgt hq) (not_lt_of_gt hlt)
  · intro hlt r hr
    obtain rfl := Option.some.inj hr
    exact horder q pos hlt hpos

theorem executes_of_inOrder (hok : CoreOk u core) (hbases : ReadsBases u core) (hreads : ReadsLast u core M T)
    (horder : InOrder u core T) : Executes u core M := by
  have hlinked : ∀ pos < progLength u core, ReadsLinked u core M pos := by
    intro pos
    induction pos using Nat.strong_induction_on with
    | _ pos ih =>
      intro hpos s hs hread
      exact eq_exec_of_lastWritten hok hbases horder hs hpos.le (fun q hq => ih q hq (by omega))
        (fun q hq => before_some_iff horder hpos hq) (hreads.1 pos hpos s hs hread)
  refine ⟨hlinked, fun s hs => ?_⟩
  refine eq_exec_of_lastWritten hok hbases horder hs le_rfl hlinked (fun q hq => ?_) (hreads.2 s hs)
  exact iff_of_true (fun r hr => by cases hr) hq

/-- The private states of a core have the values of its program. -/
theorem setLocalState_executes (hcore : core < u.tmpl.length) (hok : CoreOk u core) (hbases : ReadsBases u core)
    (hkept : (u.ordered[core]?).getD false → ReadsKept u core M)
    (hsat : ∀ f ∈ Sc.registerSteps u ++ setLocalState z3 u, f.Sat M T) :
    if (u.ordered[core]?).getD false then Executes u core M
    else ReadsLast u core M T ∧ (InOrder u core T → Executes u core M) := by
  rw [List.forall_mem_append, setLocalState, List.forall_mem_flatMap] at hsat
  obtain ⟨hregister, hlocal⟩ := hsat
  have hlocal := hlocal core (List.mem_range.mpr hcore)
  split
  · rename_i hordered
    rw [if_pos hordered] at hlocal
    exact executes_of_ordered hok hbases (hkept hordered) hlocal
  · rename_i hordered
    rw [if_neg hordered] at hlocal
    have hpositive : ∀ pos < progLength u core, 0 < T (.inst core pos) := by
      intro pos hpos
      have hev : Ev.inst core pos ∈ u.instEvs :=
        List.mem_flatMap.mpr ⟨core, List.mem_range.mpr hcore, List.mem_map_of_mem (List.mem_range.mpr hpos)⟩
      exact hregister _ (List.mem_map_of_mem hev)
    have hreads := readsLast_of_unordered hok hpositive hlocal
    exact ⟨hreads, executes_of_inOrder hok hbases hreads⟩

end

/-- A core with the private state `r`. -/
def oneCore (ordered : Bool) (instrs : List McmInstr) : System where
  ilas := [{ IlaData.new 0 "c0" with states := [⟨0, "r", some "c0", .bv 8⟩] }]
  tmpl := [instrs]
  ordered := [ordered]
  property := .const (.bool true)

def isValue (name : String) (x : Nat) : Expr := .op .eq [.var ⟨0, name, some "c0", .bv 8⟩, .const (.bv x 8)]

/-- The state `r` is one at some steps, and all else is zero. -/
def oneAt (suffixes : List String) : Model where
  const c := if c ∈ suffixes.map (Atom.var ⟨0, "r", some "c0", .bv 8⟩).sym then .bv 8 1 else c.sort.default
  const_sort c := by
    split
    · rename_i hc
      obtain ⟨s, -, rfl⟩ := List.mem_map.mp hc
      rfl
    · exact Srt.sort_default _
  func := (default : Model).func
  func_sort := (default : Model).func_sort

/-- An instruction that sets the state without reading it, if an input is one. -/
def setIf : McmInstr := ⟨"set", isValue "en" 1, [("r", .const (.bv 1 8))]⟩

section OneCore

variable {ordered : Bool} {instrs : List McmInstr}

theorem instr_mem {pos : Nat} (hpos : pos < progLength (oneCore ordered instrs) 0) :
    (oneCore ordered instrs).instr 0 pos ∈ instrs := by
  change pos < instrs.length at hpos
  change instrs[pos]?.getD _ ∈ instrs
  rw [List.getElem?_eq_getElem hpos, Option.getD_some]
  exact List.getElem_mem hpos

theorem coreOk_oneCore (hlength : 0 < instrs.length) (hdecode : ∀ i ∈ instrs, i.decode.check = some .bool)
    (hupdate : ∀ i ∈ instrs, ∀ e, i.update "r" = some e → e.check = some (.bv 8))
    (hvars : ∀ i ∈ instrs, ∀ v, Atom.var v ∈ i.decode.atoms → v.name = "r" → v = ⟨0, "r", some "c0", .bv 8⟩)
    (hvars' : ∀ i ∈ instrs, ∀ e, i.update "r" = some e → ∀ v, Atom.var v ∈ e.atoms → v.name = "r" →
      v = ⟨0, "r", some "c0", .bv 8⟩) : CoreOk (oneCore ordered instrs) 0 := by
  have hnames {s : String} (hs : s ∈ (oneCore ordered instrs).privateNames 0) : s = "r" := List.mem_singleton.mp hs
  refine ⟨hlength, fun pos hpos => hdecode _ (instr_mem hpos), fun pos hpos s hs e he => ?_, fun pos hpos v hv hname => ?_,
    fun pos hpos s hs e he v hv hname => ?_⟩
  · obtain rfl := hnames hs
    exact hupdate _ (instr_mem hpos) e he
  · have hr := hnames hname
    rw [hr]
    exact hvars _ (instr_mem hpos) v hv hr
  · obtain rfl := hnames hs
    have hr := hnames hname
    rw [hr]
    exact hvars' _ (instr_mem hpos) e he v hv hr

theorem readsBases_oneCore (hdecode : ∀ i ∈ instrs, storeBases i.decode = [])
    (hupdate : ∀ i ∈ instrs, ∀ e, i.update "r" = some e → storeBases e = []) : ReadsBases (oneCore ordered instrs) 0 := by
  intro pos hpos s hs e he n hn
  obtain rfl : s = "r" := List.mem_singleton.mp hs
  rw [hdecode _ (instr_mem hpos), hupdate _ (instr_mem hpos) e he] at hn
  cases hn

end OneCore

/-- An instruction that sets the state if it is zero. -/
def setZero : McmInstr := ⟨"set", isValue "r" 0, [("r", .const (.bv 1 8))]⟩

/-- The program in its order. -/
def programTimes : Ev → Int
  | .inst _ pos => pos + 1
  | _ => 0

/-- Of two steps that set the state if it is zero, the second one is not decoded. -/
theorem setLocalState_executes_setZero : Executes (oneCore true [setZero, setZero]) 0 (oneAt ["2", "final"]) ∧
    ReadsLast (oneCore false [setZero, setZero]) 0 (oneAt ["2", "final"]) programTimes ∧
      Executes (oneCore false [setZero, setZero]) 0 (oneAt ["2", "final"]) := by
  have hall {P : McmInstr → Prop} (h : P setZero) : ∀ i ∈ [setZero, setZero], P i := by
    intro i hi
    obtain rfl : i = setZero := by simpa using hi
    exact h
  have hupdate {e : Expr} (he : setZero.update "r" = some e) : e = .const (.bv 1 8) := (Option.some.inj he).symm
  have hok (ordered : Bool) : CoreOk (oneCore ordered [setZero, setZero]) 0 := by
    refine coreOk_oneCore Nat.two_pos (hall rfl) (hall fun e he => ?_) (hall fun v hv _ => ?_) (hall fun e he v hv => ?_)
    · rw [hupdate he]
      rfl
    · simpa [setZero, isValue, Expr.atoms, Expr.atomsList] using hv
    · rw [hupdate he] at hv
      simp [Expr.atoms] at hv
  have hbases (ordered : Bool) : ReadsBases (oneCore ordered [setZero, setZero]) 0 :=
    readsBases_oneCore (hall rfl) (hall fun e he => by rw [hupdate he]; rfl)
  have hkept : ReadsKept (oneCore true [setZero, setZero]) 0 (oneAt ["2", "final"]) := by
    intro pos hpos s hs _
    obtain rfl : s = "r" := List.mem_singleton.mp hs
    have htwo : pos < 2 := hpos
    left
    interval_cases pos <;> decide
  have hordered := @setLocalState_executes (oneCore true [setZero, setZero]) 0 (oneAt ["2", "final"]) programTimes default
    Nat.zero_lt_one (hok true) (hbases true) (fun _ => hkept) (by decide)
  have hunordered := @setLocalState_executes (oneCore false [setZero, setZero]) 0 (oneAt ["2", "final"]) programTimes default
    Nat.zero_lt_one (hok false) (hbases false) (fun h => by cases h) (by decide)
  refine ⟨hordered, hunordered.1, hunordered.2 fun p q hlt hq => ?_⟩
  simp only [programTimes]
  omega

/-- The copy at the step is not constrained, and is kept in place of the initial value. -/
theorem setLocalState_forgets_setIf : CoreOk (oneCore true [setIf]) 0 ∧ ReadsBases (oneCore true [setIf]) 0 ∧
    (∀ f ∈ Sc.registerSteps (oneCore true [setIf]) ++ setLocalState default (oneCore true [setIf]), f.Sat (oneAt ["0"]) fun _ => 1) ∧
    ¬Executes (oneCore true [setIf]) 0 (oneAt ["0"]) := by
  have hupdate {e : Expr} (he : setIf.update "r" = some e) : e = .const (.bv 1 8) := (Option.some.inj he).symm
  have hall {P : McmInstr → Prop} (h : P setIf) : ∀ i ∈ [setIf], P i := List.forall_mem_singleton.mpr h
  refine ⟨coreOk_oneCore Nat.one_pos (hall rfl) (hall fun e he => ?_) (hall fun v hv hr => ?_) (hall fun e he v hv => ?_), ?_,
    by decide, fun hexec => ?_⟩
  · rw [hupdate he]
    rfl
  · obtain rfl : v = ⟨0, "en", some "c0", .bv 8⟩ := by simpa [setIf, isValue, Expr.atoms, Expr.atomsList] using hv
    simp at hr
  · rw [hupdate he] at hv
    simp [Expr.atoms] at hv
  · exact readsBases_oneCore (hall rfl) (hall fun e he => by rw [hupdate he]; rfl)
  · have hfinal : Value.bv 8 0 = Value.bv 8 1 := hexec.2 "r" (by decide)
    simp at hfinal

end Mcm

end Ilang
