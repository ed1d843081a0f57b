import Ilang.Mcm.MemoryModel

/-!
# Total store order is weaker than sequential consistency

A model of the constraints of `Sc` gives times to the instructions but not to the global facets of their writes. The times are
integers, so there may be no time left between a write and the next instruction. Every time is doubled: the facet of a write is
then put right after the write, before anything that was after it, and the facet of a read-modify-write at the time of the
instruction. The states at all steps stay as they are.
-/

namespace Ilang

namespace Mcm

open Smt

section Over

variable (z3 : Z3) (u : System) {S : Ev → Prop}

@[simp] theorem convEq_over (l r : TraceStep) (a b : Expr) : (convEq z3 l r a b).Over S := (ZForm.over_eq _ _).mpr trivial

@[simp] theorem initData_over (mem : Term) (ts : TraceStep) (p : Expr × Expr) : (initData z3 mem ts p).Over S :=
  (ZForm.over_eq _ _).mpr trivial

@[simp] theorem dataMatch_over (l r : TraceStep) (p q : Expr × Expr) : (dataMatch z3 l r p q).Over S :=
  (ZForm.over_implies _ _).mpr ⟨convEq_over z3 l r _ _, convEq_over z3 l r _ _⟩

theorem memVarSameAddress_over (l r : TraceStep) (lw rw : Option Expr) (lr rr : List (Expr × Expr)) :
    (memVarSameAddress z3 l r lw lr rw rr).Over S := by
  have hor (ts ts' : TraceStep) (w : Expr) (l : List (Expr × Expr)) (f : ZForm) (hf : f.Over S) :
      (l.foldl (fun f p => .or f (convEq z3 ts ts' w p.1)) f).Over S :=
    ZForm.over_foldl l hf fun f hf p _ => by simp [hf]
  have hrr : (lr.foldl (fun f p => rr.foldl (fun f q => .or f (convEq z3 l r p.1 q.1)) f) ZForm.true).Over S :=
    ZForm.over_foldl lr (by simp) fun f hf p _ => hor l r p.1 rr f hf
  unfold memVarSameAddress
  cases lw <;> cases rw <;> simp only [] <;> split_ifs <;> simp [hor, hrr]

theorem memVarSameData_over (l r : TraceStep) (lw rw : Option (Expr × Expr)) (lr rr : List (Expr × Expr)) (mem : Term) :
    (memVarSameData z3 l r lw lr rw rr mem).Over S := by
  have hinit (ts : TraceStep) (l : List (Expr × Expr)) (f : ZForm) (hf : f.Over S) :
      (l.foldl (fun f p => .and f (initData z3 mem ts p)) f).Over S :=
    ZForm.over_foldl l hf fun f hf p _ => by simp [hf]
  have hand (ts ts' : TraceStep) (w : Expr × Expr) (l : List (Expr × Expr)) (f : ZForm) (hf : f.Over S) :
      (l.foldl (fun f p => .and f (dataMatch z3 ts ts' w p)) f).Over S :=
    ZForm.over_foldl l hf fun f hf p _ => by simp [hf]
  have hrr : (lr.foldl (fun f p => rr.foldl (fun f q => .and f (dataMatch z3 l r p q)) f) ZForm.true).Over S :=
    ZForm.over_foldl lr (by simp) fun f hf p _ => hand l r p rr f hf
  unfold memVarSameData
  cases lw <;> cases rw <;> simp only [] <;> split_ifs <;> simp [hinit, hand, hrr]

theorem sameAddress_over (l r : TraceStep) (s : String) (lh rh : AxiomFuncHint) : (sameAddress z3 l r s lh rh).Over S := by
  unfold sameAddress
  split_ifs
  · exact ZForm.over_true.mpr trivial
  · exact ZForm.over_true.mpr trivial
  · exact memVarSameAddress_over z3 l r _ _ _ _
  · exact ZForm.over_true.mpr trivial

theorem nonMemVarSameData_over (l r : TraceStep) (s : String) (lh rh : AxiomFuncHint) :
    (nonMemVarSameData z3 l r s lh rh).Over S := by
  unfold nonMemVarSameData
  simp only []
  split_ifs <;> simp

theorem sameData_over (l r : TraceStep) (global : String → Var) (s : String) (lh rh : AxiomFuncHint) :
    (sameData z3 l r global s lh rh).Over S := by
  unfold sameData
  simp only []
  split_ifs
  · exact memVarSameData_over z3 l r _ _ _ _ _
  · exact nonMemVarSameData_over z3 l r s lh rh

theorem decodeOf_over (ts : TraceStep) : (decodeOf z3 ts).Over S := (ZForm.over_holds _).mpr trivial

theorem linkReads_over (core : Nat) (last : LastUpdate) (ts : TraceStep) : ∀ f ∈ linkReads z3 u core last ts, f.Over S := by
  intro f hf
  obtain ⟨s, -, rfl⟩ := List.mem_map.mp hf
  exact (ZForm.over_eq _ _).mpr trivial

end Over

/-! ### Formulas without facets -/

/-- The event is not a global facet. -/
def Ev.Plain : Ev → Prop
  | .facet _ _ => False
  | _ => True

@[simp] theorem Ev.plain_inst (core pos : Nat) : (Ev.inst core pos).Plain := trivial

section Plain

variable (z3 : Z3) (u : System)

theorem linkOrdered_over (core : Nat) (n pos : Nat) (last : LastUpdate) :
    ∀ f ∈ linkOrdered z3 u core pos n last, f.Over Ev.Plain := by
  induction n generalizing pos last with
  | zero =>
    intro f hf
    obtain ⟨s, -, rfl⟩ := List.mem_map.mp hf
    exact (ZForm.over_eq _ _).mpr trivial
  | succ n ih =>
    intro f hf
    rw [linkOrdered, List.mem_append, List.mem_append] at hf
    obtain (hf | hf) | hf := hf
    · exact linkReads_over z3 u core last _ f hf
    · split_ifs at hf with hpos
      · cases hf
      · rw [List.mem_singleton.mp hf]
        exact (ZForm.over_hb _ _).mpr ⟨trivial, trivial⟩
    · exact ih (pos + 1) _ f hf

theorem plain_define {core : Nat} {s : String} {d : Define} (hd : d ∈ defines u core s) : d.ev.Plain := by
  obtain rfl | hd := List.mem_cons.mp hd
  · trivial
  · obtain ⟨pos, -, rfl⟩ := List.mem_map.mp hd
    trivial

theorem linkUnorderedRead_over (core pos : Nat) (s : String) : (linkUnorderedRead z3 u core pos s).Over Ev.Plain := by
  unfold linkUnorderedRead
  refine ZForm.over_foldl _ (ZForm.over_false.mpr trivial) fun f hf g hg => ?_
  obtain ⟨d, hd, rfl⟩ := List.mem_map.mp hg
  have hdp : d.ev.Plain := plain_define u (List.mem_of_mem_filter hd)
  refine (ZForm.over_or _ _).mpr ⟨hf, ZForm.over_foldl _ ?_ fun f hf i hi => ?_⟩
  · simp [defineDecode, hdp]
  · have hip : i.ev.Plain := plain_define u (List.mem_of_mem_filter (List.mem_of_mem_filter hi))
    simp [defineDecode, hdp, hip, hf]

theorem linkUnorderedFinal_over (core : Nat) (s : String) : (linkUnorderedFinal z3 u core s).Over Ev.Plain := by
  unfold linkUnorderedFinal
  refine ZForm.over_foldl _ (ZForm.over_false.mpr trivial) fun f hf g hg => ?_
  obtain ⟨d, hd, rfl⟩ := List.mem_map.mp hg
  have hdp : d.ev.Plain := plain_define u hd
  refine (ZForm.over_or _ _).mpr ⟨hf, ZForm.over_foldl _ ?_ fun f hf i hi => ?_⟩
  · simp [defineDecode]
  · have hip : i.ev.Plain := plain_define u (List.mem_of_mem_filter hi)
    simp [defineDecode, hdp, hip, hf]

theorem setLocalState_over : ∀ f ∈ setLocalState z3 u, f.Over Ev.Plain := by
  intro f hf
  obtain ⟨core, -, hf⟩ := List.mem_flatMap.mp hf
  split_ifs at hf with hord
  · exact linkOrdered_over z3 u core _ _ _ f hf
  · obtain hf | hf := List.mem_append.mp hf
    · obtain ⟨pos, -, hf⟩ := List.mem_flatMap.mp hf
      obtain ⟨s, -, rfl⟩ := List.mem_map.mp hf
      exact linkUnorderedRead_over z3 u core pos s
    · obtain ⟨s, -, rfl⟩ := List.mem_map.mp hf
      exact linkUnorderedFinal_over z3 u core s

theorem genSysInitConstraints_over : ∀ f ∈ genSysInitConstraints z3 u, f.Over Ev.Plain := by
  intro f hf
  obtain ⟨idx, -, rfl⟩ := List.mem_map.mp hf
  exact ZForm.over_foldl _ (ZForm.over_true.mpr trivial) fun f hf e _ => by simp [hf]

theorem plain_allInstEvs {e : Ev} (he : e ∈ u.allInstEvs) : e.Plain := by
  rw [System.allInstEvs, System.instEvs, List.mem_append, List.mem_flatMap] at he
  obtain ⟨core, -, he⟩ | he := he
  · obtain ⟨pos, -, rfl⟩ := List.mem_map.mp he
    trivial
  · rw [List.mem_singleton.mp he]
    trivial

theorem setFinalProperty_over : ∀ f ∈ setFinalProperty z3 u, f.Over Ev.Plain := by
  intro f hf
  obtain hf | hf := List.mem_append.mp hf
  · obtain ⟨e, he, rfl⟩ := List.mem_map.mp hf
    exact (ZForm.over_hb _ _).mpr ⟨plain_allInstEvs u he, trivial⟩
  · rw [List.mem_singleton.mp hf]
    exact (ZForm.over_holds _).mpr trivial

end Plain

/-! ### The axiom of reads is monotone -/

section Mono

variable {z3 : Z3} {u : System} {R R' : Relations} {M : Model} {T T' : Ev → Int}

theorem rfCoFr_mono (hrf : ∀ w ∈ u.writeList, ∀ r ∈ u.readList, (R.rf w r).Sat M T → (R'.rf w r).Sat M T')
    (hfr : ∀ r ∈ u.readList, ∀ w ∈ u.writeList, (R.fr r w).Sat M T → (R'.fr r w).Sat M T')
    (hco : ∀ w ∈ u.writeList, ∀ w' ∈ u.writeList, (R.co w w').Sat M T → (R'.co w w').Sat M T')
    (h : (rfCoFr z3 u R).Sat M T) : (rfCoFr z3 u R').Sat M T' := by
  have hfalse {f : ZForm} (hf : f.Over fun _ => False) : f.Sat M T ↔ f.Sat M T' := ZForm.sat_timeless hf
  rw [sat_rfCoFr] at h ⊢
  intro s hs r hr hrs
  obtain ⟨w, hw, hne, hws, hread⟩ := h s hs r hr hrs
  obtain ⟨haddr, hdata, hdec, hwr, hother⟩ := sat_readsFrom.mp hread
  refine ⟨w, hw, hne, hws, sat_readsFrom.mpr ⟨?_, ?_, ?_, hrf w hw r hr hwr, fun w' hw' hw'w hw'r hw's haddr' hdec' => ?_⟩⟩
  · exact (hfalse (sameAddress_over z3 _ _ s _ _)).mp haddr
  · exact (hfalse (sameData_over z3 _ _ _ s _ _)).mp hdata
  · exact (hfalse (decodeOf_over z3 _)).mp hdec
  · have hsame := (hfalse (sameAddress_over z3 _ _ s _ _)).mpr haddr'
    have hdec := (hfalse (decodeOf_over z3 _)).mpr hdec'
    exact (hother w' hw' hw'w hw'r hw's hsame hdec).imp (hco w' hw' w hw) (hfr r hr w' hw')

end Mono

/-! ### Times for the facets -/

namespace Tso

section Times

variable (u : System) (T : Ev → Int)

/-- Times with room for the facets. -/
def facetTimes : Ev → Int
  | .facet core pos => 2 * T (.inst core pos) + if isRmw u (.inst core pos) then 0 else 1
  | e => 2 * T e

theorem time_facetTimes {e : Ev} (he : e.Plain) : e.time (facetTimes u T) = 2 * e.time T := by
  cases e with
  | init => rfl
  | inst core pos => rfl
  | facet core pos => exact he.elim
  | final => rfl

theorem time_wfeGlobal {e : Ev} (he : e ∈ u.allInstEvs) :
    2 * e.time T ≤ (wfeGlobal e).time (facetTimes u T) ∧ (wfeGlobal e).time (facetTimes u T) ≤ 2 * e.time T + 1 := by
  cases e with
  | init => exact ⟨le_refl _, show (0 : Int) ≤ 2 * 0 + 1 by decide⟩
  | inst core pos =>
    have hle : (0 : Int) ≤ (if isRmw u (.inst core pos) then 0 else 1) ∧
        (if isRmw u (.inst core pos) then 0 else 1) ≤ (1 : Int) := by
      split_ifs <;> decide
    change 2 * T _ ≤ 2 * T _ + _ ∧ 2 * T _ + _ ≤ 2 * T _ + 1
    omega
  | facet core pos => exact (plain_allInstEvs u he).elim
  | final =>
    rw [System.allInstEvs, System.instEvs] at he
    simp at he

theorem sat_facetTimes {M : Model} {f : ZForm} (hf : f.Over Ev.Plain) (h : f.Sat M T) : f.Sat M (facetTimes u T) := by
  refine (ZForm.sat_congr (fun l r hl hr => ?_) (fun e he => ?_) f hf).mp h
  · rw [time_facetTimes u T hl, time_facetTimes u T hr]
    omega
  · rw [time_facetTimes u T he]
    omega

end Times

section Weaker

variable {z3 : Z3} {u : System} {M : Model} {T : Ev → Int}

theorem mem_allInstEvs_of_writeList {w : Ev} (hw : w ∈ u.writeList) : w ∈ u.allInstEvs := List.mem_of_mem_filter hw

theorem mem_allInstEvs_of_instEvs {e : Ev} (he : e ∈ u.instEvs) : e ∈ u.allInstEvs := List.mem_append_left _ he

theorem wfeGlobal_lt {w r : Ev} (hw : w ∈ u.allInstEvs) (hr : r.Plain) (h : w.time T < r.time T) :
    (wfeGlobal w).time (facetTimes u T) < r.time (facetTimes u T) := by
  have hf := time_wfeGlobal u T hw
  rw [time_facetTimes u T hr]
  omega

theorem lt_wfeGlobal {r w : Ev} (hr : r.Plain) (hw : w ∈ u.allInstEvs) (h : r.time T < w.time T) :
    r.time (facetTimes u T) < (wfeGlobal w).time (facetTimes u T) := by
  have hf := time_wfeGlobal u T hw
  rw [time_facetTimes u T hr]
  omega

theorem wfeGlobal_lt_wfeGlobal {w w' : Ev} (hw : w ∈ u.allInstEvs) (hw' : w' ∈ u.allInstEvs) (h : w.time T < w'.time T) :
    (wfeGlobal w).time (facetTimes u T) < (wfeGlobal w').time (facetTimes u T) := by
  have hf := time_wfeGlobal u T hw
  have hf' := time_wfeGlobal u T hw'
  omega

theorem time_lt_iff {l r : Ev} (hl : l.Plain) (hr : r.Plain) :
    l.time (facetTimes u T) < r.time (facetTimes u T) ↔ l.time T < r.time T := by
  rw [time_facetTimes u T hl, time_facetTimes u T hr]
  omega

theorem sat_rfCoFr_facetTimes (h : (rfCoFr z3 u Sc.relations).Sat M T) :
    (rfCoFr z3 u (relations u)).Sat M (facetTimes u T) := by
  have hwrite {w : Ev} (hw : w ∈ u.writeList) : w.Plain := plain_allInstEvs u (mem_allInstEvs_of_writeList hw)
  have hread {r : Ev} (hr : r ∈ u.readList) : r.Plain := by
    obtain hr | hr := List.mem_append.mp (List.mem_of_mem_filter hr)
    · exact plain_allInstEvs u (mem_allInstEvs_of_instEvs hr)
    · rw [List.mem_singleton.mp hr]
      trivial
  apply rfCoFr_mono _ _ _ h
  · intro w hw r hr hwr
    simp only [relations]
    split_ifs
    · exact (time_lt_iff (hwrite hw) (hread hr)).mpr hwr
    · exact wfeGlobal_lt (mem_allInstEvs_of_writeList hw) (hread hr) hwr
  · intro r hr w hw hrw
    simp only [relations]
    split_ifs
    · exact (time_lt_iff (hread hr) (hwrite hw)).mpr hrw
    · exact lt_wfeGlobal (hread hr) (mem_allInstEvs_of_writeList hw) hrw
  · intro w hw w' hw' hco
    simp only [relations]
    split_ifs
    · exact (time_lt_iff (hwrite hw) (hwrite hw')).mpr hco
    · exact wfeGlobal_lt_wfeGlobal (mem_allInstEvs_of_writeList hw) (mem_allInstEvs_of_writeList hw') hco

theorem sat_writeFacetOrder : (writeFacetOrder u).Sat M (facetTimes u T) := by
  rw [writeFacetOrder, ZForm.sat_forallList_map]
  intro w hw
  obtain ⟨hinst, hpure⟩ := List.mem_filter.mp hw
  have hplain : w.Plain := plain_allInstEvs u (mem_allInstEvs_of_instEvs hinst)
  cases w with
  | inst core pos =>
    have hrmw : isRmw u (.inst core pos) = false := by simpa using (Bool.and_eq_true_iff.mp hpure).2
    change 2 * T (.inst core pos) < 2 * T (.inst core pos) + _
    rw [hrmw]
    exact Int.lt_add_one_of_le (le_refl _)
  | init => simp [System.instEvs] at hinst
  | facet core pos => exact hplain.elim
  | final => simp [System.instEvs] at hinst

theorem sat_storeOrder : (storeOrder u).Sat M (facetTimes u T) := by
  simp only [storeOrder, ZForm.sat_forallList_map]
  intro w hw w' hw' _ hlt
  have hmem : w ∈ u.allInstEvs := mem_allInstEvs_of_writeList hw
  have hmem' : w' ∈ u.allInstEvs := mem_allInstEvs_of_writeList (List.mem_of_mem_filter hw')
  exact wfeGlobal_lt_wfeGlobal hmem hmem' ((time_lt_iff (plain_allInstEvs u hmem) (plain_allInstEvs u hmem')).mp hlt.2)

theorem sat_fenceOrder : (fenceOrder u).Sat M (facetTimes u T) := by
  simp only [fenceOrder, ZForm.sat_forallList_map]
  intro f hf w hw hlt
  have hfp : f.Plain := plain_allInstEvs u (mem_allInstEvs_of_instEvs (List.mem_of_mem_filter hf))
  have hmem : w ∈ u.allInstEvs := mem_allInstEvs_of_writeList (List.mem_of_mem_filter hw)
  exact wfeGlobal_lt hmem hfp ((time_lt_iff (plain_allInstEvs u hmem) hfp).mp hlt.2)

theorem sat_rmwOrder : (rmwOrder u).Sat M (facetTimes u T) := by
  rw [rmwOrder, ZForm.sat_forallList_map]
  intro i hi
  obtain ⟨-, hrmw⟩ := List.mem_filter.mp hi
  cases i with
  | inst core pos =>
    change 2 * T (.inst core pos) = 2 * T (.inst core pos) + _
    rw [if_pos hrmw, add_zero]
  | _ => rfl

theorem sat_registerSteps (h : ∀ f ∈ Sc.registerSteps u, f.Sat M T) : ∀ f ∈ registerSteps u, f.Sat M (facetTimes u T) := by
  have hpos {e : Ev} (he : e ∈ u.instEvs) : 0 < e.time T := h (.positive e) (List.mem_map.mpr ⟨e, he, rfl⟩)
  intro f hf
  obtain hf | hf := List.mem_append.mp hf
  · obtain ⟨e, he, rfl⟩ := List.mem_map.mp hf
    have ht := time_facetTimes u T (plain_allInstEvs u (mem_allInstEvs_of_instEvs he))
    have hp := hpos he
    change 0 < e.time (facetTimes u T)
    omega
  · obtain ⟨e, he, rfl⟩ := List.mem_map.mp hf
    have hinst : e ∈ u.instEvs := List.mem_of_mem_filter he
    have ht := time_wfeGlobal u T (mem_allInstEvs_of_instEvs hinst)
    have hp := hpos hinst
    change 0 < (wfeGlobal e).time (facetTimes u T)
    omega

/-- Total store order is weaker than sequential consistency: the states at all steps of a model of the one are states of a model
of the other. -/
theorem weaker_than_sc (hrmw : ∀ e ∈ rmwList u, u.writesShared e) (h : ∀ f ∈ Sc.constraints z3 u, f.Sat M T) :
    ∃ fs, constraints z3 u = some fs ∧ ∃ T' : Ev → Int, ∀ f ∈ fs, f.Sat M T' := by
  refine ⟨_, if_pos (List.all_eq_true.mpr hrmw), facetTimes u T, ?_⟩
  simp only [Sc.constraints, List.forall_mem_append] at h ⊢
  obtain ⟨⟨⟨⟨hreg, hinit⟩, hfinal⟩, hreads⟩, hlocal⟩ := h
  refine ⟨⟨⟨⟨sat_registerSteps hreg, ?_⟩, ?_⟩, ?_⟩, ?_⟩
  · exact fun f hf => sat_facetTimes u T (genSysInitConstraints_over z3 u f hf) (hinit f hf)
  · exact fun f hf => sat_facetTimes u T (setFinalProperty_over z3 u f hf) (hfinal f hf)
  · have hrf := sat_rfCoFr_facetTimes (hreads _ List.mem_cons_self)
    simp [hrf, sat_writeFacetOrder, sat_storeOrder, sat_fenceOrder, sat_rmwOrder]
  · exact fun f hf => sat_facetTimes u T (setLocalState_over z3 u f hf) (hlocal f hf)

end Weaker

/-- A core with a read-modify-write and a core that stores, on one shared state. -/
def rmwAndStore : System where
  ilas :=
    let core (name : String) : IlaData := { IlaData.new 0 name with states := [⟨0, "x", some name, .bv 8⟩] }
    [core "c0", core "c1"]
  tmpl :=
    let x (name : String) : Expr := .var ⟨0, "x", some name, .bv 8⟩
    [[⟨"atomic_and", .const (.bool true), [("x", .op .and [x "c0", .const (.bv 1 8)])]⟩],
      [⟨"store", .const (.bool true), [("x", .const (.bv 0 8))]⟩]]
  ordered := [true, true]
  property := .op .eq [.var ⟨0, "x", some "c0", .bv 8⟩, .const (.bv 0 8)]

/-- The store is after the read-modify-write. -/
def storeLast : Ev → Int
  | .inst core _ => core + 1
  | _ => 3

theorem weaker_than_sc_rmwAndStore :
    (∀ e ∈ rmwList rmwAndStore, rmwAndStore.writesShared e) ∧
      (∀ f ∈ Sc.constraints default rmwAndStore, f.Sat default storeLast) ∧
      ∃ fs, constraints default rmwAndStore = some fs ∧ ∃ T' : Ev → Int, ∀ f ∈ fs, f.Sat default T' := by
  have hrmw : ∀ e ∈ rmwList rmwAndStore, rmwAndStore.writesShared e := by decide
  have hsc : ∀ f ∈ Sc.constraints default rmwAndStore, f.Sat default storeLast := by decide
  exact ⟨hrmw, hsc, weaker_than_sc hrmw hsc⟩

end Tso

end Mcm

end Ilang
