import Ilang.SmtInout.YosysFlatten

/-!
# Functions of a flattened design

The bodies are those that Yosys writes: a function of a module reads the registers of the module, calls functions of the module
and of the modules of its instances, and reads registers of its instances. The value of a body is the value of the rewritten
body by induction over the body, for a function that stands after functions for which this is known.
-/

namespace Ilang

/-! ### Designs -/

/-- The bodies of the functions of a module. -/
inductive WfBody (dts : Datatypes) (prev : List YFunc) (m : YName) (hasNext : Bool) : SExp → Prop where
  | sym {s : YName} (hquoted : isQuoted s = false) (hstate : s ≠ stateName) (hnext : s ≠ nextStateName) :
      WfBody dts prev m hasNext (.atom s)
  | op {f : YName} {args : List SExp} (hfun : f ∉ prev.map YFunc.name) (hfield : ∀ n, f ∉ dts.names n)
      (hargs : ∀ a ∈ args, WfBody dts prev m hasNext a) : WfBody dts prev m hasNext (.list (.atom f :: args))
  | idx {f : YName} {ns : List YName} {args : List SExp} (hfun : f ∉ prev.map YFunc.name) (hfield : ∀ n, f ∉ dts.names n)
      (hargs : ∀ a ∈ args, WfBody dts prev m hasNext a) :
      WfBody dts prev m hasNext (.list (.list ((f :: ns).map .atom) :: args))
  | own {v : StateVar} (hv : v ∈ dts.vars m) (htype : ∀ n, v.type ≠ .datatype n) :
      WfBody dts prev m hasNext (.list [.atom v.internalName, .atom stateName])
  | ownNext {v : StateVar} (hnext : hasNext = true) (hv : v ∈ dts.vars m) (htype : ∀ n, v.type ≠ .datatype n) :
      WfBody dts prev m hasNext (.list [.atom v.internalName, .atom nextStateName])
  | call {g : YFunc} (hg : g ∈ prev) (hm : g.module = m) (hone : g.hasNext = false) :
      WfBody dts prev m hasNext (.list [.atom g.name, .atom stateName])
  | subField {v u : StateVar} {n : YName} (hv : v ∈ dts.vars m) (htype : v.type = .datatype n) (hu : u ∈ dts.vars n)
      (hutype : ∀ n', u.type ≠ .datatype n') :
      WfBody dts prev m hasNext (.list [.atom u.internalName, .list [.atom v.internalName, .atom stateName]])
  | subCall {v : StateVar} {g : YFunc} (hv : v ∈ dts.vars m) (htype : v.type = .datatype g.module) (hg : g ∈ prev)
      (hone : g.hasNext = false) :
      WfBody dts prev m hasNext (.list [.atom g.name, .list [.atom v.internalName, .atom stateName]])
  | subCallNext {v : StateVar} {g : YFunc} (hnext : hasNext = true) (hv : v ∈ dts.vars m)
      (htype : v.type = .datatype g.module) (hg : g ∈ prev) (htwo : g.hasNext = true) :
      WfBody dts prev m hasNext (.list [.atom g.name, .list [.atom v.internalName, .atom stateName],
        .list [.atom v.internalName, .atom nextStateName]])

/-- A design in the format of Yosys. -/
structure YosysDesign (dts : Datatypes) (fs : List YFunc) : Prop where
  ok : DesignOk dts
  nodup : (fs.map YFunc.name).Nodup
  fields : ∀ f ∈ fs, ∀ m, f.name ∉ dts.names m
  bodies : ∀ pre f post, fs = pre ++ f :: post → WfBody dts pre f.module f.hasNext f.body

/-- The context in which the body of a function is rewritten. -/
def bodyCtx (dts : Datatypes) (prev : List YFunc) (f : YFunc) : BodyCtx :=
  ⟨dts, constructFlattenDatatype dts, f.module, f.hasNext, prev.map YFunc.name⟩

def flatArgs (dts : Datatypes) (f : YFunc) : List StateVar := (replaceAFunc dts [] f).args

/-- No parenthesis of the name is taken for one of a list. -/
def NoParens (n : YName) : Prop := '(' ∉ n ∧ ')' ∉ n

instance (n : YName) : Decidable (NoParens n) := inferInstanceAs (Decidable (_ ∧ _))

/-- Flattening gets everything right: the lists of the bodies are found by their parentheses, there are no arrays, whose widths
are lost, the registers of every module have different names, and the replacements of each body do not get in each other's way. -/
structure CleanFlatten (dts : Datatypes) (fs : List YFunc) : Prop where
  plainFields : ∀ m, ∀ n ∈ dts.names m, NoParens n
  plainBodies : ∀ f ∈ fs, ∀ s ∈ f.body.tokens, NoParens s
  noArrays : NoArrays dts
  args : ∀ f ∈ fs, ((flatArgs dts f).map StateVar.internalName).Nodup
  first : ∀ pre f post, fs = pre ++ f :: post → (bodyCtx dts pre f).FieldsFirst (bodyLeaves none f.body)

/-- The states that a function is applied to. -/
def YFunc.states (f : YFunc) (v w : YVal) : List YVal := if f.hasNext then [v, w] else [v]

/-! ### The map of a body -/

section Keys

variable {c : BodyCtx} {body : SExp}

theorem mem_sortedKeys {k : ReplKey} : k ∈ c.sortedKeys body ↔ k ∈ c.keysOf (bodyLeaves none body) :=
  List.mem_insertionSort _

theorem sortedKeys_entered (body : SExp) : c.Entered (c.sortedKeys body) := by
  refine ⟨fun pred a hmem => ?_, fun q pred hmem => ?_⟩
  · obtain ⟨x, -, hkey⟩ := BodyCtx.exists_of_mem_keysOf (mem_sortedKeys.mp hmem)
    rcases BodyCtx.key_cases hkey with ⟨pred', arg', heq, -, harg, -⟩ | ⟨outer, pred', v, m, heq, -⟩
    · cases heq
      exact harg
    · cases heq
  · obtain ⟨x, -, hkey⟩ := BodyCtx.exists_of_mem_keysOf (mem_sortedKeys.mp hmem)
    rcases BodyCtx.key_cases hkey with ⟨pred', arg', heq, -⟩ | ⟨outer, pred', v, m, heq, -, -, -, hmem⟩
    · cases heq
    · cases heq
      exact ⟨m, hmem⟩

theorem head_ne {f : YName} (hfun : f ∉ c.defined) (hfield : ∀ m, f ∉ c.dts.names m) :
    ∀ k ∈ c.sortedKeys body, BodyCtx.head k ≠ f := by
  intro k hmem heq
  obtain ⟨x, -, hkey⟩ := BodyCtx.exists_of_mem_keysOf (mem_sortedKeys.mp hmem)
  rcases BodyCtx.key_cases hkey with ⟨pred, arg, rfl, -, -, hpred⟩ | ⟨outer, pred, v, m, rfl, -, -, -, hmem⟩
  · rcases hpred with hpred | hpred
    · exact hfun (heq ▸ hpred)
    · obtain ⟨v, hv⟩ := Option.isSome_iff_exists.mp hpred
      unfold BodyCtx.stateVar at hv
      have hname := List.find?_some hv
      rw [beq_iff_eq] at hname
      exact hfield c.module (heq ▸ hname ▸ List.mem_map_of_mem (List.mem_of_find?_eq_some hv))
  · exact hfield m (heq ▸ hmem)

theorem sortedKeys_before (hfirst : c.FieldsFirst (bodyLeaves none body)) {q p : YName} {l₁ l₂ : List ReplKey}
    (heq : c.sortedKeys body = l₁ ++ .special q p :: l₂) : .leaf p stateName ∉ l₁ := by
  intro hmem
  have hsorted : (c.sortedKeys body).Pairwise fun k l => k.text ≤ l.text := List.pairwise_insertionSort _ _
  rw [heq, List.pairwise_append] at hsorted
  have hle := hsorted.2.2 _ hmem _ List.mem_cons_self
  have hq : ReplKey.special q p ∈ c.sortedKeys body := by
    rw [heq]
    simp
  have hp : ReplKey.leaf p stateName ∈ c.sortedKeys body := by
    rw [heq]
    exact List.mem_append_left _ hmem
  obtain ⟨x, hx, hxkey⟩ := BodyCtx.exists_of_mem_keysOf (mem_sortedKeys.mp hq)
  obtain ⟨y, hy, hykey⟩ := BodyCtx.exists_of_mem_keysOf (mem_sortedKeys.mp hp)
  exact absurd (hfirst.sorted x hx y hy q p hxkey hykey) (not_lt_of_ge hle)

end Keys

/-! ### A function after others -/

/-- The functions before a function are flattened right. -/
structure FuncsMatch (dts : Datatypes) (prev : List YFunc) (F : FuncEnv YVal) (G : FuncEnv Smt.Value) : Prop where
  call : ∀ g ∈ prev, ∃ φ ψ, F.lookup g.name = some φ ∧ G.lookup g.name = some ψ ∧ ∀ v w, IsState dts g.module v →
    IsState dts g.module w → φ (g.states v w) = (ψ ((g.states v w).flatMap YVal.leaves)).map .base
  other : ∀ n, n ∉ prev.map YFunc.name → F.lookup n = none ∧ G.lookup n = none

/-- A function, the functions before it, and the states that it is applied to. -/
structure FuncSetting (dts : Datatypes) (prev : List YFunc) (f : YFunc) (F : FuncEnv YVal) (G : FuncEnv Smt.Value)
    (v w : YVal) : Prop where
  ok : DesignOk dts
  noArrays : NoArrays dts
  fields : ∀ g ∈ prev, ∀ m, g.name ∉ dts.names m
  args : ((flatArgs dts f).map StateVar.internalName).Nodup
  funcs : FuncsMatch dts prev F G
  now : IsState dts f.module v
  next : IsState dts f.module w

theorem forall₂_lookup_zip {names : List YName} {vals : List Smt.Value} (hlen : names.length = vals.length)
    (hnodup : names.Nodup) : List.Forall₂ (fun n b => (names.zip vals).lookup n = some b) names vals := by
  refine forall₂_of_getElem? hlen fun i n b hn hb => ?_
  have hmem : (n, b) ∈ names.zip vals := List.mem_of_getElem? (List.getElem?_zip_eq_some.mpr ⟨hn, hb⟩)
  exact Entries.lookup_of_mem (by rwa [List.map_fst_zip hlen.le]) hmem

namespace FuncSetting

variable {B : SExp.Interp Smt.Value} {dts : Datatypes} {prev : List YFunc} {f : YFunc} {F : FuncEnv YVal}
  {G : FuncEnv Smt.Value} {v w : YVal}

/-- The interpretation of the flattened body. -/
def flat (B : SExp.Interp Smt.Value) (dts : Datatypes) (f : YFunc) (G : FuncEnv Smt.Value) (v w : YVal) :
    SExp.Interp Smt.Value :=
  flatInterp B G ((flatArgs dts f).map StateVar.internalName) ((f.states v w).flatMap YVal.leaves)

theorem flatArgs_names (dts : Datatypes) (f : YFunc) : (flatArgs dts f).map StateVar.internalName =
    (constructFlattenDatatype dts).names f.module ++ if f.hasNext then
      ((constructFlattenDatatype dts).names f.module).map fun n => stNameAddSuffix n nextSuffix else [] := by
  unfold flatArgs replaceAFunc
  dsimp only
  split
  · rw [List.map_append, List.map_map, Datatypes.names, List.map_map]
    rfl
  · rw [List.append_nil]
    rfl

theorem names_length (h : FuncSetting dts prev f F G v w) {x : YVal} (hx : IsState dts f.module x) :
    ((constructFlattenDatatype dts).names f.module).length = x.leaves.length := by
  rw [Datatypes.names, List.length_map]
  exact (hx.types h.ok h.noArrays).length_eq

theorem states_leaves (f : YFunc) (v w : YVal) :
    (f.states v w).flatMap YVal.leaves = v.leaves ++ if f.hasNext then w.leaves else [] := by
  unfold YFunc.states
  split
  · simp
  · simp

theorem symbols (h : FuncSetting dts prev f F G v w) : List.Forall₂ (fun n b => (flat B dts f G v w).sym n = some b)
    ((flatArgs dts f).map StateVar.internalName) ((f.states v w).flatMap YVal.leaves) := by
  have hlen : ((flatArgs dts f).map StateVar.internalName).length = ((f.states v w).flatMap YVal.leaves).length := by
    rw [flatArgs_names, states_leaves, List.length_append, List.length_append, h.names_length h.now]
    split
    · rw [List.length_map, h.names_length h.next]
    · rfl
  refine (forall₂_lookup_zip hlen h.args).imp fun n b hn => ?_
  unfold flat flatInterp
  dsimp only
  rw [hn]

theorem now_symbols (h : FuncSetting dts prev f F G v w) : List.Forall₂ (fun n b => (flat B dts f G v w).sym n = some b)
    ((constructFlattenDatatype dts).names f.module) v.leaves := by
  have hall := h.symbols (B := B)
  rw [flatArgs_names, states_leaves] at hall
  have htake := List.forall₂_take ((constructFlattenDatatype dts).names f.module).length hall
  rw [List.take_left, h.names_length h.now, List.take_left] at htake
  exact htake

theorem next_symbols (h : FuncSetting dts prev f F G v w) (hnext : f.hasNext = true) :
    List.Forall₂ (fun n b => (flat B dts f G v w).sym (stNameAddSuffix n nextSuffix) = some b)
      ((constructFlattenDatatype dts).names f.module) w.leaves := by
  have hall := h.symbols (B := B)
  rw [flatArgs_names, states_leaves, if_pos hnext, if_pos hnext] at hall
  have hdrop := List.forall₂_drop ((constructFlattenDatatype dts).names f.module).length hall
  rw [List.drop_left, h.names_length h.now, List.drop_left, List.forall₂_map_left_iff] at hdrop
  exact hdrop

theorem sym_other (h : FuncSetting dts prev f F G v w) {s : YName} (hs : isQuoted s = false) :
    (flat B dts f G v w).sym s = B.sym s := by
  have hnot : s ∉ (flatArgs dts f).map StateVar.internalName := by
    intro hmem
    rw [flatArgs_names, List.mem_append] at hmem
    have hbars : Bars s := by
      rcases hmem with hmem | hmem
      · exact h.ok.flat_bars s hmem
      · split at hmem
        · obtain ⟨n, hn, rfl⟩ := List.mem_map.mp hmem
          exact (h.ok.flat_bars n hn).addSuffix
        · cases hmem
    rw [hbars.isQuoted] at hs
    cases hs
  unfold flat flatInterp
  dsimp only
  rw [Entries.lookup_eq_none_iff.mpr]
  intro hmem
  obtain ⟨p, hp, rfl⟩ := List.mem_map.mp hmem
  exact hnot (List.of_mem_zip hp).1

end FuncSetting

/-! ### Fields -/

section Fields

variable {dts : Datatypes} {m : YName}

theorem field_eq (hok : DesignOk dts) {i : Nat} {u : StateVar} (hu : (dts.vars m)[i]? = some u) (fields : List YVal) :
    YVal.field dts u.internalName [.st m fields] = fields[i]? := by
  obtain ⟨hi, rfl⟩ := List.getElem?_eq_some_iff.mp hu
  have hfind : (dts.names m).findIdx? (· == (dts.vars m)[i].internalName) = some i := by
    have hlen : i < (dts.names m).length := by rwa [Datatypes.names, List.length_map]
    have hget : (dts.names m)[i] = (dts.vars m)[i].internalName := List.getElem_map ..
    rw [List.findIdx?_eq_some_iff_getElem]
    refine ⟨hlen, by rw [hget, beq_self_eq_true], fun j hj => ?_⟩
    rw [Bool.not_eq_true, beq_eq_false_iff_ne, ← hget]
    exact fun heq => absurd ((hok.fields m).getElem_inj_iff.mp heq) (by omega)
  rw [YVal.field, hfind]
  rfl

theorem field_none {f : YName} (h : ∀ m, f ∉ dts.names m) (vs : List YVal) : YVal.field dts f vs = none := by
  unfold YVal.field
  split
  · rename_i m fields
    rw [List.findIdx?_eq_none_iff.mpr]
    · rfl
    · intro n hn
      rw [beq_eq_false_iff_ne]
      exact fun heq => h m (heq ▸ hn)
  · rfl

theorem stateVar_eq {c : BodyCtx} (hnodup : (c.dts.names c.module).Nodup) {u : StateVar} (hu : u ∈ c.dts.vars c.module) :
    c.stateVar u.internalName = some u := by
  unfold BodyCtx.stateVar
  unfold Datatypes.names at hnodup
  generalize c.dts.vars c.module = vars at hnodup hu
  induction vars with
  | nil => cases hu
  | cons a vars ih =>
    rw [List.map_cons, List.nodup_cons] at hnodup
    rcases List.mem_cons.mp hu with rfl | hu
    · exact List.find?_cons_of_pos (beq_self_eq_true u.internalName)
    · have hne : (a.internalName == u.internalName) = false := by
        rw [beq_eq_false_iff_ne]
        exact fun heq => hnodup.1 (heq ▸ List.mem_map_of_mem hu)
      rw [List.find?_cons_of_neg (by rw [hne]; exact Bool.false_ne_true)]
      exact ih hnodup.2 hu

theorem bases_map (vs : List Smt.Value) : YVal.bases (vs.map .base) = some vs := by
  induction vs with
  | nil => rfl
  | cons b vs ih => rw [List.map_cons, YVal.bases, ih, Option.map_some]

end Fields

/-! ### What the lists of a body are replaced by -/

namespace FuncSetting

variable {dts : Datatypes} {prev : List YFunc} {f : YFunc} {F : FuncEnv YVal} {G : FuncEnv Smt.Value} {v w : YVal}

theorem stateVar (h : FuncSetting dts prev f F G v w) {u : StateVar} (hu : u ∈ dts.vars f.module) :
    (bodyCtx dts prev f).stateVar u.internalName = some u :=
  stateVar_eq (c := bodyCtx dts prev f) (h.ok.fields f.module) hu

theorem field_notMem_defined (h : FuncSetting dts prev f F G v w) {u : StateVar} {m : YName} (hu : u ∈ dts.vars m) :
    u.internalName ∉ (bodyCtx dts prev f).defined := by
  intro hmem
  obtain ⟨g, hg, heq⟩ := List.mem_map.mp hmem
  exact h.fields g hg m (heq ▸ List.mem_map_of_mem hu)

theorem key_own (h : FuncSetting dts prev f F G v w) {u : StateVar} (hu : u ∈ dts.vars f.module)
    (htype : ∀ n, u.type ≠ .datatype n) (o : Option YName) :
    (bodyCtx dts prev f).key (o, [u.internalName, stateName]) = some (.leaf u.internalName stateName) := by
  unfold BodyCtx.key
  dsimp only
  rw [if_pos rfl, if_neg (h.field_notMem_defined hu), h.stateVar hu]
  obtain ⟨name, type⟩ := u
  cases type with
  | datatype n => exact absurd rfl (htype n)
  | bool => rfl
  | bv k => rfl
  | array widths => rfl

theorem key_next (h : FuncSetting dts prev f F G v w) (hnext : f.hasNext = true) {u : StateVar}
    (hu : u ∈ dts.vars f.module) (o : Option YName) :
    (bodyCtx dts prev f).key (o, [u.internalName, nextStateName]) = some (.leaf u.internalName nextStateName) := by
  unfold BodyCtx.key
  dsimp only
  rw [if_neg (by decide), if_pos ⟨hnext, rfl, by rw [h.stateVar hu]; rfl⟩]

theorem key_call {g : YFunc} (hg : g ∈ prev) (o : Option YName) :
    (bodyCtx dts prev f).key (o, [g.name, stateName]) = some (.leaf g.name stateName) := by
  unfold BodyCtx.key
  dsimp only
  have hdef : g.name ∈ (bodyCtx dts prev f).defined := List.mem_map_of_mem hg
  rw [if_pos rfl, if_pos hdef]

theorem key_sub (h : FuncSetting dts prev f F G v w) {u : StateVar} {n : YName} (hu : u ∈ dts.vars f.module)
    (htype : u.type = .datatype n) (o : YName) :
    (bodyCtx dts prev f).key (some o, [u.internalName, stateName]) =
      if o ∈ dts.names n then some (.special o u.internalName) else some (.leaf u.internalName stateName) := by
  unfold BodyCtx.key
  dsimp only
  rw [if_pos rfl, if_neg (h.field_notMem_defined hu), h.stateVar hu]
  obtain ⟨name, type⟩ := u
  cases htype
  rfl

theorem result_own (h : FuncSetting dts prev f F G v w) {u : StateVar} (hu : u ∈ dts.vars f.module)
    (htype : ∀ n, u.type ≠ .datatype n) :
    (bodyCtx dts prev f).result (.leaf u.internalName stateName) = [u.internalName].map .atom := by
  unfold BodyCtx.result
  dsimp only
  rw [if_pos rfl, if_neg (h.field_notMem_defined hu), h.stateVar hu]
  obtain ⟨name, type⟩ := u
  cases type with
  | datatype n => exact absurd rfl (htype n)
  | bool => rfl
  | bv k => rfl
  | array widths => rfl

theorem result_ownNext (h : FuncSetting dts prev f F G v w) {u : StateVar} (hu : u ∈ dts.vars f.module)
    (htype : ∀ n, u.type ≠ .datatype n) :
    (bodyCtx dts prev f).result (.leaf u.internalName nextStateName) =
      [stNameAddSuffix u.internalName nextSuffix].map .atom := by
  unfold BodyCtx.result
  dsimp only
  rw [if_neg (by decide), h.stateVar hu]
  obtain ⟨name, type⟩ := u
  cases type with
  | datatype n => exact absurd rfl (htype n)
  | bool => rfl
  | bv k => rfl
  | array widths => rfl

theorem result_call {g : YFunc} (hg : g ∈ prev) : (bodyCtx dts prev f).result (.leaf g.name stateName) =
    [.list (.atom g.name :: ((constructFlattenDatatype dts).names f.module).map .atom)] := by
  unfold BodyCtx.result
  dsimp only
  have hdef : g.name ∈ (bodyCtx dts prev f).defined := List.mem_map_of_mem hg
  rw [if_pos rfl, if_pos hdef]
  rfl

/-- The registers of an instance, in the state or in the next one. -/
def subNames (dts : Datatypes) (field n arg : YName) : List YName :=
  ((constructFlattenDatatype dts).names n).map fun u =>
    stNameAddPrefix (if arg = stateName then u else stNameAddSuffix u nextSuffix) (instPrefix field)

theorem result_sub (h : FuncSetting dts prev f F G v w) {u : StateVar} {n arg : YName} (hu : u ∈ dts.vars f.module)
    (htype : u.type = .datatype n) :
    (bodyCtx dts prev f).result (.leaf u.internalName arg) = (subNames dts u.internalName n arg).map .atom := by
  unfold BodyCtx.result subNames
  dsimp only
  rw [if_neg (h.field_notMem_defined hu), h.stateVar hu]
  obtain ⟨name, type⟩ := u
  cases htype
  by_cases harg : arg = stateName
  · simp only [if_pos harg]
    rfl
  · simp only [if_neg harg]
    rfl

theorem subNames_bars (h : FuncSetting dts prev f F G v w) (field n arg : YName) : ∀ u ∈ subNames dts field n arg, Bars u := by
  intro u hu
  obtain ⟨x, hx, rfl⟩ := List.mem_map.mp hu
  have hbars := h.ok.flat_bars x hx
  split
  · exact hbars.addPrefix field
  · exact hbars.addSuffix.addPrefix field

end FuncSetting

/-! ### The value of a body -/

theorem atoms?_mem {items : List SExp} {names : List YName} (h : atoms? items = some names) :
    ∀ e ∈ items, ∃ s, e = .atom s := by
  induction items generalizing names with
  | nil =>
    intro e he
    cases he
  | cons a items ih =>
    cases a with
    | list l => cases h
    | atom s =>
      obtain ⟨names', hnames, -⟩ := Option.map_eq_some_iff.mp h
      intro e he
      rcases List.mem_cons.mp he with rfl | he
      · exact ⟨s, rfl⟩
      · exact ih hnames e he

theorem bodyLeavesList_mem {items before : List SExp} {e : SExp} (h : e ∈ items) :
    ∃ o, bodyLeaves o e ⊆ bodyLeavesList before items := by
  induction items generalizing before with
  | nil => cases h
  | cons a items ih =>
    rw [bodyLeavesList]
    rcases List.mem_cons.mp h with rfl | h
    · exact ⟨outerPred before, List.subset_append_left _ _⟩
    · obtain ⟨o, ho⟩ := ih h
      exact ⟨o, List.Subset.trans ho (List.subset_append_right _ _)⟩

theorem bodyLeaves_mem {items : List SExp} {e : SExp} (h : e ∈ items) (o : Option YName) :
    ∃ o', bodyLeaves o' e ⊆ bodyLeaves o (.list items) := by
  rw [bodyLeaves]
  split
  · rename_i names hnames
    obtain ⟨s, rfl⟩ := atoms?_mem hnames e h
    exact ⟨none, List.nil_subset _⟩
  · exact bodyLeavesList_mem h

section Body

variable {B : SExp.Interp Smt.Value} {dts : Datatypes} {prev : List YFunc} {f : YFunc} {F : FuncEnv YVal}
  {G : FuncEnv Smt.Value} {v w : YVal}

theorem orig_state : SExp.eval (origInterp B dts F (f.states v w)) (.atom stateName) = some v := by
  rw [SExp.eval, origInterp]
  dsimp only
  rw [if_pos rfl, YFunc.states]
  split
  · rfl
  · rfl

theorem orig_nextState (hnext : f.hasNext = true) :
    SExp.eval (origInterp B dts F (f.states v w)) (.atom nextStateName) = some w := by
  rw [SExp.eval, origInterp]
  dsimp only
  rw [if_neg (by decide), if_pos rfl, YFunc.states, if_pos hnext]
  rfl

theorem orig_app {args : List YVal} {g : YName} {e : List SExp} {vs : List YVal}
    (hargs : SExp.evalList (origInterp B dts F args) e = some vs) :
    SExp.eval (origInterp B dts F args) (.list (.atom g :: e)) = (origInterp B dts F args).app g vs := by
  rw [SExp.eval, hargs, Option.bind_some]

theorem orig_field (hok : DesignOk dts) {args : List YVal} {e : SExp} {m : YName} {fields : List YVal}
    (he : SExp.eval (origInterp B dts F args) e = some (.st m fields)) {i : Nat} {u : StateVar}
    (hu : (dts.vars m)[i]? = some u) {x : YVal} (hx : fields[i]? = some x) :
    SExp.eval (origInterp B dts F args) (.list [.atom u.internalName, e]) = some x := by
  rw [orig_app (show SExp.evalList _ [e] = some [.st m fields] by rw [SExp.evalList, he]; rfl), origInterp]
  dsimp only
  rw [field_eq hok hu, hx]

theorem FuncSetting.call (h : FuncSetting dts prev f F G v w) {g : YFunc} (hg : g ∈ prev) {x y : YVal}
    (hx : IsState dts g.module x) (hy : IsState dts g.module y) {args : List YVal} {e : List SExp} {names : List YName}
    (he : SExp.evalList (origInterp B dts F args) e = some (g.states x y))
    (hnames : List.Forall₂ (fun n b => (FuncSetting.flat B dts f G v w).sym n = some b) names
      ((g.states x y).flatMap YVal.leaves)) :
    SExp.eval (origInterp B dts F args) (.list (.atom g.name :: e)) =
      (SExp.eval (FuncSetting.flat B dts f G v w) (.list (.atom g.name :: names.map .atom))).map .base := by
  obtain ⟨φ, ψ, hφ, hψ, hcall⟩ := h.funcs.call g hg
  rw [orig_app he, SExp.eval, SExp.evalList_atoms hnames, Option.bind_some, FuncSetting.flat, flatInterp, origInterp]
  dsimp only
  rw [field_none (h.fields g hg), hφ, hψ]
  exact hcall x y hx hy

/-- The rewritten term has the value of the term. -/
def BodyKept (B : SExp.Interp Smt.Value) (dts : Datatypes) (prev : List YFunc) (f : YFunc) (F : FuncEnv YVal)
    (G : FuncEnv Smt.Value) (v w : YVal) (body e : SExp) : Prop :=
  ∃ e', SExp.replaceSeq (((bodyCtx dts prev f).sortedKeys body).map (bodyCtx dts prev f).hit) [e] = [e'] ∧
    SExp.eval (origInterp B dts F (f.states v w)) e = (SExp.eval (FuncSetting.flat B dts f G v w) e').map .base

variable {body : SExp}

theorem args_kept {args : List SExp} (h : ∀ a ∈ args, BodyKept B dts prev f F G v w body a) :
    SExp.evalList (origInterp B dts F (f.states v w)) args = (SExp.evalList (FuncSetting.flat B dts f G v w)
      (SExp.replaceSeq (((bodyCtx dts prev f).sortedKeys body).map (bodyCtx dts prev f).hit) args)).map (List.map .base) := by
  refine SExp.evalList_map ?_
  induction args with
  | nil =>
    rw [SExp.replaceSeq_nil]
    exact .nil
  | cons a args ih =>
    obtain ⟨a', ha', hval⟩ := h a List.mem_cons_self
    rw [SExp.replaceSeq_cons, ha']
    exact .cons hval (ih fun b hb => h b (List.mem_cons_of_mem a hb))

theorem op_kept (h : FuncSetting dts prev f F G v w) {op : YName} {args : List SExp} (hfun : op ∉ prev.map YFunc.name)
    (hfield : ∀ n, op ∉ dts.names n) (hargs : ∀ a ∈ args, BodyKept B dts prev f F G v w body a) :
    BodyKept B dts prev f F G v w body (.list (.atom op :: args)) := by
  refine ⟨_, BodyCtx.replaceSeq_op args (head_ne hfun hfield), ?_⟩
  rw [SExp.eval, SExp.eval, args_kept hargs]
  cases SExp.evalList (FuncSetting.flat B dts f G v w)
    (SExp.replaceSeq (((bodyCtx dts prev f).sortedKeys body).map (bodyCtx dts prev f).hit) args) with
  | none => rfl
  | some vs =>
    obtain ⟨hF, hG⟩ := h.funcs.other op hfun
    rw [Option.map_some, Option.bind_some, Option.bind_some, FuncSetting.flat, flatInterp, origInterp]
    dsimp only
    rw [field_none hfield, hF, hG, bases_map, Option.bind_some]

theorem idx_kept {op : YName} {ns : List YName} {args : List SExp} (hfun : op ∉ prev.map YFunc.name)
    (hfield : ∀ n, op ∉ dts.names n) (hargs : ∀ a ∈ args, BodyKept B dts prev f F G v w body a) :
    BodyKept B dts prev f F G v w body (.list (.list ((op :: ns).map .atom) :: args)) := by
  refine ⟨_, BodyCtx.replaceSeq_idx ns args (head_ne hfun hfield), ?_⟩
  rw [SExp.eval, SExp.eval, args_kept hargs]
  cases SExp.evalList (FuncSetting.flat B dts f G v w)
    (SExp.replaceSeq (((bodyCtx dts prev f).sortedKeys body).map (bodyCtx dts prev f).hit) args) with
  | none => rfl
  | some vs =>
    rw [Option.map_some, Option.bind_some, Option.bind_some, FuncSetting.flat, flatInterp, origInterp]
    dsimp only
    rw [bases_map, Option.bind_some]

theorem own_kept (h : FuncSetting dts prev f F G v w) {u : StateVar} {x : YVal} (hx : IsState dts f.module x)
    {arg new : YName} (harg : SExp.eval (origInterp B dts F (f.states v w)) (.atom arg) = some x)
    (hu : u ∈ dts.vars f.module) (htype : ∀ n, u.type ≠ .datatype n) {r : YName → YName}
    (hnames : List.Forall₂ (fun n b => (FuncSetting.flat B dts f G v w).sym (r n) = some b)
      ((constructFlattenDatatype dts).names f.module) x.leaves)
    (hnew : r u.internalName = new)
    (hresult : (bodyCtx dts prev f).result (.leaf u.internalName arg) = [new].map .atom)
    (hmem : .leaf u.internalName arg ∈ (bodyCtx dts prev f).sortedKeys body) :
    BodyKept B dts prev f F G v w body (.list [.atom u.internalName, .atom arg]) := by
  refine ⟨.atom new, ?_, ?_⟩
  · rw [BodyCtx.replaceSeq_leaf hmem, hresult]
    · rfl
    · intro ks' _
      rw [hresult, BodyCtx.replaceSeq_tokens]
  · obtain ⟨fields, rfl⟩ := hx.exists_fields
    obtain ⟨i, hi⟩ := List.mem_iff_getElem?.mp hu
    obtain ⟨b, hb, hsym⟩ := hx.block_base h.ok h.noArrays
      (R := fun n b => (FuncSetting.flat B dts f G v w).sym (r n) = some b) hnames hi htype
    rw [orig_field h.ok harg hi hb, SExp.eval, ← hnew, hsym, Option.map_some]

theorem call_kept (h : FuncSetting dts prev f F G v w) {g : YFunc} (hg : g ∈ prev) (hm : g.module = f.module)
    (hone : g.hasNext = false) (hmem : .leaf g.name stateName ∈ (bodyCtx dts prev f).sortedKeys body) :
    BodyKept B dts prev f F G v w body (.list [.atom g.name, .atom stateName]) := by
  have hstates : g.states v v = [v] := by rw [YFunc.states, hone]; rfl
  refine ⟨.list (.atom g.name :: ((constructFlattenDatatype dts).names f.module).map .atom), ?_, ?_⟩
  · rw [BodyCtx.replaceSeq_leaf hmem, FuncSetting.result_call hg]
    intro ks' hsub
    rw [FuncSetting.result_call hg]
    exact BodyCtx.replaceSeq_call ((sortedKeys_entered body).of_subset hsub) g.name fun n hn => h.ok.flat_bars n hn
  · refine h.call hg (hm ▸ h.now) (hm ▸ h.now) ?_ ?_
    · rw [SExp.evalList, orig_state, hstates]
      rfl
    · rw [hstates, List.flatMap_singleton]
      exact h.now_symbols

theorem sub_symbols (h : FuncSetting dts prev f F G v w) {u : StateVar} {n : YName} (hu : u ∈ dts.vars f.module)
    (htype : u.type = .datatype n) :
    ∃ x, SExp.eval (origInterp B dts F (f.states v w)) (.list [.atom u.internalName, .atom stateName]) = some x ∧
      IsState dts n x ∧ List.Forall₂ (fun a b => (FuncSetting.flat B dts f G v w).sym
        (stNameAddPrefix a (instPrefix u.internalName)) = some b) ((constructFlattenDatatype dts).names n) x.leaves := by
  obtain ⟨fields, rfl⟩ := h.now.exists_fields
  obtain ⟨i, hi⟩ := List.mem_iff_getElem?.mp hu
  obtain ⟨x, hx, hxstate, hsub⟩ := h.now.block_sub h.ok h.noArrays (h.now_symbols (B := B)) hi htype
  exact ⟨x, orig_field h.ok orig_state hi hx, hxstate, hsub⟩

theorem subNext_symbols (h : FuncSetting dts prev f F G v w) (hnext : f.hasNext = true) {u : StateVar} {n : YName}
    (hu : u ∈ dts.vars f.module) (htype : u.type = .datatype n) :
    ∃ x, SExp.eval (origInterp B dts F (f.states v w)) (.list [.atom u.internalName, .atom nextStateName]) = some x ∧
      IsState dts n x ∧ List.Forall₂ (fun a b => (FuncSetting.flat B dts f G v w).sym a = some b)
        (FuncSetting.subNames dts u.internalName n nextStateName) x.leaves := by
  obtain ⟨fields, rfl⟩ := h.next.exists_fields
  obtain ⟨i, hi⟩ := List.mem_iff_getElem?.mp hu
  obtain ⟨x, hx, hxstate, hsub⟩ := h.next.block_sub h.ok h.noArrays (h.next_symbols (B := B) hnext) hi htype
  refine ⟨x, orig_field h.ok (orig_nextState hnext) hi hx, hxstate, ?_⟩
  have hnames : FuncSetting.subNames dts u.internalName n nextStateName =
      ((constructFlattenDatatype dts).names n).map fun a =>
        stNameAddSuffix (stNameAddPrefix a (instPrefix u.internalName)) nextSuffix := by
    refine List.map_congr_left fun a ha => ?_
    rw [if_neg (by decide), (h.ok.flat_bars a ha).suffix_addPrefix_eq]
  rw [hnames, List.forall₂_map_left_iff]
  exact hsub

theorem subField_kept (h : FuncSetting dts prev f F G v w) {u s : StateVar} {n : YName} (hu : u ∈ dts.vars f.module)
    (htype : u.type = .datatype n) (hs : s ∈ dts.vars n) (hstype : ∀ n', s.type ≠ .datatype n')
    (hfirst : (bodyCtx dts prev f).FieldsFirst (bodyLeaves none body))
    (huse : (some s.internalName, [u.internalName, stateName]) ∈ bodyLeaves none body) :
    BodyKept B dts prev f F G v w body (.list [.atom s.internalName, .list [.atom u.internalName, .atom stateName]]) := by
  have hname : s.internalName ∈ dts.names n := List.mem_map_of_mem hs
  have hkey : (bodyCtx dts prev f).key (some s.internalName, [u.internalName, stateName]) =
      some (.special s.internalName u.internalName) := by
    rw [h.key_sub hu htype, if_pos hname]
  have hmem := mem_sortedKeys.mpr (BodyCtx.special_mem_keysOf hfirst huse hkey)
  refine ⟨_, BodyCtx.replaceSeq_subField hmem fun l₁ l₂ heq => sortedKeys_before hfirst heq, ?_⟩
  obtain ⟨x, hinner, hxstate, hsub⟩ := sub_symbols (B := B) h hu htype
  obtain ⟨fields, rfl⟩ := hxstate.exists_fields
  obtain ⟨j, hj⟩ := List.mem_iff_getElem?.mp hs
  obtain ⟨b, hb, hsym⟩ := hxstate.block_base h.ok h.noArrays hsub hj hstype
  rw [orig_field h.ok hinner hj hb, SExp.eval, hsym, Option.map_some]

theorem subCall_kept (h : FuncSetting dts prev f F G v w) {u : StateVar} {g : YFunc} (hu : u ∈ dts.vars f.module)
    (htype : u.type = .datatype g.module) (hg : g ∈ prev) {l : List YName} {x y : YVal} (hx : IsState dts g.module x)
    (hy : IsState dts g.module y)
    (hargs : SExp.evalList (origInterp B dts F (f.states v w)) (l.map fun a => .list [.atom u.internalName, .atom a]) =
      some (g.states x y))
    (hnames : List.Forall₂ (fun a b => (FuncSetting.flat B dts f G v w).sym a = some b)
      (l.flatMap (FuncSetting.subNames dts u.internalName g.module)) ((g.states x y).flatMap YVal.leaves))
    (hmem : ∀ a ∈ l, .leaf u.internalName a ∈ (bodyCtx dts prev f).sortedKeys body) :
    BodyKept B dts prev f F G v w body
      (.list (.atom g.name :: l.map fun a => .list [.atom u.internalName, .atom a])) := by
  refine ⟨.list (.atom g.name :: (l.flatMap (FuncSetting.subNames dts u.internalName g.module)).map .atom), ?_,
    h.call hg hx hy hargs hnames⟩
  exact BodyCtx.replaceSeq_subCall (sortedKeys_entered body) (h.fields g hg) (fun a _ => h.result_sub hu htype)
    (fun a _ => h.subNames_bars u.internalName g.module a) hmem

theorem WfBody.kept (h : FuncSetting dts prev f F G v w)
    (hfirst : (bodyCtx dts prev f).FieldsFirst (bodyLeaves none body)) {e : SExp}
    (he : WfBody dts prev f.module f.hasNext e) :
    ∀ o, bodyLeaves o e ⊆ bodyLeaves none body → BodyKept B dts prev f F G v w body e := by
  have hleaf : ∀ {x : Option YName × List YName} {p a : YName}, x ∈ bodyLeaves none body →
      (bodyCtx dts prev f).key x = some (.leaf p a) → .leaf p a ∈ (bodyCtx dts prev f).sortedKeys body :=
    fun hx hkey => mem_sortedKeys.mpr (BodyCtx.leaf_mem_keysOf hx hkey)
  induction he with
  | @sym s hquoted hstate hnext =>
    intro o _
    refine ⟨.atom s, BodyCtx.replaceSeq_token s, ?_⟩
    rw [SExp.eval, SExp.eval, h.sym_other hquoted, origInterp]
    dsimp only
    rw [if_neg hstate, if_neg hnext]
  | op hfun hfield _ ih =>
    intro o hsub
    refine op_kept h hfun hfield fun a ha => ?_
    obtain ⟨o', ho'⟩ := bodyLeaves_mem (List.mem_cons_of_mem _ ha) o
    exact ih a ha o' (List.Subset.trans ho' hsub)
  | idx hfun hfield _ ih =>
    intro o hsub
    refine idx_kept hfun hfield fun a ha => ?_
    obtain ⟨o', ho'⟩ := bodyLeaves_mem (List.mem_cons_of_mem _ ha) o
    exact ih a ha o' (List.Subset.trans ho' hsub)
  | @own u hu htype =>
    intro o hsub
    have huse : (o, [u.internalName, stateName]) ∈ bodyLeaves none body := hsub List.mem_cons_self
    exact own_kept h h.now orig_state hu htype h.now_symbols (r := id) rfl (h.result_own hu htype)
      (hleaf huse (h.key_own hu htype o))
  | @ownNext u hnext hu htype =>
    intro o hsub
    have huse : (o, [u.internalName, nextStateName]) ∈ bodyLeaves none body := hsub List.mem_cons_self
    exact own_kept h h.next (orig_nextState hnext) hu htype (h.next_symbols hnext)
      (r := fun n => stNameAddSuffix n nextSuffix) rfl (h.result_ownNext hu htype)
      (hleaf huse (h.key_next hnext hu o))
  | @call g hg hm hone =>
    intro o hsub
    have huse : (o, [g.name, stateName]) ∈ bodyLeaves none body := hsub List.mem_cons_self
    exact call_kept h hg hm hone (hleaf huse (FuncSetting.key_call hg o))
  | @subField u s n hu htype hs hstype =>
    intro o hsub
    exact subField_kept h hu htype hs hstype hfirst (hsub List.mem_cons_self)
  | @subCall u g hu htype hg hone =>
    intro o hsub
    have huse : (some g.name, [u.internalName, stateName]) ∈ bodyLeaves none body := hsub List.mem_cons_self
    obtain ⟨x, hx, hxstate, hnames⟩ := sub_symbols (B := B) h hu htype
    have hstates : g.states x x = [x] := by rw [YFunc.states, hone]; rfl
    refine subCall_kept h hu htype hg (l := [stateName]) hxstate hxstate ?_ ?_ ?_
    · rw [List.map_singleton, SExp.evalList, hx, hstates]
      rfl
    · rw [hstates, List.flatMap_singleton, List.flatMap_singleton, FuncSetting.subNames, List.forall₂_map_left_iff]
      exact hnames
    · intro a ha
      rw [List.mem_singleton.mp ha]
      exact hleaf huse (by rw [h.key_sub hu htype, if_neg (h.fields g hg _)])
  | @subCallNext u g hnext hu htype hg htwo =>
    intro o hsub
    have huse : (some g.name, [u.internalName, stateName]) ∈ bodyLeaves none body := hsub List.mem_cons_self
    have huse' : (none, [u.internalName, nextStateName]) ∈ bodyLeaves none body :=
      hsub (List.mem_cons_of_mem _ List.mem_cons_self)
    obtain ⟨x, hx, hxstate, hnames⟩ := sub_symbols (B := B) h hu htype
    obtain ⟨y, hy, hystate, hnames'⟩ := subNext_symbols (B := B) h hnext hu htype
    have hstates : g.states x y = [x, y] := by rw [YFunc.states, htwo]; rfl
    refine subCall_kept h hu htype hg (l := [stateName, nextStateName]) hxstate hystate ?_ ?_ ?_
    · rw [List.map_cons, List.map_singleton, SExp.evalList, SExp.evalList, hx, hy, hstates]
      rfl
    · simp only [hstates, List.flatMap_cons, List.flatMap_nil, List.append_nil]
      refine List.rel_append ?_ hnames'
      rw [FuncSetting.subNames, List.forall₂_map_left_iff]
      exact hnames
    · intro a ha
      rcases List.mem_cons.mp ha with rfl | ha
      · exact hleaf huse (by rw [h.key_sub hu htype, if_neg (h.fields g hg _)])
      · rw [List.mem_singleton.mp ha]
        exact hleaf huse' (h.key_next hnext hu none)

end Body

/-! ### All functions -/

section Functions

variable {B : SExp.Interp Smt.Value} {dts : Datatypes} {prev : List YFunc} {f : YFunc} {F : FuncEnv YVal}
  {G : FuncEnv Smt.Value}

theorem hasTypes_of_forall₂ {vars : List StateVar} {vals : List Smt.Value}
    (h : List.Forall₂ (fun v b => v.type.has b.sort = true) vars vals) : hasTypes vars vals = true := by
  induction h with
  | nil => rfl
  | cons hv _ ih => rw [hasTypes, hv, ih]; rfl

theorem FuncSetting.hasTypes {v w : YVal} (h : FuncSetting dts prev f F G v w) :
    hasTypes (flatArgs dts f) ((f.states v w).flatMap YVal.leaves) = true := by
  have htypes : ∀ x, IsState dts f.module x → List.Forall₂ (fun v b => v.type.has b.sort = true)
      ((constructFlattenDatatype dts).vars f.module) x.leaves :=
    fun x hx => (hx.types h.ok h.noArrays).imp fun v b hvb => hvb.2
  refine hasTypes_of_forall₂ ?_
  unfold flatArgs replaceAFunc
  dsimp only
  rw [FuncSetting.states_leaves]
  split
  · refine List.rel_append (htypes v h.now) ?_
    rw [List.forall₂_map_left_iff]
    exact htypes w h.next
  · rw [List.append_nil]
    exact htypes v h.now

theorem func_kept {v w : YVal} (h : FuncSetting dts prev f F G v w) (hbody : WfBody dts prev f.module f.hasNext f.body)
    (hfirst : (bodyCtx dts prev f).FieldsFirst (bodyLeaves none f.body)) :
    f.denote B dts F (f.states v w) =
      ((replaceAFunc dts (prev.map YFunc.name) f).denote B G ((f.states v w).flatMap YVal.leaves)).map .base := by
  have hlen : (f.states v w).length = if f.hasNext then 2 else 1 := by
    unfold YFunc.states
    split
    · rfl
    · rfl
  obtain ⟨e', hreplace, hval⟩ := hbody.kept (B := B) h hfirst none (List.Subset.refl _)
  have hflat : (replaceAFunc dts (prev.map YFunc.name) f).body = [e'] := hreplace
  have hargs : (replaceAFunc dts (prev.map YFunc.name) f).args = flatArgs dts f := rfl
  rw [YFunc.denote, if_pos hlen, hval, FlatFunc.denote, hflat, hargs, if_pos h.hasTypes]
  rfl

theorem FuncsMatch.concat (h : FuncsMatch dts prev F G) {p : List YVal → Option YVal}
    {q : List Smt.Value → Option Smt.Value} (hnew : f.name ∉ prev.map YFunc.name)
    (hval : ∀ v w, IsState dts f.module v → IsState dts f.module w →
      p (f.states v w) = (q ((f.states v w).flatMap YVal.leaves)).map .base) :
    FuncsMatch dts (prev ++ [f]) (F ++ [(f.name, p)]) (G ++ [(f.name, q)]) := by
  refine ⟨fun g hg => ?_, fun n hn => ?_⟩
  · rcases List.mem_append.mp hg with hg | hg
    · obtain ⟨p', q', hp, hq, hcall⟩ := h.call g hg
      refine ⟨p', q', ?_, ?_, hcall⟩
      · rw [Entries.lookup_append, hp, Option.some_or]
      · rw [Entries.lookup_append, hq, Option.some_or]
    · rw [List.mem_singleton] at hg
      subst hg
      obtain ⟨hF, hG⟩ := h.other g.name hnew
      refine ⟨p, q, ?_, ?_, hval⟩
      · rw [Entries.lookup_append, hF, Option.none_or, List.lookup_cons, beq_self_eq_true]
      · rw [Entries.lookup_append, hG, Option.none_or, List.lookup_cons, beq_self_eq_true]
  · rw [List.map_append, List.mem_append, not_or] at hn
    obtain ⟨hF, hG⟩ := h.other n hn.1
    have hne : (n == f.name) = false := by
      rw [beq_eq_false_iff_ne]
      exact fun heq => hn.2 (heq ▸ List.mem_singleton_self _)
    refine ⟨?_, ?_⟩
    · rw [Entries.lookup_append, hF, Option.none_or, List.lookup_cons, hne, List.lookup_nil]
    · rw [Entries.lookup_append, hG, Option.none_or, List.lookup_cons, hne, List.lookup_nil]

theorem funcs_match {all : List YFunc} (hdesign : YosysDesign dts all) (hclean : CleanFlatten dts all) :
    ∀ fs prev F G, all = prev ++ fs → FuncsMatch dts prev F G →
      FuncsMatch dts all (denoteFuncs B dts F fs) (denoteFlat B G (breakDatatypes dts (prev.map YFunc.name) fs)) := by
  intro fs
  induction fs with
  | nil =>
    intro prev F G hall hmatch
    rw [hall, List.append_nil]
    exact hmatch
  | cons f fs ih =>
    intro prev F G hall hmatch
    have hf : f ∈ all := by
      rw [hall]
      simp
    have hprev : ∀ g ∈ prev, g ∈ all := by
      intro g hg
      rw [hall]
      exact List.mem_append_left _ hg
    have hnew : f.name ∉ prev.map YFunc.name := by
      have hnodup := hdesign.nodup
      rw [hall, List.map_append, List.nodup_append] at hnodup
      exact fun hmem => hnodup.2.2 _ hmem f.name (by simp) rfl
    have hstep := hmatch.concat (f := f) (p := f.denote B dts F)
      (q := (replaceAFunc dts (prev.map YFunc.name) f).denote B G) hnew fun v w hv hw =>
        func_kept ⟨hdesign.ok, hclean.noArrays, fun g hg => hdesign.fields g (hprev g hg), hclean.args f hf, hmatch, hv, hw⟩
          (hdesign.bodies prev f fs hall) (hclean.first prev f fs hall)
    have hrun := ih (prev ++ [f]) _ _ (by rw [hall, List.append_assoc, List.singleton_append]) hstep
    rw [List.map_append, List.map_singleton] at hrun
    exact hrun

end Functions

/-- Every function has the same value on a state as its flattened form has on the registers of the state. -/
def FlattenPreserves (B : SExp.Interp Smt.Value) (dts : Datatypes) (fs : List YFunc) : Prop :=
  ∀ f ∈ fs, ∃ φ ψ, (denoteFuncs B dts [] fs).lookup f.name = some φ ∧
    (denoteFlat B [] (breakDatatypes dts [] fs)).lookup f.name = some ψ ∧
    ∀ v w, IsState dts f.module v → IsState dts f.module w →
      φ (f.states v w) = (ψ ((f.states v w).flatMap YVal.leaves)).map .base

/-- Flattening preserves every function, if every register of an instance is replaced before the instance is, and the
flattened registers keep their types and have names of their own. -/
theorem breakDatatypes_preserves (B : SExp.Interp Smt.Value) {dts : Datatypes} {fs : List YFunc}
    (hdesign : YosysDesign dts fs) (hclean : CleanFlatten dts fs) : FlattenPreserves B dts fs :=
  (funcs_match hdesign hclean fs [] [] [] rfl ⟨fun _ hg => absurd hg List.not_mem_nil, fun _ _ => ⟨rfl, rfl⟩⟩).call

/-! ### A module and its instance -/

def coreName : YName := "core".toList

/-- A module with one field, and a module with an instance `u` of it. -/
def coreDatatypes (top : YName) : Datatypes :=
  [(coreName, [⟨"|core_is|".toList, .bool⟩]),
    (top, [⟨'|' :: top ++ "_is|".toList, .bool⟩, ⟨'|' :: top ++ "_h u|".toList, .datatype coreName⟩])]

def coreFunc : YFunc := ⟨"|core_h|".toList, coreName, false, .list [.atom "|core_is|".toList, .atom stateName]⟩

/-- The hierarchy function that Yosys writes: the instance is as its module says, and so is its inside. -/
def topFunc (top : YName) : YFunc where
  name := '|' :: top ++ "_h|".toList
  module := top
  hasNext := false
  body := .list [.atom "and".toList,
    .list [.atom "=".toList, .list [.atom ('|' :: top ++ "_is|".toList), .atom stateName],
      .list [.atom "|core_is|".toList, .list [.atom ('|' :: top ++ "_h u|".toList), .atom stateName]]],
    .list [.atom "|core_h|".toList, .list [.atom ('|' :: top ++ "_h u|".toList), .atom stateName]]]

def coreFuncs (top : YName) : List YFunc := [coreFunc, topFunc top]

/-- The operators that the functions use. -/
def boolOps : SExp.Interp Smt.Value where
  sym _ := none
  app f vs :=
    match vs with
    | [.bool a, .bool b] =>
      if f = "and".toList then some (.bool (a && b)) else if f = "=".toList then some (.bool (a == b)) else none
    | _ => none
  idx _ _ := none

def topName : YName := "top".toList

def aluName : YName := "alu".toList

theorem coreDatatypes_vars (top m : YName) : (coreDatatypes top).vars m =
    if m = coreName then [⟨"|core_is|".toList, .bool⟩]
    else if m = top then [⟨'|' :: top ++ "_is|".toList, .bool⟩, ⟨'|' :: top ++ "_h u|".toList, .datatype coreName⟩]
    else [] := by
  unfold Datatypes.vars coreDatatypes
  rw [List.lookup_cons]
  by_cases hcore : m = coreName
  · rw [hcore, beq_self_eq_true, if_pos rfl]
    rfl
  · rw [beq_false_of_ne hcore, if_neg hcore, List.lookup_cons]
    by_cases htop : m = top
    · rw [htop, beq_self_eq_true, if_pos rfl]
      rfl
    · rw [beq_false_of_ne htop, if_neg htop]
      rfl

theorem coreDatatypes_forall {top : YName} {P : List StateVar → Prop} (hnil : P [])
    (hcore : P ((coreDatatypes top).vars coreName)) (htop : P ((coreDatatypes top).vars top)) :
    ∀ m, P ((coreDatatypes top).vars m) := by
  intro m
  by_cases hm : m = coreName
  · rwa [hm]
  · by_cases hm' : m = top
    · rwa [hm']
    · rwa [coreDatatypes_vars, if_neg hm, if_neg hm']

theorem coreDesign {top : YName} (h : top = topName ∨ top = aluName) : YosysDesign (coreDatatypes top) (coreFuncs top) := by
  have hfield : ∀ {f : YName}, f ∉ ((coreDatatypes top).vars coreName).map StateVar.internalName →
      f ∉ ((coreDatatypes top).vars top).map StateVar.internalName → ∀ m, f ∉ (coreDatatypes top).names m :=
    fun hcore htop => coreDatatypes_forall (P := fun vars => _ ∉ vars.map StateVar.internalName) (by simp) hcore htop
  have hcoreVar : ⟨"|core_is|".toList, .bool⟩ ∈ (coreDatatypes top).vars coreName := List.mem_cons_self
  refine ⟨⟨?_, ?_, ?_, ?_⟩, ?_, ?_, ?_⟩
  · rcases h with rfl | rfl
    · decide
    · decide
  · intro pre m vars post heq v hv n hn
    rcases pre with _ | ⟨a, _ | ⟨b, pre⟩⟩
    · cases heq
      rw [List.mem_singleton] at hv
      rw [hv] at hn
      cases hn
    · cases heq
      rcases List.mem_cons.mp hv with rfl | hv
      · cases hn
      · rw [List.mem_singleton.mp hv] at hn
        cases hn
        exact List.mem_cons_self
    · have hlen := congrArg List.length heq
      simp [coreDatatypes] at hlen
  · refine coreDatatypes_forall (P := fun vars => (vars.map StateVar.internalName).Nodup) List.nodup_nil ?_ ?_
    · rcases h with rfl | rfl
      · decide
      · decide
    · rcases h with rfl | rfl
      · decide
      · decide
  · refine coreDatatypes_forall
      (P := fun vars => ∀ n ∈ vars.map StateVar.internalName, isQuoted n = true ∧ 2 ≤ n.length) (by simp) ?_ ?_
    · rcases h with rfl | rfl
      · decide
      · decide
    · rcases h with rfl | rfl
      · decide
      · decide
  · rcases h with rfl | rfl
    · decide
    · decide
  · intro f hf
    rcases List.mem_cons.mp hf with rfl | hf
    · rcases h with rfl | rfl
      · exact hfield (by decide) (by decide)
      · exact hfield (by decide) (by decide)
    · rw [List.mem_singleton.mp hf]
      rcases h with rfl | rfl
      · exact hfield (by decide) (by decide)
      · exact hfield (by decide) (by decide)
  · intro pre f post heq
    rcases pre with _ | ⟨a, _ | ⟨b, pre⟩⟩
    · cases heq
      exact .own (v := ⟨"|core_is|".toList, .bool⟩) hcoreVar fun n hn => by cases hn
    · cases heq
      refine .op (by decide) ?_ fun a ha => ?_
      · rcases h with rfl | rfl
        · exact hfield (by decide) (by decide)
        · exact hfield (by decide) (by decide)
      rcases List.mem_cons.mp ha with rfl | ha
      · refine .op (by decide) ?_ fun a ha => ?_
        · rcases h with rfl | rfl
          · exact hfield (by decide) (by decide)
          · exact hfield (by decide) (by decide)
        rcases List.mem_cons.mp ha with rfl | ha
        · refine .own (v := ⟨'|' :: top ++ "_is|".toList, .bool⟩) ?_ fun n hn => by cases hn
          rcases h with rfl | rfl
          · decide
          · decide
        · rw [List.mem_singleton.mp ha]
          refine .subField (v := ⟨'|' :: top ++ "_h u|".toList, .datatype coreName⟩) (u := ⟨"|core_is|".toList, .bool⟩) ?_ rfl
            hcoreVar fun n hn => by cases hn
          rcases h with rfl | rfl
          · decide
          · decide
      · rw [List.mem_singleton.mp ha]
        refine .subCall (v := ⟨'|' :: top ++ "_h u|".toList, .datatype coreName⟩) (g := coreFunc) ?_ rfl
          List.mem_cons_self rfl
        rcases h with rfl | rfl
        · decide
        · decide
    · have hlen := congrArg List.length heq
      simp [coreFuncs] at hlen
/-- The texts are in the right order if the name of the module comes after the name of the module of its instance. -/
theorem topClean : CleanFlatten (coreDatatypes topName) (coreFuncs topName) := by
  refine ⟨?_, ?_, ?_, ?_, ?_⟩
  · exact coreDatatypes_forall (P := fun vars => ∀ n ∈ vars.map StateVar.internalName, NoParens n) (by simp) (by decide)
      (by decide)
  · decide
  · refine coreDatatypes_forall (P := fun vars => ∀ v ∈ vars, ∀ widths, v.type ≠ .array widths) (by simp) ?_ ?_
    · intro v hv widths
      rw [List.mem_singleton.mp hv]
      exact fun heq => by cases heq
    · intro v hv widths
      rcases List.mem_cons.mp hv with rfl | hv
      · exact fun heq => by cases heq
      · rw [List.mem_singleton.mp hv]
        exact fun heq => by cases heq
  · decide
  · intro pre f post heq
    rcases pre with _ | ⟨a, _ | ⟨b, pre⟩⟩
    · cases heq
      have huses : bodyLeaves none coreFunc.body = [(none, ["|core_is|".toList, stateName])] := rfl
      have hkey : (bodyCtx (coreDatatypes topName) [] coreFunc).key (none, ["|core_is|".toList, stateName]) =
          some (.leaf "|core_is|".toList stateName) := by decide
      rw [huses]
      refine ⟨fun l₁ x l₂ outer pred hl hspecial _ => ?_, fun x hx y hy outer pred hspecial _ => ?_⟩
      · have hx : x ∈ [(none, ["|core_is|".toList, stateName])] := by rw [hl]; simp
        rw [List.mem_singleton.mp hx, hkey] at hspecial
        cases hspecial
      · rw [List.mem_singleton.mp hx, hkey] at hspecial
        cases hspecial
    · cases heq
      have huses : bodyLeaves none (topFunc topName).body = [(some "=".toList, ["|top_is|".toList, stateName]),
          (some "|core_is|".toList, ["|top_h u|".toList, stateName]),
          (some "|core_h|".toList, ["|top_h u|".toList, stateName])] := rfl
      have hkeys : [(some "=".toList, ["|top_is|".toList, stateName]),
          (some "|core_is|".toList, ["|top_h u|".toList, stateName]),
          (some "|core_h|".toList, ["|top_h u|".toList, stateName])].map
            (bodyCtx (coreDatatypes topName) [coreFunc] (topFunc topName)).key =
          [some (.leaf "|top_is|".toList stateName), some (.special "|core_is|".toList "|top_h u|".toList),
            some (.leaf "|top_h u|".toList stateName)] := by decide
      obtain ⟨hfirst, hkeys⟩ := List.cons_eq_cons.mp hkeys
      obtain ⟨hsecond, hkeys⟩ := List.cons_eq_cons.mp hkeys
      obtain ⟨hthird, -⟩ := List.cons_eq_cons.mp hkeys
      have hx : ∀ x ∈ bodyLeaves none (topFunc topName).body, ∀ outer pred,
          (bodyCtx (coreDatatypes topName) [coreFunc] (topFunc topName)).key x = some (.special outer pred) →
            x = (some "|core_is|".toList, ["|top_h u|".toList, stateName]) ∧ outer = "|core_is|".toList ∧
              pred = "|top_h u|".toList := by
        intro x hx outer pred hspecial
        rw [huses, List.mem_cons, List.mem_cons, List.mem_singleton] at hx
        rcases hx with rfl | rfl | rfl
        · cases hfirst.symm.trans hspecial
        · cases hsecond.symm.trans hspecial
          exact ⟨rfl, rfl, rfl⟩
        · cases hthird.symm.trans hspecial
      refine ⟨fun l₁ x l₂ outer pred hl hspecial hnot y hy hleaf => ?_, fun x hmem y _ outer pred hspecial _ => ?_⟩
      · obtain ⟨rfl, rfl, rfl⟩ := hx x (by rw [hl]; simp) outer pred hspecial
        rw [huses] at hl
        rcases l₁ with _ | ⟨a, _ | ⟨b, l₁⟩⟩
        · cases hy
        · cases hl
          rw [List.mem_singleton] at hy
          rw [hy] at hleaf
          cases hfirst.symm.trans hleaf
        · rw [List.cons_append, List.cons_append, List.cons_eq_cons, List.cons_eq_cons] at hl
          exact hnot (by rw [hl.2.1]; simp)
      · obtain ⟨-, rfl, rfl⟩ := hx x hmem outer pred hspecial
        decide
    · have hlen := congrArg List.length heq
      simp [coreFuncs] at hlen

theorem breakDatatypes_preserves_top : YosysDesign (coreDatatypes topName) (coreFuncs topName) ∧
    CleanFlatten (coreDatatypes topName) (coreFuncs topName) ∧
    FlattenPreserves boolOps (coreDatatypes topName) (coreFuncs topName) :=
  ⟨coreDesign (.inl rfl), topClean, breakDatatypes_preserves boolOps (coreDesign (.inl rfl)) topClean⟩

/-- The state of the instance is replaced first, and what is left is a call of a field. -/
theorem alu_not_preserved : YosysDesign (coreDatatypes aluName) (coreFuncs aluName) ∧
    ¬ FlattenPreserves boolOps (coreDatatypes aluName) (coreFuncs aluName) := by
  refine ⟨coreDesign (.inr rfl), fun h => ?_⟩
  obtain ⟨φ, ψ, hφ, hψ, hval⟩ := h (topFunc aluName) (by simp [coreFuncs])
  have hstate : IsState (coreDatatypes aluName) aluName
      (.st aluName [.base (.bool true), .st coreName [.base (.bool true)]]) := by
    have hcore : IsState (coreDatatypes aluName) coreName (.st coreName [.base (.bool true)]) := by
      refine .mk rfl (fun i v x hv hx _ => ?_) fun i v x n hv hx htype => ?_
      · rcases i with _ | i
        · cases hv
          cases hx
          exact ⟨_, rfl, rfl⟩
        · cases hv
      · rcases i with _ | i
        · cases hv
          cases htype
        · cases hv
    refine .mk rfl (fun i v x hv hx htype => ?_) fun i v x n hv hx htype => ?_
    · rcases i with _ | _ | i
      · cases hv
        cases hx
        exact ⟨_, rfl, rfl⟩
      · cases hv
        exact absurd rfl (htype coreName)
      · cases hv
    · rcases i with _ | _ | i
      · cases hv
        cases htype
      · cases hv
        cases hx
        cases htype
        exact hcore
      · cases hv
  have horig : (((denoteFuncs boolOps (coreDatatypes aluName) [] (coreFuncs aluName)).lookup (topFunc aluName).name).bind
      fun φ => φ [.st aluName [.base (.bool true), .st coreName [.base (.bool true)]]]).isSome = true := by decide
  have hflat : (((denoteFlat boolOps [] (breakDatatypes (coreDatatypes aluName) [] (coreFuncs aluName))).lookup
      (topFunc aluName).name).bind fun ψ => ψ [.bool true, .bool true]).isSome = false := by decide
  rw [hφ, Option.bind_some] at horig
  rw [hψ, Option.bind_some] at hflat
  have heq := congrArg Option.isSome (hval _ _ hstate hstate)
  rw [Option.isSome_map] at heq
  exact absurd (horig.symm.trans (heq.trans hflat)) (by decide)

end Ilang
