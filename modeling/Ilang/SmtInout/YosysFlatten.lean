import Ilang.SmtInout.YosysSmt
import Ilang.Util.Container
import Mathlib.Data.List.Flatten

/-!
# Flattened functions

A flattened function applied to the registers of a state is the function applied to the state, if the replacements of its body
do not get in each other's way: the register of an instance is replaced before the state of the instance is, which needs its
text to come first in the body and in the order of texts. Then every replacement is made as if it were the only one, and the
value follows by induction over the body, and over the functions of the design.
-/

namespace Ilang

/-! ### Designs -/

/-- A design as Yosys writes it: modules with names of their own, whose instances are of modules before, and whose fields
have names of their own in bars. -/
structure DesignOk (dts : Datatypes) : Prop where
  nodup : (dts.map Prod.fst).Nodup
  earlier : ∀ pre m vars post, dts = pre ++ (m, vars) :: post → ∀ v ∈ vars, ∀ n, v.type = .datatype n → n ∈ pre.map Prod.fst
  fields : ∀ m, (dts.names m).Nodup
  quoted : ∀ m, ∀ n ∈ dts.names m, isQuoted n = true ∧ 2 ≤ n.length

/-- The values that are states of a module. -/
inductive IsState (dts : Datatypes) : YName → YVal → Prop where
  | mk {m : YName} {fields : List YVal} (hlen : (dts.vars m).length = fields.length)
      (hbase : ∀ (i : Nat) (v : StateVar) (x : YVal), (dts.vars m)[i]? = some v → fields[i]? = some x →
        (∀ n, v.type ≠ YType.datatype n) → ∃ b, x = YVal.base b ∧ v.type.has b.sort = true)
      (hsub : ∀ (i : Nat) (v : StateVar) (x : YVal) (n : YName), (dts.vars m)[i]? = some v → fields[i]? = some x →
        v.type = YType.datatype n → IsState dts n x) :
      IsState dts m (.st m fields)

/-- No register is an array. -/
def NoArrays (dts : Datatypes) : Prop := ∀ m, ∀ v ∈ dts.vars m, ∀ widths, v.type ≠ .array widths

theorem YVal.leavesList_eq (vs : List YVal) : YVal.leavesList vs = vs.flatMap YVal.leaves := by
  induction vs with
  | nil => rfl
  | cons v vs ih => rw [YVal.leavesList, ih, List.flatMap_cons]

/-! ### Blocks -/

section Blocks

variable {α β γ δ : Type} {R : γ → δ → Prop} {f : α → List γ} {g : β → List δ} {as : List α} {bs : List β}

theorem forall₂_flatMap (h : List.Forall₂ (fun a b => List.Forall₂ R (f a) (g b)) as bs) :
    List.Forall₂ R (as.flatMap f) (bs.flatMap g) := by
  induction h with
  | nil => exact .nil
  | cons hab _ ih =>
    rw [List.flatMap_cons, List.flatMap_cons]
    exact List.rel_append hab ih

theorem forall₂_of_flatMap (hlen : List.Forall₂ (fun a b => (f a).length = (g b).length) as bs)
    (h : List.Forall₂ R (as.flatMap f) (bs.flatMap g)) : List.Forall₂ (fun a b => List.Forall₂ R (f a) (g b)) as bs := by
  induction hlen with
  | nil => exact .nil
  | @cons a b as bs hab _ ih =>
    rw [List.flatMap_cons, List.flatMap_cons] at h
    have htake := List.forall₂_take (f a).length h
    have hdrop := List.forall₂_drop (f a).length h
    rw [List.take_left, hab, List.take_left] at htake
    rw [List.drop_left, hab, List.drop_left] at hdrop
    exact .cons htake (ih hdrop)

theorem forall₂_of_getElem? {S : α → β → Prop} (hlen : as.length = bs.length)
    (h : ∀ (i : Nat) (a : α) (b : β), as[i]? = some a → bs[i]? = some b → S a b) : List.Forall₂ S as bs := by
  rw [List.forall₂_iff_get]
  exact ⟨hlen, fun i hi hi' => h i _ _ (List.getElem?_eq_getElem hi) (List.getElem?_eq_getElem hi')⟩

theorem Forall₂.getElem? {S : α → β → Prop} (h : List.Forall₂ S as bs) {i : Nat} {a : α} {b : β} (ha : as[i]? = some a)
    (hb : bs[i]? = some b) : S a b := by
  obtain ⟨hi, rfl⟩ := List.getElem?_eq_some_iff.mp ha
  obtain ⟨hi', rfl⟩ := List.getElem?_eq_some_iff.mp hb
  exact (List.forall₂_iff_get.mp h).2 i hi hi'

end Blocks

/-! ### Flattened modules -/

theorem construct_concat (dts : Datatypes) (d : YName × List StateVar) :
    constructFlattenDatatype (dts ++ [d]) =
      constructFlattenDatatype dts ++ [(d.1, d.2.flatMap (flattenVar (constructFlattenDatatype dts)))] := by
  rw [constructFlattenDatatype, List.foldl_append]
  rfl

theorem construct_names (dts : Datatypes) : (constructFlattenDatatype dts).map Prod.fst = dts.map Prod.fst := by
  induction dts using List.reverseRecOn with
  | nil => rfl
  | append_singleton dts d ih =>
    rw [construct_concat, List.map_append, List.map_append, ih]
    rfl

theorem construct_append (dts post : Datatypes) : ∃ rest, constructFlattenDatatype (dts ++ post) =
    constructFlattenDatatype dts ++ rest := by
  induction post using List.reverseRecOn with
  | nil => exact ⟨[], by rw [List.append_nil, List.append_nil]⟩
  | append_singleton post d ih =>
    obtain ⟨rest, ih⟩ := ih
    rw [← List.append_assoc, construct_concat]
    refine ⟨rest ++ [(d.1, d.2.flatMap (flattenVar (constructFlattenDatatype (dts ++ post))))], ?_⟩
    rw [← List.append_assoc, ← ih]

theorem vars_append {dts rest : Datatypes} {m : YName} (h : m ∈ dts.map Prod.fst) :
    Datatypes.vars (dts ++ rest) m = dts.vars m := by
  obtain ⟨vars, hvars⟩ := Entries.exists_lookup h
  rw [Datatypes.vars, Datatypes.vars, Entries.lookup_append, hvars, Option.some_or]

theorem construct_vars {dts : Datatypes} (hok : DesignOk dts) (m : YName) : (constructFlattenDatatype dts).vars m =
    (dts.vars m).flatMap (flattenVar (constructFlattenDatatype dts)) := by
  by_cases hm : m ∈ dts.map Prod.fst
  · obtain ⟨d, hd, rfl⟩ := List.mem_map.mp hm
    obtain ⟨pre, post, rfl⟩ := List.append_of_mem hd
    have hnodup := hok.nodup
    rw [List.map_append, List.map_cons, List.nodup_append] at hnodup
    have hpre : d.1 ∉ pre.map Prod.fst := fun hmem => hnodup.2.2 _ hmem _ List.mem_cons_self rfl
    have hvars : Datatypes.vars (pre ++ d :: post) d.1 = d.2 := by
      rw [Datatypes.vars, Entries.lookup_of_mem hok.nodup hd]
      rfl
    have hmem : d.1 ∈ (constructFlattenDatatype (pre ++ [d])).map Prod.fst := by
      rw [construct_names]
      simp
    obtain ⟨rest, hrest⟩ := construct_append (pre ++ [d]) post
    rw [List.append_assoc, List.singleton_append] at hrest
    rw [hvars]
    have hflat : (constructFlattenDatatype (pre ++ d :: post)).vars d.1 =
        d.2.flatMap (flattenVar (constructFlattenDatatype pre)) := by
      rw [hrest, vars_append hmem, construct_concat, Datatypes.vars, Entries.lookup_append,
        Entries.lookup_eq_none_iff.mpr (by rwa [construct_names]), Option.none_or, List.lookup_cons, beq_self_eq_true]
      rfl
    rw [hflat]
    refine List.flatMap_congr fun v hv => ?_
    unfold flattenVar
    cases htype : v.type with
    | datatype n =>
      have hn := hok.earlier pre d.1 d.2 post rfl v hv n htype
      obtain ⟨rest', hrest'⟩ := construct_append pre (d :: post)
      dsimp only
      rw [hrest', vars_append (by rwa [construct_names])]
    | bool => rfl
    | bv w => rfl
    | array widths => rfl
  · rw [Datatypes.vars, Datatypes.vars, Entries.lookup_eq_none_iff.mpr (by rwa [construct_names]),
      Entries.lookup_eq_none_iff.mpr hm]
    rfl

/-! ### Leaves of a state -/

section Leaves

variable {dts : Datatypes} {m : YName} {fields : List YVal}

theorem IsState.length (h : IsState dts m (.st m fields)) : (dts.vars m).length = fields.length := by
  cases h with
  | mk hlen _ _ => exact hlen

theorem IsState.base (h : IsState dts m (.st m fields)) {i : Nat} {v : StateVar} {x : YVal} (hv : (dts.vars m)[i]? = some v)
    (hx : fields[i]? = some x) (htype : ∀ n, v.type ≠ .datatype n) : ∃ b, x = .base b ∧ v.type.has b.sort = true := by
  cases h with
  | mk _ hbase _ => exact hbase i v x hv hx htype

theorem IsState.sub (h : IsState dts m (.st m fields)) {i : Nat} {v : StateVar} {x : YVal} {n : YName}
    (hv : (dts.vars m)[i]? = some v) (hx : fields[i]? = some x) (htype : v.type = .datatype n) : IsState dts n x := by
  cases h with
  | mk _ _ hsub => exact hsub i v x n hv hx htype

theorem IsState.exists_fields {x : YVal} (h : IsState dts m x) : ∃ fields, x = .st m fields := by
  cases h with
  | mk _ _ _ => exact ⟨_, rfl⟩

theorem YType.copy_eq {t : YType} (h : ∀ widths, t ≠ .array widths) : t.copy = t := by
  cases t with
  | array widths => exact absurd rfl (h widths)
  | bool => rfl
  | bv w => rfl
  | datatype n => rfl

theorem flattenVar_base {flat : Datatypes} {v : StateVar} (htype : ∀ n, v.type ≠ .datatype n) :
    flattenVar flat v = [⟨v.internalName, v.type.copy⟩] := by
  unfold flattenVar
  cases hv : v.type with
  | datatype n => exact absurd hv (htype n)
  | bool => rfl
  | bv w => rfl
  | array widths => rfl

theorem flattenVar_datatype {flat : Datatypes} {v : StateVar} {n : YName} (htype : v.type = .datatype n) :
    flattenVar flat v =
      (flat.vars n).map fun u => ⟨stNameAddPrefix u.internalName (instPrefix v.internalName), u.type.copy⟩ := by
  rw [flattenVar, htype]

theorem YType.copy_copy {t : YType} : t.copy.copy = t.copy := by
  cases t with
  | bool => rfl
  | bv w => rfl
  | array widths => rfl
  | datatype n => rfl

theorem IsState.types (hok : DesignOk dts) (hno : NoArrays dts) {x : YVal} (h : IsState dts m x) :
    List.Forall₂ (fun v b => v.type.copy = v.type ∧ v.type.has b.sort = true) ((constructFlattenDatatype dts).vars m)
      x.leaves := by
  induction h with
  | @mk m fields hlen hbase hsub ih =>
    rw [construct_vars hok, YVal.leaves, YVal.leavesList_eq]
    refine forall₂_flatMap (forall₂_of_getElem? hlen fun i v x hv hx => ?_)
    by_cases htype : ∃ n, v.type = .datatype n
    · obtain ⟨n, htype⟩ := htype
      rw [flattenVar_datatype htype, List.forall₂_map_left_iff]
      refine (ih i v x n hv hx htype).imp fun u b hub => ⟨YType.copy_copy, ?_⟩
      rw [hub.1]
      exact hub.2
    · have htype : ∀ n, v.type ≠ .datatype n := fun n heq => htype ⟨n, heq⟩
      obtain ⟨b, rfl, hb⟩ := hbase i v x hv hx htype
      have hcopy := YType.copy_eq (hno m v (List.mem_of_getElem? hv))
      rw [flattenVar_base htype, hcopy]
      exact .cons ⟨hcopy, hb⟩ .nil

theorem IsState.block (hok : DesignOk dts) (hno : NoArrays dts) (h : IsState dts m (.st m fields))
    {R : YName → Smt.Value → Prop}
    (hR : List.Forall₂ R ((constructFlattenDatatype dts).names m) (YVal.st m fields).leaves) {i : Nat} {v : StateVar} {x : YVal}
    (hv : (dts.vars m)[i]? = some v) (hx : fields[i]? = some x) :
    List.Forall₂ R ((flattenVar (constructFlattenDatatype dts) v).map StateVar.internalName) x.leaves := by
  rw [Datatypes.names, construct_vars hok, List.map_flatMap, YVal.leaves, YVal.leavesList_eq] at hR
  have hlen : List.Forall₂ (fun v x => ((flattenVar (constructFlattenDatatype dts) v).map StateVar.internalName).length =
      (YVal.leaves x).length) (dts.vars m) fields := by
    refine forall₂_of_getElem? h.length fun i v x hv hx => ?_
    rw [List.length_map]
    by_cases htype : ∃ n, v.type = .datatype n
    · obtain ⟨n, htype⟩ := htype
      rw [flattenVar_datatype htype, List.length_map]
      exact ((h.sub hv hx htype).types hok hno).length_eq
    · have htype : ∀ n, v.type ≠ .datatype n := fun n heq => htype ⟨n, heq⟩
      obtain ⟨b, rfl, -⟩ := h.base hv hx htype
      rw [flattenVar_base htype]
      rfl
  exact Forall₂.getElem? (forall₂_of_flatMap hlen hR) hv hx

theorem IsState.block_base (hok : DesignOk dts) (hno : NoArrays dts) (h : IsState dts m (.st m fields))
    {R : YName → Smt.Value → Prop}
    (hR : List.Forall₂ R ((constructFlattenDatatype dts).names m) (YVal.st m fields).leaves) {i : Nat} {v : StateVar}
    (hv : (dts.vars m)[i]? = some v) (htype : ∀ n, v.type ≠ .datatype n) :
    ∃ b, fields[i]? = some (.base b) ∧ R v.internalName b := by
  obtain ⟨hi, -⟩ := List.getElem?_eq_some_iff.mp hv
  have hx := List.getElem?_eq_getElem (h.length ▸ hi)
  obtain ⟨b, hb, -⟩ := h.base hv hx htype
  have hblock := h.block hok hno hR hv hx
  rw [flattenVar_base htype, hb] at hblock
  cases hblock with
  | cons hname _ => exact ⟨b, by rw [hx, hb], hname⟩

theorem IsState.block_sub (hok : DesignOk dts) (hno : NoArrays dts) (h : IsState dts m (.st m fields))
    {R : YName → Smt.Value → Prop}
    (hR : List.Forall₂ R ((constructFlattenDatatype dts).names m) (YVal.st m fields).leaves) {i : Nat} {v : StateVar}
    {n : YName} (hv : (dts.vars m)[i]? = some v) (htype : v.type = .datatype n) :
    ∃ x, fields[i]? = some x ∧ IsState dts n x ∧
      List.Forall₂ (fun u => R (stNameAddPrefix u (instPrefix v.internalName))) ((constructFlattenDatatype dts).names n)
        x.leaves := by
  obtain ⟨hi, -⟩ := List.getElem?_eq_some_iff.mp hv
  have hx := List.getElem?_eq_getElem (h.length ▸ hi)
  have hblock := h.block hok hno hR hv hx
  rw [flattenVar_datatype htype, List.map_map, List.forall₂_map_left_iff] at hblock
  refine ⟨_, hx, h.sub hv hx htype, ?_⟩
  rw [Datatypes.names, List.forall₂_map_left_iff]
  exact hblock

end Leaves

/-! ### Names -/

section Names

variable {n pre suffix : YName}

theorem exists_of_quoted (hq : isQuoted n = true) (hlen : 2 ≤ n.length) : ∃ mid, n = '|' :: mid ++ ['|'] := by
  rw [isQuoted, Bool.and_eq_true, beq_iff_eq, beq_iff_eq] at hq
  cases n with
  | nil => cases hq.1
  | cons a n =>
    have hne : n ≠ [] := by
      intro hnil
      rw [hnil] at hlen
      exact absurd hlen (by simp)
    have ha : a = '|' := Option.some.inj hq.1
    have hlast := hq.2
    rw [List.getLast?_cons, List.getLast?_eq_some_getLast hne] at hlast
    refine ⟨n.dropLast, ?_⟩
    rw [ha, List.cons_append, show ['|'] = [n.getLast hne] from congrArg (fun c => [c]) (Option.some.inj hlast).symm,
      List.dropLast_append_getLast hne]

theorem isQuoted_bars (mid : YName) : isQuoted ('|' :: mid ++ ['|']) = true := by
  rw [isQuoted, List.cons_append, List.head?_cons, ← List.cons_append, List.getLast?_concat]
  rfl

theorem stNameAddPrefix_bars (hpre : pre ≠ []) (mid : YName) :
    stNameAddPrefix ('|' :: mid ++ ['|']) pre = '|' :: (pre ++ mid) ++ ['|'] := by
  rw [stNameAddPrefix, if_neg hpre, if_pos (isQuoted_bars mid)]
  simp

theorem stNameAddSuffix_bars (hsuf : suffix ≠ []) (mid : YName) :
    stNameAddSuffix ('|' :: mid ++ ['|']) suffix = '|' :: (mid ++ suffix) ++ ['|'] := by
  rw [stNameAddSuffix, if_neg hsuf, if_pos (isQuoted_bars mid), List.dropLast_concat]
  simp

theorem instPrefix_ne_nil (field : YName) : instPrefix field ≠ [] := by simp [instPrefix]

theorem nextSuffix_ne_nil : nextSuffix ≠ [] := by decide

/-- Between bars. -/
def Bars (n : YName) : Prop := ∃ mid, n = '|' :: mid ++ ['|']

theorem Bars.addPrefix (h : Bars n) (field : YName) : Bars (stNameAddPrefix n (instPrefix field)) := by
  obtain ⟨mid, rfl⟩ := h
  exact ⟨_, stNameAddPrefix_bars (instPrefix_ne_nil field) mid⟩

theorem Bars.addSuffix (h : Bars n) : Bars (stNameAddSuffix n nextSuffix) := by
  obtain ⟨mid, rfl⟩ := h
  exact ⟨_, stNameAddSuffix_bars nextSuffix_ne_nil mid⟩

theorem Bars.suffix_addPrefix_eq (h : Bars n) (field : YName) :
    stNameAddSuffix (stNameAddPrefix n (instPrefix field)) nextSuffix =
      stNameAddPrefix (stNameAddSuffix n nextSuffix) (instPrefix field) := by
  obtain ⟨mid, rfl⟩ := h
  rw [stNameAddPrefix_bars (instPrefix_ne_nil field), stNameAddSuffix_bars nextSuffix_ne_nil,
    stNameAddSuffix_bars nextSuffix_ne_nil, stNameAddPrefix_bars (instPrefix_ne_nil field), List.append_assoc]

theorem Bars.isQuoted (h : Bars n) : isQuoted n = true := by
  obtain ⟨mid, rfl⟩ := h
  exact isQuoted_bars mid

theorem Bars.ne_state (h : Bars n) : n ≠ stateName := fun heq => absurd h.isQuoted (by rw [heq]; decide)

theorem Bars.ne_nextState (h : Bars n) : n ≠ nextStateName := fun heq => absurd h.isQuoted (by rw [heq]; decide)

theorem DesignOk.bars {dts : Datatypes} (hok : DesignOk dts) {m : YName} (h : n ∈ dts.names m) : Bars n := by
  obtain ⟨hq, hlen⟩ := hok.quoted m n h
  exact exists_of_quoted hq hlen

theorem DesignOk.flat_bars {dts : Datatypes} (hok : DesignOk dts) {m : YName} :
    ∀ n ∈ (constructFlattenDatatype dts).names m, Bars n := by
  have hlookup : ∀ pre post, dts = pre ++ post → ∀ d ∈ constructFlattenDatatype pre, ∀ v ∈ d.2, Bars v.internalName := by
    intro pre
    induction pre using List.reverseRecOn with
    | nil =>
      intro post _ d hd
      cases hd
    | append_singleton pre e ih =>
      intro post heq d hd v hv
      rw [List.append_assoc, List.singleton_append] at heq
      have ih := ih (e :: post) heq
      rw [construct_concat, List.mem_append, List.mem_singleton] at hd
      rcases hd with hd | rfl
      · exact ih d hd v hv
      · obtain ⟨u, hu, hv⟩ := List.mem_flatMap.mp hv
        by_cases htype : ∃ n, u.type = .datatype n
        · obtain ⟨n, htype⟩ := htype
          rw [flattenVar_datatype htype] at hv
          obtain ⟨w, hw, rfl⟩ := List.mem_map.mp hv
          unfold Datatypes.vars at hw
          cases hlook : (constructFlattenDatatype pre).lookup n with
          | none =>
            rw [hlook] at hw
            cases hw
          | some vars =>
            rw [hlook] at hw
            exact (ih (n, vars) (Entries.mem_of_lookup hlook) w hw).addPrefix u.internalName
        · rw [flattenVar_base fun n heq => htype ⟨n, heq⟩, List.mem_singleton] at hv
          rw [hv]
          have he : e ∈ dts := by
            rw [heq]
            simp
          have hvars : dts.vars e.1 = e.2 := by
            rw [Datatypes.vars, Entries.lookup_of_mem hok.nodup he]
            rfl
          exact hok.bars (List.mem_map.mpr ⟨u, by rw [hvars]; exact hu, rfl⟩)
  intro n hn
  obtain ⟨v, hv, rfl⟩ := List.mem_map.mp hn
  unfold Datatypes.vars at hv
  cases hlook : (constructFlattenDatatype dts).lookup m with
  | none =>
    rw [hlook] at hv
    cases hv
  | some vars =>
    rw [hlook] at hv
    exact hlookup dts [] (List.append_nil _).symm (m, vars) (Entries.mem_of_lookup hlook) v hv

end Names

/-! ### The replacements of a body -/

namespace BodyCtx

variable {c : BodyCtx}

/-- What an innermost list is replaced by, alone. -/
def key (c : BodyCtx) (leaf : Option YName × List YName) : Option ReplKey :=
  match leaf.2 with
  | [pred, arg] =>
    if arg = stateName then
      if pred ∈ c.defined then some (.leaf pred arg)
      else
        match c.stateVar pred with
        | none => none
        | some ⟨_, .datatype m⟩ =>
          match leaf.1 with
          | some outer => if outer ∈ c.dts.names m then some (.special outer pred) else some (.leaf pred arg)
          | none => some (.leaf pred arg)
        | some _ => some (.leaf pred arg)
    else if c.hasNext ∧ arg = nextStateName ∧ (c.stateVar pred).isSome then some (.leaf pred arg)
    else none
  | _ => none

/-- The innermost list of a text. -/
def inner : ReplKey → ReplKey
  | .leaf pred arg => .leaf pred arg
  | .special _ pred => .leaf pred stateName

theorem key_cases {x : Option YName × List YName} {k : ReplKey} (h : c.key x = some k) :
    (∃ pred arg, k = .leaf pred arg ∧ x.2 = [pred, arg] ∧ (arg = stateName ∨ arg = nextStateName) ∧
      (pred ∈ c.defined ∨ (c.stateVar pred).isSome)) ∨
    (∃ outer pred v m, k = .special outer pred ∧ x = (some outer, [pred, stateName]) ∧ c.stateVar pred = some v ∧
      v.type = .datatype m ∧ outer ∈ c.dts.names m) := by
  obtain ⟨o, names⟩ := x
  unfold key at h
  dsimp only at h
  split at h
  · rename_i pred arg
    by_cases harg : arg = stateName
    · subst harg
      rw [if_pos rfl] at h
      by_cases hdef : pred ∈ c.defined
      · rw [if_pos hdef] at h
        exact .inl ⟨pred, stateName, (Option.some.inj h).symm, rfl, .inl rfl, .inl hdef⟩
      · rw [if_neg hdef] at h
        split at h
        · cases h
        · rename_i name m hv
          split at h
          · rename_i outer
            split at h
            · rename_i hmem
              exact .inr ⟨outer, pred, _, m, (Option.some.inj h).symm, rfl, hv, rfl, hmem⟩
            · exact .inl ⟨pred, stateName, (Option.some.inj h).symm, rfl, .inl rfl, .inr (by rw [hv]; rfl)⟩
          · exact .inl ⟨pred, stateName, (Option.some.inj h).symm, rfl, .inl rfl, .inr (by rw [hv]; rfl)⟩
        · rename_i v _ hv
          exact .inl ⟨pred, stateName, (Option.some.inj h).symm, rfl, .inl rfl, .inr (by rw [hv]; rfl)⟩
    · rw [if_neg harg] at h
      split at h
      · rename_i hnext
        exact .inl ⟨pred, arg, (Option.some.inj h).symm, rfl, .inr hnext.2.1, .inr hnext.2.2⟩
      · cases h
  · cases h

theorem key_of_not_pair {x : Option YName × List YName} (h : ∀ pred arg, x.2 ≠ [pred, arg]) : c.key x = none := by
  unfold key
  split
  · rename_i pred arg heq
    exact absurd heq (h pred arg)
  · rfl

theorem register_of_not_pair {x : Option YName × List YName} (h : ∀ pred arg, x.2 ≠ [pred, arg]) (keys : List ReplKey) :
    c.register keys x = keys := by
  unfold register
  split
  · rename_i pred arg heq
    exact absurd heq (h pred arg)
  · rfl

theorem register_of_key {x : Option YName × List YName} {k : ReplKey} {keys : List ReplKey} (h : c.key x = some k) :
    c.register keys x = if inner k ∈ keys ∨ k ∈ keys then keys else keys ++ [k] := by
  obtain ⟨o, names⟩ := x
  by_cases hpair : ∃ pred arg, names = [pred, arg]
  · obtain ⟨pred, arg, rfl⟩ := hpair
    have hinner : inner k = .leaf pred arg := by
      rcases key_cases (x := (o, [pred, arg])) h with ⟨pred', arg', rfl, heq, -⟩ | ⟨outer, pred', v, m, rfl, heq, -⟩
      · cases heq
        rfl
      · cases heq
        rfl
    rw [hinner]
    unfold key at h
    unfold register
    dsimp only at h ⊢
    by_cases hmem : ReplKey.leaf pred arg ∈ keys
    · rw [if_pos hmem, if_pos (.inl hmem)]
    · rw [if_neg hmem]
      by_cases harg : arg = stateName
      · rw [if_pos harg] at h ⊢
        by_cases hdef : pred ∈ c.defined
        · rw [if_pos hdef] at h ⊢
          cases h
          rw [if_neg (by simpa using hmem)]
        · rw [if_neg hdef] at h ⊢
          cases hv : c.stateVar pred with
          | none =>
            rw [hv] at h
            cases h
          | some v =>
            rw [hv] at h
            obtain ⟨name, type⟩ := v
            cases type with
            | datatype m =>
              cases o with
              | none =>
                cases h
                simp [hmem]
              | some outer =>
                dsimp only at h ⊢
                by_cases ho : outer ∈ c.dts.names m
                · rw [if_pos ho] at h ⊢
                  cases h
                  simp [hmem]
                · rw [if_neg ho] at h ⊢
                  cases h
                  simp [hmem]
            | bool =>
              cases h
              simp [hmem]
            | bv w =>
              cases h
              simp [hmem]
            | array widths =>
              cases h
              simp [hmem]
      · rw [if_neg harg] at h ⊢
        split at h
        · rename_i hnext
          cases h
          rw [if_pos hnext, if_neg (by simpa using hmem)]
        · cases h
  · rw [key_of_not_pair fun pred arg heq => hpair ⟨pred, arg, heq⟩] at h
    cases h

theorem register_of_none {x : Option YName × List YName} {keys : List ReplKey} (h : c.key x = none) :
    c.register keys x = keys := by
  obtain ⟨o, names⟩ := x
  by_cases hpair : ∃ pred arg, names = [pred, arg]
  · obtain ⟨pred, arg, rfl⟩ := hpair
    unfold key at h
    unfold register
    dsimp only at h ⊢
    by_cases hmem : ReplKey.leaf pred arg ∈ keys
    · rw [if_pos hmem]
    · rw [if_neg hmem]
      by_cases harg : arg = stateName
      · rw [if_pos harg] at h ⊢
        by_cases hdef : pred ∈ c.defined
        · rw [if_pos hdef] at h
          cases h
        · rw [if_neg hdef] at h ⊢
          cases hv : c.stateVar pred with
          | none => rfl
          | some v =>
            rw [hv] at h
            obtain ⟨name, type⟩ := v
            cases type with
            | datatype m =>
              cases o with
              | none => cases h
              | some outer =>
                dsimp only at h
                split at h
                · cases h
                · cases h
            | bool => cases h
            | bv w => cases h
            | array widths => cases h
      · rw [if_neg harg] at h ⊢
        split at h
        · cases h
        · rename_i hnext
          rw [if_neg hnext]
  · exact register_of_not_pair (fun pred arg heq => hpair ⟨pred, arg, heq⟩) keys

/-- The map after the lists of a body. -/
def keysOf (c : BodyCtx) (uses : List (Option YName × List YName)) : List ReplKey := uses.foldl c.register []

variable {uses : List (Option YName × List YName)} {x : Option YName × List YName} {k : ReplKey}

theorem keysOf_concat (uses : List (Option YName × List YName)) (x : Option YName × List YName) :
    c.keysOf (uses ++ [x]) = c.register (c.keysOf uses) x := by
  rw [keysOf, List.foldl_append]
  rfl

theorem register_subset (keys : List ReplKey) (x : Option YName × List YName) : keys ⊆ c.register keys x := by
  cases hkey : c.key x with
  | none => rw [register_of_none hkey]; exact List.Subset.refl _
  | some k =>
    rw [register_of_key hkey]
    split
    · exact List.Subset.refl _
    · exact List.subset_append_left _ _

theorem keysOf_subset (uses post : List (Option YName × List YName)) : c.keysOf uses ⊆ c.keysOf (uses ++ post) := by
  induction post using List.reverseRecOn with
  | nil => rw [List.append_nil]; exact List.Subset.refl _
  | append_singleton post x ih =>
    rw [← List.append_assoc, keysOf_concat]
    exact List.Subset.trans ih (register_subset _ x)

theorem exists_of_mem_keysOf (h : k ∈ c.keysOf uses) : ∃ x ∈ uses, c.key x = some k := by
  induction uses using List.reverseRecOn with
  | nil => cases h
  | append_singleton uses x ih =>
    rw [keysOf_concat] at h
    have hold : k ∈ c.keysOf uses → ∃ y ∈ uses ++ [x], c.key y = some k := fun hmem => by
      obtain ⟨y, hy, hkey⟩ := ih hmem
      exact ⟨y, List.mem_append_left _ hy, hkey⟩
    cases hkey : c.key x with
    | none =>
      rw [register_of_none hkey] at h
      exact hold h
    | some l =>
      rw [register_of_key hkey] at h
      split at h
      · exact hold h
      · rcases List.mem_append.mp h with h | h
        · exact hold h
        · rw [List.mem_singleton.mp h]
          exact ⟨x, by simp, hkey⟩

theorem leaf_mem_keysOf {pred arg : YName} (hx : x ∈ uses) (hkey : c.key x = some (.leaf pred arg)) :
    .leaf pred arg ∈ c.keysOf uses := by
  obtain ⟨l₁, l₂, rfl⟩ := List.append_of_mem hx
  have hmem : ReplKey.leaf pred arg ∈ c.keysOf (l₁ ++ [x]) := by
    rw [keysOf_concat, register_of_key hkey]
    split
    · rename_i h
      exact h.elim id id
    · simp
  have hsub := keysOf_subset (c := c) (l₁ ++ [x]) l₂ hmem
  rwa [List.append_assoc, List.singleton_append] at hsub

/-- The registers of instances are used before the instances are, in the body and in the order of the texts. -/
structure FieldsFirst (c : BodyCtx) (uses : List (Option YName × List YName)) : Prop where
  first : ∀ l₁ x l₂ outer pred, uses = l₁ ++ x :: l₂ → c.key x = some (.special outer pred) → x ∉ l₁ →
    ∀ y ∈ l₁, c.key y ≠ some (.leaf pred stateName)
  sorted : ∀ x ∈ uses, ∀ y ∈ uses, ∀ outer pred, c.key x = some (.special outer pred) →
    c.key y = some (.leaf pred stateName) → (ReplKey.special outer pred).text < (ReplKey.leaf pred stateName).text

theorem special_mem_keysOf {outer pred : YName} (hfirst : FieldsFirst c uses) (hx : x ∈ uses)
    (hkey : c.key x = some (.special outer pred)) : .special outer pred ∈ c.keysOf uses := by
  obtain ⟨l₁, l₂, rfl, hx₁⟩ := List.eq_append_cons_of_mem hx
  have hmem : ReplKey.special outer pred ∈ c.keysOf (l₁ ++ [x]) := by
    rw [keysOf_concat, register_of_key hkey]
    split
    · rename_i h
      rcases h with h | h
      · obtain ⟨y, hy, hykey⟩ := exists_of_mem_keysOf h
        exact absurd hykey (hfirst.first l₁ x l₂ outer pred rfl hkey hx₁ y hy)
      · exact h
    · simp
  have hsub := keysOf_subset (c := c) (l₁ ++ [x]) l₂ hmem
  rwa [List.append_assoc, List.singleton_append] at hsub

/-! ### The replacements on a term -/

/-- A token that an entry of the map starts with. -/
def head : ReplKey → YName
  | .leaf pred _ => pred
  | .special outer _ => outer

/-- Entries as the map of a body has them. -/
structure Entered (c : BodyCtx) (ks : List ReplKey) : Prop where
  arg : ∀ pred a, .leaf pred a ∈ ks → a = stateName ∨ a = nextStateName
  outer : ∀ q pred, .special q pred ∈ ks → ∃ m, q ∈ c.dts.names m

variable {ks : List ReplKey}

theorem Entered.of_subset {ks' : List ReplKey} (h : Entered c ks) (hsub : ks' ⊆ ks) : Entered c ks' :=
  ⟨fun pred a hmem => h.arg pred a (hsub hmem), fun q pred hmem => h.outer q pred (hsub hmem)⟩

theorem hit_atom (k : ReplKey) (s : YName) : c.hit k (.atom s) = none := by
  cases k with
  | leaf pred arg => rfl
  | special outer pred => rfl

theorem hit_list_list (k : ReplKey) (items rest : List SExp) : c.hit k (.list (.list items :: rest)) = none := by
  cases k with
  | leaf pred arg => rfl
  | special outer pred => rfl

theorem hit_head {f : YName} {rest new : List SExp} (h : c.hit k (.list (.atom f :: rest)) = some new) :
    (∃ a, k = .leaf f a ∧ rest = [.atom a]) ∨ (∃ p, k = .special f p ∧ rest = [.list [.atom p, .atom stateName]]) := by
  unfold hit at h
  split at h
  · rename_i p a heq
    split at h
    · rename_i hpa
      cases heq
      obtain ⟨rfl, rfl⟩ := hpa
      exact .inl ⟨_, rfl, rfl⟩
    · cases h
  · rename_i q p a heq
    split at h
    · rename_i hpa
      cases heq
      obtain ⟨rfl, rfl, rfl⟩ := hpa
      exact .inr ⟨_, rfl, rfl⟩
    · cases h
  · cases h

theorem replaceSeq_token (s : YName) : SExp.replaceSeq (ks.map c.hit) [.atom s] = [.atom s] := by
  refine SExp.replaceSeq_atom fun hit hmem => ?_
  obtain ⟨k, -, rfl⟩ := List.mem_map.mp hmem
  exact hit_atom k s

theorem replaceSeq_tokens (names : List YName) : SExp.replaceSeq (ks.map c.hit) (names.map .atom) = names.map .atom := by
  refine SExp.replaceSeq_atoms fun hit hmem s => ?_
  obtain ⟨k, -, rfl⟩ := List.mem_map.mp hmem
  exact hit_atom k s

theorem replaceSeq_app {f : YName} {args : List SExp}
    (h : ∀ ks₁ k ks₂, ks = ks₁ ++ k :: ks₂ → c.hit k (.list (.atom f :: SExp.replaceSeq (ks₁.map c.hit) args)) = none) :
    SExp.replaceSeq (ks.map c.hit) [.list (.atom f :: args)] =
      [.list (.atom f :: SExp.replaceSeq (ks.map c.hit) args)] := by
  rw [SExp.replaceSeq_list, SExp.replaceSeq_cons, replaceSeq_token]
  · rfl
  · intro hits₁ hit hits₂ heq
    obtain ⟨ks₁, ks', rfl, rfl, hrest⟩ := List.map_eq_append_iff.mp heq
    obtain ⟨k, ks₂, rfl, rfl, rfl⟩ := List.map_eq_cons_iff.mp hrest
    rw [SExp.replaceSeq_cons, replaceSeq_token]
    exact h ks₁ k ks₂ rfl

theorem replaceSeq_op {f : YName} (args : List SExp) (h : ∀ k ∈ ks, head k ≠ f) :
    SExp.replaceSeq (ks.map c.hit) [.list (.atom f :: args)] =
      [.list (.atom f :: SExp.replaceSeq (ks.map c.hit) args)] := by
  refine replaceSeq_app fun ks₁ k ks₂ heq => ?_
  have hk : head k ≠ f := h k (by rw [heq]; simp)
  cases hhit : c.hit k (.list (.atom f :: SExp.replaceSeq (ks₁.map c.hit) args)) with
  | none => rfl
  | some new =>
    rcases hit_head hhit with ⟨a, rfl, -⟩ | ⟨p, rfl, -⟩
    · exact absurd rfl hk
    · exact absurd rfl hk

theorem replaceSeq_idx {f : YName} (ns : List YName) (args : List SExp) (h : ∀ k ∈ ks, head k ≠ f) :
    SExp.replaceSeq (ks.map c.hit) [.list (.list ((f :: ns).map .atom) :: args)] =
      [.list (.list ((f :: ns).map .atom) :: SExp.replaceSeq (ks.map c.hit) args)] := by
  have hindex : ∀ ks' ⊆ ks, SExp.replaceSeq (ks'.map c.hit) (.list ((f :: ns).map .atom) :: args) =
      .list ((f :: ns).map .atom) :: SExp.replaceSeq (ks'.map c.hit) args := by
    intro ks' hsub
    rw [SExp.replaceSeq_cons, List.map_cons, replaceSeq_op _ fun k hk => h k (hsub hk), replaceSeq_tokens]
    rfl
  rw [SExp.replaceSeq_list, hindex ks (List.Subset.refl _)]
  intro hits₁ hit hits₂ heq
  obtain ⟨ks₁, ks', rfl, rfl, hrest⟩ := List.map_eq_append_iff.mp heq
  obtain ⟨k, ks₂, rfl, rfl, rfl⟩ := List.map_eq_cons_iff.mp hrest
  rw [hindex ks₁ (List.subset_append_left _ _)]
  exact hit_list_list k _ _

theorem replaceSeq_call (hent : Entered c ks) (f : YName) {names : List YName} (hnames : ∀ n ∈ names, Bars n) :
    SExp.replaceSeq (ks.map c.hit) [.list (.atom f :: names.map .atom)] = [.list (.atom f :: names.map .atom)] := by
  rw [replaceSeq_app, replaceSeq_tokens]
  intro ks₁ k ks₂ heq
  rw [replaceSeq_tokens]
  cases hhit : c.hit k (.list (.atom f :: names.map .atom)) with
  | none => rfl
  | some new =>
    rcases hit_head hhit with ⟨a, rfl, hrest⟩ | ⟨p, rfl, hrest⟩
    · obtain ⟨n, ns, rfl, hn, hns⟩ := List.map_eq_cons_iff.mp hrest
      cases hn
      have hbars := hnames a List.mem_cons_self
      rcases hent.arg f a (by rw [heq]; simp) with harg | harg
      · exact absurd harg hbars.ne_state
      · exact absurd harg hbars.ne_nextState
    · obtain ⟨n, ns, rfl, hn, hns⟩ := List.map_eq_cons_iff.mp hrest
      cases hn

theorem replaceSeq_leaf_of_notMem {p a : YName} (h : .leaf p a ∉ ks) :
    SExp.replaceSeq (ks.map c.hit) [.list [.atom p, .atom a]] = [.list [.atom p, .atom a]] := by
  rw [replaceSeq_app, replaceSeq_token]
  intro ks₁ k ks₂ heq
  rw [replaceSeq_token]
  cases hhit : c.hit k (.list [.atom p, .atom a]) with
  | none => rfl
  | some new =>
    rcases hit_head hhit with ⟨a', rfl, hrest⟩ | ⟨p', rfl, hrest⟩
    · cases hrest
      exact absurd (by rw [heq]; simp) h
    · cases hrest

theorem replaceSeq_leaf {p a : YName} (h : .leaf p a ∈ ks)
    (hstay : ∀ ks' ⊆ ks, SExp.replaceSeq (ks'.map c.hit) (c.result (.leaf p a)) = c.result (.leaf p a)) :
    SExp.replaceSeq (ks.map c.hit) [.list [.atom p, .atom a]] = c.result (.leaf p a) := by
  obtain ⟨l₁, l₂, rfl, hl₁⟩ := List.eq_append_cons_of_mem h
  rw [List.map_append, List.map_cons]
  refine SExp.replaceSeq_hit (replaceSeq_leaf_of_notMem hl₁) ?_ (hstay l₂ fun k hk => by simp [hk])
  rw [hit, if_pos ⟨rfl, rfl⟩]

theorem replaceSeq_subCall (hent : Entered c ks) {f p : YName} (hf : ∀ m, f ∉ c.dts.names m) {args : List YName}
    {new : YName → List YName} (hnew : ∀ a ∈ args, c.result (.leaf p a) = (new a).map .atom)
    (hbars : ∀ a ∈ args, ∀ n ∈ new a, Bars n) (hmem : ∀ a ∈ args, .leaf p a ∈ ks) :
    SExp.replaceSeq (ks.map c.hit) [.list (.atom f :: args.map fun a => .list [.atom p, .atom a])] =
      [.list (.atom f :: (args.flatMap new).map .atom)] := by
  have hstay : ∀ a ∈ args, ∀ ks' : List ReplKey, SExp.replaceSeq (ks'.map c.hit) (c.result (.leaf p a)) =
      c.result (.leaf p a) := by
    intro a ha ks'
    rw [hnew a ha, replaceSeq_tokens]
  have hargs : ∀ args' ⊆ args, SExp.replaceSeq (ks.map c.hit) (args'.map fun a => .list [.atom p, .atom a]) =
      (args'.flatMap new).map .atom := by
    intro args'
    induction args' with
    | nil => exact fun _ => SExp.replaceSeq_nil _
    | cons a args' ih =>
      intro hsub
      have ha : a ∈ args := hsub List.mem_cons_self
      rw [List.map_cons, SExp.replaceSeq_cons, ih fun b hb => hsub (List.mem_cons_of_mem a hb),
        replaceSeq_leaf (hmem a ha) fun ks' _ => hstay a ha ks', hnew a ha, List.flatMap_cons, List.map_append]
  rw [replaceSeq_app, hargs args (List.Subset.refl _)]
  intro ks₁ k ks₂ heq
  cases hhit : c.hit k (.list (.atom f ::
      SExp.replaceSeq (ks₁.map c.hit) (args.map fun a => .list [.atom p, .atom a]))) with
  | none => rfl
  | some new' =>
    have hk : k ∈ ks := by
      rw [heq]
      simp
    rcases hit_head hhit with ⟨a, rfl, hrest⟩ | ⟨q, rfl, -⟩
    · -- the one token would be the state itself, which no replacement puts there
      have htoken : ∀ args' ⊆ args, .atom a ∈ SExp.replaceSeq (ks₁.map c.hit) (args'.map fun a => .list [.atom p, .atom a]) →
          ∃ b ∈ args, a ∈ new b := by
        intro args'
        induction args' with
        | nil =>
          intro _ hin
          rw [List.map_nil, SExp.replaceSeq_nil] at hin
          cases hin
        | cons b args' ih =>
          intro hsub hin
          have hb : b ∈ args := hsub List.mem_cons_self
          rw [List.map_cons, SExp.replaceSeq_cons, List.mem_append] at hin
          rcases hin with hin | hin
          · by_cases hleaf : ReplKey.leaf p b ∈ ks₁
            · rw [replaceSeq_leaf hleaf fun ks' _ => hstay b hb ks', hnew b hb, List.mem_map] at hin
              obtain ⟨n, hn, hna⟩ := hin
              cases hna
              exact ⟨b, hb, hn⟩
            · rw [replaceSeq_leaf_of_notMem hleaf, List.mem_singleton] at hin
              cases hin
          · exact ih (fun d hd => hsub (List.mem_cons_of_mem b hd)) hin
      obtain ⟨b, hb, hin⟩ := htoken args (List.Subset.refl _) (by rw [hrest]; exact List.mem_singleton_self _)
      rcases hent.arg f a hk with harg | harg
      · exact absurd harg (hbars b hb a hin).ne_state
      · exact absurd harg (hbars b hb a hin).ne_nextState
    · obtain ⟨m, hm⟩ := hent.outer f q hk
      exact absurd hm (hf m)

theorem replaceSeq_subField {q p : YName} (h : .special q p ∈ ks)
    (hbefore : ∀ l₁ l₂, ks = l₁ ++ .special q p :: l₂ → .leaf p stateName ∉ l₁) :
    SExp.replaceSeq (ks.map c.hit) [.list [.atom q, .list [.atom p, .atom stateName]]] =
      [.atom (stNameAddPrefix q (instPrefix p))] := by
  obtain ⟨l₁, l₂, rfl, hl₁⟩ := List.eq_append_cons_of_mem h
  have hleaf := hbefore l₁ l₂ rfl
  rw [List.map_append, List.map_cons]
  refine SExp.replaceSeq_hit ?_ ?_ (replaceSeq_token _)
  · rw [replaceSeq_app, replaceSeq_leaf_of_notMem hleaf]
    intro ks₁ k ks₂ heq
    rw [replaceSeq_leaf_of_notMem fun hmem => hleaf (by rw [heq]; exact List.mem_append_left _ hmem)]
    cases hhit : c.hit k (.list [.atom q, .list [.atom p, .atom stateName]]) with
    | none => rfl
    | some new =>
      rcases hit_head hhit with ⟨a', rfl, hrest⟩ | ⟨p', rfl, hrest⟩
      · cases hrest
      · cases hrest
        exact absurd (by rw [heq]; simp) hl₁
  · rw [hit, if_pos ⟨rfl, rfl, rfl⟩]
    rfl

end BodyCtx

end Ilang
