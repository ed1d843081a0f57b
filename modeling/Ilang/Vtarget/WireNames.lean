import Ilang.Util.Spelling

/-!
# Wires for the signals of a refinement map

A signal of the design that a refinement map refers to is written as a wire of the wrapper: dots become `__DOT__`, brackets become
underscores. The rewritten expressions, the ports of the wrapper and the connections in the design make the name each for itself.
-/

namespace Ilang.WireNames

abbrev Name := List Char

def dotText : Name := "__DOT__".toList

/-- `ReplaceAll` of a letter. -/
def replaceAll (s : Name) (c : Char) (b : Name) : Name := s.flatMap fun d => if d = c then b else [d]

/-- `Split`, which leaves empty pieces out. -/
def split (s : Name) (c : Char) : List Name := (s.splitOn c).filter fun w => !w.isEmpty

/-- `_all_referred_vlg_names`: a signal with the range in its text. -/
abbrev VlgRefs := List (Name × Name)

def VlgRefs.insert (refs : VlgRefs) (key range : Name) : VlgRefs :=
  if refs.any fun e => e.1 == key then refs else refs ++ [(key, range)]

/-- A name of Verilog, without dots and brackets. -/
def IsIdent (w : Name) : Prop := w ≠ [] ∧ '.' ∉ w ∧ '[' ∉ w ∧ ']' ∉ w

instance (w : Name) : Decidable (IsIdent w) := by unfold IsIdent; infer_instance

structure Target where
  /-- `check_hierarchical_name_type` is not `NONE`. -/
  known : Name → Bool
  vlgModInstName : Name
  jasperGold : Bool
  instIdent : IsIdent vlgModInstName

namespace Target

variable (T : Target)

/-- `ModifyCondExprAndRecordVlgName` for a token that names a signal of the design. -/
def modifyCondExprAndRecordVlgName (refs : VlgRefs) (sname : Name) : Option (Name × VlgRefs) :=
  if T.jasperGold then some (sname, refs)
  else
    let checkS := sname.takeWhile fun c => c != '['
    let rangeS := sname.dropWhile fun c => c != '['
    let rangeUnderscore := replaceAll (replaceAll rangeS '[' ['_']) ']' ['_']
    if T.known checkS then
      some (replaceAll checkS '.' dotText ++ rangeUnderscore, refs.insert (checkS ++ rangeS) rangeS)
    else if T.known (T.vlgModInstName ++ '.' :: checkS) then
      some (T.vlgModInstName ++ dotText ++ replaceAll checkS '.' dotText ++ rangeUnderscore,
        refs.insert (T.vlgModInstName ++ '.' :: checkS ++ rangeS) rangeS)
    else none

/-- All references of a refinement map, in the order in which their expressions are read. -/
def modifyAll : VlgRefs → List Name → Option (List Name × VlgRefs)
  | refs, [] => some ([], refs)
  | refs, sname :: snames => do
    let (name, refs) ← T.modifyCondExprAndRecordVlgName refs sname
    let (names, refs) ← modifyAll refs snames
    return (name :: names, refs)

end Target

/-- The name of the wire and output in `ConstructWrapper_register_extra_io_wire`, which is also the name of the port. -/
def extraIoWire (key : Name) : Name := replaceAll (replaceAll (replaceAll key '.' dotText) '[' ['_']) ']' ['_']

/-- A wire that gets its value inside of an instance. -/
structure Connection where
  inst : Name
  wire : Name
  element : Name
  deriving DecidableEq, Repr

/-- `RecordConnectSigName`. A name of one level is a failing check. -/
def recordConnectSigName (vlgSigName suffix : Name) : Option Connection :=
  let vname := replaceAll vlgSigName '.' dotText ++ replaceAll (replaceAll suffix '[' ['_']) ']' ['_']
  let modHierName := split vlgSigName '.'
  if 2 ≤ modHierName.length then
    some ⟨['.'].intercalate modHierName.dropLast, vname, modHierName.getLastD [] ++ suffix⟩
  else none

/-- How the modifier is called for an entry. -/
def connect (entry : Name × Name) : Option Connection :=
  recordConnectSigName (entry.1.takeWhile fun c => c != '[') entry.2

/-- The other names of the wrapper: states and inputs of the ILA, the elements of its memories, and whatever else it declares. -/
structure Wrapper where
  ilaStates : List Name
  ilaInputs : List Name
  memElems : List (Name × Nat)
  others : List Name

/-- The wires with these names. -/
def Wrapper.wires (W : Wrapper) : List Name :=
  (W.ilaStates.map fun s => "__ILA_SO_".toList ++ s) ++ (W.ilaInputs.map fun i => "__ILA_I_".toList ++ i) ++
    (W.memElems.map fun m => "__ILA_SO_".toList ++ m.1 ++ '_' :: Nat.toDigits 10 m.2) ++ W.others

/-! ### References -/

/-- A hierarchical name of a signal, maybe with a constant index. -/
structure Ref where
  path : List Name
  index : Option Name
  nonempty : path ≠ []
  idents : ∀ w ∈ path, IsIdent w
  digits : (index.all fun k => k.all Char.isDigit) = true

namespace Ref

def name (r : Ref) : Name := ['.'].intercalate r.path

def range (r : Ref) : Name :=
  match r.index with
  | none => []
  | some k => '[' :: k ++ [']']

def text (r : Ref) : Name := r.name ++ r.range

end Ref

/-- `TryFindVlgState`, which a reference to the design passes. -/
def Target.Found (T : Target) (r : Ref) : Prop :=
  T.known r.name = true ∨ T.known (T.vlgModInstName ++ '.' :: r.name) = true

instance (T : Target) (r : Ref) : Decidable (T.Found r) := by unfold Target.Found; infer_instance

/-- The levels of the signal that a reference means, with the instance of the design in front. -/
def Target.signal (T : Target) (r : Ref) : List Name := if T.known r.name then r.path else T.vlgModInstName :: r.path

/-- The text of the signal and element. -/
def Target.key (T : Target) (r : Ref) : Name := ['.'].intercalate (T.signal r) ++ r.range

/-- Different entries have different wires, each reference is rewritten to the port that is connected to its signal and element, and
no wire has another name of the wrapper. -/
structure Separate (T : Target) (rs : List Ref) (names : List Name) (refs : VlgRefs) (W : Wrapper) : Prop where
  distinct : ∀ e₁ ∈ refs, ∀ e₂ ∈ refs, extraIoWire e₁.1 = extraIoWire e₂.1 → e₁ = e₂
  agree : List.Forall₂ (fun r name => ∃ e ∈ refs, extraIoWire e.1 = name ∧ ∃ inst short,
    T.signal r = inst ++ [short] ∧ connect e = some ⟨['.'].intercalate inst, name, short ++ r.range⟩) rs names
  apart : ∀ e ∈ refs, extraIoWire e.1 ∉ W.wires

/-- How letters are written in a wire. -/
def wireSpelling (c : Char) : Name := if c = '.' then dotText else if c = '[' ∨ c = ']' then ['_'] else [c]

/-- One text can be turned into the other by writing dots as `__DOT__` and brackets as underscores, and back. -/
def SpelledAlike : Name → Name → Prop := Relation.EqvGen (Respells wireSpelling)

/-- No two references are spelled alike unless they mean one signal and element, and none is spelled like another name. -/
def Distinguished (T : Target) (rs : List Ref) (W : Wrapper) : Prop :=
  (∀ r₁ ∈ rs, ∀ r₂ ∈ rs, T.key r₁ ≠ T.key r₂ → ¬ SpelledAlike (T.key r₁) (T.key r₂)) ∧
    ∀ r ∈ rs, ∀ w ∈ W.wires, ('.' ∉ w ∧ '[' ∉ w ∧ ']' ∉ w) → ¬ SpelledAlike (T.key r) w

/-! ### Spelling -/

theorem wireSpelling_eq_self {c : Char} (h : c ≠ '.' ∧ c ≠ '[' ∧ c ≠ ']') : wireSpelling c = [c] := by
  rw [wireSpelling, if_neg h.1, if_neg]
  exact not_or.mpr h.2

theorem letters_of_wireSpelling {c d : Char} (h : d ∈ wireSpelling c) : d ≠ '.' ∧ d ≠ '[' ∧ d ≠ ']' := by
  rw [wireSpelling] at h
  split at h
  · have hall : (dotText.all fun e => e != '.' && e != '[' && e != ']') = true := by decide
    simpa [and_assoc] using List.all_eq_true.mp hall d h
  · rename_i hdot
    split at h
    · rw [List.mem_singleton.mp h]
      decide
    · rename_i hbracket
      rw [List.mem_singleton.mp h]
      exact ⟨hdot, not_or.mp hbracket⟩

theorem spelled_eq_iff_alike (s t : Name) : spelled wireSpelling s = spelled wireSpelling t ↔ SpelledAlike s t :=
  spelled_eq_iff (fun _ _ hd => wireSpelling_eq_self (letters_of_wireSpelling hd)) s t

instance (s t : Name) : Decidable (SpelledAlike s t) := decidable_of_iff _ (spelled_eq_iff_alike s t)

instance (T : Target) (rs : List Ref) (W : Wrapper) : Decidable (Distinguished T rs W) := by
  unfold Distinguished
  infer_instance

theorem plain_spelled (s : Name) : '.' ∉ spelled wireSpelling s ∧ '[' ∉ spelled wireSpelling s ∧
    ']' ∉ spelled wireSpelling s := by
  have hall : ∀ d ∈ spelled wireSpelling s, d ≠ '.' ∧ d ≠ '[' ∧ d ≠ ']' := by
    intro d hd
    obtain ⟨c, _, hc⟩ := List.mem_flatMap.mp hd
    exact letters_of_wireSpelling hc
  exact ⟨fun h => (hall _ h).1 rfl, fun h => (hall _ h).2.1 rfl, fun h => (hall _ h).2.2 rfl⟩

theorem spelled_of_isPlain {w : Name} (h : '.' ∉ w ∧ '[' ∉ w ∧ ']' ∉ w) : spelled wireSpelling w = w := by
  apply spelled_of_plain
  intro c hc
  apply wireSpelling_eq_self
  exact ⟨fun heq => h.1 (heq ▸ hc), fun heq => h.2.1 (heq ▸ hc), fun heq => h.2.2 (heq ▸ hc)⟩

theorem extraIoWire_eq_spelled (key : Name) : extraIoWire key = spelled wireSpelling key := by
  rw [extraIoWire, replaceAll, replaceAll, replaceAll, List.flatMap_assoc, List.flatMap_assoc, spelled]
  congr 1
  ext1 c
  by_cases hdot : c = '.'
  · subst hdot
    rfl
  · by_cases hopen : c = '['
    · subst hopen
      rfl
    · by_cases hclose : c = ']'
      · subst hclose
        rfl
      · rw [wireSpelling_eq_self ⟨hdot, hopen, hclose⟩]
        simp [hdot, hopen, hclose]

theorem replaceAll_dots {n : Name} (h : '[' ∉ n ∧ ']' ∉ n) : replaceAll n '.' dotText = spelled wireSpelling n := by
  rw [replaceAll, spelled]
  apply List.flatMap_congr
  intro c hc
  by_cases hdot : c = '.'
  · rw [if_pos hdot, hdot]
    rfl
  · rw [if_neg hdot, wireSpelling_eq_self]
    exact ⟨hdot, fun heq => h.1 (heq ▸ hc), fun heq => h.2 (heq ▸ hc)⟩

theorem replaceAll_brackets {r : Name} (h : '.' ∉ r) :
    replaceAll (replaceAll r '[' ['_']) ']' ['_'] = spelled wireSpelling r := by
  rw [replaceAll, replaceAll, List.flatMap_assoc, spelled]
  apply List.flatMap_congr
  intro c hc
  have hdot : c ≠ '.' := fun heq => h (heq ▸ hc)
  by_cases hopen : c = '['
  · subst hopen
    rfl
  · by_cases hclose : c = ']'
    · subst hclose
      rfl
    · rw [wireSpelling_eq_self ⟨hdot, hopen, hclose⟩]
      simp [hopen, hclose]

/-! ### Texts of references -/

theorem mem_intercalate_dot {c : Char} {path : List Name} (h : c ∈ ['.'].intercalate path) : c = '.' ∨ ∃ w ∈ path, c ∈ w := by
  induction path with
  | nil => cases h
  | cons w path ih =>
    by_cases hpath : path = []
    · subst hpath
      exact .inr ⟨w, List.mem_cons_self, by simpa using h⟩
    · rw [List.intercalate_cons_of_ne_nil hpath] at h
      simp only [List.mem_append, List.mem_singleton] at h
      obtain (hw | hdot) | hrest := h
      · exact .inr ⟨w, List.mem_cons_self, hw⟩
      · exact .inl hdot
      · cases ih hrest with
        | inl hdot => exact .inl hdot
        | inr hin =>
          obtain ⟨v, hv, hc⟩ := hin
          exact .inr ⟨v, List.mem_cons_of_mem w hv, hc⟩

theorem notMem_intercalate {c : Char} {path : List Name} (hc : c ≠ '.') (h : ∀ w ∈ path, c ∉ w) :
    c ∉ ['.'].intercalate path := by
  intro hmem
  cases mem_intercalate_dot hmem with
  | inl hdot => exact hc hdot
  | inr hin =>
    obtain ⟨w, hw, hin⟩ := hin
    exact h w hw hin

theorem no_brackets {path : List Name} (h : ∀ w ∈ path, IsIdent w) :
    '[' ∉ ['.'].intercalate path ∧ ']' ∉ ['.'].intercalate path :=
  ⟨notMem_intercalate (by decide) fun w hw => (h w hw).2.2.1, notMem_intercalate (by decide) fun w hw => (h w hw).2.2.2⟩

theorem split_intercalate {path : List Name} (hne : path ≠ []) (h : ∀ w ∈ path, IsIdent w) :
    split (['.'].intercalate path) '.' = path := by
  rw [split, List.splitOn_intercalate '.' (fun w hw => (h w hw).2.1) hne, List.filter_eq_self]
  intro w hw
  simpa using (h w hw).1

namespace Ref

variable (r : Ref)

theorem dot_notMem_range : '.' ∉ r.range := by
  intro h
  rw [range] at h
  cases hindex : r.index with
  | none =>
    rw [hindex] at h
    cases h
  | some k =>
    have hdigits := r.digits
    rw [hindex] at h hdigits
    simp only [List.cons_append, List.mem_cons, List.mem_append, List.not_mem_nil, or_false] at h
    obtain hopen | hk | hclose := h
    · exact absurd hopen (by decide)
    · exact absurd (List.all_eq_true.mp hdigits '.' hk) (by decide)
    · exact absurd hclose (by decide)

theorem range_eq : r.range = [] ∨ ∃ rest, r.range = '[' :: rest := by
  rw [range]
  cases r.index with
  | none => exact .inl rfl
  | some k => exact .inr ⟨k ++ [']'], rfl⟩

theorem takeWhile_append_range {n : Name} (h : '[' ∉ n) : (n ++ r.range).takeWhile (fun c => c != '[') = n := by
  have hpos : ∀ c ∈ n, (c != '[') = true := fun c hc => bne_iff_ne.mpr fun heq => h (heq ▸ hc)
  rw [List.takeWhile_append_of_pos hpos]
  cases r.range_eq with
  | inl hnil => rw [hnil, List.takeWhile_nil, List.append_nil]
  | inr hcons =>
    obtain ⟨rest, hrest⟩ := hcons
    rw [hrest, List.takeWhile_cons_of_neg (by decide), List.append_nil]

theorem dropWhile_append_range {n : Name} (h : '[' ∉ n) : (n ++ r.range).dropWhile (fun c => c != '[') = r.range := by
  have hpos : ∀ c ∈ n, (c != '[') = true := fun c hc => bne_iff_ne.mpr fun heq => h (heq ▸ hc)
  rw [List.dropWhile_append_of_pos hpos]
  cases r.range_eq with
  | inl hnil => rw [hnil, List.dropWhile_nil]
  | inr hcons =>
    obtain ⟨rest, hrest⟩ := hcons
    rw [hrest, List.dropWhile_cons_of_neg (by decide)]

end Ref

namespace Target

variable (T : Target)

theorem signal_idents (r : Ref) : ∀ w ∈ T.signal r, IsIdent w := by
  rw [signal]
  split
  · exact r.idents
  · exact List.forall_mem_cons.mpr ⟨T.instIdent, r.idents⟩

theorem signal_ne_nil (r : Ref) : T.signal r ≠ [] := by
  rw [signal]
  split
  · exact r.nonempty
  · exact List.cons_ne_nil _ _

theorem intercalate_signal (r : Ref) :
    ['.'].intercalate (T.signal r) = if T.known r.name then r.name else T.vlgModInstName ++ '.' :: r.name := by
  rw [signal]
  split
  · rfl
  · rw [List.intercalate_cons_of_ne_nil r.nonempty, List.append_assoc]
    rfl

theorem takeWhile_key (r : Ref) : (T.key r).takeWhile (fun c => c != '[') = ['.'].intercalate (T.signal r) :=
  r.takeWhile_append_range (no_brackets (T.signal_idents r)).1

theorem dropWhile_key (r : Ref) : (T.key r).dropWhile (fun c => c != '[') = r.range :=
  r.dropWhile_append_range (no_brackets (T.signal_idents r)).1

theorem extraIoWire_key (r : Ref) :
    extraIoWire (T.key r) = spelled wireSpelling (['.'].intercalate (T.signal r)) ++ spelled wireSpelling r.range := by
  rw [extraIoWire_eq_spelled, key, spelled_append]

theorem modify_eq {refs refs' : VlgRefs} {r : Ref} {name : Name} (hbackend : T.jasperGold = false)
    (h : T.modifyCondExprAndRecordVlgName refs r.text = some (name, refs')) :
    name = extraIoWire (T.key r) ∧ refs' = refs.insert (T.key r) r.range := by
  have hname : '[' ∉ r.name ∧ ']' ∉ r.name := no_brackets r.idents
  have htop : '[' ∉ T.vlgModInstName ∧ ']' ∉ T.vlgModInstName := T.instIdent.2.2
  have htopdot : '.' ∉ T.vlgModInstName := T.instIdent.2.1
  rw [modifyCondExprAndRecordVlgName, hbackend, if_neg (by decide)] at h
  simp only [show r.text.takeWhile (fun c => c != '[') = r.name from r.takeWhile_append_range hname.1,
    show r.text.dropWhile (fun c => c != '[') = r.range from r.dropWhile_append_range hname.1,
    replaceAll_dots hname, replaceAll_brackets r.dot_notMem_range] at h
  rw [extraIoWire_key, key, intercalate_signal]
  by_cases hknown : T.known r.name = true
  · rw [if_pos hknown] at h ⊢
    have hpair := Option.some.inj h
    exact ⟨(congrArg Prod.fst hpair).symm, (congrArg Prod.snd hpair).symm⟩
  · rw [if_neg hknown] at h ⊢
    split at h
    · have hpair := Option.some.inj h
      have hspell : spelled wireSpelling (T.vlgModInstName ++ '.' :: r.name) =
          T.vlgModInstName ++ dotText ++ spelled wireSpelling r.name := by
        rw [spelled_append, spelled_of_isPlain ⟨htopdot, htop⟩, List.append_assoc]
        rfl
      rw [hspell]
      exact ⟨(congrArg Prod.fst hpair).symm, (congrArg Prod.snd hpair).symm⟩
    · cases h

end Target

/-- The range of an entry is in its key. -/
def VlgRefs.Keyed (refs : VlgRefs) : Prop := ∀ e ∈ refs, e.2 = e.1.dropWhile fun c => c != '['

theorem VlgRefs.mem_insert {refs : VlgRefs} {key range : Name} {e : Name × Name} (h : e ∈ refs.insert key range) :
    e ∈ refs ∨ e = (key, range) := by
  rw [VlgRefs.insert] at h
  split at h
  · exact .inl h
  · simpa using h

theorem VlgRefs.mem_insert_of_mem {refs : VlgRefs} {e : Name × Name} (h : e ∈ refs) (key range : Name) :
    e ∈ refs.insert key range := by
  rw [VlgRefs.insert]
  split
  · exact h
  · exact List.mem_append_left _ h

theorem VlgRefs.insert_mem {refs : VlgRefs} (hrefs : refs.Keyed) {key range : Name}
    (h : range = key.dropWhile fun c => c != '[') : (key, range) ∈ refs.insert key range := by
  rw [VlgRefs.insert]
  split
  · rename_i hin
    obtain ⟨e, he, hkey⟩ := List.any_eq_true.mp hin
    have heq : e = (key, range) := by
      have hfst : e.1 = key := beq_iff_eq.mp hkey
      have hsnd := hrefs e he
      rw [hfst, ← h] at hsnd
      exact Prod.ext hfst hsnd
    exact heq ▸ he
  · exact List.mem_append_right _ List.mem_cons_self

namespace Target

variable (T : Target)

/-- What the rewriting of all references gives. -/
structure Recorded (refs : VlgRefs) (rs : List Ref) (names : List Name) (refs' : VlgRefs) : Prop where
  names_eq : names = rs.map fun r => extraIoWire (T.key r)
  kept : ∀ e ∈ refs, e ∈ refs'
  entries : ∀ e ∈ refs', e ∈ refs ∨ ∃ r ∈ rs, e = (T.key r, r.range)
  recorded : ∀ r ∈ rs, (T.key r, r.range) ∈ refs'

theorem recorded_of_modifyAll (hbackend : T.jasperGold = false) {refs refs' : VlgRefs} (hrefs : refs.Keyed) {rs : List Ref}
    {names : List Name} (h : T.modifyAll refs (rs.map Ref.text) = some (names, refs')) : T.Recorded refs rs names refs' := by
  induction rs generalizing refs names with
  | nil =>
    cases h
    exact ⟨rfl, fun _ he => he, fun _ he => .inl he, by simp⟩
  | cons r rs ih =>
    rw [List.map_cons, modifyAll] at h
    obtain ⟨⟨name, mid⟩, hone, h⟩ := Option.bind_eq_some_iff.mp h
    obtain ⟨⟨rest, last⟩, hall, h⟩ := Option.bind_eq_some_iff.mp h
    obtain ⟨hname, hmid⟩ := T.modify_eq hbackend hone
    cases h
    have hrange := (T.dropWhile_key r).symm
    have hkeyed : VlgRefs.Keyed mid := by
      intro e he
      rw [hmid] at he
      cases VlgRefs.mem_insert he with
      | inl hold => exact hrefs e hold
      | inr hnew =>
        rw [hnew]
        exact hrange
    have hrest := ih hkeyed hall
    refine ⟨?_, ?_, ?_, ?_⟩
    · rw [hname, hrest.names_eq, List.map_cons]
    · intro e he
      apply hrest.kept
      rw [hmid]
      exact VlgRefs.mem_insert_of_mem he _ _
    · intro e he
      cases hrest.entries e he with
      | inl hin =>
        rw [hmid] at hin
        cases VlgRefs.mem_insert hin with
        | inl hold => exact .inl hold
        | inr hnew => exact .inr ⟨r, List.mem_cons_self, hnew⟩
      | inr hin =>
        obtain ⟨r', hr', heq⟩ := hin
        exact .inr ⟨r', List.mem_cons_of_mem r hr', heq⟩
    · intro r' hr'
      cases List.mem_cons.mp hr' with
      | inl hhead =>
        rw [hhead]
        apply hrest.kept
        rw [hmid]
        exact VlgRefs.insert_mem hrefs hrange
      | inr htail => exact hrest.recorded r' htail

theorem connect_key (r : Ref) {inst : List Name} {short : Name} (h : T.signal r = inst ++ [short]) (hinst : inst ≠ []) :
    connect (T.key r, r.range) = some ⟨['.'].intercalate inst, extraIoWire (T.key r), short ++ r.range⟩ := by
  have hidents := T.signal_idents r
  have hlen : 2 ≤ (T.signal r).length := by
    have hpos := List.length_pos_of_ne_nil hinst
    rw [h, List.length_append, List.length_singleton]
    omega
  rw [connect]
  simp only [takeWhile_key]
  rw [recordConnectSigName, split_intercalate (T.signal_ne_nil r) hidents, if_pos hlen, extraIoWire_key,
    replaceAll_dots (no_brackets hidents), replaceAll_brackets r.dot_notMem_range, h, List.dropLast_concat,
    List.getLastD_concat]

theorem exists_modify {r : Ref} (hfound : T.Found r) (refs : VlgRefs) :
    ∃ name refs', T.modifyCondExprAndRecordVlgName refs r.text = some (name, refs') := by
  have hname : '[' ∉ r.name ∧ ']' ∉ r.name := no_brackets r.idents
  have htake : r.text.takeWhile (fun c => c != '[') = r.name := r.takeWhile_append_range hname.1
  rw [modifyCondExprAndRecordVlgName]
  simp only [htake]
  split
  · exact ⟨_, _, rfl⟩
  · split
    · exact ⟨_, _, rfl⟩
    · rename_i hknown
      rw [if_pos (hfound.resolve_left hknown)]
      exact ⟨_, _, rfl⟩

theorem exists_modifyAll {rs : List Ref} (hfound : ∀ r ∈ rs, T.Found r) (refs : VlgRefs) :
    ∃ names refs', T.modifyAll refs (rs.map Ref.text) = some (names, refs') := by
  induction rs generalizing refs with
  | nil => exact ⟨[], refs, rfl⟩
  | cons r rs ih =>
    obtain ⟨name, mid, hone⟩ := T.exists_modify (hfound r List.mem_cons_self) refs
    obtain ⟨names, last, hall⟩ := ih (fun r' hr' => hfound r' (List.mem_cons_of_mem r hr')) mid
    refine ⟨name :: names, last, ?_⟩
    rw [List.map_cons, modifyAll, hone]
    exact congrArg (fun o => o >>= fun p : List Name × VlgRefs => some (name :: p.1, p.2)) hall

theorem separate_of_run {T : Target} (hbackend : T.jasperGold = false) {rs : List Ref} {names : List Name} {refs : VlgRefs}
    (hrun : T.modifyAll [] (rs.map Ref.text) = some (names, refs)) (hsignals : ∀ r ∈ rs, 2 ≤ (T.signal r).length)
    (W : Wrapper) : Separate T rs names refs W ↔ Distinguished T rs W := by
  have hempty : VlgRefs.Keyed [] := by simp [VlgRefs.Keyed]
  have hrec := T.recorded_of_modifyAll hbackend hempty hrun
  have hentries : ∀ e ∈ refs, ∃ r ∈ rs, e = (T.key r, r.range) := by
    intro e he
    cases hrec.entries e he with
    | inl hin => cases hin
    | inr hin => exact hin
  constructor
  · intro hsep
    refine ⟨fun r₁ h₁ r₂ h₂ hne halike => ?_, fun r hr w hw hplain halike => ?_⟩
    · have hwire : extraIoWire (T.key r₁) = extraIoWire (T.key r₂) := by
        rw [extraIoWire_eq_spelled, extraIoWire_eq_spelled]
        exact (spelled_eq_iff_alike _ _).mpr halike
      have heq := hsep.distinct _ (hrec.recorded r₁ h₁) _ (hrec.recorded r₂ h₂) hwire
      exact hne (congrArg Prod.fst heq)
    · apply hsep.apart _ (hrec.recorded r hr)
      rw [extraIoWire_eq_spelled, (spelled_eq_iff_alike _ _).mpr halike, spelled_of_isPlain hplain]
      exact hw
  · intro hdist
    refine ⟨fun e₁ h₁ e₂ h₂ hwire => ?_, ?_, fun e he hin => ?_⟩
    · obtain ⟨r₁, hr₁, rfl⟩ := hentries e₁ h₁
      obtain ⟨r₂, hr₂, rfl⟩ := hentries e₂ h₂
      rw [extraIoWire_eq_spelled, extraIoWire_eq_spelled] at hwire
      have hkey : T.key r₁ = T.key r₂ := by
        by_contra hne
        exact hdist.1 r₁ hr₁ r₂ hr₂ hne ((spelled_eq_iff_alike _ _).mp hwire)
      rw [← T.dropWhile_key r₁, ← T.dropWhile_key r₂, hkey]
    · rw [hrec.names_eq, List.forall₂_map_right_iff, List.forall₂_same]
      intro r hr
      have hlen := hsignals r hr
      have hsplit := List.dropLast_append_getLast (T.signal_ne_nil r)
      have hinst : (T.signal r).dropLast ≠ [] := by
        apply List.ne_nil_of_length_pos
        rw [List.length_dropLast]
        omega
      exact ⟨_, hrec.recorded r hr, rfl, _, _, hsplit.symm, T.connect_key r hsplit.symm hinst⟩
    · obtain ⟨r, hr, rfl⟩ := hentries e he
      have hplain := plain_spelled (T.key r)
      rw [extraIoWire_eq_spelled] at hin
      refine hdist.2 r hr _ hin hplain ((spelled_eq_iff_alike _ _).mp ?_)
      rw [spelled_of_isPlain hplain]

/-- The references of a map are rewritten, and their wires are separate exactly if the texts of the signals can be told apart when
they are spelled as wires. -/
theorem separate_iff_distinguished {T : Target} (hbackend : T.jasperGold = false) {rs : List Ref}
    (hfound : ∀ r ∈ rs, T.Found r) (hsignals : ∀ r ∈ rs, 2 ≤ (T.signal r).length) (W : Wrapper) :
    ∃ names refs, T.modifyAll [] (rs.map Ref.text) = some (names, refs) ∧
      (Separate T rs names refs W ↔ Distinguished T rs W) := by
  obtain ⟨names, refs, hrun⟩ := T.exists_modifyAll hfound []
  exact ⟨names, refs, hrun, separate_of_run hbackend hrun hsignals W⟩

end Target

section Design

/-- A design with a vector, a scalar whose name looks like an element of the vector, and a memory. -/
def design : Target where
  known n := n == "m1.a".toList || n == "m1.a_1_".toList || n == "m1.q.mem".toList
  vlgModInstName := "m1".toList
  jasperGold := false
  instIdent := by decide

def elemRef : Ref := ⟨["a".toList], some ['1'], by decide, by decide, by decide⟩

def scalarRef : Ref := ⟨["m1".toList, "a_1_".toList], none, by decide, by decide, by decide⟩

def memRef : Ref := ⟨["q".toList, "mem".toList], some ['3'], by decide, by decide, by decide⟩

def wrapper : Wrapper := ⟨["r0".toList], ["in".toList], [("mem".toList, 3)], ["__START__".toList]⟩

/-- Elements of a vector and of a memory have wires of their own. -/
theorem elements_separate : ∃ names refs, design.modifyAll [] ([elemRef, memRef].map Ref.text) = some (names, refs) ∧
    Separate design [elemRef, memRef] names refs wrapper := by
  have hfound : ∀ r ∈ [elemRef, memRef], design.Found r := by decide +kernel
  obtain ⟨names, refs, hrun, hiff⟩ := Target.separate_iff_distinguished rfl hfound (by decide +kernel) wrapper
  exact ⟨names, refs, hrun, hiff.mpr (by decide +kernel)⟩

/-- An element of a vector and a scalar share a wire. -/
theorem element_scalar_shared : design.modifyAll [] ([elemRef, scalarRef].map Ref.text) =
    some (["m1__DOT__a_1_".toList, "m1__DOT__a_1_".toList], [("m1.a[1]".toList, "[1]".toList), ("m1.a_1_".toList, [])]) ∧
      ¬ Separate design [elemRef, scalarRef] ["m1__DOT__a_1_".toList, "m1__DOT__a_1_".toList]
        [("m1.a[1]".toList, "[1]".toList), ("m1.a_1_".toList, [])] wrapper := by
  refine ⟨by decide +kernel, fun h => ?_⟩
  have heq := h.distinct ("m1.a[1]".toList, "[1]".toList) (by decide) ("m1.a_1_".toList, []) (by decide) (by decide)
  exact absurd heq (by decide)

end Design

end Ilang.WireNames
