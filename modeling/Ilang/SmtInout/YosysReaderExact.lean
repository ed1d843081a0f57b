import Ilang.SmtInout.YosysItems

/-!
# Which Yosys files are read as they are written

A file is read item by item. It is read as it is written exactly if every item is kept, and then the functions that are printed are
read once more.
-/

namespace Ilang

open YText

/-! ### Items -/

/-- A member that is recorded as it is written. -/
structure WrittenMember.Kept (v : WrittenMember) : Prop where
  named : v.Named
  type : v.type.Printable
  array : ∀ widths, v.type ≠ .array widths

def WrittenItem.Kept : WrittenItem → Prop
  | .comment _ _ => True
  | .datatype _ _ _ l _ => ∀ v ∈ l, v.Kept
  | .func f e => f.Kept e

theorem starts_itemsText {items : List WrittenItem} : Starts (itemsText items) := by
  cases items with
  | nil => exact fun c hc => nomatch hc
  | cons i is =>
    unfold itemsText
    rw [List.flatMap_cons]
    cases i with
    | comment t b => exact starts_append (c := ';') rfl (by decide) _
    | datatype m g h l e => exact starts_append (s := (WrittenItem.datatype m g h l e).text) (c := '(') rfl (by decide) _
    | func f e => exact starts_append (s := (WrittenItem.func f e).text) (c := '(') rfl (by decide) _

theorem itemsText_cons (i : WrittenItem) (is : List WrittenItem) : itemsText (i :: is) = i.text ++ itemsText is := List.flatMap_cons

theorem itemsText_eq_nil {items : List WrittenItem} (h : items = []) : itemsText items = [] := by
  rw [h]
  rfl

theorem Ending.Ok.text {e : Ending} {items : List WrittenItem} (h : e.Ok (items = [])) : e.Ok (itemsText items = []) :=
  ⟨h.gap, h.comment, h.blank, h.line.imp_right fun h => ⟨h.1, itemsText_eq_nil h.2⟩⟩

section Items

variable (fuel : Nat) {rest : YText}

theorem parseItems_comment {t b : YText} (h : Ending.Ok ⟨[], some t, b⟩ (rest = [])) (hrest : Starts rest) :
    SmtFile.parseItems (fuel + 1) ((WrittenItem.comment t b).text ++ rest) =
      (SmtFile.parseItems fuel rest).map fun s => (s.1.addItem (.comment (';' :: t)), s.2) := by
  have htext : (WrittenItem.comment t b).text ++ rest = (';' :: t) ++ (b ++ rest) := by
    show [] ++ ((';' :: t) ++ b) ++ rest = _
    rw [List.nil_append, List.append_assoc]
  have hne : (';' :: t) ++ (b ++ rest) ≠ [] := fun h => nomatch h
  have hword : (headWord YText.blanks ((';' :: t) ++ (b ++ rest))).head? = some ';' := rfl
  have ht : ∀ c ∈ ';' :: t, isEol c = false := List.forall_mem_cons.mpr ⟨rfl, h.comment t rfl⟩
  have hline : readlineNoEol ((';' :: t) ++ (b ++ rest)) = (';' :: t, (b ++ rest).dropWhile isEol) :=
    readlineNoEol_append ht (Ending.endsLine h)
  have hskip : skip ((b ++ rest).dropWhile isEol) = rest := (skip_dropWhile_isEol _).trans (Ending.skip_blank h hrest)
  rw [htext, SmtFile.parseItems, if_neg hne]
  simp only [hword, if_true, hline, hskip]

theorem parseItems_datatype {m g h : YText} {l : List WrittenMember} {e : Ending} :
    SmtFile.parseItems (fuel + 1) ((WrittenItem.datatype m g h l e).text ++ rest) =
      (parseDatatype ((WrittenItem.datatype m g h l e).text ++ rest)).bind fun r =>
        (SmtFile.parseItems fuel (skip r.2.2)).map fun s => (s.1.addDatatype r.1 r.2.1, s.2) := by
  have hne : (WrittenItem.datatype m g h l e).text ++ rest ≠ [] := fun h => nomatch h
  have hword : headWord YText.blanks ((WrittenItem.datatype m g h l e).text ++ rest) = "(declare-datatype".toList := rfl
  have hhead : "(declare-datatype".toList.head? ≠ some ';' := by decide
  rw [SmtFile.parseItems, if_neg hne]
  simp only [hword, hhead, if_false, if_true]

theorem parseItems_func {f : WrittenFunc} {e : Ending} :
    SmtFile.parseItems (fuel + 1) ((WrittenItem.func f e).text ++ rest) =
      (FuncDef.parseFromString ((WrittenItem.func f e).text ++ rest)).bind fun r =>
        (SmtFile.parseItems fuel (skip r.2)).map fun s => (s.1.addItem (.func r.1), s.2) := by
  have hne : (WrittenItem.func f e).text ++ rest ≠ [] := fun h => nomatch h
  have hword : headWord YText.blanks ((WrittenItem.func f e).text ++ rest) = "(define-fun".toList := rfl
  have hhead : "(define-fun".toList.head? ≠ some ';' := by decide
  have hother : "(define-fun".toList ≠ "(declare-datatype".toList := by decide
  rw [SmtFile.parseItems, if_neg hne]
  simp only [hword, hhead, hother, if_false, if_true]

end Items

/-! ### What is kept -/

/-- A function without what depends on its place in the file. -/
structure FuncSig where
  name : YText
  type : YType
  args : YText
  body : YText
  deriving DecidableEq, Repr

def FuncDef.sig (f : FuncDef) : FuncSig := ⟨f.funcName, f.retType, f.argsText, f.funcBody⟩

def WrittenFunc.sig (f : WrittenFunc) : FuncSig := ⟨f.quoted, f.type, f.args, f.body⟩

namespace WrittenItem

def sigs : WrittenItem → List FuncSig
  | .func f _ => [f.sig]
  | _ => []

def names : WrittenItem → List YText
  | .datatype m _ _ _ _ => [m]
  | _ => []

def vars (name : YText) : WrittenItem → List StateVar
  | .datatype m _ _ l _ => if m = name then l.map WrittenMember.var else []
  | _ => []

/-- The items that are read for one. A comment behind a datatype is an item of its own. -/
def items : WrittenItem → List SmtItem
  | .comment t _ => [.comment (';' :: t)]
  | .datatype _ _ _ _ e => e.comment.toList.map fun t => .comment (';' :: t)
  | .func f e => [.func (f.read (e.comment.getD []))]

end WrittenItem

/-- A file has the functions that are written, with their texts, and the members of the datatypes that are written. -/
structure SmtFile.Keeps (f : SmtFile) (l : List WrittenItem) : Prop where
  funcs : f.funcs.map FuncDef.sig = l.flatMap WrittenItem.sigs
  order : f.dataTypeOrder = l.flatMap WrittenItem.names
  vars : ∀ m, (f.datatypes m).map YMember.var = l.flatMap (WrittenItem.vars m)

/-- The comment behind a datatype. -/
def Ending.items (e : Ending) : List WrittenItem := e.comment.toList.map fun t => .comment t e.blank

section Trailing

variable {e : Ending} {l : List WrittenItem}

theorem skip_ending (he : e.Ok (l = [])) : skip (e.text ++ itemsText l) = itemsText (e.items ++ l) := by
  have htext := he.text
  unfold Ending.text Ending.items
  rw [List.append_assoc, skip_gap (Ending.gap_blank htext)]
  cases hcomment : e.comment with
  | none =>
    rw [Option.elim_none, List.nil_append]
    exact Ending.skip_blank htext starts_itemsText
  | some t =>
    rw [Option.elim_some, Option.toList_some, List.map_singleton, List.singleton_append, itemsText_cons]
    exact skip_starts (starts_append (s := (';' :: t) ++ e.blank) (c := ';') rfl (by decide) _)

theorem itemsOk_trailing (he : e.Ok (l = [])) (hl : ItemsOk l) : ItemsOk (e.items ++ l) := by
  unfold Ending.items
  cases hcomment : e.comment with
  | none => exact hl
  | some t => exact ⟨⟨fun c hc => (nomatch hc), fun u hu => he.comment u (hcomment.trans hu), he.blank, he.line⟩, hl⟩

theorem items_flatMap_eq {α : Type} {k : WrittenItem → List α} (hk : ∀ t b, k (.comment t b) = []) :
    (e.items ++ l).flatMap k = l.flatMap k := by
  unfold Ending.items
  cases e.comment with
  | none => rfl
  | some t => rw [Option.toList_some, List.map_singleton, List.singleton_append, List.flatMap_cons, hk, List.nil_append]

theorem kept_trailing (h : ∀ i ∈ l, i.Kept) : ∀ i ∈ e.items ++ l, i.Kept := by
  intro i hi
  cases List.mem_append.mp hi with
  | inl hi =>
    obtain ⟨t, -, rfl⟩ := List.mem_map.mp hi
    trivial
  | inr hi => exact h i hi

end Trailing

/-! ### Reading a file -/

/-- What is read for items that are kept. -/
structure SmtFile.Reads (f : SmtFile) (l : List WrittenItem) : Prop extends f.Keeps l where
  items : f.items = l.flatMap WrittenItem.items

theorem keeps_empty : SmtFile.empty.Reads [] := ⟨⟨rfl, rfl, fun _ => rfl⟩, rfl⟩

theorem map_vars_update (f : SmtFile) (m n : YText) (vars : List YMember) : ((f.addDatatype m vars).datatypes n).map YMember.var =
    (if m = n then vars.map YMember.var else []) ++ (f.datatypes n).map YMember.var := by
  show (Function.update f.datatypes m (vars ++ f.datatypes m) n).map YMember.var = _
  by_cases hn : m = n
  · subst hn
    rw [Function.update_self, List.map_append, if_pos rfl]
  · rw [Function.update_of_ne (Ne.symm hn), if_neg hn, List.nil_append]

theorem WrittenItem.text_pos (i : WrittenItem) : 0 < i.text.length := by
  cases i with
  | comment t b => exact Nat.succ_pos _
  | datatype m g h l e => exact Nat.succ_pos _
  | func f e => exact Nat.succ_pos _

theorem parseItems_kept (fuel : Nat) : ∀ {l : List WrittenItem}, ItemsOk l → (∀ i ∈ l, i.Kept) → (itemsText l).length < fuel →
    ∃ f, SmtFile.parseItems fuel (itemsText l) = some (f, []) ∧ f.Reads l := by
  induction fuel with
  | zero => exact fun _ _ h => absurd h (Nat.not_lt_zero _)
  | succ fuel ih =>
    intro l hok hkept hfuel
    cases l with
    | nil => exact ⟨_, rfl, keeps_empty⟩
    | cons i l =>
      obtain ⟨hi, hl⟩ := hok
      obtain ⟨hki, hkl⟩ := List.forall_mem_cons.mp hkept
      have hpos := i.text_pos
      rw [itemsText_cons] at hfuel ⊢
      rw [List.length_append] at hfuel
      cases i with
      | comment t b =>
        obtain ⟨f, hf, hreads⟩ := @ih l hl hkl (by omega)
        refine ⟨f.addItem (.comment (';' :: t)), ?_, ⟨hreads.funcs, hreads.order, hreads.vars⟩, ?_⟩
        · rw [parseItems_comment fuel (Ending.Ok.text hi) starts_itemsText, hf, Option.map_some]
        · rw [List.flatMap_cons, ← hreads.items]
          rfl
      | datatype m g h vs e =>
        obtain ⟨hm, hg, hh, hvs, he⟩ := hi
        obtain ⟨vars, hvars, hmap⟩ := @parseDatatype_named m g h vs e (itemsText l) hm hg hh hvs fun v hv => (hki v hv).named
        have htext : itemsText (e.items ++ l) = skip (e.text ++ itemsText l) := (skip_ending he).symm
        have hlen : (itemsText (e.items ++ l)).length < fuel := by
          have hskip : (skip (e.text ++ itemsText l)).length ≤ (e.text ++ itemsText l).length :=
            (List.dropWhile_suffix _).length_le
          have hitem : e.text.length < (WrittenItem.datatype m g h vs e).text.length := by
            have hopen : "(declare-datatype ".toList.length = 18 := rfl
            unfold WrittenItem.text
            simp only [List.length_append, hopen]
            omega
          rw [List.length_append] at hskip
          rw [htext]
          omega
        obtain ⟨f, hf, hreads⟩ := @ih (e.items ++ l) (itemsOk_trailing he hl) (kept_trailing hkl) hlen
        refine ⟨f.addDatatype m vars, ?_, ⟨?_, ?_, fun n => ?_⟩, ?_⟩
        · rw [parseItems_datatype fuel, hvars, Option.bind_some, skip_ending he, hf, Option.map_some]
        · exact hreads.funcs.trans (items_flatMap_eq fun _ _ => rfl)
        · rw [List.flatMap_cons, ← items_flatMap_eq (e := e) fun _ _ => rfl, ← hreads.order]
          rfl
        · have hsame : vars.map YMember.var = vs.map WrittenMember.var := hmap.trans (List.map_congr_left fun v hv =>
            (WrittenMember.readVar_eq_iff (hvs v hv)).mpr ⟨(hki v hv).type, (hki v hv).array⟩)
          rw [map_vars_update, hreads.vars, items_flatMap_eq fun _ _ => rfl, hsame]
          rfl
        · have hitems : e.items.flatMap WrittenItem.items = (WrittenItem.datatype m g h vs e).items := by
            unfold Ending.items
            show _ = e.comment.toList.map fun t => SmtItem.comment (';' :: t)
            cases e.comment <;> rfl
          rw [List.flatMap_cons, ← hitems, ← List.flatMap_append, ← hreads.items]
          rfl
      | func f e =>
        obtain ⟨hf, he⟩ := hi
        obtain ⟨r, hr, hskip⟩ := f.parse_kept hf he.text starts_itemsText hki
        obtain ⟨smt, hsmt, hreads⟩ := @ih l hl hkl (by omega)
        have hsig : (f.read (e.comment.getD [])).sig = f.sig := by
          unfold FuncDef.sig WrittenFunc.sig WrittenFunc.read
          rw [(YType.read_eq_iff hf.type).mpr hki.type]
        refine ⟨smt.addItem (.func (f.read (e.comment.getD []))), ?_, ⟨?_, hreads.order, hreads.vars⟩, ?_⟩
        · have htext : (WrittenItem.func f e).text ++ itemsText l = f.text ++ (e.text ++ itemsText l) := List.append_assoc _ _ _
          rw [parseItems_func fuel, htext, hr, Option.bind_some, hskip, hsmt, Option.map_some]
        · rw [List.flatMap_cons, ← hreads.funcs, WrittenItem.sigs, ← hsig]
          rfl
        · rw [List.flatMap_cons, ← hreads.items]
          rfl

theorem kept_of_parseItems (fuel : Nat) : ∀ {l : List WrittenItem}, ItemsOk l → ∀ {f : SmtFile} {r : YText},
    SmtFile.parseItems fuel (itemsText l) = some (f, r) → f.funcs.map FuncDef.sig = l.flatMap WrittenItem.sigs →
    (∀ m, (f.datatypes m).map YMember.var = l.flatMap (WrittenItem.vars m)) → ∀ i ∈ l, i.Kept := by
  induction fuel with
  | zero => exact fun _ _ _ h => nomatch h
  | succ fuel ih =>
    intro l hok f r h hfuncs hvars
    cases l with
    | nil => exact fun i hi => nomatch hi
    | cons i l =>
      obtain ⟨hi, hl⟩ := hok
      rw [itemsText_cons] at h
      cases i with
      | comment t b =>
        rw [parseItems_comment fuel (Ending.Ok.text hi) starts_itemsText] at h
        obtain ⟨⟨smt, r'⟩, hsmt, heq⟩ := Option.map_eq_some_iff.mp h
        obtain ⟨rfl, rfl⟩ := Prod.mk.inj heq
        exact List.forall_mem_cons.mpr ⟨trivial, ih hl hsmt hfuncs hvars⟩
      | datatype m g h' vs e =>
        obtain ⟨hm, hg, hh, hvs, he⟩ := hi
        rw [parseItems_datatype fuel] at h
        obtain ⟨p, hp, h⟩ := Option.bind_eq_some_iff.mp h
        have hnamed := named_of_parseDatatype hm hg hh hvs hp
        obtain ⟨vars, hread, hmap⟩ := @parseDatatype_named m g h' vs e (itemsText l) hm hg hh hvs hnamed
        obtain rfl := Option.some.inj (hread.symm.trans hp)
        obtain ⟨⟨smt, r'⟩, hsmt, heq⟩ := Option.map_eq_some_iff.mp h
        obtain ⟨rfl, rfl⟩ := Prod.mk.inj heq
        rw [skip_ending he] at hsmt
        have hsplit : ∀ n, (if m = n then vs.map WrittenMember.readVar else []) = (if m = n then vs.map WrittenMember.var else []) ∧
            (smt.datatypes n).map YMember.var = l.flatMap (WrittenItem.vars n) := by
          intro n
          have hn := hvars n
          rw [map_vars_update, List.flatMap_cons, hmap] at hn
          refine List.append_inj hn ?_
          show _ = (if m = n then vs.map WrittenMember.var else []).length
          split_ifs
          · rw [List.length_map, List.length_map]
          · rfl
        have hsame := (hsplit m).1
        rw [if_pos rfl, if_pos rfl, List.map_inj_left] at hsame
        have hkept : ∀ v ∈ vs, v.Kept := fun v hv =>
          have hv' := (WrittenMember.readVar_eq_iff (hvs v hv)).mp (hsame v hv)
          ⟨hnamed v hv, hv'.1, hv'.2⟩
        have htail : smt.funcs.map FuncDef.sig = l.flatMap WrittenItem.sigs := hfuncs
        have hrest := ih (itemsOk_trailing he hl) hsmt (htail.trans (items_flatMap_eq fun _ _ => rfl).symm)
          fun n => (hsplit n).2.trans (items_flatMap_eq fun _ _ => rfl).symm
        exact List.forall_mem_cons.mpr ⟨hkept, fun i hi => hrest i (List.mem_append_right _ hi)⟩
      | func d e =>
        obtain ⟨hd, he⟩ := hi
        rw [parseItems_func fuel] at h
        obtain ⟨p, hp, h⟩ := Option.bind_eq_some_iff.mp h
        obtain ⟨⟨smt, r'⟩, hsmt, heq⟩ := Option.map_eq_some_iff.mp h
        obtain ⟨rfl, rfl⟩ := Prod.mk.inj heq
        have htext : (WrittenItem.func d e).text ++ itemsText l = d.text ++ (e.text ++ itemsText l) := List.append_assoc _ _ _
        rw [htext] at hp
        obtain ⟨hsig, htail⟩ := List.cons.inj (show p.1.sig :: smt.funcs.map FuncDef.sig = d.sig :: l.flatMap WrittenItem.sigs from hfuncs)
        obtain ⟨-, htype, hargs, hbody⟩ := FuncSig.mk.inj hsig
        have hkept := d.kept_of_parse hd he.text starts_itemsText hp hargs htype hbody
        obtain ⟨r, hr, hskip⟩ := d.parse_kept hd he.text starts_itemsText hkept
        obtain rfl := Option.some.inj (hr.symm.trans hp)
        rw [hskip] at hsmt
        exact List.forall_mem_cons.mpr ⟨hkept, ih hl hsmt htail hvars⟩

/-! ### Printing -/

namespace WrittenItem

/-- What is printed behind a function. -/
def printedEnding : YText → Ending
  | [] => ⟨[], none, ['\n']⟩
  | t => ⟨[' '], some (' ' :: t), ['\n']⟩

/-- What is printed for an item. The datatypes are not. -/
def printed : WrittenItem → List WrittenItem
  | .comment t _ => [.comment t ['\n']]
  | .datatype _ _ _ _ e => e.comment.toList.map fun t => .comment t ['\n']
  | .func f e => [.func ⟨f.name, [' '], f.args, [' '], f.type, [' '], f.body, []⟩ (printedEnding (e.comment.getD []))]

theorem ok_weaken {i : WrittenItem} {p q : Prop} (hpq : p → q) (h : i.Ok p) : i.Ok q := by
  have he : ∀ {e : Ending}, e.Ok p → e.Ok q := fun he => ⟨he.gap, he.comment, he.blank, he.line.imp_right fun h => ⟨h.1, hpq h.2⟩⟩
  cases i with
  | comment t b => exact he h
  | datatype m g h' l e =>
    obtain ⟨hm, hg, hh, hl, he'⟩ := h
    exact ⟨hm, hg, hh, hl, he he'⟩
  | func f e => exact ⟨h.1, he h.2⟩

theorem itemsOk_of_forall {l : List WrittenItem} (h : ∀ i ∈ l, i.Ok False) : ItemsOk l := by
  induction l with
  | nil => trivial
  | cons i l ih =>
    obtain ⟨hi, hl⟩ := List.forall_mem_cons.mp h
    exact ⟨ok_weaken False.elim hi, ih hl⟩

theorem forall_mem_empty {p : Char → Prop} : ∀ c ∈ ([] : YText), p c := fun _ hc => nomatch hc

theorem ok_newline {g : YText} (hg : ∀ c ∈ g, c = ' ' ∨ c = '\t') {comment : Option YText}
    (hcomment : ∀ t ∈ comment, ∀ c ∈ t, isEol c = false) : Ending.Ok ⟨g, comment, ['\n']⟩ False :=
  ⟨hg, hcomment, List.forall_mem_singleton.mpr (by decide), .inl ⟨'\n', [], rfl, rfl⟩⟩

theorem lineEnd_ok : Ending.Ok ⟨[], none, ['\n']⟩ False := ok_newline forall_mem_empty fun _ ht => nomatch ht

theorem printedEnding_ok {t : YText} (ht : ∀ c ∈ t, isEol c = false) : (printedEnding t).Ok False := by
  cases t with
  | nil => exact lineEnd_ok
  | cons d t =>
    refine ok_newline (List.forall_mem_singleton.mpr (.inl rfl)) fun u hu => ?_
    obtain rfl := Option.some.inj hu
    exact List.forall_mem_cons.mpr ⟨rfl, ht⟩

theorem comment_getD {e : Ending} {p : Prop} (he : e.Ok p) : ∀ c ∈ e.comment.getD [], isEol c = false := by
  cases hcomment : e.comment with
  | none => exact fun c hc => nomatch hc
  | some t => exact he.comment t hcomment

theorem printed_ok {p : Prop} {i : WrittenItem} (h : i.Ok p) : ∀ j ∈ i.printed, j.Ok False := by
  cases i with
  | comment t b => exact List.forall_mem_singleton.mpr (ok_newline forall_mem_empty h.comment)
  | datatype m g h' l e =>
    obtain ⟨-, -, -, -, he⟩ := h
    intro j hj
    obtain ⟨t, ht, rfl⟩ := List.mem_map.mp hj
    refine ok_newline forall_mem_empty fun u hu => ?_
    obtain rfl := Option.some.inj hu
    exact he.comment t (Option.mem_toList.mp ht)
  | func f e =>
    obtain ⟨hf, he⟩ := h
    have hgap : Gap [' '] := List.forall_mem_singleton.mpr (by decide)
    exact List.forall_mem_singleton.mpr ⟨⟨hf.name, hgap, hf.args, hgap, hf.type, hgap, hf.body, forall_mem_empty⟩,
      printedEnding_ok (comment_getD he)⟩

theorem printed_kept {i : WrittenItem} (h : i.Kept) : ∀ j ∈ i.printed, j.Kept := by
  cases i with
  | comment t b => exact List.forall_mem_singleton.mpr trivial
  | datatype m g h' l e =>
    intro j hj
    obtain ⟨t, -, rfl⟩ := List.mem_map.mp hj
    trivial
  | func f e =>
    have hblank : (printedEnding (e.comment.getD [])).blank ≠ [] := by
      cases e.comment.getD [] <;> exact List.cons_ne_nil _ _
    exact List.forall_mem_singleton.mpr ⟨h.args, h.type, h.body, .inr hblank⟩

theorem printed_sigs (i : WrittenItem) : i.printed.flatMap sigs = i.sigs := by
  cases i with
  | comment t b => rfl
  | datatype m g h l e =>
    show (e.comment.toList.map fun t => WrittenItem.comment t ['\n']).flatMap sigs = []
    cases e.comment <;> rfl
  | func f e => rfl

end WrittenItem

/-- A line that is printed. -/
def SmtItem.line (i : SmtItem) : YText :=
  let line := i.toText.getD []
  if line.getLast? = some '\n' then line else line ++ ['\n']

theorem getLast?_ne_newline {s : YText} (hs : ∀ c ∈ s, isEol c = false) : s.getLast? ≠ some '\n' := fun h =>
  absurd (hs '\n' (List.mem_of_getLast? h)) (by decide)

theorem line_comment {t : YText} (ht : ∀ c ∈ t, isEol c = false) : (SmtItem.comment (';' :: t)).line = (WrittenItem.comment t ['\n']).text := by
  have hall : ∀ c ∈ ';' :: t, isEol c = false := List.forall_mem_cons.mpr ⟨rfl, ht⟩
  exact if_neg (getLast?_ne_newline hall)

theorem YType.toText_eq {t : YType} (ht : t.Writable) : t.toText = some t.text := by
  cases t with
  | array widths =>
    cases widths with
    | none => exact absurd ht id
    | some widths => rfl
  | bool => rfl
  | bv w => rfl
  | datatype m => rfl

namespace WrittenFunc

variable {f : WrittenFunc}

/-- The text of a function up to the comment. -/
def printedText (f : WrittenFunc) : YText :=
  "(define-fun ".toList ++ (f.quoted ++ (' ' :: (f.args ++ (' ' :: (f.type.text ++ (' ' :: f.body)))))) ++ [')']

theorem getLast?_printedText (f : WrittenFunc) : f.printedText.getLast? = some ')' := by
  unfold printedText
  generalize "(define-fun ".toList = d
  exact List.getLast?_concat

theorem toText_read (hf : f.Ok) (ht : f.type.Printable) (comment : YText) : (f.read comment).toText =
    some (f.printedText ++ if comment = [] then [] else " ; ".toList ++ comment) := by
  have htype : f.type.read.toText = some f.type.text := by
    rw [(YType.read_eq_iff hf.type).mpr ht]
    exact YType.toText_eq hf.type
  unfold FuncDef.toText read printedText
  rw [htype, Option.map_some]
  generalize "(define-fun ".toList = d
  simp only [List.append_assoc, List.cons_append, List.nil_append]

theorem line_func (hf : f.Ok) (ht : f.type.Printable) {comment : YText} (hc : ∀ c ∈ comment, isEol c = false) :
    (SmtItem.func (f.read comment)).line =
      (WrittenItem.func ⟨f.name, [' '], f.args, [' '], f.type, [' '], f.body, []⟩ (WrittenItem.printedEnding comment)).text := by
  have htext : (⟨f.name, [' '], f.args, [' '], f.type, [' '], f.body, []⟩ : WrittenFunc).text = f.printedText := by
    unfold text printedText quoted
    generalize "(define-fun ".toList = d
    simp only [List.append_assoc, List.cons_append, List.nil_append]
  have hread : (SmtItem.func (f.read comment)).toText = some (f.printedText ++ if comment = [] then [] else " ; ".toList ++ comment) :=
    toText_read hf ht comment
  unfold SmtItem.line
  rw [hread, Option.getD_some]
  show _ = (⟨f.name, [' '], f.args, [' '], f.type, [' '], f.body, []⟩ : WrittenFunc).text ++ (WrittenItem.printedEnding comment).text
  rw [htext]
  cases comment with
  | nil =>
    have hlast : (f.printedText ++ []).getLast? ≠ some '\n' := by
      rw [List.append_nil, getLast?_printedText]
      exact fun h => absurd (Option.some.inj h) (by decide)
    rw [if_pos rfl, if_neg hlast, List.append_nil]
    exact rfl
  | cons c t =>
    have hlast : (f.printedText ++ (" ; ".toList ++ c :: t)).getLast? ≠ some '\n' := by
      rw [List.getLast?_append_of_ne_nil _ (List.append_ne_nil_of_right_ne_nil _ (List.cons_ne_nil c t)),
        List.getLast?_append_of_ne_nil _ (List.cons_ne_nil c t)]
      exact getLast?_ne_newline hc
    rw [if_neg (List.cons_ne_nil c t), if_neg hlast, List.append_assoc]
    rfl

end WrittenFunc

theorem line_items {p : Prop} {i : WrittenItem} (h : i.Ok p) (hk : i.Kept) :
    i.items.flatMap SmtItem.line = itemsText i.printed := by
  cases i with
  | comment t b =>
    show (SmtItem.comment (';' :: t)).line ++ [] = (WrittenItem.comment t ['\n']).text ++ []
    rw [line_comment (h.comment t rfl)]
  | datatype m g h' l e =>
    obtain ⟨-, -, -, -, he⟩ := h
    show (e.comment.toList.map fun t => SmtItem.comment (';' :: t)).flatMap SmtItem.line =
      itemsText (e.comment.toList.map fun t => WrittenItem.comment t ['\n'])
    cases hcomment : e.comment with
    | none => rfl
    | some t =>
      show (SmtItem.comment (';' :: t)).line ++ [] = (WrittenItem.comment t ['\n']).text ++ []
      rw [line_comment (he.comment t hcomment)]
  | func f e =>
    show (SmtItem.func (f.read (e.comment.getD []))).line ++ [] = (WrittenItem.func _ _).text ++ []
    rw [WrittenFunc.line_func h.1 hk.type (WrittenItem.comment_getD h.2)]

theorem toText_isSome {p : Prop} {i : WrittenItem} (h : i.Ok p) (hk : i.Kept) : ∀ j ∈ i.items, j.toText = some (j.toText.getD []) := by
  cases i with
  | comment t b => exact List.forall_mem_singleton.mpr rfl
  | datatype m g h' l e =>
    intro j hj
    obtain ⟨t, -, rfl⟩ := List.mem_map.mp hj
    rfl
  | func f e =>
    refine List.forall_mem_singleton.mpr ?_
    have hread : (SmtItem.func (f.read (e.comment.getD []))).toText = some _ := f.toText_read h.1 hk.type (e.comment.getD [])
    rw [hread, Option.getD_some]

theorem mapM_toText {l : List SmtItem} (h : ∀ j ∈ l, j.toText = some (j.toText.getD [])) :
    l.mapM SmtItem.toText = some (l.map fun j => j.toText.getD []) := by
  induction l with
  | nil => rfl
  | cons j l ih =>
    obtain ⟨hj, hl⟩ := List.forall_mem_cons.mp h
    rw [List.mapM_cons, ih hl, hj]
    rfl

theorem itemsOk_weaken {l : List WrittenItem} (h : ItemsOk l) : ∀ i ∈ l, i.Ok True := by
  induction l with
  | nil => exact fun i hi => nomatch hi
  | cons i l ih => exact List.forall_mem_cons.mpr ⟨WrittenItem.ok_weaken (fun _ => trivial) h.1, ih h.2⟩

theorem SmtFile.toText_reads {f : SmtFile} {l : List WrittenItem} (hl : ItemsOk l) (hk : ∀ i ∈ l, i.Kept) (hf : f.Reads l) :
    f.toText = some (itemsText (l.flatMap WrittenItem.printed)) := by
  have hok := itemsOk_weaken hl
  have hsome : ∀ j ∈ f.items, j.toText = some (j.toText.getD []) := by
    intro j hj
    rw [hf.items] at hj
    obtain ⟨i, hi, hj⟩ := List.mem_flatMap.mp hj
    exact toText_isSome (hok i hi) (hk i hi) j hj
  have hlines : ∀ {l : List WrittenItem}, (∀ i ∈ l, i.Ok True) → (∀ i ∈ l, i.Kept) →
      (l.flatMap WrittenItem.items).flatMap SmtItem.line = itemsText (l.flatMap WrittenItem.printed) := by
    intro l hok hk
    induction l with
    | nil => rfl
    | cons i l ih =>
      obtain ⟨hi, hl⟩ := List.forall_mem_cons.mp hok
      obtain ⟨hki, hkl⟩ := List.forall_mem_cons.mp hk
      unfold itemsText at ih ⊢
      rw [List.flatMap_cons, List.flatMap_append, ih hl hkl, line_items hi hki, List.flatMap_cons, List.flatMap_append]
      rfl
  unfold SmtFile.toText
  rw [mapM_toText hsome, Option.map_some, List.flatMap_map, hf.items]
  exact congrArg some (hlines hok hk)

/-! ### Files -/

/-- The whole text is read, with the functions and the members that are written, and what is printed is read with the same functions. -/
def ReadsBack (lead : YText) (l : List WrittenItem) : Prop :=
  ∃ f, SmtFile.parseFromString (lead ++ itemsText l) = some (f, []) ∧ f.Keeps l ∧
    ∃ text g, f.toText = some text ∧ SmtFile.parseFromString text = some (g, []) ∧ g.funcs.map FuncDef.sig = f.funcs.map FuncDef.sig

theorem parseFromString_kept {lead : YText} (hlead : Gap lead) {l : List WrittenItem} (hl : ItemsOk l) (hk : ∀ i ∈ l, i.Kept) :
    ∃ f, SmtFile.parseFromString (lead ++ itemsText l) = some (f, []) ∧ f.Reads l := by
  unfold SmtFile.parseFromString
  rw [skip_gap hlead, skip_starts starts_itemsText]
  refine parseItems_kept _ hl hk ?_
  rw [List.length_append]
  omega

theorem kept_of_readsBack {lead : YText} (hlead : Gap lead) {l : List WrittenItem} (hl : ItemsOk l) (h : ReadsBack lead l) :
    ∀ i ∈ l, i.Kept := by
  obtain ⟨f, hf, hkeeps, -⟩ := h
  unfold SmtFile.parseFromString at hf
  rw [skip_gap hlead, skip_starts starts_itemsText] at hf
  exact kept_of_parseItems _ hl hf hkeeps.funcs hkeeps.vars

/-- A text of items, each on lines of its own, is read and printed without a loss if and only if each item is kept: in the arguments
and the body of a function as many parentheses are closed as opened at its end and not before, wherever they stand, a body is no
quoted symbol, there is a line break or a comment behind it, widths fit an `int`, and no member is an array, has a name without
`#` and `_is`, or a comment of another form. -/
theorem readsBack_iff {lead : YText} (hlead : Gap lead) {l : List WrittenItem} (hl : ItemsOk l) :
    ReadsBack lead l ↔ ∀ i ∈ l, i.Kept := by
  constructor
  · exact kept_of_readsBack hlead hl
  · intro hk
    obtain ⟨f, hf, hreads⟩ := parseFromString_kept hlead hl hk
    have hprinted : ∀ j ∈ l.flatMap WrittenItem.printed, j.Ok False ∧ j.Kept := by
      intro j hj
      obtain ⟨i, hi, hj⟩ := List.mem_flatMap.mp hj
      exact ⟨WrittenItem.printed_ok (itemsOk_weaken hl i hi) j hj, WrittenItem.printed_kept (hk i hi) j hj⟩
    obtain ⟨g, hg, hagain⟩ := @parseFromString_kept [] WrittenItem.forall_mem_empty _
      (WrittenItem.itemsOk_of_forall fun j hj => (hprinted j hj).1) fun j hj => (hprinted j hj).2
    refine ⟨f, hf, hreads.toKeeps, _, g, SmtFile.toText_reads hl hk hreads, hg, ?_⟩
    rw [hagain.funcs, hreads.funcs, List.flatMap_assoc]
    exact congrArg l.flatMap (funext WrittenItem.printed_sigs)

/-- A module with one input, which is an output. -/
def wireFile : List WrittenItem :=
  [.comment " yosys".toList ['\n'],
    .datatype "m".toList [' '] ['\n'] [⟨"m#0".toList, [' '], .bool, [], ⟨[' '], some " \\x".toList, ['\n']⟩⟩] ⟨[], none, ['\n']⟩,
    .func ⟨"m_n x".toList, [' '], "((state |m_s|))".toList, [' '], .bool, [' '], "(|m#0| state)".toList, []⟩ ⟨[], none, ['\n']⟩]

theorem wireFile_readsBack : ReadsBack [] wireFile := by
  have hgap : Gap [' '] := List.forall_mem_singleton.mpr (by decide)
  have hmember : WrittenMember.Ok ⟨"m#0".toList, [' '], .bool, [], ⟨[' '], some " \\x".toList, ['\n']⟩⟩ := by
    refine ⟨by decide, hgap, trivial, WrittenItem.forall_mem_empty, WrittenItem.ok_newline (List.forall_mem_singleton.mpr (.inl rfl)) ?_⟩
    intro t ht
    obtain rfl := Option.some.inj ht
    exact List.all_iff_forall_prop.mp (by decide)
  have hok : ItemsOk wireFile := by
    refine ⟨(WrittenItem.ok_newline WrittenItem.forall_mem_empty ?_).weaken, ⟨by decide, hgap, List.forall_mem_singleton.mpr (by decide),
      List.forall_mem_singleton.mpr hmember, WrittenItem.lineEnd_ok.weaken⟩, ⟨⟨by decide, hgap, by decide, hgap, trivial, hgap, .inl rfl,
        WrittenItem.forall_mem_empty⟩, WrittenItem.lineEnd_ok.weaken⟩, trivial⟩
    intro t ht
    obtain rfl := Option.some.inj ht
    exact List.all_iff_forall_prop.mp (by decide)
  refine (readsBack_iff WrittenItem.forall_mem_empty hok).mpr ?_
  refine List.forall_mem_cons.mpr ⟨trivial, List.forall_mem_cons.mpr ⟨?_, List.forall_mem_singleton.mpr ?_⟩⟩
  · refine List.forall_mem_singleton.mpr ⟨⟨.inr (by decide), ?_⟩, trivial, fun _ h => nomatch h⟩
    intro t ht
    obtain rfl := Option.some.inj ht
    exact .inr (.inr (by decide))
  · exact ⟨⟨by decide, fun h => (read_iff h []).mp (by decide)⟩, trivial, ⟨by decide, fun h => (read_iff h []).mp (by decide)⟩,
      .inr (List.cons_ne_nil _ _)⟩

/-- A parenthesis in a comment. -/
def smileyFunc : WrittenFunc :=
  ⟨"m_n y".toList, [' '], "((state |m_s|))".toList, [' '], .bool, [' '], "(or (|m#0| state) ; :)\n (|m#1| state))".toList, []⟩

theorem smileyFunc_not_readsBack : ¬∀ (lead : YText) (l : List WrittenItem), Gap lead → ItemsOk l → ReadsBack lead l := by
  intro h
  have hgap : Gap [' '] := List.forall_mem_singleton.mpr (by decide)
  have hok : ItemsOk [.func smileyFunc ⟨[], none, ['\n']⟩] :=
    ⟨⟨⟨by decide, hgap, by decide, hgap, trivial, hgap, .inl rfl, WrittenItem.forall_mem_empty⟩, WrittenItem.lineEnd_ok.weaken⟩, trivial⟩
  have hkept : smileyFunc.Kept ⟨[], none, ['\n']⟩ :=
    kept_of_readsBack WrittenItem.forall_mem_empty hok (h [] _ WrittenItem.forall_mem_empty hok) _ List.mem_cons_self
  exact absurd ((read_iff rfl []).mpr (hkept.body.2 rfl)) (by decide)

end Ilang
