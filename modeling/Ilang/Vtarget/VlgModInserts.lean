import Ilang.Vtarget.VlgMod

/-!
# What the modifier leaves of a file

A line with the texts that are put into it is a list of letters of the source and of items. Where every keep attribute finds its
declaration or port, and the parenthesis that closes a port list is the last one before the first semicolon of its line, a run
puts every item in once and leaves the letters of the source as they are.
-/

namespace Ilang.VlgMod

open WireNames (split)

/-! ### Lines with items -/

/-- A text that is put into a line. In the old style, a port is declared behind the line. -/
inductive Item
  | keep (k : KeepItem)
  | stmt (s : StmtItem)
  | assign (a : AssignItem)
  | decl (new : Bool) (d : WireItem)
  | declBody (d : WireItem)
  | inst (d : WireItem)

def KeepItem.mark (k : KeepItem) : Text := if k.isPort then portMark else lineMark

def Item.text : Item → Text
  | keep k => k.mark
  | stmt s => s.text
  | assign a => a.text
  | decl true d => newPort d.vname d.width
  | decl false d => oldPort d.vname
  | declBody d => oldDecl d.vname d.width
  | inst d => instPort d.vname

/-- A record that an item comes from. -/
inductive Record
  | keep (k : KeepItem)
  | stmt (s : StmtItem)
  | assign (a : AssignItem)
  | decl (d : WireItem)
  | inst (d : WireItem)

def Item.record? : Item → Option Record
  | keep k => some (.keep k)
  | stmt s => some (.stmt s)
  | assign a => some (.assign a)
  | decl _ d => some (.decl d)
  | declBody _ => none
  | inst d => some (.inst d)

/-- The ports in the old style, and the declarations behind the lines. -/
def Item.oldPort? : Item → Option WireItem
  | decl false d => some d
  | _ => none

def Item.body? : Item → Option WireItem
  | declBody d => some d
  | _ => none

abbrev Marked := List (Char ⊕ Item)

namespace Marked

/-- The line as it is written. -/
def text (L : Marked) : Text := L.flatMap (Sum.elim (fun c => [c]) Item.text)

/-- What is left when the items are erased. -/
def source (L : Marked) : Text := L.filterMap Sum.getLeft?

def items (L : Marked) : List Item := L.filterMap Sum.getRight?

def ofText (s : Text) : Marked := s.map Sum.inl

/-- In the line with the number `n`, ports and connections stand directly before the parentheses that close their lists. The line
starts with the column `col`. -/
def Placed (n : Nat) : Nat → Marked → Prop
  | _, [] => True
  | col, .inl _ :: L => Placed n (col + 1) L
  | col, .inr x :: L =>
    (∀ d, (∃ new, x = .decl new d) ∨ x = .inst d → d.close = (n, col) ∧ ∃ rest, source L = ')' :: rest) ∧ Placed n col L

@[simp] theorem text_nil : text [] = [] := rfl

@[simp] theorem source_nil : source [] = [] := rfl

@[simp] theorem items_nil : items [] = [] := rfl

@[simp] theorem text_append (L L' : Marked) : text (L ++ L') = text L ++ text L' := List.flatMap_append

@[simp] theorem source_append (L L' : Marked) : source (L ++ L') = source L ++ source L' := List.filterMap_append

@[simp] theorem items_append (L L' : Marked) : items (L ++ L') = items L ++ items L' := List.filterMap_append

@[simp] theorem text_inl (c : Char) (L : Marked) : text (Sum.inl c :: L) = c :: text L := rfl

@[simp] theorem text_inr (x : Item) (L : Marked) : text (Sum.inr x :: L) = x.text ++ text L := rfl

@[simp] theorem source_inl (c : Char) (L : Marked) : source (Sum.inl c :: L) = c :: source L := rfl

@[simp] theorem source_inr (x : Item) (L : Marked) : source (Sum.inr x :: L) = source L := rfl

@[simp] theorem items_inl (c : Char) (L : Marked) : items (Sum.inl c :: L) = items L := rfl

@[simp] theorem items_inr (x : Item) (L : Marked) : items (Sum.inr x :: L) = x :: items L := rfl

@[simp] theorem text_ofText (s : Text) : text (ofText s) = s := by
  induction s with
  | nil => rfl
  | cons c s ih => exact congrArg (c :: ·) ih

@[simp] theorem source_ofText (s : Text) : source (ofText s) = s := by
  induction s with
  | nil => rfl
  | cons c s ih => exact congrArg (c :: ·) ih

@[simp] theorem items_ofText (s : Text) : items (ofText s) = [] := by
  induction s with
  | nil => rfl
  | cons c s ih => exact ih

end Marked

/-! ### What is to be put in -/

/-- All records of a file. Keep attributes are put in only if the modifier is to do so. -/
def Records.all (R : Records) (addKeep : Bool) : List Record :=
  (if addKeep then R.keeps.map .keep else []) ++ R.stmts.map .stmt ++ R.assigns.map .assign ++ R.decls.map .decl ++
    R.insts.map .inst

/-- Each record gives one item, and each port in the old style is declared once. -/
def Emits (xs : List Item) (recs : List Record) : Prop :=
  (xs.filterMap Item.record?).Perm recs ∧ (xs.filterMap Item.body?).Perm (xs.filterMap Item.oldPort?)

/-- The lines are the source with the recorded items put in, and ports and connections are at the ends of their lists. -/
def OnlyInserts (addKeep : Bool) (R : Records) (n : Nat) (lines outs : List Text) : Prop :=
  ∃ Ls : List Marked, Ls.map Marked.source = lines ∧ Ls.map Marked.text = outs ∧
    Emits (Ls.flatMap Marked.items) (R.all addKeep) ∧ ∀ i L, Ls[i]? = some L → Marked.Placed (n + i) 0 L

/-- The records are in the order of their lines, from the line `n` on, with no two keep attributes for a line. -/
structure Records.Ordered (R : Records) (n : Nat) : Prop where
  keeps : R.keeps.Pairwise fun a b => a.lineno < b.lineno
  stmts : R.stmts.Pairwise fun a b => a.lineno ≤ b.lineno
  assigns : R.assigns.Pairwise fun a b => a.lineno ≤ b.lineno
  decls : R.decls.Pairwise fun a b => a.lineno ≤ b.lineno
  insts : R.insts.Pairwise fun a b => a.lineno ≤ b.lineno
  keepsFrom : ∀ k ∈ R.keeps, n ≤ k.lineno
  stmtsFrom : ∀ s ∈ R.stmts, n ≤ s.lineno
  assignsFrom : ∀ a ∈ R.assigns, n ≤ a.lineno

/-- The pieces between the letters `c` are not empty, and nothing follows the last `c`. -/
def Terminated (c : Char) (s : Text) : Prop :=
  (∀ w ∈ (s.splitOn c).dropLast, w ≠ []) ∧ (s.splitOn c).getLast? = some []

/-- The text that a keep attribute is for is found in the line, and the line is made of whole pieces. -/
def KeepFits (k : KeepItem) (line : Text) : Prop :=
  contains k.vname line = true ∧ if k.isPort = false then
    Terminated ';' (cutComment line).1 ∧ ∃ w ∈ split (cutComment line).1 ';', declares k.vname w = true
  else if '(' ∉ line ∧ ')' ∉ line ∧ ';' ∈ line then
    Terminated ';' line ∧ ∃ w ∈ split line ';', contains k.vname w = true
  else
    (')' ∈ line → '(' ∈ line → line.idxOf '(' < line.idxOf ')') ∧
      (∀ w ∈ ((portCut line).2.1.splitOn ',').dropLast, w ≠ []) ∧
      ∃ w ∈ split (portCut line).2.1 ',', k.vname ∈ words w

/-- The parenthesis that closes the list is the last one before the first semicolon. -/
def EndsList (n : Nat) (d : WireItem) (line : Text) : Prop :=
  ∃ a b c, line = a ++ ')' :: b ++ ';' :: c ∧ ';' ∉ a ∧ ')' ∉ b ∧ ';' ∉ b ∧ d.close = (n, a.length)

/-- What a line with the number `n` must be like for the records that are left. A port or connection waits for the first line with a
semicolon, which no statement is to bring in. -/
structure LineFits (addKeep : Bool) (n : Nat) (R : Records) (line : Text) : Prop where
  keep : addKeep = true → ∀ k ∈ R.keeps, k.lineno = n → KeepFits k line
  alone : (∃ d ∈ R.decls ++ R.insts, d.lineno ≤ n) →
    (∀ s ∈ R.stmts, s.lineno = n → ';' ∉ s.stmt) ∧ ∀ a ∈ R.assigns, a.lineno ≠ n
  ends : ';' ∈ line → ∀ d ∈ R.decls ++ R.insts, d.lineno ≤ n → EndsList n d line ∧ ';' ∉ d.vname

/-- The records that are left after a line. -/
def Records.after (R : Records) (n : Nat) (line : Text) : Records where
  keeps := R.keeps.filter fun k => n < k.lineno
  stmts := R.stmts.filter fun s => n < s.lineno
  assigns := R.assigns.filter fun a => n < a.lineno
  decls := if ';' ∈ line then R.decls.filter fun d => n < d.lineno else R.decls
  insts := if ';' ∈ line then R.insts.filter fun d => n < d.lineno else R.insts

/-- Every line fits the records that are left before it, and none is left at the end. -/
def Fits (addKeep : Bool) : Nat → Records → List Text → Prop
  | _, R, [] => R = ⟨[], [], [], [], []⟩
  | n, R, line :: lines => LineFits addKeep n R line ∧ Fits addKeep (n + 1) (R.after n line) lines

/-! ### Pieces of a line -/

/-- The pieces with a letter behind each. -/
def closed (c : Char) (ws : List Text) : Text := ws.flatMap fun w => w ++ [c]

theorem closed_append (c : Char) (ws ws' : List Text) : closed c (ws ++ ws') = closed c ws ++ closed c ws' :=
  List.flatMap_append

theorem closed_cons (c : Char) (w : Text) (ws : List Text) : closed c (w :: ws) = w ++ c :: closed c ws := by
  rw [closed, List.flatMap_cons, List.append_assoc]
  rfl

theorem join_append {c : Char} {ws ws' : List Text} (h : ws' ≠ []) : join (ws ++ ws') c = closed c ws ++ join ws' c := by
  induction ws with
  | nil => rfl
  | cons w ws ih =>
    have hne : ws ++ ws' ≠ [] := List.append_ne_nil_of_right_ne_nil ws h
    rw [List.cons_append, closed_cons, join, List.intercalate_cons_of_ne_nil hne, ← join, ih, List.append_assoc,
      List.append_assoc]
    rfl

theorem join_concat (c : Char) (ws : List Text) : join (ws ++ [[]]) c = closed c ws := by
  rw [join_append (List.cons_ne_nil _ _), join, List.intercalate_singleton, List.append_nil]

theorem join_closed {c : Char} {ws : List Text} (h : ws ≠ []) : join ws c ++ [c] = closed c ws := by
  obtain ⟨init, last, rfl⟩ := (List.eq_nil_or_concat' ws).resolve_left h
  rw [join_append (List.cons_ne_nil _ _), join, List.intercalate_singleton, closed_append, closed, closed, List.append_assoc]
  simp

theorem join_splitOn (c : Char) (s : Text) : join (s.splitOn c) c = s := List.intercalate_splitOn c

theorem closed_split {c : Char} {s : Text} (h : Terminated c s) : closed c (split s c) = s := by
  obtain ⟨hne, hlast⟩ := h
  have hpieces : s.splitOn c = (s.splitOn c).dropLast ++ [[]] := (List.dropLast_append_getLast? [] hlast).symm
  have hsplit : split s c = (s.splitOn c).dropLast := by
    rw [split, hpieces, List.filter_append, List.dropLast_concat, List.filter_eq_self.mpr]
    · simp
    · intro w hw
      simpa using hne w hw
  rw [hsplit, ← join_concat, ← hpieces, join_splitOn]

theorem exists_markFirst {p : Text → Bool} (mark : Text) {ws : List Text} (h : ∃ w ∈ ws, p w = true) :
    ∃ before w after, ws = before ++ w :: after ∧ markFirst p mark ws = before ++ (mark ++ w) :: after := by
  induction ws with
  | nil =>
    obtain ⟨w, hw, _⟩ := h
    cases hw
  | cons v ws ih =>
    rw [markFirst]
    cases hv : p v with
    | true => exact ⟨[], v, ws, rfl, by simp⟩
    | false =>
      obtain ⟨w, hw, hp⟩ := h
      have hin : ∃ w ∈ ws, p w = true := by
        cases List.mem_cons.mp hw with
        | inl heq =>
          rw [heq, hv] at hp
          cases hp
        | inr hin => exact ⟨w, hin, hp⟩
      obtain ⟨before, w, after, hws, hmark⟩ := ih hin
      refine ⟨v :: before, w, after, by rw [hws]; rfl, ?_⟩
      rw [if_neg (by simp), hmark]
      rfl

theorem cutComment_append (s : Text) : (cutComment s).1 ++ (cutComment s).2 = s := by
  induction s with
  | nil => rfl
  | cons c s ih =>
    rw [cutComment]
    split
    · rfl
    · exact congrArg (c :: ·) ih

/-- Where a mark goes: behind a semicolon, or before every parenthesis that closes. -/
def MarkedAt (mark line out : Text) : Prop :=
  ∃ u v, line = u ++ v ∧ out = u ++ mark ++ v ∧ (';' ∈ u ∨ ')' ∉ u)

theorem markedAt_closed {p : Text → Bool} (mark : Text) {ws : List Text} (h : ∃ w ∈ ws, p w = true) (rest : Text) :
    MarkedAt mark (closed ';' ws ++ rest) (closed ';' (markFirst p mark ws) ++ rest) := by
  obtain ⟨before, w, after, hws, hmark⟩ := exists_markFirst mark h
  refine ⟨closed ';' before, w ++ ';' :: closed ';' after ++ rest, ?_, ?_, ?_⟩
  · rw [hws, closed_append, closed_cons]
    simp only [List.append_assoc]
  · rw [hmark, closed_append, closed_cons]
    simp only [List.append_assoc]
  · cases before with
    | nil => exact .inr (by simp [closed])
    | cons v before =>
      left
      rw [closed_cons]
      simp

theorem markFirst_ne_nil (p : Text → Bool) (mark : Text) {ws : List Text} (h : ws ≠ []) : markFirst p mark ws ≠ [] := by
  cases ws with
  | nil => exact absurd rfl h
  | cons w ws =>
    rw [markFirst]
    split
    · exact List.cons_ne_nil _ _
    · exact List.cons_ne_nil _ _

/-! ### Keep attributes -/

theorem addKeepToALine_marked {line vname : Text} (hin : contains vname line = true)
    (hcode : Terminated ';' (cutComment line).1) (hdecl : ∃ w ∈ split (cutComment line).1 ';', declares vname w = true) :
    MarkedAt lineMark line (addKeepToALine line vname) := by
  have hne : split (cutComment line).1 ';' ≠ [] := by
    obtain ⟨w, hw, _⟩ := hdecl
    exact List.ne_nil_of_mem hw
  have hmark := markFirst_ne_nil (declares vname) lineMark hne
  have hmarked := markedAt_closed lineMark hdecl (cutComment line).2
  rw [closed_split hcode, cutComment_append] at hmarked
  rw [addKeepToALine, hin, if_neg (by simp)]
  simp only [List.isEmpty_iff, if_neg hmark, join_closed hmark]
  exact hmarked

theorem portCut_append {line : Text} (h : ')' ∈ line → '(' ∈ line → line.idxOf '(' < line.idxOf ')') :
    (portCut line).1 ++ (portCut line).2.1 ++ (portCut line).2.2 = line ∧ ')' ∉ (portCut line).1 ++ (portCut line).2.1 := by
  have hle : ')' ∈ line → (if '(' ∈ line then line.idxOf '(' + 1 else 0) ≤ line.idxOf ')' := by
    intro hclose
    split
    · rename_i hopen
      exact h hclose hopen
    · exact Nat.zero_le _
  rw [portCut]
  generalize (if '(' ∈ line then line.idxOf '(' + 1 else 0) = leftP at hle
  by_cases hclose : ')' ∈ line
  · have hcond : ')' ∈ line ∧ leftP ≤ line.idxOf ')' := ⟨hclose, hle hclose⟩
    have hupto : line.take leftP ++ (line.drop leftP).take (line.idxOf ')' - leftP) = line.take (line.idxOf ')') := by
      rw [← List.take_add, Nat.add_sub_cancel' hcond.2]
    simp only [if_pos hcond, hupto, List.take_append_drop, true_and]
    intro hmem
    exact absurd ((List.mem_take_iff_idxOf_lt hclose).mp hmem) (lt_irrefl _)
  · have hnot : ¬ (')' ∈ line ∧ leftP ≤ line.idxOf ')') := fun hcond => hclose hcond.1
    have hdrop : line.drop (line.idxOf ')') = [] := by
      rw [List.idxOf_eq_length hclose, List.drop_length]
    simp only [if_neg hnot, List.take_append_drop, hdrop, List.append_nil, true_and]
    exact hclose

/-- A piece of the middle of a line with ports is marked. A comma at the end of the middle is kept. -/
theorem exists_marked_middle {p : Text → Bool} (mark : Text) {mid : Text} (hfull : ∀ w ∈ (mid.splitOn ',').dropLast, w ≠ [])
    (hport : ∃ w ∈ split mid ',', p w = true) :
    ∃ u v, mid = u ++ v ∧
      (if mid.getLast? = some ',' then join (markFirst p mark (split mid ',')) ',' ++ [',']
        else join (markFirst p mark (split mid ',')) ',') = u ++ mark ++ v := by
  obtain ⟨before, w, after, hsplit, hmark⟩ := exists_markFirst mark hport
  by_cases hcomma : mid.getLast? = some ','
  · have hmid : mid = mid.dropLast ++ [','] := (List.dropLast_append_getLast? ',' hcomma).symm
    have hpieces : mid.splitOn ',' = mid.dropLast.splitOn ',' ++ [[]] := by
      conv_lhs => rw [hmid]
      exact List.splitOn_append_cons_self _ _
    have hall : split mid ',' = mid.dropLast.splitOn ',' := by
      rw [hpieces, List.dropLast_concat] at hfull
      rw [split, hpieces, List.filter_append, List.filter_eq_self.mpr]
      · simp
      · intro w hw
        simpa using hfull w hw
    have hclosed : mid = closed ',' (split mid ',') := by
      rw [hall, ← join_concat, ← hpieces, join_splitOn]
    have hne : before ++ (mark ++ w) :: after ≠ [] := List.append_ne_nil_of_right_ne_nil _ (List.cons_ne_nil _ _)
    refine ⟨closed ',' before, w ++ ',' :: closed ',' after, ?_, ?_⟩
    · rw [hclosed, hsplit, closed_append, closed_cons]
    · rw [if_pos hcomma, hmark, join_closed hne, closed_append, closed_cons]
      simp only [List.append_assoc]
  · have hlast : (mid.splitOn ',').getLast? ≠ some [] := by
      intro hlast
      have hpieces := (List.dropLast_append_getLast? [] hlast).symm
      have hmid : mid = closed ',' (mid.splitOn ',').dropLast := by
        rw [← join_concat, ← hpieces, join_splitOn]
      by_cases hnil : (mid.splitOn ',').dropLast = []
      · rw [hnil] at hmid
        rw [hmid] at hsplit
        exact absurd hsplit.symm (by simp [closed, split])
      · rw [← join_closed hnil] at hmid
        exact hcomma (by rw [hmid, List.getLast?_concat])
    have hall : split mid ',' = mid.splitOn ',' := by
      rw [split, List.filter_eq_self]
      intro w hw
      have hpieces := List.dropLast_append_getLast (List.splitOn_ne_nil ',' mid)
      rw [← hpieces] at hw
      cases List.mem_append.mp hw with
      | inl hinit => simpa using hfull w hinit
      | inr hend =>
        rw [List.mem_singleton.mp hend]
        rw [List.getLast?_eq_some_getLast (List.splitOn_ne_nil ',' mid)] at hlast
        simpa using hlast
    refine ⟨closed ',' before, join (w :: after) ',', ?_, ?_⟩
    · rw [← join_append (List.cons_ne_nil _ _), ← hsplit, hall, join_splitOn]
    · rw [if_neg hcomma, hmark, join_append (List.cons_ne_nil _ _), List.append_assoc]
      cases after with
      | nil => simp [join]
      | cons x after => simp [join]

theorem addKeepToPort_marked {line vname : Text} {k : KeepItem} (hk : k.vname = vname) (hport : k.isPort = true)
    (hfits : KeepFits k line) : ∃ out, addKeepToPort line vname = some out ∧ MarkedAt portMark line out := by
  obtain ⟨hin, hfits⟩ := hfits
  rw [hk] at hin hfits
  rw [if_neg (by simp [hport])] at hfits
  rw [addKeepToPort, hin, if_neg (by simp)]
  by_cases hdecl : '(' ∉ line ∧ ')' ∉ line ∧ ';' ∈ line
  · rw [if_pos hdecl] at hfits ⊢
    obtain ⟨hline, hpiece⟩ := hfits
    have hne : split line ';' ≠ [] := by
      obtain ⟨w, hw, _⟩ := hpiece
      exact List.ne_nil_of_mem hw
    have hmark := markFirst_ne_nil (contains vname) portMark hne
    refine ⟨_, rfl, ?_⟩
    have hmarked := markedAt_closed portMark hpiece []
    rw [List.append_nil, List.append_nil, closed_split hline] at hmarked
    rwa [join_closed hmark]
  · rw [if_neg hdecl] at hfits ⊢
    obtain ⟨horder, hfull, w, hw, hword⟩ := hfits
    obtain ⟨hcut, hclose⟩ := portCut_append horder
    have hpiece : ∃ w ∈ split (portCut line).2.1 ',', (fun w => (words w).contains vname) w = true :=
      ⟨w, hw, by simpa using hword⟩
    obtain ⟨u, v, hmid, hmark⟩ := exists_marked_middle portMark hfull hpiece
    have hany : ((split (portCut line).2.1 ',').any fun w => (words w).contains vname) = true := List.any_eq_true.mpr hpiece
    refine ⟨(portCut line).1 ++ (u ++ portMark ++ v) ++ (portCut line).2.2, ?_, (portCut line).1 ++ u,
      v ++ (portCut line).2.2, ?_, ?_, ?_⟩
    · rw [← hmark]
      simp only [hcut, if_true, hany]
    · rw [← List.append_assoc, List.append_assoc (portCut line).1, ← hmid, hcut]
    · simp only [List.append_assoc]
    · right
      rw [hmid, ← List.append_assoc] at hclose
      exact fun hmem => hclose (List.mem_append_left v hmem)

theorem addKeepTo_marked {M : Modifier} {k : KeepItem} {line : Text} (hkeep : M.addKeep = true) (hfits : KeepFits k line) :
    ∃ out, M.addKeepTo k line = some out ∧ MarkedAt k.mark line out := by
  rw [Modifier.addKeepTo, if_pos hkeep, KeepItem.mark]
  cases hport : k.isPort with
  | true =>
    obtain ⟨out, hout, hmarked⟩ := addKeepToPort_marked rfl hport hfits
    exact ⟨out, by simpa using hout, by simpa using hmarked⟩
  | false =>
    obtain ⟨hin, hfits⟩ := hfits
    rw [if_pos hport] at hfits
    exact ⟨_, rfl, addKeepToALine_marked hin hfits.1 hfits.2⟩

/-! ### Where ports go -/

/-- The parenthesis in the column `col` is the last one that closes before the first semicolon. -/
def EndsAt (col : Nat) (L : Marked) : Prop :=
  ∃ A B C : Marked, L = A ++ .inl ')' :: (B ++ .inl ';' :: C) ∧ ';' ∉ A.text ∧ ')' ∉ B.text ∧ ';' ∉ B.text ∧
    A.source.length = col

/-- The port or connection that an item is. -/
def Item.IsWire (x : Item) (d : WireItem) : Prop := (∃ new, x = .decl new d) ∨ x = .inst d

namespace Marked

theorem ofText_append (s t : Text) : ofText (s ++ t) = ofText s ++ ofText t := List.map_append

theorem ofText_cons (c : Char) (s : Text) : ofText (c :: s) = .inl c :: ofText s := rfl

theorem placed_of_no_wires {n : Nat} {L : Marked} (h : ∀ x ∈ L.items, ∀ d, ¬ x.IsWire d) (col : Nat) : Placed n col L := by
  induction L generalizing col with
  | nil => trivial
  | cons y L ih =>
    cases y with
    | inl c => exact ih h (col + 1)
    | inr x =>
      have hx : ∀ d, ¬ x.IsWire d := h x List.mem_cons_self
      exact ⟨fun d hd => absurd hd (hx d), ih (fun y hy => h y (List.mem_cons_of_mem x hy)) col⟩

theorem Placed.insert {n col : Nat} {A B : Marked} {x : Item} (h : Placed n col (A ++ B))
    (hx : ∀ d, x.IsWire d → d.close = (n, col + (source A).length) ∧ ∃ rest, source B = ')' :: rest) :
    Placed n col (A ++ .inr x :: B) := by
  induction A generalizing col with
  | nil => exact ⟨hx, h⟩
  | cons y A ih =>
    cases y with
    | inl c =>
      apply ih h
      intro d hd
      have hclose := hx d hd
      rwa [source_inl, List.length_cons, Nat.add_comm (source A).length, ← Nat.add_assoc] at hclose
    | inr y =>
      refine ⟨fun d hd => ?_, ih h.2 hx⟩
      have hold := h.1 d hd
      change _ ∧ ∃ rest, source (A ++ .inr x :: B) = ')' :: rest
      rwa [source_append, source_inr, ← source_append]

theorem Placed.append {n col : Nat} {L T : Marked} (h : Placed n col L) (hT : ∀ x ∈ T.items, ∀ d, ¬ x.IsWire d) :
    Placed n col (L ++ T) := by
  induction L generalizing col with
  | nil => exact placed_of_no_wires hT col
  | cons y L ih =>
    cases y with
    | inl c => exact ih h
    | inr y =>
      refine ⟨fun d hd => ?_, ih h.2⟩
      obtain ⟨hclose, rest, hrest⟩ := h.1 d hd
      refine ⟨hclose, rest ++ T.source, ?_⟩
      change source (L ++ T) = _
      rw [source_append, hrest]
      rfl

theorem Placed.prepend {n : Nat} {P L : Marked} (h : Placed n 0 L) (hsource : P.source = [])
    (hP : ∀ x ∈ P.items, ∀ d, ¬ x.IsWire d) : Placed n 0 (P ++ L) := by
  induction P with
  | nil => exact h
  | cons y P ih =>
    cases y with
    | inl c => cases hsource
    | inr x =>
      have hx : ∀ d, ¬ x.IsWire d := hP x List.mem_cons_self
      exact ⟨fun d hd => absurd hd (hx d), ih hsource fun y hy => hP y (List.mem_cons_of_mem x hy)⟩

theorem items_insert (A B : Marked) (x : Item) : (items (A ++ .inr x :: B)).Perm (x :: items (A ++ B)) := by
  rw [items_append, items_inr, items_append]
  exact List.perm_middle

end Marked

theorem leftOfParen_eq {a b c : Text} (ha : ';' ∉ a) (hclose : ')' ∉ b) (hb : ';' ∉ b) :
    leftOfParen (a ++ ')' :: (b ++ ';' :: c)) = some a := by
  have hne : ∀ {s : Text}, ';' ∉ s → ∀ d ∈ s, (d != ';') = true := fun hs d hd => bne_iff_ne.mpr fun heq => hs (heq ▸ hd)
  have hupto : (a ++ ')' :: (b ++ ';' :: c)).takeWhile (fun d => d != ';') = a ++ ')' :: b := by
    rw [List.takeWhile_append_of_pos (hne ha), List.takeWhile_cons_of_pos (by decide),
      List.takeWhile_append_of_pos (hne hb), List.takeWhile_cons_of_neg (by decide), List.append_nil]
  have hreverse : (a ++ ')' :: b).reverse = b.reverse ++ ')' :: a.reverse := by simp
  have hclosing : ∀ d ∈ b.reverse, (d != ')') = true := by
    intro d hd
    exact bne_iff_ne.mpr fun heq => hclose (heq ▸ List.mem_reverse.mp hd)
  have hmem : ')' ∈ a ++ ')' :: b := by simp
  simp only [leftOfParen, hupto]
  rw [if_pos hmem, hreverse, List.dropWhile_append_of_pos hclosing, List.dropWhile_cons_of_neg (by decide), List.tail_cons,
    List.reverse_reverse]

theorem EndsAt.insert {n col : Nat} {L : Marked} (h : EndsAt col L) (hplaced : L.Placed n 0) {x : Item}
    (hsemi : ';' ∉ x.text) (hclose : ∀ d, x.IsWire d → d.close = (n, col)) {T : Marked} (hsource : T.source = [])
    (hT : ∀ y ∈ T.items, ∀ d, ¬ y.IsWire d) :
    ∃ (left right : Text) (L' : Marked), L.text = left ++ right ∧ ';' ∈ L.text ∧ leftOfParen L.text = some left ∧
      L'.text = left ++ x.text ++ right ++ T.text ∧ L'.source = L.source ∧ EndsAt col L' ∧ L'.Placed n 0 ∧
      L'.items.Perm (x :: T.items ++ L.items) := by
  obtain ⟨A, B, C, rfl, hA, hBclose, hB, hcol⟩ := h
  have htext : Marked.text (A ++ .inl ')' :: (B ++ .inl ';' :: C)) = A.text ++ ')' :: (B.text ++ ';' :: C.text) := by
    simp only [Marked.text_append, Marked.text_inl]
  refine ⟨A.text, ')' :: (B.text ++ ';' :: C.text), A ++ .inr x :: (.inl ')' :: (B ++ .inl ';' :: C)) ++ T, htext, ?_, ?_, ?_,
    ?_, ?_, ?_, ?_⟩
  · rw [htext]
    simp
  · rw [htext, leftOfParen_eq hA hBclose hB]
  · simp only [Marked.text_append, Marked.text_inl, Marked.text_inr, List.append_assoc]
  · rw [Marked.source_append, hsource, List.append_nil, Marked.source_append, Marked.source_append, Marked.source_inr]
  · refine ⟨A ++ [.inr x], B, C ++ T, by simp, ?_, hBclose, hB, ?_⟩
    · rw [Marked.text_append]
      intro hmem
      cases List.mem_append.mp hmem with
      | inl hin => exact hA hin
      | inr hin => exact hsemi (by simpa using hin)
    · rw [Marked.source_append, List.length_append, hcol]
      rfl
  · apply Marked.Placed.append _ hT
    apply hplaced.insert
    intro d hd
    rw [Nat.zero_add, hcol]
    exact ⟨hclose d hd, _, rfl⟩
  · rw [Marked.items_append]
    have hperm := (Marked.items_insert A (.inl ')' :: (B ++ .inl ';' :: C)) x).append_right T.items
    refine hperm.trans ?_
    rw [List.cons_append, List.cons_append]
    exact List.Perm.cons x List.perm_append_comm

/-! ### One loop at a time -/

theorem endsAt_ofText {n : Nat} {d : WireItem} {line : Text} (h : EndsList n d line) :
    ∃ col, d.close = (n, col) ∧ EndsAt col (Marked.ofText line) ∧ ∃ left, leftOfParen line = some left ∧ left.length = col := by
  obtain ⟨a, b, c, hline, ha, hbclose, hb, hclose⟩ := h
  have hshape : line = a ++ ')' :: (b ++ ';' :: c) := by
    rw [hline, List.append_assoc, List.cons_append]
  refine ⟨a.length, hclose, ⟨Marked.ofText a, Marked.ofText b, Marked.ofText c, ?_, ?_, ?_, ?_, ?_⟩, a, ?_, rfl⟩
  · rw [hshape, Marked.ofText_append, Marked.ofText_cons, Marked.ofText_append, Marked.ofText_cons]
  · rwa [Marked.text_ofText]
  · rwa [Marked.text_ofText]
  · rwa [Marked.text_ofText]
  · rw [Marked.source_ofText]
  · rw [hshape]
    exact leftOfParen_eq ha hbclose hb

theorem exists_endsAt {n : Nat} {ds : List WireItem} {line : Text} (hsome : ds ≠ []) (h : ∀ d ∈ ds, EndsList n d line) :
    ∃ col, EndsAt col (Marked.ofText line) ∧ ∀ d ∈ ds, d.close = (n, col) := by
  obtain ⟨d, ds', rfl⟩ := List.exists_cons_of_ne_nil hsome
  obtain ⟨col, _, hends, left, hleft, hlen⟩ := endsAt_ofText (h d List.mem_cons_self)
  refine ⟨col, hends, fun e he => ?_⟩
  obtain ⟨col', hclose, _, left', hleft', hlen'⟩ := endsAt_ofText (h e he)
  have heq : left = left' := Option.some.inj (hleft.symm.trans hleft')
  rw [hclose, ← hlen, ← hlen', heq]

theorem EndsAt.mark {col : Nat} {u v : Text} {x : Item} (hx : ';' ∉ x.text) (hu : ';' ∈ u ∨ ')' ∉ u)
    (h : EndsAt col (Marked.ofText (u ++ v))) : EndsAt col (Marked.ofText u ++ .inr x :: Marked.ofText v) := by
  obtain ⟨A, B, C, hline, hA, hBclose, hB, hcol⟩ := h
  rw [Marked.ofText_append] at hline
  cases hu with
  | inl hsemi =>
    -- the attribute stands behind the semicolon
    have hsplit : Marked.ofText u ++ Marked.ofText v = (A ++ .inl ')' :: B) ++ .inl ';' :: C := by
      rw [hline, List.append_assoc, List.cons_append]
    have hnone : ';' ∉ Marked.text (A ++ .inl ')' :: B) := by
      rw [Marked.text_append, Marked.text_inl]
      simp [hA, hB]
    rcases List.append_eq_append_iff.mp hsplit with ⟨t, hfront, -⟩ | ⟨t, hfront, hback⟩
    · rw [hfront, Marked.text_append, Marked.text_ofText] at hnone
      exact absurd (List.mem_append_left _ hsemi) hnone
    · cases t with
      | nil =>
        rw [List.append_nil] at hfront
        rw [← hfront, Marked.text_ofText] at hnone
        exact absurd hsemi hnone
      | cons y t =>
        obtain ⟨rfl, rfl⟩ := List.cons.inj hback
        refine ⟨A, B, t ++ .inr x :: Marked.ofText v, ?_, hA, hBclose, hB, hcol⟩
        rw [hfront]
        simp only [List.append_assoc, List.cons_append]
  | inr hopen =>
    -- the attribute stands before the parenthesis
    rcases List.append_eq_append_iff.mp hline with ⟨t, rfl, hback⟩ | ⟨t, hfront, hback⟩
    · refine ⟨Marked.ofText u ++ .inr x :: t, B, C, ?_, ?_, hBclose, hB, ?_⟩
      · rw [hback]
        simp only [List.append_assoc, List.cons_append]
      · rw [Marked.text_append] at hA ⊢
        rw [Marked.text_inr]
        intro hmem
        cases List.mem_append.mp hmem with
        | inl hin => exact hA (List.mem_append_left _ hin)
        | inr hin =>
          cases List.mem_append.mp hin with
          | inl hmark => exact hx hmark
          | inr htail => exact hA (List.mem_append_right _ htail)
      · rw [Marked.source_append, Marked.source_inr, ← Marked.source_append, hcol]
    · cases t with
      | nil =>
        rw [List.append_nil] at hfront
        refine ⟨A ++ [.inr x], B, C, ?_, ?_, hBclose, hB, ?_⟩
        · rw [hfront, ← List.nil_append (Marked.ofText v), ← hback]
          simp only [List.append_assoc, List.cons_append, List.nil_append]
        · rw [Marked.text_append]
          simp [hA, hx]
        · rw [Marked.source_append]
          simpa using hcol
      | cons y t =>
        obtain ⟨rfl, -⟩ := List.cons.inj hback
        have htext : u = A.text ++ ')' :: Marked.text t := by
          rw [← Marked.text_ofText u, hfront, Marked.text_append, Marked.text_inl]
        exact absurd (by rw [htext]; simp) hopen

theorem semi_notMem_mark (k : KeepItem) : ';' ∉ k.mark := by
  rw [KeepItem.mark]
  split
  · decide
  · decide

theorem keepLoop_later {M : Modifier} {n : Nat} {ks : List KeepItem} (h : ∀ k ∈ ks, n < k.lineno) (line : Text) :
    M.keepLoop n ks line = some (line, ks) := by
  cases ks with
  | nil => rfl
  | cons k ks => rw [Modifier.keepLoop, if_neg (Nat.ne_of_lt (h k List.mem_cons_self))]

/-- The keep attributes that a line gets. -/
def Records.keepsAt (R : Records) (addKeep : Bool) (n : Nat) : List KeepItem :=
  if addKeep then R.keeps.filter fun k => !decide (n < k.lineno) else []

theorem keepLoop_spec {M : Modifier} {R : Records} {n : Nat} {line : Text} (hR : R.Ordered n)
    (hfits : M.addKeep = true → ∀ k ∈ R.keeps, k.lineno = n → KeepFits k line) :
    ∃ L : Marked, M.keepLoop n R.keeps line = some (L.text, R.keeps.filter fun k => n < k.lineno) ∧ L.source = line ∧
      L.items = (R.keepsAt M.addKeep n).map .keep ∧ (';' ∈ L.text ↔ ';' ∈ line) ∧
        ∀ col, EndsAt col (Marked.ofText line) → EndsAt col L := by
  obtain ⟨hsorted, hfrom⟩ := And.intro hR.keeps hR.keepsFrom
  rw [Records.keepsAt]
  generalize R.keeps = ks at hsorted hfrom hfits
  have hnone : ∀ ks : List KeepItem, (∀ k ∈ ks, n < k.lineno) →
      (ks.filter fun k => n < k.lineno) = ks ∧ (ks.filter fun k => !decide (n < k.lineno)) = [] := by
    intro ks hlater
    refine ⟨List.filter_eq_self.mpr fun k hk => by simpa using hlater k hk, List.filter_eq_nil_iff.mpr fun k hk => ?_⟩
    simpa using hlater k hk
  by_cases hdue : ∃ k ∈ ks, k.lineno = n
  · cases ks with
    | nil =>
      obtain ⟨k, hk, _⟩ := hdue
      cases hk
    | cons k ks =>
      obtain ⟨hfirst, _⟩ := List.pairwise_cons.mp hsorted
      have hk : k.lineno = n := by
        obtain ⟨k', hk', heq⟩ := hdue
        cases List.mem_cons.mp hk' with
        | inl hsame => rwa [← hsame]
        | inr hin =>
          have hlt := hfirst k' hin
          have hle := hfrom k List.mem_cons_self
          omega
      have hlater : ∀ k' ∈ ks, n < k'.lineno := fun k' hk' => hk ▸ hfirst k' hk'
      obtain ⟨hrest, hgone⟩ := hnone ks hlater
      have hafter : ((k :: ks).filter fun k => n < k.lineno) = ks := by
        rw [List.filter_cons_of_neg (by simp [hk]), hrest]
      have hat : ((k :: ks).filter fun k => !decide (n < k.lineno)) = [k] := by
        rw [List.filter_cons_of_pos (by simp [hk]), hgone]
      rw [hafter, hat, Modifier.keepLoop, if_pos hk.symm]
      cases hadd : M.addKeep with
      | false =>
        refine ⟨Marked.ofText line, ?_, Marked.source_ofText line, Marked.items_ofText line, ?_, fun _ h => h⟩
        · rw [Modifier.addKeepTo, if_neg (by simp [hadd]), Option.bind_some, keepLoop_later hlater, Marked.text_ofText]
        · rw [Marked.text_ofText]
      | true =>
        obtain ⟨out, hout, u, v, hline, rfl, hu⟩ := addKeepTo_marked hadd (hfits hadd k List.mem_cons_self hk)
        have htext : Marked.text (Marked.ofText u ++ .inr (.keep k) :: Marked.ofText v) = u ++ k.mark ++ v := by
          rw [Marked.text_append, Marked.text_inr, Marked.text_ofText, Marked.text_ofText, Item.text, List.append_assoc]
        refine ⟨Marked.ofText u ++ .inr (.keep k) :: Marked.ofText v, ?_, ?_, ?_, ?_, ?_⟩
        · rw [hout, Option.bind_some, keepLoop_later hlater, htext]
        · rw [Marked.source_append, Marked.source_inr, Marked.source_ofText, Marked.source_ofText, hline]
        · simp
        · rw [htext, hline]
          simp [semi_notMem_mark]
        · intro col hends
          rw [hline] at hends
          exact hends.mark (semi_notMem_mark k) hu
  · have hlater : ∀ k ∈ ks, n < k.lineno :=
      fun k hk => lt_of_le_of_ne (hfrom k hk) fun heq => hdue ⟨k, hk, heq.symm⟩
    obtain ⟨hrest, hgone⟩ := hnone ks hlater
    rw [hrest, hgone, keepLoop_later hlater]
    refine ⟨Marked.ofText line, by rw [Marked.text_ofText], Marked.source_ofText line, ?_, by rw [Marked.text_ofText],
      fun _ h => h⟩
    rw [Marked.items_ofText]
    split
    · rfl
    · rfl

theorem semi_notMem_of_items {P : Marked} (hsource : P.source = []) (h : ∀ x ∈ P.items, ';' ∉ x.text) : ';' ∉ P.text := by
  induction P with
  | nil => simp
  | cons y P ih =>
    cases y with
    | inl c => cases hsource
    | inr x =>
      rw [Marked.text_inr]
      intro hmem
      cases List.mem_append.mp hmem with
      | inl hin => exact h x List.mem_cons_self hin
      | inr hin => exact ih hsource (fun y hy => h y (List.mem_cons_of_mem x hy)) hin

theorem EndsAt.prepend {col : Nat} {P L : Marked} (h : EndsAt col L) (hsource : P.source = []) (hsemi : ';' ∉ P.text) :
    EndsAt col (P ++ L) := by
  obtain ⟨A, B, C, rfl, hA, hBclose, hB, hcol⟩ := h
  refine ⟨P ++ A, B, C, by rw [List.append_assoc], ?_, hBclose, hB, ?_⟩
  · rw [Marked.text_append]
    intro hmem
    cases List.mem_append.mp hmem with
    | inl hin => exact hsemi hin
    | inr hin => exact hA hin
  · rw [Marked.source_append, hsource, List.nil_append, hcol]

theorem prependLoop_spec {α : Type} {linenoOf : α → Nat} (text : α → Text) (mk : α → Item) (htext : ∀ x, (mk x).text = text x)
    {n : Nat} {xs : List α} (hsorted : xs.Pairwise fun x y => linenoOf x ≤ linenoOf y) (hfrom : ∀ x ∈ xs, n ≤ linenoOf x)
    (line : Text) :
    ∃ P : Marked, prependLoop linenoOf text n xs line = (P.text ++ line, xs.filter fun x => n < linenoOf x) ∧
      P.source = [] ∧ P.items.Perm ((xs.filter fun x => !decide (n < linenoOf x)).map mk) := by
  induction xs generalizing line with
  | nil => exact ⟨[], rfl, rfl, List.Perm.refl _⟩
  | cons x xs ih =>
    obtain ⟨hfirst, hrest⟩ := List.pairwise_cons.mp hsorted
    rw [prependLoop]
    by_cases hx : n = linenoOf x
    · obtain ⟨P, hP, hsource, hitems⟩ := ih hrest (fun y hy => hfrom y (List.mem_cons_of_mem x hy)) (text x ++ line)
      refine ⟨P ++ [.inr (mk x)], ?_, ?_, ?_⟩
      · rw [if_pos hx, hP, List.filter_cons_of_neg (by simp [hx]), Marked.text_append, List.append_assoc]
        simp [htext]
      · rw [Marked.source_append, hsource]
        rfl
      · rw [List.filter_cons_of_pos (by simp [hx]), Marked.items_append, List.map_cons]
        exact List.perm_append_comm.trans (List.Perm.cons (mk x) hitems)
    · have hlater : ∀ y ∈ x :: xs, n < linenoOf y := by
        intro y hy
        have hlt : n < linenoOf x := lt_of_le_of_ne (hfrom x List.mem_cons_self) hx
        cases List.mem_cons.mp hy with
        | inl heq => rwa [heq]
        | inr hin => exact lt_of_lt_of_le hlt (hfirst y hin)
      refine ⟨[], ?_, rfl, ?_⟩
      · rw [if_neg hx, List.filter_eq_self.mpr fun y hy => by simpa using hlater y hy]
        rfl
      · rw [List.filter_eq_nil_iff.mpr fun y hy => by simpa using hlater y hy]
        exact List.Perm.refl _

theorem Emits.append {xs ys : List Item} {r r' : List Record} (hx : Emits xs r) (hy : Emits ys r') :
    Emits (xs ++ ys) (r ++ r') := by
  unfold Emits at *
  simp only [List.filterMap_append]
  exact ⟨hx.1.append hy.1, hx.2.append hy.2⟩

theorem Emits.perm {xs ys : List Item} {r r' : List Record} (hx : Emits xs r) (hitems : xs.Perm ys) (hrecs : r.Perm r') :
    Emits ys r' :=
  ⟨(hitems.symm.filterMap _).trans (hx.1.trans hrecs),
    (hitems.symm.filterMap _).trans (hx.2.trans (hitems.filterMap _))⟩

theorem emits_map {α : Type} (mk : α → Item) (rec : α → Record) (hrec : ∀ x, (mk x).record? = some (rec x))
    (hold : ∀ x, (mk x).oldPort? = none) (hbody : ∀ x, (mk x).body? = none) (xs : List α) :
    Emits (xs.map mk) (xs.map rec) := by
  induction xs with
  | nil => exact ⟨List.Perm.refl _, List.Perm.refl _⟩
  | cons x xs ih =>
    have hhead : Emits [mk x] [rec x] := by
      rw [Emits, List.filterMap_cons_some (hrec x), List.filterMap_cons_none (hold x), List.filterMap_cons_none (hbody x)]
      exact ⟨List.Perm.refl _, List.Perm.refl _⟩
    exact hhead.append ih

theorem semi_notMem_widthToRange (w : Nat) : ';' ∉ widthToRange w := by
  have hdigits : ';' ∉ Nat.toDigits 10 (w - 1) := by
    intro hmem
    have hdigit : Char.isDigit ';' = true := Nat.isDigit_of_mem_toDigits (by omega) (by omega) hmem
    exact absurd hdigit (by decide)
  rw [widthToRange]
  split
  · simp [hdigits]
  · exact List.not_mem_nil

theorem semi_notMem_append {s t : Text} (hs : ';' ∉ s) (ht : ';' ∉ t) : ';' ∉ s ++ t := by
  rw [List.mem_append, not_or]
  exact ⟨hs, ht⟩

theorem semi_notMem_cons {c : Char} {s : Text} (hc : ';' ≠ c) (hs : ';' ∉ s) : ';' ∉ c :: s := by
  rw [List.mem_cons, not_or]
  exact ⟨hc, hs⟩

theorem semi_notMem_decl {d : WireItem} (h : ';' ∉ d.vname) (new : Bool) : ';' ∉ (Item.decl new d).text := by
  cases new with
  | true =>
    have hlead : ';' ∉ ", output wire ".toList := by decide
    exact semi_notMem_append (semi_notMem_append hlead (semi_notMem_widthToRange d.width)) (semi_notMem_cons (by decide) h)
  | false =>
    have hlead : ';' ∉ ", ".toList := by decide
    exact semi_notMem_append hlead h

theorem semi_notMem_inst {d : WireItem} (h : ';' ∉ d.vname) : ';' ∉ (Item.inst d).text := by
  have hlead : ';' ∉ " ,.".toList := by decide
  have hclose : ';' ∉ [')'] := by decide
  exact semi_notMem_append (semi_notMem_append (semi_notMem_append hlead h) (semi_notMem_cons (by decide) h)) hclose

/-! ### Ports and connections -/

/-- A line as it is before ports and connections are put in: the parenthesis in the column `col` closes the list. -/
structure Ready (n col : Nat) (L : Marked) : Prop where
  ends : EndsAt col L
  placed : L.Placed n 0

/-- Ports and connections of records are put into the line, and nothing else changes. -/
structure Puts (n col : Nat) (L L' : Marked) (recs : List Record) : Prop where
  ready : Ready n col L'
  source : L'.source = L.source
  items : ∃ xs, L'.items.Perm (xs ++ L.items) ∧ Emits xs recs

theorem Puts.refl {n col : Nat} {L : Marked} (h : Ready n col L) : Puts n col L L [] :=
  ⟨h, rfl, [], List.Perm.refl _, List.Perm.refl _, List.Perm.refl _⟩

theorem Puts.trans {n col : Nat} {L L' L'' : Marked} {r r' : List Record} (h : Puts n col L L' r) (h' : Puts n col L' L'' r') :
    Puts n col L L'' (r ++ r') := by
  obtain ⟨xs, hxs, hemit⟩ := h.items
  obtain ⟨ys, hys, hemit'⟩ := h'.items
  refine ⟨h'.ready, h'.source.trans h.source, ys ++ xs, ?_, ?_⟩
  · rw [List.append_assoc]
    exact hys.trans (hxs.append_left ys)
  · exact (hemit'.append hemit).perm (List.Perm.refl _) List.perm_append_comm

theorem Ready.semi {n col : Nat} {L : Marked} (h : Ready n col L) : ';' ∈ L.text := by
  obtain ⟨A, B, C, rfl, _⟩ := h.ends
  simp

theorem addModDecl_eq (style : DeclStyle) (newStyle : Bool) {line left : Text} (hsemi : ';' ∈ line)
    (hleft : leftOfParen line = some left) (vname : Text) (width : Nat) :
    ∃ new : Bool, addModDecl style newStyle line vname width =
      if new then (some (left ++ newPort vname width ++ line.drop left.length), new)
      else (some (left ++ oldPort vname ++ line.drop left.length ++ oldDecl vname width), new) := by
  unfold addModDecl
  rw [if_neg (not_not.mpr hsemi), hleft]
  exact ⟨_, rfl⟩

theorem addModDecl_puts (style : DeclStyle) (newStyle : Bool) {n col : Nat} {L : Marked} {d : WireItem} (h : Ready n col L)
    (hname : ';' ∉ d.vname) (hclose : d.close = (n, col)) :
    ∃ L' newStyle', addModDecl style newStyle L.text d.vname d.width = (some (Marked.text L'), newStyle') ∧
      Puts n col L L' [.decl d] := by
  have hwire : ∀ new e, (Item.decl new d).IsWire e → e.close = (n, col) := by
    intro new e he
    rcases he with ⟨_, heq⟩ | heq
    · injection heq with _ heq
      rwa [← heq]
    · cases heq
  have hleft : ∃ left, leftOfParen L.text = some left := by
    obtain ⟨left, _, _, _, _, hleft, _⟩ :=
      h.ends.insert h.placed (semi_notMem_decl hname true) (hwire true) rfl (T := []) (fun y hy => by cases hy)
    exact ⟨left, hleft⟩
  obtain ⟨left₀, hleft₀⟩ := hleft
  obtain ⟨new, hout⟩ := addModDecl_eq style newStyle h.semi hleft₀ d.vname d.width
  rw [hout]
  cases new with
  | true =>
    obtain ⟨left, right, L', htext, _, hleft, htext', hsource, hends, hplaced, hitems⟩ :=
      h.ends.insert h.placed (semi_notMem_decl hname true) (hwire true) rfl (T := []) (fun y hy => by cases hy)
    obtain rfl : left₀ = left := Option.some.inj (hleft₀.symm.trans hleft)
    refine ⟨L', true, ?_, ⟨hends, hplaced⟩, hsource, [.decl true d], ?_, ?_⟩
    · rw [if_pos rfl, htext', htext, List.drop_left, Marked.text_nil, List.append_nil]
      rfl
    · exact hitems
    · exact ⟨List.Perm.refl _, List.Perm.refl _⟩
  | false =>
    obtain ⟨left, right, L', htext, _, hleft, htext', hsource, hends, hplaced, hitems⟩ :=
      h.ends.insert h.placed (semi_notMem_decl hname false) (hwire false) (T := [.inr (.declBody d)]) rfl (fun y hy => by
        rw [List.mem_singleton.mp hy]
        intro e he
        rcases he with ⟨_, heq⟩ | heq
        · cases heq
        · cases heq)
    obtain rfl : left₀ = left := Option.some.inj (hleft₀.symm.trans hleft)
    refine ⟨L', false, ?_, ⟨hends, hplaced⟩, hsource, [.decl false d, .declBody d], ?_, ?_⟩
    · rw [if_neg (by decide), htext', htext, List.drop_left, Marked.text_inr, Marked.text_nil, List.append_nil]
      rfl
    · exact hitems
    · exact ⟨List.Perm.refl _, List.Perm.refl _⟩

theorem addModInst_puts {n col : Nat} {L : Marked} {d : WireItem} (h : Ready n col L) (hname : ';' ∉ d.vname)
    (hclose : d.close = (n, col)) :
    ∃ L', addModInst L.text d.vname = some (Marked.text L') ∧ Puts n col L L' [.inst d] := by
  have hwire : ∀ e, (Item.inst d).IsWire e → e.close = (n, col) := by
    intro e he
    rcases he with ⟨_, heq⟩ | heq
    · cases heq
    · injection heq with heq
      rwa [← heq]
  obtain ⟨left, right, L', htext, _, hleft, htext', hsource, hends, hplaced, hitems⟩ :=
    h.ends.insert h.placed (semi_notMem_inst hname) hwire rfl (T := []) (fun y hy => by cases hy)
  refine ⟨L', ?_, ⟨hends, hplaced⟩, hsource, [.inst d], hitems, List.Perm.refl _, List.Perm.refl _⟩
  unfold addModInst
  rw [if_neg (not_not.mpr h.semi), hleft]
  dsimp only
  rw [htext', htext, List.drop_left, Marked.text_nil, List.append_nil]
  rfl

/-- The wires that a line gets. -/
def WireItem.due (n : Nat) (ds : List WireItem) : List WireItem := ds.filter fun d => !decide (n < d.lineno)

def WireItem.left (n : Nat) (ds : List WireItem) : List WireItem := ds.filter fun d => decide (n < d.lineno)

theorem WireItem.due_cons {n : Nat} {d : WireItem} (ds : List WireItem) (h : d.lineno ≤ n) :
    due n (d :: ds) = d :: due n ds ∧ left n (d :: ds) = left n ds := by
  refine ⟨List.filter_cons_of_pos ?_, List.filter_cons_of_neg ?_⟩
  · simpa using h
  · simpa using h

theorem WireItem.none_due {n : Nat} {ds : List WireItem} (h : ¬ ∃ d ∈ ds, d.lineno ≤ n) : due n ds = [] ∧ left n ds = ds := by
  refine ⟨List.filter_eq_nil_iff.mpr fun d hd => ?_, List.filter_eq_self.mpr fun d hd => ?_⟩
  · have hlt : n < d.lineno := Nat.lt_of_not_le fun hle => h ⟨d, hd, hle⟩
    simpa using hlt
  · have hlt : n < d.lineno := Nat.lt_of_not_le fun hle => h ⟨d, hd, hle⟩
    simpa using hlt

theorem none_due_of_first {n : Nat} {d : WireItem} {ds : List WireItem}
    (hsorted : (d :: ds).Pairwise fun a b => a.lineno ≤ b.lineno) (hd : ¬ d.lineno ≤ n) : ¬ ∃ e ∈ d :: ds, e.lineno ≤ n := by
  rintro ⟨e, he, hle⟩
  cases List.mem_cons.mp he with
  | inl heq => exact hd (heq ▸ hle)
  | inr hin =>
    have hfirst := (List.pairwise_cons.mp hsorted).1 e hin
    omega

theorem declLoop_ready {M : Modifier} {n col : Nat} {ds : List WireItem}
    (hsorted : ds.Pairwise fun a b => a.lineno ≤ b.lineno) (hclose : ∀ d ∈ ds, d.lineno ≤ n → d.close = (n, col) ∧ ';' ∉ d.vname)
    (newStyle : Bool) {L : Marked} (h : Ready n col L) :
    ∃ L' newStyle', M.declLoop n newStyle ds L.text = (Marked.text L', WireItem.left n ds, newStyle') ∧
      Puts n col L L' ((WireItem.due n ds).map .decl) := by
  induction ds generalizing newStyle L with
  | nil => exact ⟨L, newStyle, rfl, Puts.refl h⟩
  | cons d ds ih =>
    rw [Modifier.declLoop]
    by_cases hd : d.lineno ≤ n
    · obtain ⟨hdue, hleft⟩ := WireItem.due_cons ds hd
      obtain ⟨L₁, style₁, hout, hputs⟩ := addModDecl_puts M.style newStyle h
        (hclose d List.mem_cons_self hd).2 (hclose d List.mem_cons_self hd).1
      obtain ⟨L₂, style₂, hrest, hputs'⟩ := ih (List.pairwise_cons.mp hsorted).2
        (fun e he => hclose e (List.mem_cons_of_mem d he)) style₁ hputs.ready
      rw [if_pos hd, hdue, hleft, hout]
      exact ⟨L₂, style₂, hrest, hputs.trans hputs'⟩
    · obtain ⟨hdue, hleft⟩ := WireItem.none_due (none_due_of_first hsorted hd)
      rw [if_neg hd, hdue, hleft]
      exact ⟨L, newStyle, rfl, Puts.refl h⟩

theorem instLoop_ready {n col : Nat} {ds : List WireItem} (hsorted : ds.Pairwise fun a b => a.lineno ≤ b.lineno)
    (hclose : ∀ d ∈ ds, d.lineno ≤ n → d.close = (n, col) ∧ ';' ∉ d.vname) {L : Marked} (h : Ready n col L) :
    ∃ L', instLoop n ds L.text = (Marked.text L', WireItem.left n ds) ∧ Puts n col L L' ((WireItem.due n ds).map .inst) := by
  induction ds generalizing L with
  | nil => exact ⟨L, rfl, Puts.refl h⟩
  | cons d ds ih =>
    rw [instLoop]
    by_cases hd : d.lineno ≤ n
    · obtain ⟨hdue, hleft⟩ := WireItem.due_cons ds hd
      obtain ⟨L₁, hout, hputs⟩ := addModInst_puts h (hclose d List.mem_cons_self hd).2 (hclose d List.mem_cons_self hd).1
      obtain ⟨L₂, hrest, hputs'⟩ := ih (List.pairwise_cons.mp hsorted).2
        (fun e he => hclose e (List.mem_cons_of_mem d he)) hputs.ready
      rw [if_pos hd, hdue, hleft, hout]
      exact ⟨L₂, hrest, hputs.trans hputs'⟩
    · obtain ⟨hdue, hleft⟩ := WireItem.none_due (none_due_of_first hsorted hd)
      rw [if_neg hd, hdue, hleft]
      exact ⟨L, rfl, Puts.refl h⟩

theorem declLoop_waits {M : Modifier} {n : Nat} {line : Text} (h : ';' ∉ line) (newStyle : Bool) (ds : List WireItem) :
    ∃ newStyle', M.declLoop n newStyle ds line = (line, ds, newStyle') := by
  cases ds with
  | nil => exact ⟨newStyle, rfl⟩
  | cons d ds =>
    rw [Modifier.declLoop, addModDecl, if_pos h]
    by_cases hd : d.lineno ≤ n
    · rw [if_pos hd]
      exact ⟨_, rfl⟩
    · rw [if_neg hd]
      exact ⟨_, rfl⟩

theorem instLoop_waits {n : Nat} {line : Text} (h : ';' ∉ line) (ds : List WireItem) : instLoop n ds line = (line, ds) := by
  cases ds with
  | nil => rfl
  | cons d ds =>
    rw [instLoop, addModInst, if_pos h]
    split
    · rfl
    · rfl

theorem declLoop_none {M : Modifier} {n : Nat} {ds : List WireItem} (h : ¬ ∃ d ∈ ds, d.lineno ≤ n) (newStyle : Bool)
    (line : Text) : M.declLoop n newStyle ds line = (line, ds, newStyle) := by
  cases ds with
  | nil => rfl
  | cons d ds => rw [Modifier.declLoop, if_neg fun hd => h ⟨d, List.mem_cons_self, hd⟩]

theorem instLoop_none {n : Nat} {ds : List WireItem} (h : ¬ ∃ d ∈ ds, d.lineno ≤ n) (line : Text) :
    instLoop n ds line = (line, ds) := by
  cases ds with
  | nil => rfl
  | cons d ds => rw [instLoop, if_neg fun hd => h ⟨d, List.mem_cons_self, hd⟩]

/-! ### A line -/

/-- The wires that are put into a line: none, unless there is a semicolon. -/
def wiresAt (n : Nat) (line : Text) (ds : List WireItem) : List WireItem := if ';' ∈ line then WireItem.due n ds else []

/-- The records that a line takes up. -/
def Records.due (R : Records) (addKeep : Bool) (n : Nat) (line : Text) : List Record :=
  (R.keepsAt addKeep n).map .keep ++ (R.stmts.filter fun s => !decide (n < s.lineno)).map .stmt ++
    (R.assigns.filter fun a => !decide (n < a.lineno)).map .assign ++ (wiresAt n line R.decls).map .decl ++
      (wiresAt n line R.insts).map .inst

theorem wires_spec {M : Modifier} {R : Records} {n : Nat} {line : Text} {L : Marked} (hR : R.Ordered n)
    (hplaced : L.Placed n 0)
    (hpending : (∃ d ∈ R.decls ++ R.insts, d.lineno ≤ n) →
      (';' ∈ L.text ↔ ';' ∈ line) ∧ ∀ col, EndsAt col (Marked.ofText line) → EndsAt col L)
    (hends : ';' ∈ line → ∀ d ∈ R.decls ++ R.insts, d.lineno ≤ n → EndsList n d line ∧ ';' ∉ d.vname) (newStyle : Bool) :
    ∃ L₁ L₂ : Marked, ∃ newStyle', M.declLoop n newStyle R.decls L.text = (L₁.text, (R.after n line).decls, newStyle') ∧
      instLoop n R.insts L₁.text = (L₂.text, (R.after n line).insts) ∧ L₂.source = L.source ∧ L₂.Placed n 0 ∧
        ∃ xs, L₂.items.Perm (xs ++ L.items) ∧
          Emits xs ((wiresAt n line R.decls).map .decl ++ (wiresAt n line R.insts).map .inst) := by
  by_cases hdue : ∃ d ∈ R.decls ++ R.insts, d.lineno ≤ n
  · obtain ⟨hsemi, hkept⟩ := hpending hdue
    by_cases hline : ';' ∈ line
    · have hsome : WireItem.due n (R.decls ++ R.insts) ≠ [] := by
        obtain ⟨d, hd, hle⟩ := hdue
        apply List.ne_nil_of_mem (a := d)
        exact List.mem_filter.mpr ⟨hd, by simpa using hle⟩
      have hall : ∀ d ∈ WireItem.due n (R.decls ++ R.insts), EndsList n d line := by
        intro d hd
        obtain ⟨hin, hle⟩ := List.mem_filter.mp hd
        exact (hends hline d hin (by simpa using hle)).1
      obtain ⟨col, hcol, hclose⟩ := exists_endsAt hsome hall
      have hclosed : ∀ d ∈ R.decls ++ R.insts, d.lineno ≤ n → d.close = (n, col) ∧ ';' ∉ d.vname := by
        intro d hd hle
        exact ⟨hclose d (List.mem_filter.mpr ⟨hd, by simpa using hle⟩), (hends hline d hd hle).2⟩
      obtain ⟨L₁, style', hdecl, hputs⟩ := declLoop_ready (M := M) hR.decls
        (fun d hd => hclosed d (List.mem_append_left _ hd)) newStyle ⟨hkept col hcol, hplaced⟩
      obtain ⟨L₂, hinst, hputs'⟩ := instLoop_ready hR.insts
        (fun d hd => hclosed d (List.mem_append_right _ hd)) hputs.ready
      have hboth := hputs.trans hputs'
      rw [wiresAt, wiresAt, if_pos hline, if_pos hline, Records.after]
      simp only [if_pos hline]
      exact ⟨L₁, L₂, style', hdecl, hinst, hboth.source, hboth.ready.placed, hboth.items⟩
    · have hnone : ';' ∉ L.text := fun hmem => hline (hsemi.mp hmem)
      obtain ⟨style', hdecl⟩ := declLoop_waits (M := M) (n := n) hnone newStyle R.decls
      have hinst := instLoop_waits (n := n) hnone R.insts
      rw [wiresAt, wiresAt, if_neg hline, if_neg hline, Records.after]
      simp only [if_neg hline]
      exact ⟨L, L, style', hdecl, hinst, rfl, hplaced, [], List.Perm.refl _, List.Perm.refl _, List.Perm.refl _⟩
  · have hdecls : ¬ ∃ d ∈ R.decls, d.lineno ≤ n := by
      rintro ⟨d, hd, hle⟩
      exact hdue ⟨d, List.mem_append_left _ hd, hle⟩
    have hinsts : ¬ ∃ d ∈ R.insts, d.lineno ≤ n := by
      rintro ⟨d, hd, hle⟩
      exact hdue ⟨d, List.mem_append_right _ hd, hle⟩
    have hleft : (R.after n line).decls = R.decls ∧ (R.after n line).insts = R.insts := by
      have hdecls' := (WireItem.none_due hdecls).2
      have hinsts' := (WireItem.none_due hinsts).2
      rw [WireItem.left] at hdecls' hinsts'
      simp only [Records.after, hdecls', hinsts', ite_self, and_self]
    have hat : wiresAt n line R.decls = [] ∧ wiresAt n line R.insts = [] := by
      rw [wiresAt, wiresAt, (WireItem.none_due hdecls).1, (WireItem.none_due hinsts).1, ite_self]
      exact ⟨rfl, rfl⟩
    rw [hleft.1, hleft.2, hat.1, hat.2, declLoop_none hdecls]
    exact ⟨L, L, newStyle, rfl, instLoop_none hinsts L.text, rfl, hplaced, [], List.Perm.refl _, List.Perm.refl _,
      List.Perm.refl _⟩

theorem not_isWire_of_map {α : Type} {mk : α → Item} (h : ∀ x d, ¬ (mk x).IsWire d) {xs : List α} {items : List Item}
    (hitems : items.Perm (xs.map mk)) : ∀ y ∈ items, ∀ d, ¬ y.IsWire d := by
  intro y hy d
  obtain ⟨x, _, rfl⟩ := List.mem_map.mp (hitems.mem_iff.mp hy)
  exact h x d

theorem modifyLine_spec {M : Modifier} {R : Records} {n : Nat} {line : Text} (hR : R.Ordered n)
    (hfits : LineFits M.addKeep n R line) (newStyle : Bool) :
    ∃ (L : Marked) (newStyle' : Bool), M.modifyLine n ⟨R, newStyle⟩ line = some (L.text, ⟨R.after n line, newStyle'⟩) ∧
      L.source = line ∧ L.Placed n 0 ∧ Emits L.items (R.due M.addKeep n line) := by
  obtain ⟨K, hkeep, hsource, hitems, hsemi, hends⟩ := keepLoop_spec hR hfits.keep
  obtain ⟨P, hstmts, hPsource, hPitems⟩ :=
    prependLoop_spec StmtItem.text Item.stmt (fun _ => rfl) hR.stmts hR.stmtsFrom K.text
  obtain ⟨Q, hassigns, hQsource, hQitems⟩ :=
    prependLoop_spec AssignItem.text Item.assign (fun _ => rfl) hR.assigns hR.assignsFrom (P.text ++ K.text)
  have hkeepWire : ∀ y ∈ K.items, ∀ d, ¬ y.IsWire d :=
    not_isWire_of_map (fun x d => by rintro (⟨_, heq⟩ | heq) <;> cases heq) (List.Perm.of_eq hitems)
  have hstmtWire : ∀ y ∈ P.items, ∀ d, ¬ y.IsWire d :=
    not_isWire_of_map (fun x d => by rintro (⟨_, heq⟩ | heq) <;> cases heq) hPitems
  have hassignWire : ∀ y ∈ Q.items, ∀ d, ¬ y.IsWire d :=
    not_isWire_of_map (fun x d => by rintro (⟨_, heq⟩ | heq) <;> cases heq) hQitems
  have hplaced : Marked.Placed n 0 (Q ++ (P ++ K)) :=
    ((Marked.placed_of_no_wires hkeepWire 0).prepend hPsource hstmtWire).prepend hQsource hassignWire
  have hpending : (∃ d ∈ R.decls ++ R.insts, d.lineno ≤ n) →
      (';' ∈ Marked.text (Q ++ (P ++ K)) ↔ ';' ∈ line) ∧ ∀ col, EndsAt col (Marked.ofText line) → EndsAt col (Q ++ (P ++ K)) := by
    intro hdue
    obtain ⟨hstmt, hassign⟩ := hfits.alone hdue
    have hP : ';' ∉ P.text := by
      apply semi_notMem_of_items hPsource
      intro y hy
      obtain ⟨s, hs, rfl⟩ := List.mem_map.mp (hPitems.mem_iff.mp hy)
      obtain ⟨hin, hle⟩ := List.mem_filter.mp hs
      have hat : s.lineno = n := Nat.le_antisymm (by simpa using hle) (hR.stmtsFrom s hin)
      exact semi_notMem_append (hstmt s hin hat) (by decide)
    have hQ : ';' ∉ Q.text := by
      apply semi_notMem_of_items hQsource
      intro y hy
      obtain ⟨a, ha, rfl⟩ := List.mem_map.mp (hQitems.mem_iff.mp hy)
      obtain ⟨hin, hle⟩ := List.mem_filter.mp ha
      exact absurd (Nat.le_antisymm (by simpa using hle) (hR.assignsFrom a hin)) (hassign a hin)
    refine ⟨?_, fun col hcol => ((hends col hcol).prepend hPsource hP).prepend hQsource hQ⟩
    rw [Marked.text_append, Marked.text_append, List.mem_append, List.mem_append, ← hsemi]
    simp [hP, hQ]
  obtain ⟨L₁, L₂, style', hdecl, hinst, hsource', hplaced', xs, hperm, hemit⟩ :=
    wires_spec (M := M) hR hplaced hpending hfits.ends newStyle
  refine ⟨L₂, style', ?_, ?_, hplaced', ?_⟩
  · rw [Modifier.modifyLine, hkeep, Option.map_some]
    rw [Marked.text_append, Marked.text_append] at hdecl
    dsimp only
    rw [stmtLoop, hstmts]
    dsimp only
    rw [assignLoop, hassigns]
    dsimp only
    rw [hdecl]
    dsimp only
    rw [hinst]
    rfl
  · rw [hsource', Marked.source_append, Marked.source_append, hPsource, hQsource, hsource]
    rfl
  · have hkeeps := emits_map Item.keep Record.keep (fun _ => rfl) (fun _ => rfl) (fun _ => rfl)
      (R.keepsAt M.addKeep n)
    have hstmts' := (emits_map Item.stmt Record.stmt (fun _ => rfl) (fun _ => rfl) (fun _ => rfl)
      (R.stmts.filter fun s => !decide (n < s.lineno))).perm hPitems.symm (List.Perm.refl _)
    have hassigns' := (emits_map Item.assign Record.assign (fun _ => rfl) (fun _ => rfl) (fun _ => rfl)
      (R.assigns.filter fun a => !decide (n < a.lineno))).perm hQitems.symm (List.Perm.refl _)
    rw [← hitems] at hkeeps
    apply (((hkeeps.append hstmts').append hassigns').append hemit).perm
    · apply List.Perm.trans _ hperm.symm
      rw [Marked.items_append, Marked.items_append]
      apply List.perm_append_comm.trans
      apply List.Perm.append_left
      apply List.perm_append_comm.trans
      apply List.Perm.append_left
      exact List.perm_append_comm
    · rw [Records.due]
      simp only [List.append_assoc]
      exact List.Perm.refl _

/-! ### A file -/

theorem filter_map_perm {α β : Type} (f : α → β) (p : α → Bool) (xs : List α) :
    ((xs.filter fun x => !p x).map f ++ (xs.filter p).map f).Perm (xs.map f) := by
  rw [← List.map_append]
  exact (List.perm_append_comm.trans (List.filter_append_perm p xs)).map f

theorem perm_append_append {α : Type} {a b x a' b' y : List α} (h : (a ++ b).Perm x) (h' : (a' ++ b').Perm y) :
    ((a ++ a') ++ (b ++ b')).Perm (x ++ y) := by
  have hmiddle : ((a ++ a') ++ (b ++ b')).Perm ((a ++ b) ++ (a' ++ b')) := by
    rw [List.append_assoc, List.append_assoc, ← List.append_assoc a', ← List.append_assoc b]
    exact (List.perm_append_comm.append_right b').append_left a
  exact hmiddle.trans (h.append h')

theorem due_append_after (R : Records) (addKeep : Bool) (n : Nat) (line : Text) :
    (R.due addKeep n line ++ (R.after n line).all addKeep).Perm (R.all addKeep) := by
  have hwires : ∀ (f : WireItem → Record) (ds : List WireItem), ((wiresAt n line ds).map f ++
      (if ';' ∈ line then ds.filter fun d => decide (n < d.lineno) else ds).map f).Perm (ds.map f) := by
    intro f ds
    rw [wiresAt]
    split
    · exact filter_map_perm f _ ds
    · exact List.Perm.refl _
  have hkeeps : ((R.keepsAt addKeep n).map Record.keep ++
      if addKeep then (R.after n line).keeps.map Record.keep else []).Perm (if addKeep then R.keeps.map Record.keep else []) := by
    rw [Records.keepsAt]
    split
    · exact filter_map_perm Record.keep _ R.keeps
    · exact List.Perm.refl _
  exact perm_append_append (perm_append_append (perm_append_append (perm_append_append hkeeps
    (filter_map_perm Record.stmt _ R.stmts)) (filter_map_perm Record.assign _ R.assigns)) (hwires Record.decl R.decls))
    (hwires Record.inst R.insts)

theorem Records.Ordered.after {R : Records} {n : Nat} (h : R.Ordered n) (line : Text) : (R.after n line).Ordered (n + 1) := by
  have hsub : ∀ ds : List WireItem, (if ';' ∈ line then ds.filter fun d => decide (n < d.lineno) else ds).Sublist ds := by
    intro ds
    split
    · exact List.filter_sublist
    · exact List.Sublist.refl ds
  refine ⟨h.keeps.filter _, h.stmts.filter _, h.assigns.filter _, h.decls.sublist (hsub R.decls), h.insts.sublist (hsub R.insts),
    ?_, ?_, ?_⟩
  · intro k hk
    simpa using (List.mem_filter.mp hk).2
  · intro s hs
    simpa using (List.mem_filter.mp hs).2
  · intro a ha
    simpa using (List.mem_filter.mp ha).2

/-- A run puts every recorded text in once and changes nothing else, if every line fits the records that are left before it. -/
theorem only_inserts_of_fits {M : Modifier} {R : Records} {n : Nat} {lines : List Text} (hR : R.Ordered n)
    (hfits : Fits M.addKeep n R lines) (newStyle : Bool) :
    ∃ outs st, M.readModifyWrite n ⟨R, newStyle⟩ lines = some (outs, st) ∧ OnlyInserts M.addKeep R n lines outs := by
  induction lines generalizing R n newStyle with
  | nil =>
    refine ⟨[], _, rfl, [], rfl, rfl, ?_, fun i L hL => by cases hL⟩
    have hnone : R.all M.addKeep = [] := by
      rw [show R = ⟨[], [], [], [], []⟩ from hfits, Records.all]
      split
      · rfl
      · rfl
    rw [hnone]
    exact ⟨List.Perm.refl _, List.Perm.refl _⟩
  | cons line lines ih =>
    obtain ⟨hline, hrest⟩ := hfits
    obtain ⟨L, style', hout, hsource, hplaced, hemit⟩ := modifyLine_spec hR hline newStyle
    obtain ⟨outs, st, houts, Ls, hsources, htexts, hemits, hplaceds⟩ := ih (hR.after line) hrest style'
    refine ⟨L.text :: outs, st, ?_, L :: Ls, ?_, ?_, ?_, ?_⟩
    · rw [Modifier.readModifyWrite, hout]
      simp only [Option.bind_eq_bind, Option.bind_some, houts]
      rfl
    · rw [List.map_cons, hsource, hsources]
    · rw [List.map_cons, htexts]
    · rw [List.flatMap_cons]
      exact (hemit.append hemits).perm (List.Perm.refl _) (due_append_after R M.addKeep n line)
    · intro i L' hL'
      cases i with
      | zero =>
        rw [List.getElem?_cons_zero] at hL'
        obtain rfl := Option.some.inj hL'
        exact hplaced
      | succ i =>
        rw [List.getElem?_cons_succ] at hL'
        have hlater := hplaceds i L' hL'
        rwa [Nat.add_assoc, Nat.add_comm 1] at hlater

theorem recordKeep_pairwise (ks : List KeepItem) :
    (ks.foldl recordKeepSignalName []).Pairwise fun a b => a.lineno ≠ b.lineno := by
  suffices h : ∀ acc : List KeepItem, acc.Pairwise (fun a b => a.lineno ≠ b.lineno) →
      (ks.foldl recordKeepSignalName acc).Pairwise fun a b => a.lineno ≠ b.lineno from h [] List.Pairwise.nil
  induction ks with
  | nil => exact fun _ hacc => hacc
  | cons k ks ih =>
    intro acc hacc
    apply ih
    rw [recordKeepSignalName]
    split
    · exact hacc
    · rename_i hnew
      apply List.pairwise_append.mpr ⟨hacc, List.pairwise_singleton _ k, fun a ha b hb heq => hnew ?_⟩
      rw [List.mem_singleton.mp hb] at heq
      exact List.any_eq_true.mpr ⟨a, ha, beq_iff_eq.mpr heq⟩

/-- The records of a file: at most one keep attribute for a line. -/
def Records.Recorded (R : Records) : Prop := ∃ ks : List KeepItem, R.keeps = ks.foldl recordKeepSignalName []

theorem Records.Finished.ordered {R R' : Records} (h : R.Finished R') (hR : R.Recorded) : R'.Ordered 0 := by
  obtain ⟨ks, hks⟩ := hR
  have hdistinct : R'.keeps.Pairwise fun a b => a.lineno ≠ b.lineno := by
    rw [h.keeps.1.pairwise_iff fun hne => hne.symm, hks]
    exact recordKeep_pairwise ks
  refine ⟨?_, h.stmts.2, h.assigns.2, h.decls.2, h.insts.2, fun _ _ => Nat.zero_le _, fun _ _ => Nat.zero_le _,
    fun _ _ => Nat.zero_le _⟩
  exact (h.keeps.2.and hdistinct).imp fun hboth => lt_of_le_of_ne hboth.1 hboth.2

theorem Records.Finished.all_perm {R R' : Records} (h : R.Finished R') (addKeep : Bool) :
    (R'.all addKeep).Perm (R.all addKeep) := by
  have hkeeps : (if addKeep then R'.keeps.map Record.keep else []).Perm (if addKeep then R.keeps.map Record.keep else []) := by
    split
    · exact h.keeps.1.map _
    · exact List.Perm.refl _
  exact (((hkeeps.append (h.stmts.1.map _)).append (h.assigns.1.map _)).append (h.decls.1.map _)).append (h.insts.1.map _)

/-- In a run over a file whose lines all fit the records that are left before them, the modifier only inserts. -/
theorem readModifyWrite_only_inserts {M : Modifier} {R R' : Records} {lines : List Text} (hrecorded : R.Recorded)
    (hfinished : R.Finished R') (hfits : Fits M.addKeep 0 R' lines) (newStyle : Bool) :
    ∃ outs st, M.readModifyWrite 0 ⟨R', newStyle⟩ lines = some (outs, st) ∧ OnlyInserts M.addKeep R 0 lines outs := by
  obtain ⟨outs, st, hrun, Ls, hsource, htext, hemits, hplaced⟩ :=
    only_inserts_of_fits (hfinished.ordered hrecorded) hfits newStyle
  exact ⟨outs, st, hrun, Ls, hsource, htext, hemits.perm (List.Perm.refl _) (hfinished.all_perm M.addKeep), hplaced⟩

instance (c : Char) (s : Text) : Decidable (Terminated c s) := by
  unfold Terminated
  infer_instance

/-- A register is kept, and a wire leaves an instance. -/
def kept : Records where
  keeps := [⟨1, "c".toList, false⟩]
  stmts := [⟨3, "wire e;".toList⟩]
  assigns := [⟨3, "m__DOT__c".toList, 2, "c".toList⟩]
  decls := [⟨0, "m__DOT__c".toList, 2, (0, 16)⟩]
  insts := [⟨2, "u__DOT__d".toList, 1, (2, 11)⟩]

def keptLines : List Text :=
  ["module m(input a);".toList, "reg b; wire c;".toList, "sub u(.x(b));".toList, "endmodule".toList]

theorem kept_finished : kept.Recorded ∧ kept.Finished kept := by
  refine ⟨⟨kept.keeps, rfl⟩, ⟨?_, ?_⟩, ⟨?_, ?_⟩, ⟨?_, ?_⟩, ⟨?_, ?_⟩, ⟨?_, ?_⟩⟩
  all_goals first | exact List.Perm.refl _ | exact List.pairwise_singleton _ _

theorem kept_fits : Fits true 0 kept keptLines := by
  refine ⟨⟨?_, fun _ => by decide, ?_⟩, ⟨?_, fun _ => by decide, ?_⟩, ⟨?_, fun _ => by decide, ?_⟩,
    ⟨?_, fun h => absurd h (by decide), ?_⟩, rfl⟩
  · intro _ k hk hline
    obtain rfl := List.mem_singleton.mp hk
    exact absurd hline (by decide)
  · intro _ d hd hle
    cases hd with
    | head =>
      exact ⟨⟨"module m(input a".toList, [], [], rfl, by decide, by decide, by decide, rfl⟩, by decide⟩
    | tail _ hd =>
      obtain rfl := List.mem_singleton.mp hd
      exact absurd hle (by decide)
  · intro _ k hk _
    obtain rfl := List.mem_singleton.mp hk
    refine ⟨by decide, ?_⟩
    rw [if_pos rfl]
    exact ⟨by decide, " wire c".toList, by decide, by decide⟩
  · intro _ d hd hle
    obtain rfl := List.mem_singleton.mp hd
    exact absurd hle (by decide)
  · intro _ k hk _
    exact absurd hk List.not_mem_nil
  · intro _ d hd hle
    obtain rfl := List.mem_singleton.mp hd
    exact ⟨⟨"sub u(.x(b)".toList, [], [], rfl, by decide, by decide, by decide, rfl⟩, by decide⟩
  · intro _ k hk _
    exact absurd hk List.not_mem_nil
  · intro hsemi
    exact absurd hsemi (by decide)

theorem kept_only_inserts : ∃ outs st, Modifier.readModifyWrite ⟨true, .auto⟩ 0 ⟨kept, false⟩ keptLines = some (outs, st) ∧
    OnlyInserts true kept 0 keptLines outs :=
  readModifyWrite_only_inserts (M := ⟨true, .auto⟩) kept_finished.1 kept_finished.2 kept_fits false

theorem Marked.length_text (L : Marked) : L.text.length = L.source.length + (L.items.map fun x => x.text.length).sum := by
  induction L with
  | nil => rfl
  | cons y L ih =>
    cases y with
    | inl c =>
      rw [Marked.text_inl, Marked.source_inl, Marked.items_inl, List.length_cons, List.length_cons, ih]
      omega
    | inr x =>
      rw [Marked.text_inr, Marked.source_inr, Marked.items_inr, List.length_append, ih, List.map_cons, List.sum_cons]
      omega

theorem eq_singleton_of_emits {xs : List Item} {k : KeepItem} (h : Emits xs [.keep k]) : xs = [.keep k] := by
  obtain ⟨hrecs, hbodies⟩ := h
  have hkeep : ∀ x ∈ xs, ∀ r, x.record? = some r → r = .keep k := by
    intro x hx r hr
    exact List.mem_singleton.mp (hrecs.mem_iff.mp (List.mem_filterMap.mpr ⟨x, hx, hr⟩))
  have hbody : ∀ x ∈ xs, ∀ d, x ≠ .declBody d := by
    rintro x hx d rfl
    have hmem : d ∈ xs.filterMap Item.body? := List.mem_filterMap.mpr ⟨_, hx, rfl⟩
    obtain ⟨y, hy, hport⟩ := List.mem_filterMap.mp (hbodies.mem_iff.mp hmem)
    cases y with
    | decl new e => exact absurd (hkeep _ hy _ rfl) (by simp)
    | keep _ => cases hport
    | stmt _ => cases hport
    | assign _ => cases hport
    | declBody _ => cases hport
    | inst _ => cases hport
  have hall : ∀ x ∈ xs, x = .keep k := by
    intro x hx
    cases x with
    | keep k' => exact congrArg Item.keep (Record.keep.inj (hkeep _ hx _ rfl))
    | declBody d => exact absurd rfl (hbody _ hx d)
    | stmt s => exact absurd (hkeep _ hx _ rfl) (by simp)
    | assign a => exact absurd (hkeep _ hx _ rfl) (by simp)
    | decl new d => exact absurd (hkeep _ hx _ rfl) (by simp)
    | inst d => exact absurd (hkeep _ hx _ rfl) (by simp)
  have hrepeat : xs = List.replicate xs.length (.keep k) := List.eq_replicate_of_mem hall
  have hsome : (Item.keep k).record? = some (.keep k) := rfl
  rw [hrepeat, List.filterMap_replicate_of_some hsome] at hrecs
  rw [hrepeat, show xs.length = 1 by simpa using hrecs.length_eq]
  rfl

/-- Behind a register there is a comment, and a semicolon is put in before it. -/
theorem comment_not_only_inserts :
    let R : Records := ⟨[⟨0, "a".toList, false⟩], [], [], [], []⟩
    let lines : List Text := ["reg a; // x".toList]
    R.Recorded ∧ R.Finished R ∧ ¬ ∃ outs st, Modifier.readModifyWrite ⟨true, .auto⟩ 0 ⟨R, false⟩ lines = some (outs, st) ∧
      OnlyInserts true R 0 lines outs := by
  refine ⟨⟨[⟨0, "a".toList, false⟩], rfl⟩, ⟨⟨?_, ?_⟩, ⟨?_, ?_⟩, ⟨?_, ?_⟩, ⟨?_, ?_⟩, ⟨?_, ?_⟩⟩, ?_⟩
  · exact List.Perm.refl _
  · exact List.pairwise_singleton _ _
  iterate 4
    · exact List.Perm.refl _
    · exact List.Pairwise.nil
  rintro ⟨outs, st, hrun, Ls, hsource, htext, hemits, -⟩
  have hrun' : Modifier.readModifyWrite ⟨true, .auto⟩ 0 ⟨⟨[⟨0, "a".toList, false⟩], [], [], [], []⟩, false⟩
      ["reg a; // x".toList] = some (["(* keep *) reg a; ;// x".toList], ⟨⟨[], [], [], [], []⟩, false⟩) := rfl
  obtain ⟨rfl, -⟩ := Prod.mk.inj (Option.some.inj (hrun'.symm.trans hrun))
  obtain ⟨L, rfl⟩ : ∃ L, Ls = [L] := List.length_eq_one_iff.mp (by simpa using congrArg List.length hsource)
  rw [List.map_singleton, List.singleton_inj] at hsource htext
  rw [List.flatMap_singleton] at hemits
  have hlen := L.length_text
  rw [hsource, htext, eq_singleton_of_emits hemits] at hlen
  exact absurd hlen (by decide)

end Ilang.VlgMod
