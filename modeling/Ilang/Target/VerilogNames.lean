import Ilang.Util.Name
import Mathlib.Tactic

/-!
# Identifiers of the generated Verilog

`sanitizeName` makes a Verilog identifier from a name. Letters, digits, underscores and dollars stay; the other
characters, and a digit at the beginning, are replaced by texts from a table, which grows when a new character comes.
`new_id` numbers the temporaries in the same name space. The replacement texts are made of letters and underscores
themselves, so a name can spell one out, and it can look like a temporary.
-/

namespace Ilang

namespace VlgNames

/-- `sanitizeTable` as it is at the beginning. -/
def sanitizeTable : List (Char × String) :=
  [('.', "__DOT__"), ('<', "__LT__"), ('>', "__GT__"), ('!', "__NOT__"), ('~', "__NEG__"), ('-', "__DASH__"),
    ('&', "__AND__"), ('|', "__SEP__"), (' ', "__SPACE__"), ('*', "__STAR__"), ('%', "__PERC__"), ('#', "__BANG__"),
    ('@', "__AT__"), ('0', "__ZERO__"), ('1', "__ONE__"), ('2', "__TWO__"), ('3', "__THREE__"), ('4', "__FOUR__"),
    ('5', "__FIVE__"), ('6', "__SIX__"), ('7', "__SEVEN__"), ('8', "__EIGHT__"), ('9', "__NINE__")]

/-- The global table and its counter, and what a generator has for its temporaries. Nothing in the generator writes to
`reference_name_set`. -/
structure Names where
  table : Char → Option (List Char)
  symbolCnt : Nat
  idCounter : Nat
  referenceNameSet : List Char → Option (List Char)

def Names.init : Names where
  table c := (sanitizeTable.lookup c).map String.toList
  symbolCnt := 0
  idCounter := 0
  referenceNameSet _ := none

/-- `std::to_string`. -/
def digits (k : Nat) : List Char := (toString k).toList

/-- The text for a character that is not in the table, with `get_symbol_new`. -/
def symbolText (k : Nat) : List Char := ['_', 's', '_', 'n'] ++ digits k ++ ['_', 's', '_']

/-- A character that stays, unless it is a digit at the beginning. -/
def plain (c : Char) : Bool := c.isAlphanum || c == '_' || c == '$'

/-- The loop body of `sanitizeName`. -/
def sanitizeChar (first : Bool) (c : Char) (s : Names) : List Char × Names :=
  if first && c.isDigit then ((s.table c).getD [], s)
  else if plain c then ([c], s)
  else match s.table c with
  | some t => (t, s)
  | none =>
    (symbolText s.symbolCnt,
      { s with table := Function.update s.table c (some (symbolText s.symbolCnt)), symbolCnt := s.symbolCnt + 1 })

def sanitizeFrom (first : Bool) : List Char → Names → List Char × Names
  | [], s => ([], s)
  | c :: n, s =>
    let r := sanitizeChar first c s
    let q := sanitizeFrom false n r.2
    (r.1 ++ q.1, q.2)

/-- `VerilogGeneratorBase::sanitizeName`. -/
def sanitizeName (n : List Char) (s : Names) : List Char × Names := sanitizeFrom true n s

/-- `"n" + toStr(idCounter++)`, with a counter of 32 bits. -/
def nextId (s : Names) : List Char × Names := ('n' :: digits s.idCounter, { s with idCounter := (s.idCounter + 1) % 2 ^ 32 })

/-- `VerilogGeneratorBase::new_id`, for a node by its name or for none. -/
def newId (passNodeName : Bool) (node : Option (List Char)) (s : Names) : List Char × Names :=
  match node with
  | none => nextId s
  | some name =>
    if passNodeName then
      let r := nextId s
      let q := sanitizeName name r.2
      (r.1 ++ ['_', '_'] ++ q.1, q.2)
    else match s.referenceNameSet name with
    | none => nextId s
    | some reference => ((nextId s).1 ++ ['_', '_'] ++ reference, (nextId s).2)

/-! ### Runs -/

inductive NameCall where
  | sanitizeName (n : List Char)
  | newId (node : Option (List Char))

def exec (passNodeName : Bool) (s : Names) : NameCall → List Char × Names
  | .sanitizeName n => sanitizeName n s
  | .newId node => newId passNodeName node s

/-- The calls with the identifiers they returned. -/
def run (passNodeName : Bool) : List NameCall → Names → List (NameCall × List Char)
  | [], _ => []
  | c :: cs, s => (c, (exec passNodeName s c).1) :: run passNodeName cs (exec passNodeName s c).2

/-- A generator is made when some names have been sanitized before. -/
def start (before : List (List Char)) : Names := before.foldl (fun s n => (sanitizeName n s).2) .init

def temporaries (given : List (NameCall × List Char)) : List (List Char) :=
  given.filterMap fun g => match g.1 with
    | .newId _ => some g.2
    | .sanitizeName _ => none

/-- The reserved words of Verilog. -/
def keywords : List String :=
  ["always", "and", "assign", "automatic", "begin", "buf", "bufif0", "bufif1", "case", "casex", "casez", "cell", "cmos",
    "config", "deassign", "default", "defparam", "design", "disable", "edge", "else", "end", "endcase", "endconfig",
    "endfunction", "endgenerate", "endmodule", "endprimitive", "endspecify", "endtable", "endtask", "event", "for",
    "force", "forever", "fork", "function", "generate", "genvar", "highz0", "highz1", "if", "ifnone", "incdir", "include",
    "initial", "inout", "input", "instance", "integer", "join", "large", "liblist", "library", "localparam",
    "macromodule", "medium", "module", "nand", "negedge", "nmos", "nor", "noshowcancelled", "not", "notif0", "notif1",
    "or", "output", "parameter", "pmos", "posedge", "primitive", "pull0", "pull1", "pulldown", "pullup",
    "pulsestyle_onevent", "pulsestyle_ondetect", "rcmos", "real", "realtime", "reg", "release", "repeat", "rnmos",
    "rpmos", "rtran", "rtranif0", "rtranif1", "scalared", "showcancelled", "signed", "small", "specify", "specparam",
    "strong0", "strong1", "supply0", "supply1", "table", "task", "time", "tran", "tranif0", "tranif1", "tri", "tri0",
    "tri1", "triand", "trior", "trireg", "unsigned", "use", "uwire", "vectored", "wait", "wand", "weak0", "weak1",
    "while", "wire", "wor", "xnor", "xor"]

/-- A legal Verilog identifier. -/
structure LegalId (i : List Char) : Prop where
  head : ∃ c r, i = c :: r ∧ (c.isAlpha = true ∨ c = '_')
  chars : ∀ c ∈ i, plain c = true
  keyword : ∀ w ∈ keywords, i ≠ w.toList

/-- No two different names, and no two temporaries, and no name and temporary have one identifier, and all the
identifiers are legal. -/
structure NoClash (given : List (NameCall × List Char)) : Prop where
  legal : ∀ g ∈ given, LegalId g.2
  names : ∀ n n' i i', (.sanitizeName n, i) ∈ given → (.sanitizeName n', i') ∈ given → n ≠ n' → i ≠ i'
  temporaries : (temporaries given).Nodup
  apart : ∀ t ∈ VlgNames.temporaries given, ∀ n i, (.sanitizeName n, i) ∈ given → t ≠ i

example : (sanitizeName "0.a(b)".toList .init).1 = "__ZERO____DOT__a_s_n0_s_b_s_n1_s_".toList := by decide

/-! ### The texts of a table -/

/-- A table that `sanitizeTable` can have grown to. -/
structure IsTable (T : Char → Option (List Char)) : Prop where
  fixed : ∀ {c w}, sanitizeTable.lookup c = some w → T c = some w.toList
  text : ∀ {c t}, T c = some t → (∃ w, sanitizeTable.lookup c = some w ∧ t = w.toList) ∨ ∃ k, t = symbolText k
  inj : ∀ {c c' t}, T c = some t → T c' = some t → c = c'

/-- A later table. -/
def Later (T T' : Char → Option (List Char)) : Prop := ∀ c t, T c = some t → T' c = some t

/-- The character is replaced: it is a digit at the beginning, or it never stays. -/
def replaced (first : Bool) (c : Char) : Bool := first && c.isDigit || !plain c

def token (T : Char → Option (List Char)) (first : Bool) (c : Char) : List Char :=
  if replaced first c then (T c).getD [] else [c]

/-- What becomes of a name with a table that has all its characters. -/
def expand (T : Char → Option (List Char)) : Bool → List Char → List Char
  | _, [] => []
  | first, c :: n => token T first c ++ expand T false n

/-- The table has the characters of the name that are replaced. -/
def Covers (T : Char → Option (List Char)) : Bool → List Char → Prop
  | _, [] => True
  | first, c :: n => (replaced first c = true → ∃ t, T c = some t) ∧ Covers T false n

/-- The word of a text in the first table, between its double underscores. -/
def wordOf (t : List Char) : List Char := (t.drop 2).take (t.length - 4)

theorem sanitizeTable_words : ∀ p ∈ sanitizeTable, p.2.toList = '_' :: '_' :: (wordOf p.2.toList ++ ['_', '_']) ∧
    wordOf p.2.toList ≠ [] ∧ (wordOf p.2.toList).all Char.isUpper = true := by decide

theorem sanitizeTable_text (p : Char × String) (h : p ∈ sanitizeTable) :
    p.2.toList = '_' :: '_' :: (wordOf p.2.toList ++ ['_', '_']) ∧ wordOf p.2.toList ≠ [] ∧
      ∀ y ∈ wordOf p.2.toList, y.isUpper = true := by
  obtain ⟨htext, hne, hall⟩ := sanitizeTable_words p h
  exact ⟨htext, hne, List.all_eq_true.1 hall⟩

theorem sanitizeTable_inj : ∀ p ∈ sanitizeTable, ∀ q ∈ sanitizeTable, p.2 = q.2 → p = q := by decide

theorem mem_of_lookup {c : Char} {w : String} (h : sanitizeTable.lookup c = some w) : (c, w) ∈ sanitizeTable := by
  obtain ⟨l₁, l₂, hl, -⟩ := List.lookup_eq_some_iff.mp h
  rw [hl]
  exact List.mem_append_right l₁ List.mem_cons_self

/-- A replacement text is a word of capital letters between double underscores, or a numbered symbol. -/
def IsText (t : List Char) : Prop :=
  (∃ w, t = '_' :: '_' :: (w ++ ['_', '_']) ∧ w ≠ [] ∧ ∀ y ∈ w, y.isUpper = true) ∨ ∃ k, t = symbolText k

theorem IsTable.isText {T : Char → Option (List Char)} (hT : IsTable T) {c : Char} {t : List Char} (h : T c = some t) :
    IsText t := by
  rcases hT.text h with ⟨w, hw, rfl⟩ | hk
  · exact .inl ⟨_, sanitizeTable_text _ (mem_of_lookup hw)⟩
  · exact .inr hk

theorem isDigit_of_mem_digits {k : Nat} {c : Char} (h : c ∈ digits k) : c.isDigit = true := Name.isDigit_of_mem_toString h

theorem digits_ne_nil (k : Nat) : digits k ≠ [] := by
  rw [digits, show toString k = k.repr from rfl, Nat.toList_repr]
  exact Nat.toDigits_ne_nil

theorem digits_inj {k k' : Nat} (h : digits k = digits k') : k = k' := Name.toString_nat_inj (String.toList_injective h)

theorem span_unique {p : Char → Bool} {l l' r r' : List Char} (hl : ∀ c ∈ l, p c = true) (hl' : ∀ c ∈ l', p c = true)
    (hr : ∀ c ∈ r.head?, p c = false) (hr' : ∀ c ∈ r'.head?, p c = false) (h : l ++ r = l' ++ r') : l = l' ∧ r = r' := by
  have htake : ∀ {l r : List Char}, (∀ c ∈ l, p c = true) → (∀ c ∈ r.head?, p c = false) → (l ++ r).takeWhile p = l := by
    intro l r hl hr
    rw [List.takeWhile_append_of_pos hl]
    cases r with
    | nil => simp
    | cons c r => simp [hr c rfl]
  have hll : l = l' := by rw [← htake hl hr, h, htake hl' hr']
  subst hll
  exact ⟨rfl, List.append_cancel_left h⟩

theorem IsText.eq_of_append {t t' r r' : List Char} (ht : IsText t) (ht' : IsText t') (h : t ++ r = t' ++ r') : t = t' := by
  rcases ht with ⟨w, rfl, -, hw⟩ | ⟨k, rfl⟩
  · rcases ht' with ⟨w', rfl, -, hw'⟩ | ⟨k', rfl⟩
    · simp only [List.cons_append, List.append_assoc, List.cons.injEq, true_and] at h
      rw [(span_unique (p := Char.isUpper) hw hw' (by simp) (by simp) h).1]
    · simp [symbolText] at h
  · rcases ht' with ⟨w', rfl, -, hw'⟩ | ⟨k', rfl⟩
    · simp [symbolText] at h
    · simp only [symbolText, List.cons_append, List.nil_append, List.append_assoc, List.cons.injEq, true_and] at h
      have hdigits := span_unique (p := Char.isDigit) (fun _ hc => isDigit_of_mem_digits hc)
        (fun _ hc => isDigit_of_mem_digits hc) (by simp) (by simp) h
      rw [digits_inj hdigits.1]

/-! ### Names that can be read back -/

/-- Every underscore is followed, in the list, by a character that does not continue a replacement text. -/
def openWord : List Char → Bool
  | [] => true
  | ['_'] => false
  | '_' :: y :: l => y != '_' && y != 's' && openWord (y :: l)
  | _ :: l => openWord l

theorem openWord_of_notMem {l : List Char} (h : '_' ∉ l) : openWord l = true := by
  induction l with
  | nil => rfl
  | cons c l ih =>
    simp only [List.mem_cons, not_or] at h
    unfold openWord
    split
    · rfl
    · simp_all
    · simp_all
    · rename_i heq
      cases heq
      exact ih h.2

section Expand

variable {T : Char → Option (List Char)} {first : Bool}

theorem token_plain {c : Char} (h : replaced first c = false) : token T first c = [c] := by
  rw [token, h, if_neg (by simp)]

theorem token_replaced {c : Char} {t : List Char} (h : replaced first c = true) (ht : T c = some t) : token T first c = t := by
  rw [token, if_pos h, ht, Option.getD_some]

theorem IsText.cons {t : List Char} (h : IsText t) : ∃ y r, t = '_' :: y :: r ∧ (y = '_' ∨ y = 's') := by
  rcases h with ⟨w, rfl, -, -⟩ | ⟨k, rfl⟩
  · exact ⟨'_', _, rfl, .inl rfl⟩
  · exact ⟨'s', _, rfl, .inr rfl⟩

theorem token_ne_nil (hT : IsTable T) {c : Char} (h : replaced first c = true → ∃ t, T c = some t) :
    token T first c ≠ [] := by
  cases hrep : replaced first c with
  | false => simp [token_plain hrep]
  | true =>
    obtain ⟨t, ht⟩ := h hrep
    obtain ⟨y, r, hy, -⟩ := (hT.isText ht).cons
    rw [token_replaced hrep ht, hy]
    simp

theorem read_openWord (hT : IsTable T) {w n r : List Char} (hcov : Covers T first n) (hw : openWord w = true)
    (h : expand T first n = w ++ r) :
    ∃ m, n = w ++ m ∧ (w = [] ∨ (Covers T false m ∧ expand T false m = r)) := by
  induction w generalizing first n with
  | nil => exact ⟨n, rfl, .inl rfl⟩
  | cons x w ih =>
    cases n with
    | nil => simp [expand] at h
    | cons c n =>
      obtain ⟨hc, hn⟩ := hcov
      have hplain : replaced first c = false := by
        by_contra hrep
        rw [Bool.not_eq_false] at hrep
        obtain ⟨t, ht⟩ := hc hrep
        obtain ⟨y, u, rfl, hy⟩ := (hT.isText ht).cons
        rw [expand, token_replaced hrep ht] at h
        simp only [List.cons_append, List.cons.injEq] at h
        obtain ⟨rfl, h⟩ := h
        cases w with
        | nil => simp [openWord] at hw
        | cons z w =>
          obtain ⟨rfl, -⟩ := List.cons.inj h
          simp only [openWord, Bool.and_eq_true, bne_iff_ne] at hw
          rcases hy with rfl | rfl
          · exact hw.1.1 rfl
          · exact hw.1.2 rfl
      rw [expand, token_plain hplain] at h
      simp only [List.cons_append, List.nil_append, List.cons.injEq] at h
      obtain ⟨rfl, h⟩ := h
      have hw' : openWord w = true := by
        unfold openWord at hw
        split at hw
        · rename_i heq
          cases heq
        · cases hw
        · rename_i heq
          obtain ⟨-, rfl⟩ := List.cons.inj heq
          simp only [Bool.and_eq_true] at hw
          exact hw.2
        · rename_i heq
          obtain ⟨-, rfl⟩ := List.cons.inj heq
          exact hw
      obtain ⟨m, rfl, hm⟩ := ih hn hw' h
      refine ⟨m, rfl, .inr ?_⟩
      rcases hm with rfl | hm
      · exact ⟨hn, h⟩
      · exact hm

/-- The list begins like a replacement text: with a word of the first table after its double underscore, or with the
beginning of a numbered symbol. The words of the digits count at the beginning of a name only. -/
def Spells (first : Bool) (n : List Char) : Prop :=
  (∃ p ∈ sanitizeTable, (p.1.isDigit = true → first = true) ∧ ∃ r, n = '_' :: '_' :: (wordOf p.2.toList ++ r)) ∨
    ∃ k r, n = ['_', 's', '_', 'n'] ++ digits k ++ r

/-- At no place does the name spell out the beginning of a replacement text. -/
def Clear : Bool → List Char → Prop
  | _, [] => True
  | first, c :: n => ¬Spells first (c :: n) ∧ Clear false n

theorem spells_of_text (hT : IsTable T) {c c' : Char} {n t r : List Char} (hcov : Covers T false n)
    (hc : replaced first c = true) (ht : T c = some t) (h : t ++ r = c' :: expand T false n) : Spells first (c' :: n) := by
  rcases hT.text ht with ⟨w, hw, rfl⟩ | ⟨k, rfl⟩
  · obtain ⟨htext, hne, hupper⟩ := sanitizeTable_text _ (mem_of_lookup hw)
    rw [htext] at h
    simp only [List.cons_append, List.append_assoc, List.cons.injEq] at h
    obtain ⟨rfl, h⟩ := h
    have hopen : openWord ('_' :: wordOf w.toList) = true := by
      obtain ⟨x, u, hx⟩ := List.exists_cons_of_ne_nil hne
      have hletter : '_' ∉ wordOf w.toList := fun hmem => by simpa using hupper _ hmem
      have hxs : x ≠ '_' ∧ x ≠ 's' := by
        have hxu : x.isUpper = true := hupper x (by rw [hx]; exact List.mem_cons_self)
        constructor
        · rintro rfl
          simp at hxu
        · rintro rfl
          simp at hxu
      have hrest := openWord_of_notMem hletter
      rw [hx] at hrest ⊢
      simp [openWord, hxs.1, hxs.2, hrest]
    obtain ⟨m, rfl, -⟩ := read_openWord hT hcov hopen h.symm
    refine .inl ⟨(c, w), mem_of_lookup hw, fun hdigit => ?_, m, rfl⟩
    have hplain : plain c = true := by simp [plain, Char.isAlphanum, hdigit]
    simpa [replaced, hplain, hdigit] using hc
  · simp only [symbolText, List.cons_append, List.nil_append, List.append_assoc, List.cons.injEq] at h
    obtain ⟨rfl, h⟩ := h
    have hdigits : '_' ∉ digits k := fun hmem => by simpa using isDigit_of_mem_digits hmem
    have hopen : openWord ('s' :: '_' :: 'n' :: digits k) = true := by
      simp [openWord, openWord_of_notMem hdigits]
    obtain ⟨m, rfl, -⟩ := read_openWord (r := '_' :: 's' :: '_' :: r) hT hcov hopen (by rw [← h]; simp)
    exact .inr ⟨k, m, rfl⟩

theorem expand_inj (hT : IsTable T) {n n' : List Char} (hcov : Covers T first n) (hcov' : Covers T first n')
    (hn : Clear first n) (hn' : Clear first n') (h : expand T first n = expand T first n') : n = n' := by
  induction n generalizing first n' with
  | nil =>
    cases n' with
    | nil => rfl
    | cons c' n' => exact absurd (List.append_eq_nil_iff.mp h.symm).1 (token_ne_nil hT hcov'.1)
  | cons c n ih =>
    cases n' with
    | nil => exact absurd (List.append_eq_nil_iff.mp h).1 (token_ne_nil hT hcov.1)
    | cons c' n' =>
      rw [expand, expand] at h
      obtain ⟨hc, hcovn⟩ := hcov
      obtain ⟨hc', hcovn'⟩ := hcov'
      have hcc : c = c' := by
        cases hrep : replaced first c with
        | true =>
          obtain ⟨t, ht⟩ := hc hrep
          rw [token_replaced hrep ht] at h
          cases hrep' : replaced first c' with
          | true =>
            obtain ⟨t', ht'⟩ := hc' hrep'
            rw [token_replaced hrep' ht'] at h
            have htt := (hT.isText ht).eq_of_append (hT.isText ht') h
            exact hT.inj ht (htt ▸ ht')
          | false =>
            rw [token_plain hrep'] at h
            exact absurd (spells_of_text hT hcovn' hrep ht h) hn'.1
        | false =>
          rw [token_plain hrep] at h
          cases hrep' : replaced first c' with
          | true =>
            obtain ⟨t', ht'⟩ := hc' hrep'
            rw [token_replaced hrep' ht'] at h
            exact absurd (spells_of_text hT hcovn hrep' ht' h.symm) hn.1
          | false =>
            rw [token_plain hrep'] at h
            exact (List.cons.inj h).1
      subst hcc
      rw [ih hcovn hcovn' hn.2 hn'.2 (List.append_cancel_left h)]

end Expand

/-! ### The table during a run -/

theorem lookup_of_isDigit {c : Char} (h : c.isDigit = true) : ∃ w, sanitizeTable.lookup c = some w := by
  have hrange : 48 ≤ c.toNat ∧ c.toNat ≤ 57 := by
    simpa [Char.isDigit, UInt32.le_iff_toNat_le] using h
  rw [← Char.ofNat_toNat c]
  obtain ⟨hlo, hhi⟩ := hrange
  generalize c.toNat = k at hlo hhi
  interval_cases k <;> exact ⟨_, rfl⟩

structure Names.Inv (s : Names) : Prop where
  isTable : IsTable s.table
  symbol_lt : ∀ {c k}, s.table c = some (symbolText k) → k < s.symbolCnt

theorem symbolText_inj {k k' : Nat} (h : symbolText k = symbolText k') : k = k' := by
  simp only [symbolText, List.cons_append, List.nil_append, List.cons.injEq, true_and] at h
  exact digits_inj (List.append_cancel_right h)

theorem inv_init : Names.init.Inv := by
  have htable : ∀ {c t}, Names.init.table c = some t → ∃ w, sanitizeTable.lookup c = some w ∧ t = w.toList := by
    intro c t h
    obtain ⟨w, hw, rfl⟩ := Option.map_eq_some_iff.mp h
    exact ⟨w, hw, rfl⟩
  refine ⟨⟨fun h => ?_, fun h => .inl (htable h), fun h h' => ?_⟩, fun h => ?_⟩
  · exact congrArg (Option.map String.toList) h
  · obtain ⟨w, hw, rfl⟩ := htable h
    obtain ⟨w', hw', heq⟩ := htable h'
    have hpair := sanitizeTable_inj _ (mem_of_lookup hw) _ (mem_of_lookup hw') (String.toList_injective heq)
    exact congrArg Prod.fst hpair
  · obtain ⟨w, hw, heq⟩ := htable h
    rw [(sanitizeTable_text _ (mem_of_lookup hw)).1] at heq
    simp [symbolText] at heq

theorem Names.Inv.insert {s : Names} (hs : s.Inv) {c : Char} (hc : s.table c = none) :
    ({ s with table := Function.update s.table c (some (symbolText s.symbolCnt)), symbolCnt := s.symbolCnt + 1 } : Names).Inv ∧
      Later s.table (Function.update s.table c (some (symbolText s.symbolCnt))) := by
  have hlater : Later s.table (Function.update s.table c (some (symbolText s.symbolCnt))) := by
    intro d t hd
    have hdc : d ≠ c := by
      rintro rfl
      simp [hc] at hd
    rw [Function.update_of_ne hdc, hd]
  have hcases : ∀ {d t}, Function.update s.table c (some (symbolText s.symbolCnt)) d = some t →
      (d = c ∧ t = symbolText s.symbolCnt) ∨ s.table d = some t := by
    intro d t hd
    by_cases hdc : d = c
    · subst hdc
      rw [Function.update_self] at hd
      exact .inl ⟨rfl, (Option.some.inj hd).symm⟩
    · rw [Function.update_of_ne hdc] at hd
      exact .inr hd
  refine ⟨⟨⟨fun h => hlater _ _ (hs.isTable.fixed h), fun h => ?_, fun h h' => ?_⟩, fun h => ?_⟩, hlater⟩
  · rcases hcases h with ⟨-, rfl⟩ | h
    · exact .inr ⟨_, rfl⟩
    · exact hs.isTable.text h
  · rcases hcases h with ⟨rfl, rfl⟩ | hold
    · rcases hcases h' with ⟨rfl, -⟩ | hold'
      · rfl
      · exact absurd (hs.symbol_lt hold') (Nat.lt_irrefl _)
    · rcases hcases h' with ⟨rfl, rfl⟩ | hold'
      · exact absurd (hs.symbol_lt hold) (Nat.lt_irrefl _)
      · exact hs.isTable.inj hold hold'
  · rcases hcases h with ⟨-, heq⟩ | h
    · rw [symbolText_inj heq]
      exact Nat.lt_succ_self _
    · exact Nat.lt_succ_of_lt (hs.symbol_lt h)

/-- What a call leaves of the state. -/
structure Kept (s s' : Names) : Prop where
  inv : s'.Inv
  later : Later s.table s'.table
  reference : s'.referenceNameSet = s.referenceNameSet

theorem Kept.trans {s s' s'' : Names} (h : Kept s s') (h' : Kept s' s'') : Kept s s'' :=
  ⟨h'.inv, fun c t hc => h'.later c t (h.later c t hc), h'.reference.trans h.reference⟩

theorem sanitizeChar_spec {s : Names} (hs : s.Inv) (first : Bool) (c : Char) :
    Kept s (sanitizeChar first c s).2 ∧ (sanitizeChar first c s).2.idCounter = s.idCounter ∧
      ∀ T, Later (sanitizeChar first c s).2.table T →
        (sanitizeChar first c s).1 = token T first c ∧ (replaced first c = true → ∃ t, T c = some t) := by
  have hsame : Kept s s := ⟨hs, fun _ _ h => h, rfl⟩
  unfold sanitizeChar
  split
  · rename_i hdigit
    refine ⟨hsame, rfl, fun T hT => ?_⟩
    obtain ⟨w, hw⟩ := lookup_of_isDigit (Bool.and_eq_true_iff.mp hdigit).2
    have hc := hT c _ (hs.isTable.fixed hw)
    have hrep : replaced first c = true := by rw [replaced, hdigit, Bool.true_or]
    exact ⟨by rw [token_replaced hrep hc, hs.isTable.fixed hw, Option.getD_some], fun _ => ⟨_, hc⟩⟩
  · rename_i hdigit
    split
    · rename_i hplain
      have hrep : replaced first c = false := by simp only [replaced, hplain]; simpa using hdigit
      exact ⟨hsame, rfl, fun T _ => ⟨(token_plain hrep).symm, fun h => by rw [hrep] at h; cases h⟩⟩
    · rename_i hplain
      have hrep : replaced first c = true := by
        rw [Bool.not_eq_true] at hplain
        rw [replaced, hplain, Bool.not_false, Bool.or_true]
      split
      · rename_i t ht
        exact ⟨hsame, rfl, fun T hT => ⟨(token_replaced hrep (hT c t ht)).symm, fun _ => ⟨t, hT c t ht⟩⟩⟩
      · rename_i ht
        obtain ⟨hinv, hlater⟩ := hs.insert ht
        refine ⟨⟨hinv, hlater, rfl⟩, rfl, fun T hT => ?_⟩
        have hc := hT c _ (Function.update_self c _ _)
        exact ⟨(token_replaced hrep hc).symm, fun _ => ⟨_, hc⟩⟩

theorem sanitizeFrom_spec {s : Names} (hs : s.Inv) (first : Bool) (n : List Char) :
    Kept s (sanitizeFrom first n s).2 ∧ (sanitizeFrom first n s).2.idCounter = s.idCounter ∧
      ∀ T, Later (sanitizeFrom first n s).2.table T →
        (sanitizeFrom first n s).1 = expand T first n ∧ Covers T first n := by
  induction n generalizing first s with
  | nil => exact ⟨⟨hs, fun _ _ h => h, rfl⟩, rfl, fun T _ => ⟨rfl, trivial⟩⟩
  | cons c n ih =>
    obtain ⟨hkept, hid, htoken⟩ := sanitizeChar_spec hs first c
    obtain ⟨hkept', hid', hrest⟩ := ih hkept.inv false
    refine ⟨hkept.trans hkept', hid'.trans hid, fun T hT => ?_⟩
    obtain ⟨htok, hcov⟩ := htoken T fun d t hd => hT d t (hkept'.later d t hd)
    obtain ⟨hexp, hcovn⟩ := hrest T hT
    refine ⟨?_, hcov, hcovn⟩
    rw [expand, ← htok, ← hexp]
    rfl

/-! ### Legal identifiers -/

theorem plain_of_isDigit {c : Char} (h : c.isDigit = true) : plain c = true := by
  simp [plain, Char.isAlphanum, h]

theorem IsText.plain {t : List Char} (h : IsText t) : ∀ c ∈ t, VlgNames.plain c = true := by
  rcases h with ⟨w, rfl, -, hw⟩ | ⟨k, rfl⟩
  · intro c hc
    simp only [List.mem_cons, List.mem_append, List.not_mem_nil, or_false] at hc
    rcases hc with rfl | rfl | hc | rfl | rfl
    · rfl
    · rfl
    · change (((c.isUpper || c.isLower) || c.isDigit) || c == '_' || c == '$') = true
      simp [hw c hc]
    · rfl
    · rfl
  · intro c hc
    simp only [symbolText, List.mem_append, List.mem_cons, List.not_mem_nil, or_false] at hc
    rcases hc with ((rfl | rfl | rfl | rfl) | hc) | (rfl | rfl | rfl)
    · rfl
    · rfl
    · rfl
    · rfl
    · exact plain_of_isDigit (isDigit_of_mem_digits hc)
    · rfl
    · rfl
    · rfl

theorem plain_of_mem_expand {T : Char → Option (List Char)} (hT : IsTable T) {first : Bool} {n : List Char}
    (hcov : Covers T first n) : ∀ c ∈ expand T first n, plain c = true := by
  induction n generalizing first with
  | nil => simp [expand]
  | cons d n ih =>
    intro c hc
    rw [expand, List.mem_append] at hc
    rcases hc with hc | hc
    · cases hrep : replaced first d with
      | true =>
        obtain ⟨t, ht⟩ := hcov.1 hrep
        rw [token_replaced hrep ht] at hc
        exact (hT.isText ht).plain c hc
      | false =>
        rw [token_plain hrep, List.mem_singleton] at hc
        subst hc
        simpa [replaced] using (Bool.or_eq_false_iff.mp hrep).2
    · exact ih hcov.2 c hc

theorem keywords_open : ∀ w ∈ keywords, openWord w.toList = true := by decide +kernel

theorem keywords_ne_nil : ∀ w ∈ keywords, w.toList ≠ [] := by decide +kernel

/-- The rest of a name after `n` and a number, from which a second underscore can come. -/
def DoubleTail (r : List Char) : Prop :=
  ∃ c u, r = c :: u ∧ ((plain c = false ∧ ∃ w, sanitizeTable.lookup c = some w) ∨
    (c = '_' ∧ ∃ c' v, u = c' :: v ∧ (c' = '_' ∨ plain c' = false)))

/-- The name looks like a temporary: `n` and a number, and nothing else, or with node names what can become a double
underscore. -/
def TempLike (passNodeName : Bool) (n : List Char) : Prop :=
  ∃ k r, n = 'n' :: (digits k ++ r) ∧ (r = [] ∨ (passNodeName = true ∧ DoubleTail r))

/-- A name for which `sanitizeName` does what it is for. -/
structure Safe (passNodeName : Bool) (n : List Char) : Prop where
  nonempty : n ≠ []
  dollar : n.head? ≠ some '$'
  keyword : ∀ w ∈ keywords, n ≠ w.toList
  clear : Clear true n
  temporary : ¬TempLike passNodeName n

theorem legalId_expand {T : Char → Option (List Char)} (hT : IsTable T) {passNodeName : Bool} {n : List Char}
    (hn : Safe passNodeName n) (hcov : Covers T true n) : LegalId (expand T true n) := by
  refine ⟨?_, plain_of_mem_expand hT hcov, fun w hw heq => ?_⟩
  · obtain ⟨c, m, rfl⟩ := List.exists_cons_of_ne_nil hn.nonempty
    cases hrep : replaced true c with
    | true =>
      obtain ⟨t, ht⟩ := hcov.1 hrep
      obtain ⟨y, r, rfl, -⟩ := (hT.isText ht).cons
      exact ⟨'_', _, by rw [expand, token_replaced hrep ht]; rfl, .inr rfl⟩
    | false =>
      refine ⟨c, _, by rw [expand, token_plain hrep]; rfl, ?_⟩
      obtain ⟨hdigit, hplain⟩ := Bool.or_eq_false_iff.mp hrep
      have hdollar : c ≠ '$' := fun h => hn.dollar (by rw [h]; rfl)
      simp only [Bool.true_and] at hdigit
      simp only [plain, Char.isAlphanum, hdigit, Bool.or_false, Bool.not_eq_eq_eq_not, Bool.not_false, Bool.or_eq_true,
        beq_iff_eq, hdollar, or_false] at hplain
      exact hplain
  · obtain ⟨m, rfl, hm⟩ := read_openWord (r := []) hT hcov (keywords_open w hw) (by rw [heq, List.append_nil])
    rcases hm with hnil | ⟨hcovm, hm⟩
    · exact keywords_ne_nil w hw hnil
    · cases m with
      | nil => exact hn.keyword w hw (List.append_nil _)
      | cons c m => exact token_ne_nil hT hcovm.1 (List.append_eq_nil_iff.mp hm).1

/-! ### Temporaries -/

/-- A temporary with its number. -/
def IsTemp (passNodeName : Bool) (k : Nat) (t : List Char) : Prop :=
  ∃ r, t = 'n' :: (digits k ++ r) ∧
    (r = [] ∨ (passNodeName = true ∧ ∃ u, r = '_' :: '_' :: u ∧ ∀ c ∈ u, plain c = true))

theorem IsTemp.index_eq {passNodeName : Bool} {k k' : Nat} {t : List Char} (h : IsTemp passNodeName k t)
    (h' : IsTemp passNodeName k' t) : k = k' := by
  have hstop : ∀ {r : List Char}, (r = [] ∨ (passNodeName = true ∧ ∃ u, r = '_' :: '_' :: u ∧ ∀ c ∈ u, plain c = true)) →
      ∀ c ∈ r.head?, c.isDigit = false := by
    rintro r (rfl | ⟨-, u, rfl, -⟩)
    · simp
    · simp
  obtain ⟨r, rfl, hr⟩ := h
  obtain ⟨r', heq, hr'⟩ := h'
  have hspan := span_unique (p := Char.isDigit) (fun _ hc => isDigit_of_mem_digits hc)
    (fun _ hc => isDigit_of_mem_digits hc) (hstop hr) (hstop hr') (List.cons.inj heq).2
  exact digits_inj hspan.1

theorem keywords_not_numbered : ∀ w ∈ keywords, w.toList.head? = some 'n' → w.toList[1]?.all Char.isDigit = false := by
  decide +kernel

theorem IsTemp.legalId {passNodeName : Bool} {k : Nat} {t : List Char} (h : IsTemp passNodeName k t) : LegalId t := by
  obtain ⟨r, rfl, hr⟩ := h
  refine ⟨⟨'n', _, rfl, .inl rfl⟩, fun c hc => ?_, fun w hw heq => ?_⟩
  · simp only [List.mem_cons, List.mem_append] at hc
    rcases hc with rfl | hc | hc
    · rfl
    · exact plain_of_isDigit (isDigit_of_mem_digits hc)
    · rcases hr with rfl | ⟨-, u, rfl, hu⟩
      · simp at hc
      · simp only [List.mem_cons] at hc
        rcases hc with rfl | rfl | hc
        · rfl
        · rfl
        · exact hu c hc
  · obtain ⟨d, ds, hd⟩ := List.exists_cons_of_ne_nil (digits_ne_nil k)
    have hdigit : d.isDigit = true := isDigit_of_mem_digits (k := k) (by rw [hd]; exact List.mem_cons_self)
    have hnot := keywords_not_numbered w hw (by rw [← heq]; rfl)
    have hsecond : w.toList[1]? = some d := by rw [← heq, hd]; rfl
    rw [hsecond, Option.all_some, hdigit] at hnot
    cases hnot

theorem tempLike_of_expand {T : Char → Option (List Char)} (hT : IsTable T) {passNodeName : Bool} {n : List Char}
    (hcov : Covers T true n) {k : Nat} (h : IsTemp passNodeName k (expand T true n)) : TempLike passNodeName n := by
  obtain ⟨r, heq, hr⟩ := h
  have hopen : openWord ('n' :: digits k) = true := openWord_of_notMem fun hmem => by
    rcases List.mem_cons.mp hmem with h | h
    · simp at h
    · simpa using isDigit_of_mem_digits h
  obtain ⟨m, rfl, hm⟩ := read_openWord (r := r) hT hcov hopen (by rw [heq]; rfl)
  rcases hm with hm | ⟨hcovm, hm⟩
  · cases hm
  refine ⟨k, m, rfl, ?_⟩
  cases m with
  | nil => exact .inl rfl
  | cons c m =>
    rcases hr with rfl | ⟨hpass, u, rfl, -⟩
    · exact absurd (List.append_eq_nil_iff.mp hm).1 (token_ne_nil hT hcovm.1)
    · refine .inr ⟨hpass, c, m, rfl, ?_⟩
      rw [expand] at hm
      cases hrep : replaced false c with
      | true =>
        obtain ⟨t, ht⟩ := hcovm.1 hrep
        refine .inl ⟨by simpa [replaced] using hrep, ?_⟩
        rcases hT.text ht with ⟨w, hw, -⟩ | ⟨j, rfl⟩
        · exact ⟨w, hw⟩
        · rw [token_replaced hrep ht] at hm
          simp [symbolText] at hm
      | false =>
        rw [token_plain hrep] at hm
        simp only [List.cons_append, List.nil_append, List.cons.injEq] at hm
        obtain ⟨rfl, hm⟩ := hm
        refine .inr ⟨rfl, ?_⟩
        cases m with
        | nil => simp [expand] at hm
        | cons c' m =>
          refine ⟨c', m, rfl, ?_⟩
          rw [expand] at hm
          cases hrep' : replaced false c' with
          | true => exact .inr (by simpa [replaced] using hrep')
          | false =>
            rw [token_plain hrep'] at hm
            exact .inl (List.cons.inj hm).1

/-! ### Runs without clashes -/

def NameCall.isNewId : NameCall → Bool
  | .newId _ => true
  | .sanitizeName _ => false

theorem newId_spec {s : Names} (hs : s.Inv) (href : s.referenceNameSet = fun _ => none) (passNodeName : Bool)
    (node : Option (List Char)) :
    Kept s (newId passNodeName node s).2 ∧ (newId passNodeName node s).2.idCounter = (s.idCounter + 1) % 2 ^ 32 ∧
      IsTemp passNodeName s.idCounter (newId passNodeName node s).1 := by
  have hnext : Kept s (nextId s).2 := ⟨⟨hs.isTable, hs.symbol_lt⟩, fun _ _ h => h, rfl⟩
  have hplain : IsTemp passNodeName s.idCounter (nextId s).1 := ⟨[], by rw [List.append_nil]; rfl, .inl rfl⟩
  unfold newId
  split
  · exact ⟨hnext, rfl, hplain⟩
  · rename_i name
    split
    · rename_i hpass
      obtain ⟨hkept, hid, hexp⟩ := sanitizeFrom_spec hnext.inv true name
      obtain ⟨heq, hcov⟩ := hexp _ fun _ _ h => h
      refine ⟨hnext.trans hkept, hid, '_' :: '_' :: (sanitizeName name (nextId s).2).1, ?_, .inr ⟨hpass, _, rfl, ?_⟩⟩
      · simp [nextId]
      · intro c hc
        rw [sanitizeName, heq] at hc
        exact plain_of_mem_expand hkept.inv.isTable hcov c hc
    · rw [href]
      exact ⟨hnext, rfl, hplain⟩

variable {passNodeName : Bool}

theorem length_temporaries (calls : List NameCall) (s : Names) :
    (temporaries (run passNodeName calls s)).length = calls.countP NameCall.isNewId := by
  induction calls generalizing s with
  | nil => rfl
  | cons c calls ih =>
    cases c with
    | sanitizeName n =>
      rw [List.countP_cons_of_neg (by simp [NameCall.isNewId])]
      exact ih _
    | newId node =>
      rw [List.countP_cons_of_pos (by rfl), ← ih (newId passNodeName node s).2]
      rfl

/-- What is given out in a run, under the table at its end. -/
structure RunSpec (passNodeName : Bool) (s : Names) (given : List (NameCall × List Char)) (T : Char → Option (List Char)) :
    Prop where
  isTable : IsTable T
  later : Later s.table T
  names : ∀ n i, (.sanitizeName n, i) ∈ given → i = expand T true n ∧ Covers T true n
  temps : ∀ t ∈ temporaries given, ∃ k, s.idCounter ≤ k ∧ IsTemp passNodeName k t
  nodup : (temporaries given).Nodup

theorem run_spec {calls : List NameCall} {s : Names} (hs : s.Inv) (href : s.referenceNameSet = fun _ => none)
    (hcount : s.idCounter + calls.countP NameCall.isNewId ≤ 2 ^ 32) :
    ∃ T, RunSpec passNodeName s (run passNodeName calls s) T := by
  induction calls generalizing s with
  | nil =>
    exact ⟨s.table, hs.isTable, fun _ _ h => h, fun _ _ h => by simp [run] at h, fun _ h => by simp [run, temporaries] at h,
      List.nodup_nil⟩
  | cons c calls ih =>
    cases c with
    | sanitizeName n =>
      obtain ⟨hkept, hid, hexp⟩ := sanitizeFrom_spec hs true n
      rw [List.countP_cons_of_neg (by simp [NameCall.isNewId]), ← hid] at hcount
      obtain ⟨T, hT⟩ := ih hkept.inv (hkept.reference.trans href) hcount
      refine ⟨T, hT.isTable, fun c t h => hT.later c t (hkept.later c t h), ?_, ?_, hT.nodup⟩
      · intro m i hmem
        rcases List.mem_cons.mp hmem with heq | hmem
        · obtain ⟨hm, rfl⟩ := Prod.mk.inj heq
          obtain rfl := NameCall.sanitizeName.inj hm
          exact hexp T hT.later
        · exact hT.names m i hmem
      · rw [← hid]
        exact hT.temps
    | newId node =>
      obtain ⟨hkept, hid, htemp⟩ := newId_spec hs href passNodeName node
      rw [List.countP_cons_of_pos (by rfl)] at hcount
      have hcount' : (newId passNodeName node s).2.idCounter + calls.countP NameCall.isNewId ≤ 2 ^ 32 := by
        rw [hid]
        have hmod := Nat.mod_le (s.idCounter + 1) (2 ^ 32)
        omega
      obtain ⟨T, hT⟩ := ih hkept.inv (hkept.reference.trans href) hcount'
      -- The later temporaries have later numbers: if the counter comes round here, there are none.
      have hlater : ∀ t ∈ temporaries (run passNodeName calls (newId passNodeName node s).2),
          ∃ k, s.idCounter < k ∧ IsTemp passNodeName k t := by
        intro t ht
        obtain ⟨k, hk, htk⟩ := hT.temps t ht
        have hpos := List.length_pos_of_mem ht
        rw [length_temporaries] at hpos
        rw [hid, Nat.mod_eq_of_lt (by omega)] at hk
        exact ⟨k, hk, htk⟩
      refine ⟨T, hT.isTable, fun c t h => hT.later c t (hkept.later c t h), ?_, ?_, ?_⟩
      · intro m i hmem
        rcases List.mem_cons.mp hmem with heq | hmem
        · cases (Prod.mk.inj heq).1
        · exact hT.names m i hmem
      · intro t ht
        rcases List.mem_cons.mp ht with rfl | ht
        · exact ⟨s.idCounter, Nat.le_refl _, htemp⟩
        · obtain ⟨k, hk, htk⟩ := hlater t ht
          exact ⟨k, Nat.le_of_lt hk, htk⟩
      · refine List.nodup_cons.mpr ⟨fun hmem => ?_, hT.nodup⟩
        obtain ⟨k, hk, htk⟩ := hlater _ hmem
        exact absurd (htemp.index_eq htk) (Nat.ne_of_lt hk)

theorem start_spec (before : List (List Char)) :
    (start before).Inv ∧ (start before).idCounter = 0 ∧ (start before).referenceNameSet = fun _ => none := by
  have hfold : ∀ (l : List (List Char)) (s : Names), s.Inv → s.idCounter = 0 → (s.referenceNameSet = fun _ => none) →
      (l.foldl (fun s n => (sanitizeName n s).2) s).Inv ∧ (l.foldl (fun s n => (sanitizeName n s).2) s).idCounter = 0 ∧
        (l.foldl (fun s n => (sanitizeName n s).2) s).referenceNameSet = fun _ => none := by
    intro l
    induction l with
    | nil => exact fun s hs hid href => ⟨hs, hid, href⟩
    | cons n l ih =>
      intro s hs hid href
      obtain ⟨hkept, hid', -⟩ := sanitizeFrom_spec hs true n
      exact ih _ hkept.inv (hid'.trans hid) (hkept.reference.trans href)
  exact hfold before .init inv_init rfl rfl

theorem mem_calls_of_mem_run {calls : List NameCall} {s : Names} {g : NameCall × List Char} (h : g ∈ run passNodeName calls s) :
    g.1 ∈ calls := by
  induction calls generalizing s with
  | nil => simp [run] at h
  | cons c calls ih =>
    rcases List.mem_cons.mp h with rfl | h
    · exact List.mem_cons_self
    · exact List.mem_cons_of_mem c (ih h)

end VlgNames

open VlgNames in
/-- Whatever names were sanitized before, and in whatever order names are sanitized and temporaries made: if the names
are safe and the counter does not come round, then no two identifiers clash and all are legal. -/
theorem identifiers_noClash (passNodeName : Bool) (before : List (List Char)) (calls : List NameCall)
    (hcount : calls.countP NameCall.isNewId ≤ 2 ^ 32) (hsafe : ∀ n, .sanitizeName n ∈ calls → Safe passNodeName n) :
    NoClash (run passNodeName calls (start before)) := by
  obtain ⟨hinv, hid, href⟩ := start_spec before
  obtain ⟨T, hT⟩ : ∃ T, RunSpec passNodeName (start before) (run passNodeName calls (start before)) T :=
    run_spec hinv href (by rw [hid, Nat.zero_add]; exact hcount)
  refine ⟨?_, ?_, hT.nodup, ?_⟩
  · rintro ⟨c, i⟩ hg
    cases c with
    | sanitizeName n =>
      obtain ⟨rfl, hcov⟩ := hT.names n i hg
      exact legalId_expand hT.isTable (hsafe n (mem_calls_of_mem_run hg)) hcov
    | newId node =>
      obtain ⟨k, -, htemp⟩ := hT.temps i (List.mem_filterMap.mpr ⟨_, hg, rfl⟩)
      exact htemp.legalId
  · intro n n' i i' hn hn' hne heq
    obtain ⟨rfl, hcov⟩ := hT.names n i hn
    obtain ⟨rfl, hcov'⟩ := hT.names n' i' hn'
    exact hne (expand_inj hT.isTable hcov hcov' (hsafe n (mem_calls_of_mem_run hn)).clear
      (hsafe n' (mem_calls_of_mem_run hn')).clear heq)
  · rintro t ht n i hn rfl
    obtain ⟨heq, hcov⟩ := hT.names n t hn
    obtain ⟨k, -, htemp⟩ := hT.temps t ht
    rw [heq] at htemp
    exact (hsafe n (mem_calls_of_mem_run hn)).temporary (tempLike_of_expand hT.isTable hcov htemp)

namespace VlgNames

/-- A name with a dot, a name that spells the dot out, and a name that is the first temporary. -/
def clashing : List NameCall :=
  [.sanitizeName "a.b".toList, .sanitizeName "a__DOT__b".toList, .newId none, .sanitizeName "n0".toList]

theorem run_clashing : run false clashing (start []) = [(.sanitizeName "a.b".toList, "a__DOT__b".toList),
    (.sanitizeName "a__DOT__b".toList, "a__DOT__b".toList), (.newId none, "n0".toList),
    (.sanitizeName "n0".toList, "n0".toList)] := by
  rfl

end VlgNames

open VlgNames in
/-- Two different names get one identifier. -/
theorem identifiers_clash : ¬NoClash (run false clashing (start [])) := by
  rw [run_clashing]
  intro h
  exact h.names "a.b".toList "a__DOT__b".toList _ _ (.head _) (.tail _ (.head _)) (by decide) rfl

theorem VlgNames.clear_of_notMem {first : Bool} {n : List Char} (h : '_' ∉ n) : Clear first n := by
  induction n generalizing first with
  | nil => trivial
  | cons c n ih =>
    simp only [List.mem_cons, not_or] at h
    refine ⟨?_, ih h.2⟩
    rintro (⟨p, -, -, r, heq⟩ | ⟨k, r, heq⟩)
    · exact h.1 (List.cons.inj heq).1.symm
    · exact h.1 (List.cons.inj heq).1.symm

open VlgNames in
theorem identifiers_noClash_registers :
    NoClash (run true [.sanitizeName "r.x".toList, .newId none, .sanitizeName "rx".toList, .newId (some "r.x".toList)]
      (start ["top".toList])) := by
  have hsafe : ∀ n ∈ ["r.x".toList, "rx".toList], Safe true n := by
    intro n hn
    simp only [List.mem_cons, List.not_mem_nil, or_false] at hn
    rcases hn with rfl | rfl
    · refine ⟨by decide, by decide, by decide +kernel, clear_of_notMem (by decide), ?_⟩
      rintro ⟨k, r, heq, -⟩
      cases (List.cons.inj heq).1
    · refine ⟨by decide, by decide, by decide +kernel, clear_of_notMem (by decide), ?_⟩
      rintro ⟨k, r, heq, -⟩
      cases (List.cons.inj heq).1
  refine identifiers_noClash true _ _ (by decide) fun n hn => hsafe n ?_
  simpa using hn

end Ilang
