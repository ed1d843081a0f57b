import Ilang.Vtarget.AbcSound
import Ilang.Util.IStream

/-!
# The store of clauses

`InvariantInCnf` keeps a clause under the text of its sorted literals. The store is an `unordered_map`, so the order in which it
lists its entries means nothing: two stores are equal if one is a permutation of the other, and the loops over a store go over
some permutation of it.

A store is written as the number of its clauses and, for each, the number of its literals and the literals. Both numbers are
`size_t` when they are written and `unsigned` when they are read.
-/

namespace Ilang

namespace Abc

/-! ### Operations -/

def insertClause (cnf : Cnf) (c : List CnfLit) : Cnf :=
  let c := canonicalizeClause c
  if clause2Str c ∈ cnf.map Prod.fst then cnf else cnf ++ [(clause2Str c, c)]

/-- `std::map::insert`. -/
def insertEntry (cnf : Cnf) (p : VText × List CnfLit) : Cnf := if p.1 ∈ cnf.map Prod.fst then cnf else cnf ++ [p]

def insertClauseIncremental (ref cnf : Cnf) : Cnf := ref.foldl insertEntry cnf

def exportLiteral (l : CnfLit) : VText :=
  l.name ++ ' ' :: (digits l.bit ++ ' ' :: [if l.complement then '1' else '0', '\n'])

def exportClause (c : List CnfLit) : VText := digits c.length ++ '\n' :: c.flatMap exportLiteral

def exportInCnfFormat (cnf : Cnf) : VText := digits cnf.length ++ '\n' :: cnf.flatMap fun p => exportClause p.2

def importLiteral (s : IStream) : Option (CnfLit × IStream) :=
  let name := s.word
  let bit := name.2.unsigned
  let complemented := bit.2.bool
  bit.1.bind fun b => complemented.1.map fun c => (⟨c, name.1.getD [], b⟩, complemented.2)

def importClause (s : IStream) : Option (List CnfLit × IStream) :=
  let num := s.unsigned
  num.1.bind fun n => IStream.many importLiteral n num.2

/-- `ImportFromFile`. It uses a number or a sign that was never assigned if the stream fails. -/
def importFromFile (cnf : Cnf) (s : IStream) : Option Cnf :=
  let num := s.unsigned
  num.1.bind fun n => (IStream.many importClause n num.2).map fun r => r.1.foldl insertClause cnf

/-! ### Histories -/

/-- A literal whose name is a word, and whose bit is one of the type. -/
def CnfLit.Named (l : CnfLit) : Prop := l.name ≠ [] ∧ (∀ c ∈ l.name, IStream.isSpace c = false) ∧ l.bit < 2 ^ 32

/-- What calls make of empty stores, and the clauses that they have put into each, up to the order of the literals. A clause that
the reference has is not put in. -/
inductive CnfRun : (Nat → Cnf) → (Nat → List CnfLit → Prop) → Prop
  | empty : CnfRun (fun _ => []) fun _ _ => False
  | insertClause {σ put} (h : CnfRun σ put) (i : Nat) {c : List CnfLit} (hc : ∀ l ∈ c, l.Named) :
    CnfRun (Function.update σ i (insertClause (σ i) c)) (Function.update put i fun d => put i d ∨ d.Perm c)
  | insertClauseNewerFromReference {σ put} (h : CnfRun σ put) (i ref : Nat) {c : List CnfLit} (hc : ∀ l ∈ c, l.Named) :
    CnfRun (Function.update σ i (insertClauseNewerFromReference (σ ref) (σ i) c))
      (Function.update put i fun d => put i d ∨ d.Perm c ∧ ¬ put ref c)
  | insertClauseIncremental {σ put} (h : CnfRun σ put) (i ref : Nat) {listing : Cnf} (hlisting : listing.Perm (σ ref)) :
    CnfRun (Function.update σ i (insertClauseIncremental listing (σ i)))
      (Function.update put i fun d => put i d ∨ put ref d)

/-- Every clause once and under its own text, with its literals sorted. -/
structure Cnf.Canonical (cnf : Cnf) : Prop where
  keys : (cnf.map Prod.fst).Nodup
  clause : ∀ p ∈ cnf, p.1 = clause2Str p.2 ∧ canonicalizeClause p.2 = p.2 ∧ ∀ l ∈ p.2, l.Named

/-- The store has the clause, with its literals in some order. -/
def Cnf.Holds (cnf : Cnf) (c : List CnfLit) : Prop := ∃ p ∈ cnf, p.2.Perm c

/-- The sizes that the reader can count. -/
def Cnf.Countable (cnf : Cnf) : Prop := cnf.length < 2 ^ 32 ∧ ∀ p ∈ cnf, p.2.length < 2 ^ 32

/-! ### Sorting the literals -/

section Sorting

theorem CnfLit.key_injective {l l' : CnfLit} (h : l.key = l'.key) : l = l' := by
  obtain ⟨a, b, d⟩ := l
  obtain ⟨a', b', d'⟩ := l'
  obtain ⟨hcompl, hrest⟩ := Prod.mk.inj (toLex.injective h)
  obtain ⟨hname, hbit⟩ := Prod.mk.inj (toLex.injective hrest)
  exact CnfLit.mk.injEq .. ▸ ⟨hcompl, hname, hbit⟩

theorem canonicalizeClause_perm (c : List CnfLit) : (canonicalizeClause c).Perm c := List.perm_insertionSort _ c

theorem pairwise_canonicalizeClause (c : List CnfLit) :
    (canonicalizeClause c).Pairwise fun l l' => l.key ≤ l'.key := by
  have htotal : Std.Total fun l l' : CnfLit => l.key ≤ l'.key := ⟨fun l l' => le_total l.key l'.key⟩
  have htrans : IsTrans CnfLit fun l l' => l.key ≤ l'.key := ⟨fun _ _ _ => le_trans⟩
  exact List.pairwise_insertionSort _ c

theorem canonicalizeClause_of_perm {c c' : List CnfLit} (h : c.Perm c') : canonicalizeClause c = canonicalizeClause c' := by
  have hanti : ∀ l l' : CnfLit, l.key ≤ l'.key → l'.key ≤ l.key → l = l' := fun l l' h h' =>
    CnfLit.key_injective (le_antisymm h h')
  exact List.Perm.eq_of_pairwise (fun l l' _ _ => hanti l l') (pairwise_canonicalizeClause c) (pairwise_canonicalizeClause c')
    ((canonicalizeClause_perm c).trans (h.trans (canonicalizeClause_perm c').symm))

theorem canonicalizeClause_idem (c : List CnfLit) : canonicalizeClause (canonicalizeClause c) = canonicalizeClause c :=
  canonicalizeClause_of_perm (canonicalizeClause_perm c)

theorem named_canonicalizeClause {c : List CnfLit} (hc : ∀ l ∈ c, l.Named) : ∀ l ∈ canonicalizeClause c, l.Named :=
  fun l hl => hc l (mem_canonicalizeClause.mp hl)

theorem tokens_of_named {c : List CnfLit} (hc : ∀ l ∈ c, l.Named) : Tokens c := by
  intro l hl hblank
  exact Bool.false_ne_true (((hc l hl).2.1 ' ' hblank).symm.trans rfl)

end Sorting

/-! ### What a call does -/

section Calls

variable {cnf ref : Cnf} {c d : List CnfLit}

theorem Cnf.Canonical.ok (h : cnf.Canonical) : cnf.Ok := fun p hp => ⟨(h.clause p hp).1, tokens_of_named (h.clause p hp).2.2⟩

theorem Cnf.Canonical.holds_iff (h : cnf.Canonical) : cnf.Holds c ↔ canonicalizeClause c ∈ cnf.clauses := by
  constructor
  · rintro ⟨p, hp, hperm⟩
    rw [← canonicalizeClause_of_perm hperm, (h.clause p hp).2.1]
    exact List.mem_map_of_mem hp
  · intro hmem
    obtain ⟨p, hp, heq⟩ := List.mem_map.mp hmem
    exact ⟨p, hp, heq ▸ canonicalizeClause_perm c⟩

theorem insertEntry_canonical (h : cnf.Canonical) {p : VText × List CnfLit}
    (hp : p.1 = clause2Str p.2 ∧ canonicalizeClause p.2 = p.2 ∧ ∀ l ∈ p.2, l.Named) : (insertEntry cnf p).Canonical := by
  unfold insertEntry
  split
  · exact h
  · rename_i hnot
    refine ⟨?_, fun q hq => ?_⟩
    · rw [List.map_append, List.map_singleton]
      exact List.nodup_append.mpr ⟨h.keys, List.nodup_singleton _, fun k hk k' hk' heq => hnot (List.mem_singleton.mp hk' ▸ heq ▸ hk)⟩
    · rcases List.mem_append.mp hq with hq | hq
      · exact h.clause q hq
      · rw [List.mem_singleton.mp hq]
        exact hp

theorem mem_clauses_insertEntry (h : cnf.Canonical) {p : VText × List CnfLit} (hkey : p.1 = clause2Str p.2)
    (hnamed : ∀ l ∈ p.2, l.Named) : d ∈ Cnf.clauses (insertEntry cnf p) ↔ d ∈ cnf.clauses ∨ d = p.2 := by
  unfold insertEntry
  split
  · rename_i hmem
    rw [hkey, h.ok.mem_iff (tokens_of_named hnamed)] at hmem
    exact ⟨.inl, fun hd => hd.elim id fun hd => hd ▸ hmem⟩
  · rw [Cnf.clauses, List.map_append, List.mem_append, List.map_singleton, List.mem_singleton]
    exact Iff.rfl

theorem insertClause_eq (cnf : Cnf) (c : List CnfLit) :
    insertClause cnf c = insertEntry cnf (clause2Str (canonicalizeClause c), canonicalizeClause c) := rfl

theorem insertClause_canonical (h : cnf.Canonical) (hc : ∀ l ∈ c, l.Named) : (insertClause cnf c).Canonical := by
  rw [insertClause_eq]
  exact insertEntry_canonical h ⟨rfl, canonicalizeClause_idem c, named_canonicalizeClause hc⟩

theorem insertClauseNewerFromReference_canonical (h : cnf.Canonical) (hc : ∀ l ∈ c, l.Named) :
    (insertClauseNewerFromReference ref cnf c).Canonical := by
  unfold insertClauseNewerFromReference
  dsimp only
  split
  · exact h
  · exact insertClause_canonical h hc

theorem insertClauseIncremental_canonical (h : cnf.Canonical) (href : ref.Canonical) :
    (insertClauseIncremental ref cnf).Canonical := by
  have hentries := href.clause
  clear href
  induction ref generalizing cnf with
  | nil => exact h
  | cons p ref ih =>
    obtain ⟨hp, hentries⟩ := List.forall_mem_cons.mp hentries
    exact ih (insertEntry_canonical h hp) hentries

theorem holds_insertClause (h : cnf.Canonical) (hc : ∀ l ∈ c, l.Named) :
    Cnf.Holds (insertClause cnf c) d ↔ cnf.Holds d ∨ d.Perm c := by
  have hsorted : canonicalizeClause d = canonicalizeClause c ↔ d.Perm c :=
    ⟨fun heq => (canonicalizeClause_perm d).symm.trans (heq ▸ canonicalizeClause_perm c), canonicalizeClause_of_perm⟩
  rw [(insertClause_canonical h hc).holds_iff, h.holds_iff, insertClause_eq,
    mem_clauses_insertEntry h rfl (named_canonicalizeClause hc), hsorted]

theorem holds_insertClauseNewerFromReference (h : cnf.Canonical) (href : ref.Canonical) (hc : ∀ l ∈ c, l.Named) :
    Cnf.Holds (insertClauseNewerFromReference ref cnf c) d ↔ cnf.Holds d ∨ d.Perm c ∧ ¬ ref.Holds c := by
  have hsorted : canonicalizeClause d = canonicalizeClause c ↔ d.Perm c :=
    ⟨fun heq => (canonicalizeClause_perm d).symm.trans (heq ▸ canonicalizeClause_perm c), canonicalizeClause_of_perm⟩
  rw [(insertClauseNewerFromReference_canonical h hc).holds_iff, h.holds_iff, href.holds_iff,
    mem_insertClause href.ok h.ok (tokens_of_named hc), hsorted]
  exact or_congr_right (and_congr_right fun hperm => by rw [hsorted.mpr hperm])

theorem holds_insertClauseIncremental (h : cnf.Canonical) (href : ref.Canonical) :
    Cnf.Holds (insertClauseIncremental ref cnf) d ↔ cnf.Holds d ∨ ref.Holds d := by
  have hfold : ∀ (entries : Cnf), (∀ p ∈ entries, p.1 = clause2Str p.2 ∧ canonicalizeClause p.2 = p.2 ∧ ∀ l ∈ p.2, l.Named) →
      ∀ {cnf : Cnf}, cnf.Canonical → (canonicalizeClause d ∈ Cnf.clauses (entries.foldl insertEntry cnf) ↔
        canonicalizeClause d ∈ cnf.clauses ∨ canonicalizeClause d ∈ Cnf.clauses entries) := by
    intro entries hentries
    induction entries with
    | nil => exact fun _ => (or_iff_left List.not_mem_nil).symm
    | cons p entries ih =>
      intro cnf hcnf
      obtain ⟨hp, hentries⟩ := List.forall_mem_cons.mp hentries
      rw [List.foldl_cons, ih hentries (insertEntry_canonical hcnf hp), mem_clauses_insertEntry hcnf hp.1 hp.2.2, or_assoc]
      exact or_congr_right List.mem_cons.symm
  rw [(insertClauseIncremental_canonical h href).holds_iff, h.holds_iff, href.holds_iff]
  exact hfold ref href.clause h

end Calls

/-! ### Stores -/

section Stores

variable {cnf cnf' : Cnf}

theorem Cnf.Canonical.perm (h : cnf.Canonical) (hperm : cnf'.Perm cnf) : cnf'.Canonical :=
  ⟨(hperm.map Prod.fst).nodup_iff.mpr h.keys, fun p hp => h.clause p (hperm.mem_iff.mp hp)⟩

theorem holds_of_perm (hperm : cnf.Perm cnf') (c : List CnfLit) : cnf.Holds c ↔ cnf'.Holds c :=
  exists_congr fun _ => and_congr_left fun _ => hperm.mem_iff

theorem Cnf.Canonical.once (h : cnf.Canonical) : cnf.Pairwise fun p q => ¬ p.2.Perm q.2 := by
  have hkeys := List.pairwise_map.mp h.keys
  refine List.Pairwise.imp_of_mem (fun hp hq hne hperm => hne ?_) hkeys
  rw [(h.clause _ hp).1, (h.clause _ hq).1, ← (h.clause _ hp).2.1, ← (h.clause _ hq).2.1, canonicalizeClause_of_perm hperm]

theorem Cnf.Canonical.mem_iff (h : cnf.Canonical) {p : VText × List CnfLit}
    (hp : p.1 = clause2Str p.2 ∧ canonicalizeClause p.2 = p.2) : p ∈ cnf ↔ cnf.Holds p.2 := by
  refine ⟨fun hmem => ⟨p, hmem, .refl _⟩, ?_⟩
  rintro ⟨q, hq, hperm⟩
  have hclause : q.2 = p.2 := by
    rw [← (h.clause q hq).2.1, ← hp.2, canonicalizeClause_of_perm hperm]
  have heq : q = p := Prod.ext (by rw [(h.clause q hq).1, hp.1, hclause]) hclause
  exact heq ▸ hq

theorem Cnf.Canonical.perm_of_holds (h : cnf.Canonical) (h' : cnf'.Canonical) (hsame : ∀ c, cnf.Holds c ↔ cnf'.Holds c) :
    cnf.Perm cnf' := by
  refine (List.perm_ext_iff_of_nodup (List.Nodup.of_map _ h.keys) (List.Nodup.of_map _ h'.keys)).mpr fun p => ?_
  have hgo : ∀ {s t : Cnf}, s.Canonical → t.Canonical → (∀ c, s.Holds c ↔ t.Holds c) → p ∈ s → p ∈ t := by
    intro s t hs ht hst hp
    obtain ⟨hkey, hsorted, -⟩ := hs.clause p hp
    exact (ht.mem_iff ⟨hkey, hsorted⟩).mpr ((hst p.2).mp ⟨p, hp, .refl _⟩)
  exact ⟨hgo h h' hsame, hgo h' h fun c => (hsame c).symm⟩

theorem foldl_insertClause_canonical {cs : List (List CnfLit)} (h : cnf.Canonical) (hcs : ∀ c ∈ cs, ∀ l ∈ c, l.Named) :
    Cnf.Canonical (cs.foldl insertClause cnf) ∧
      ∀ d, Cnf.Holds (cs.foldl insertClause cnf) d ↔ cnf.Holds d ∨ ∃ c ∈ cs, d.Perm c := by
  induction cs generalizing cnf with
  | nil => exact ⟨h, fun d => by simp⟩
  | cons c cs ih =>
    obtain ⟨hc, hcs⟩ := List.forall_mem_cons.mp hcs
    obtain ⟨hcanon, hholds⟩ := ih (insertClause_canonical h hc) hcs
    refine ⟨hcanon, fun d => ?_⟩
    rw [List.foldl_cons, hholds, holds_insertClause h hc, or_assoc, List.exists_mem_cons_iff]

end Stores

theorem CnfRun.canonical {σ : Nat → Cnf} {put : Nat → List CnfLit → Prop} (h : CnfRun σ put) (i : Nat) :
    (σ i).Canonical ∧ ∀ d, (σ i).Holds d ↔ put i d := by
  have hupdate : ∀ {σ : Nat → Cnf} {put : Nat → List CnfLit → Prop} (j : Nat) (cnf : Cnf) (new : List CnfLit → Prop),
      (∀ i, (σ i).Canonical ∧ ∀ d, (σ i).Holds d ↔ put i d) → (cnf.Canonical ∧ ∀ d, cnf.Holds d ↔ new d) →
      ∀ i, (Function.update σ j cnf i).Canonical ∧
        ∀ d, (Function.update σ j cnf i).Holds d ↔ Function.update put j new i d := by
    intro σ put j cnf new hall hnew i
    by_cases hij : i = j
    · rw [hij, Function.update_self, Function.update_self]
      exact hnew
    · rw [Function.update_of_ne hij, Function.update_of_ne hij]
      exact hall i
  revert i
  induction h with
  | empty => exact fun _ => ⟨⟨List.nodup_nil, List.forall_mem_nil _⟩, fun d => by simp [Cnf.Holds]⟩
  | insertClause _ j hc ih =>
    refine hupdate j _ _ ih ⟨insertClause_canonical (ih j).1 hc, fun d => ?_⟩
    rw [holds_insertClause (ih j).1 hc, (ih j).2]
  | insertClauseNewerFromReference _ j ref hc ih =>
    refine hupdate j _ _ ih ⟨insertClauseNewerFromReference_canonical (ih j).1 hc, fun d => ?_⟩
    rw [holds_insertClauseNewerFromReference (ih j).1 (ih ref).1 hc, (ih j).2, (ih ref).2]
  | insertClauseIncremental _ j ref hlisting ih =>
    have href := (ih ref).1.perm hlisting
    refine hupdate j _ _ ih ⟨insertClauseIncremental_canonical (ih j).1 href, fun d => ?_⟩
    rw [holds_insertClauseIncremental (ih j).1 href, (ih j).2, holds_of_perm hlisting, (ih ref).2]

/-! ### Export and import -/

section Text

/-- A literal behind a line break. -/
def literalLine (l : CnfLit) : VText := '\n' :: (l.name ++ ' ' :: (digits l.bit ++ ' ' :: [if l.complement then '1' else '0']))

/-- A clause behind a line break. -/
def clauseLines (c : List CnfLit) : VText := '\n' :: (digits c.length ++ c.flatMap literalLine)

theorem flatMap_exportLiteral (c : List CnfLit) : '\n' :: c.flatMap exportLiteral = c.flatMap literalLine ++ ['\n'] := by
  have hexport : exportLiteral =
      fun l => (l.name ++ ' ' :: (digits l.bit ++ ' ' :: [if l.complement then '1' else '0'])) ++ ['\n'] := by
    funext l
    simp [exportLiteral]
  rw [hexport]
  exact IStream.cons_flatMap_concat '\n' _ c

theorem exportInCnfFormat_eq (cnf : Cnf) :
    exportInCnfFormat cnf = digits cnf.length ++ ((cnf.map Prod.snd).flatMap clauseLines ++ ['\n']) := by
  have hexport : exportClause = fun c => (digits c.length ++ c.flatMap literalLine) ++ ['\n'] := by
    funext c
    rw [exportClause, flatMap_exportLiteral, List.append_assoc]
  rw [exportInCnfFormat, ← List.flatMap_map Prod.snd exportClause, hexport]
  exact congrArg (digits cnf.length ++ ·) (IStream.cons_flatMap_concat '\n' _ (cnf.map Prod.snd))

theorem importLiteral_line {l : CnfLit} (hl : l.Named) {rest : VText} (hrest : IStream.Ends rest) :
    importLiteral (IStream.ofText (literalLine l ++ rest)) = some (l, IStream.ofText rest) := by
  have hgap : ∀ c ∈ ['\n'], IStream.isSpace c = true := List.forall_mem_singleton.mpr rfl
  have hblank : ∀ c ∈ [' '], IStream.isSpace c = true := List.forall_mem_singleton.mpr rfl
  have htext : literalLine l ++ rest = ['\n'] ++ (l.name ++ ([' '] ++ (digits l.bit ++
      ([' '] ++ ((if l.complement then '1' else '0') :: rest))))) := by
    simp [literalLine]
  have hends : ∀ t : VText, IStream.Ends ([' '] ++ t) := fun t => IStream.ends_cons rfl t
  have hname := IStream.word_written hgap hl.2.1 hl.1 (hends (digits l.bit ++
    ([' '] ++ ((if l.complement then '1' else '0') :: rest))))
  have hbit := IStream.unsigned_digits hblank (hends ((if l.complement then '1' else '0') :: rest)) hl.2.2
  have hcompl := IStream.bool_digits hblank hrest l.complement
  rw [importLiteral, htext]
  simp only [List.singleton_append, digits] at hname hbit hcompl ⊢
  rw [hname]
  simp only [hbit, hcompl, Option.bind_some, Option.map_some, Option.getD_some]

theorem importClause_lines {c : List CnfLit} (hc : ∀ l ∈ c, l.Named) (hlength : c.length < 2 ^ 32) {rest : VText}
    (hrest : IStream.Ends rest) : importClause (IStream.ofText (clauseLines c ++ rest)) = some (c, IStream.ofText rest) := by
  have hgap : ∀ c ∈ ['\n'], IStream.isSpace c = true := List.forall_mem_singleton.mpr rfl
  obtain ⟨hmany, hends⟩ := @IStream.many_flatMap _ _ IStream.Ends _ c
    (fun l hl rest hrest => ⟨IStream.ends_cons rfl _, importLiteral_line (hc l hl) hrest⟩) rest hrest
  have hnum := IStream.unsigned_digits hgap hends hlength
  have htext : clauseLines c ++ rest = ['\n'] ++ (Nat.toDigits 10 c.length ++ (c.flatMap literalLine ++ rest)) := by
    simp [clauseLines, digits]
  rw [importClause, htext, hnum]
  exact hmany

theorem length_importClause {s : IStream} {r : List CnfLit × IStream} (h : importClause s = some r) :
    r.1.length < 2 ^ 32 := by
  obtain ⟨n, hn, h⟩ := Option.bind_eq_some_iff.mp h
  rw [IStream.length_many h]
  exact IStream.unsigned_lt (Prod.ext hn rfl)

theorem length_foldl_insertClause (cs : List (List CnfLit)) (cnf : Cnf) :
    (cs.foldl insertClause cnf).length ≤ cnf.length + cs.length := by
  induction cs generalizing cnf with
  | nil => exact Nat.le_refl _
  | cons c cs ih =>
    have hone : (insertClause cnf c).length ≤ cnf.length + 1 := by
      unfold insertClause
      dsimp only
      split <;> simp
    have hrest := ih (insertClause cnf c)
    rw [List.foldl_cons, List.length_cons]
    omega

theorem clauses_foldl_insertClause (cs : List (List CnfLit)) (cnf : Cnf) {c : List CnfLit}
    (h : c ∈ Cnf.clauses (cs.foldl insertClause cnf)) : c ∈ cnf.clauses ∨ ∃ d ∈ cs, c = canonicalizeClause d := by
  induction cs generalizing cnf with
  | nil => exact .inl h
  | cons d cs ih =>
    rcases ih (insertClause cnf d) h with hmem | ⟨e, he, hc⟩
    · unfold insertClause at hmem
      dsimp only at hmem
      split at hmem
      · exact .inl hmem
      · rw [Cnf.clauses, List.map_append, List.mem_append, List.map_singleton, List.mem_singleton] at hmem
        exact hmem.imp_right fun hc => ⟨d, List.mem_cons_self, hc⟩
    · exact .inr ⟨e, List.mem_cons_of_mem d he, hc⟩

variable {cnf : Cnf}

theorem countable_importFromFile {s : IStream} (h : importFromFile [] s = some cnf) : cnf.Countable := by
  obtain ⟨n, hn, h⟩ := Option.bind_eq_some_iff.mp h
  obtain ⟨r, hr, rfl⟩ := Option.map_eq_some_iff.mp h
  have hcount : r.1.length < 2 ^ 32 := by
    rw [IStream.length_many hr]
    exact IStream.unsigned_lt (Prod.ext hn rfl)
  have hclauses := IStream.forall_mem_many (P := fun c => c.length < 2 ^ 32) (fun _ _ => length_importClause) hr
  refine ⟨?_, fun p hp => ?_⟩
  · have hle := length_foldl_insertClause r.1 []
    rw [List.length_nil] at hle
    omega
  · rcases clauses_foldl_insertClause r.1 [] (List.mem_map_of_mem hp) with hmem | ⟨d, hd, hpd⟩
    · exact absurd hmem List.not_mem_nil
    · rw [hpd, (canonicalizeClause_perm d).length_eq]
      exact hclauses d hd

theorem importFromFile_export (h : cnf.Canonical) (hcount : cnf.Countable) :
    importFromFile [] (IStream.ofText (exportInCnfFormat cnf)) = some ((cnf.map Prod.snd).foldl insertClause []) := by
  have hends : IStream.Ends ['\n'] := IStream.ends_cons rfl []
  have hclauses : ∀ c ∈ cnf.map Prod.snd, (∀ l ∈ c, l.Named) ∧ c.length < 2 ^ 32 := by
    intro c hc
    obtain ⟨p, hp, rfl⟩ := List.mem_map.mp hc
    exact ⟨(h.clause p hp).2.2, hcount.2 p hp⟩
  obtain ⟨hmany, hrest⟩ := @IStream.many_flatMap _ _ IStream.Ends _ (cnf.map Prod.snd)
    (fun c hc rest hrest => ⟨IStream.ends_cons rfl _, importClause_lines (hclauses c hc).1 (hclauses c hc).2 hrest⟩) ['\n'] hends
  have hnum := IStream.unsigned_digits (List.forall_mem_nil _) hrest hcount.1
  rw [List.nil_append] at hnum
  rw [List.length_map] at hmany
  rw [importFromFile, exportInCnfFormat_eq, digits, hnum]
  simp only [Option.bind_some, hmany, Option.map_some]

theorem importFromFile_export_iff (h : cnf.Canonical) :
    (∃ t, importFromFile [] (IStream.ofText (exportInCnfFormat cnf)) = some t ∧ t.Perm cnf) ↔ cnf.Countable := by
  constructor
  · rintro ⟨t, ht, hperm⟩
    obtain ⟨hlength, hclauses⟩ := countable_importFromFile ht
    exact ⟨hperm.length_eq ▸ hlength, fun p hp => hclauses p (hperm.mem_iff.mpr hp)⟩
  · intro hcount
    have hnil : Cnf.Canonical [] := ⟨List.nodup_nil, List.forall_mem_nil _⟩
    have hnamed : ∀ c ∈ cnf.map Prod.snd, ∀ l ∈ c, l.Named := by
      intro c hc
      obtain ⟨p, hp, rfl⟩ := List.mem_map.mp hc
      exact (h.clause p hp).2.2
    obtain ⟨hcanon, hholds⟩ := foldl_insertClause_canonical hnil hnamed
    refine ⟨_, importFromFile_export h hcount, hcanon.perm_of_holds h fun d => ?_⟩
    rw [hholds]
    constructor
    · rintro (⟨p, hp, -⟩ | ⟨c, hc, hperm⟩)
      · exact absurd hp List.not_mem_nil
      · obtain ⟨p, hp, rfl⟩ := List.mem_map.mp hc
        exact ⟨p, hp, hperm.symm⟩
    · rintro ⟨p, hp, hperm⟩
      exact .inr ⟨p.2, List.mem_map_of_mem hp, hperm.symm⟩

end Text

/-! ### Stores of a run -/

/-- A store of a run has each clause once and sorted, under its text; it is determined by the clauses that were put in; and it
comes back from its text, in whatever order it was listed, exactly if the reader can count its clauses and their literals. -/
theorem canonical_and_import_export_iff {σ τ : Nat → Cnf} {put put' : Nat → List CnfLit → Prop} (hσ : CnfRun σ put)
    (hτ : CnfRun τ put') (i j : Nat) :
    (σ i).Canonical ∧ ((σ i).Pairwise fun p q => ¬ p.2.Perm q.2) ∧ (put i = put' j → (σ i).Perm (τ j)) ∧
      ∀ listing : Cnf, listing.Perm (σ i) →
        ((∃ t, importFromFile [] (IStream.ofText (exportInCnfFormat listing)) = some t ∧ t.Perm (σ i)) ↔
          (σ i).Countable) := by
  obtain ⟨hcanon, hput⟩ := hσ.canonical i
  obtain ⟨hcanon', hput'⟩ := hτ.canonical j
  refine ⟨hcanon, hcanon.once, fun hsame => hcanon.perm_of_holds hcanon' fun d => ?_, fun listing hperm => ?_⟩
  · rw [hput, hput', hsame]
  · have hcount : listing.Countable ↔ (σ i).Countable := by
      rw [Cnf.Countable, Cnf.Countable, hperm.length_eq]
      exact and_congr_right fun _ =>
        ⟨fun h p hp => h p (hperm.mem_iff.mpr hp), fun h p hp => h p (hperm.mem_iff.mp hp)⟩
    have hsame : ∀ t : Cnf, t.Perm (σ i) ↔ t.Perm listing := fun t => ⟨(·.trans hperm.symm), (·.trans hperm)⟩
    simp only [hsame]
    rw [importFromFile_export_iff (hcanon.perm hperm), hcount]

/-- The literal of bit `n` of a register. -/
def counterBit (n : Nat) : CnfLit := ⟨false, "m1.cnt".toList, n⟩

theorem counterBit_named {n : Nat} (h : n < 2 ^ 32) : (counterBit n).Named := by
  have hname : "m1.cnt".toList ≠ [] := by decide
  have hblank : ∀ c ∈ "m1.cnt".toList, IStream.isSpace c = false := List.all_iff_forall_prop.mp (by decide)
  exact ⟨hname, hblank, h⟩

theorem run_insertClause {c : List CnfLit} (hc : ∀ l ∈ c, l.Named) :
    CnfRun (Function.update (fun _ => []) 0 (insertClause [] c)) (Function.update (fun _ _ => False) 0 fun d => False ∨ d.Perm c) :=
  .insertClause .empty 0 hc

theorem insertClause_nil (c : List CnfLit) : insertClause [] c = [(clause2Str (canonicalizeClause c), canonicalizeClause c)] :=
  rfl

theorem canonical_and_import_export_iff_swapped :
    (insertClause [] [counterBit 0, counterBit 1]).Perm (insertClause [] [counterBit 1, counterBit 0]) ∧
      ∃ t, importFromFile [] (IStream.ofText (exportInCnfFormat (insertClause [] [counterBit 0, counterBit 1]))) = some t ∧
        t.Perm (insertClause [] [counterBit 0, counterBit 1]) := by
  have h₀ : (counterBit 0).Named := counterBit_named (by decide)
  have h₁ : (counterBit 1).Named := counterBit_named (by decide)
  have hc : ∀ l ∈ [counterBit 0, counterBit 1], l.Named := by simp [h₀, h₁]
  have hc' : ∀ l ∈ [counterBit 1, counterBit 0], l.Named := by simp [h₀, h₁]
  have hput : (fun d : List CnfLit => False ∨ d.Perm [counterBit 0, counterBit 1]) =
      fun d => False ∨ d.Perm [counterBit 1, counterBit 0] := by
    funext d
    have hswap : [counterBit 0, counterBit 1].Perm [counterBit 1, counterBit 0] := .swap _ _ _
    exact propext (or_congr_right ⟨(·.trans hswap), (·.trans hswap.symm)⟩)
  obtain ⟨-, -, hsame, hiff⟩ := canonical_and_import_export_iff (run_insertClause hc) (run_insertClause hc') 0 0
  rw [Function.update_self, Function.update_self] at hsame
  rw [Function.update_self] at hiff
  refine ⟨hsame hput, (hiff _ (.refl _)).mpr ?_⟩
  rw [insertClause_nil]
  refine ⟨Nat.lt_of_lt_of_le Nat.one_lt_two (by decide), List.forall_mem_singleton.mpr ?_⟩
  rw [(canonicalizeClause_perm _).length_eq]
  decide

theorem long_clause_lost {c : List CnfLit} (hlong : 2 ^ 32 ≤ c.length) :
    ¬ ∃ t, importFromFile [] (IStream.ofText (exportInCnfFormat (insertClause [] c))) = some t ∧ t.Perm (insertClause [] c) := by
  rintro ⟨t, ht, hperm⟩
  have hmem := hperm.mem_iff.mpr List.mem_cons_self
  have hlt := (countable_importFromFile ht).2 _ hmem
  rw [(canonicalizeClause_perm c).length_eq] at hlt
  omega

/-- A clause with more literals than the reader can count. -/
theorem long_clause_not_imported : ¬ ∀ (σ : Nat → Cnf) (put : Nat → List CnfLit → Prop), CnfRun σ put → ∀ i,
    ∃ t, importFromFile [] (IStream.ofText (exportInCnfFormat (σ i))) = some t ∧ t.Perm (σ i) := by
  intro h
  have hlong : 2 ^ 32 ≤ (List.replicate (2 ^ 32) (counterBit 0)).length := (List.length_replicate ..).ge
  have hc : ∀ l ∈ List.replicate (2 ^ 32) (counterBit 0), l.Named := fun l hl =>
    List.eq_of_mem_replicate hl ▸ counterBit_named (by decide)
  generalize List.replicate (2 ^ 32) (counterBit 0) = c at hlong hc
  have hlost := h _ _ (run_insertClause hc) 0
  rw [Function.update_self] at hlost
  exact long_clause_lost hlong hlost

end Abc

end Ilang
