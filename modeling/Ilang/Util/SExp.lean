import Mathlib.Data.List.Forall2

/-!
# S-expressions

Terms as lists of tokens and lists, with two things that are done to them. A replacement puts a sequence of expressions in the
place of every expression that it hits, and does not look into what it has put there. Replacements that are made one after
the other do look into it, and into the lists around it, so a later one can miss what an earlier one has changed. The lemmas
here say when a sequence of replacements acts on the parts of a list alone, and when it acts as one of them.
-/

inductive SExp where
  | atom (s : List Char)
  | list (items : List SExp)

namespace SExp

mutual

def tokens : SExp → List (List Char)
  | .atom s => [s]
  | .list items => tokensList items

def tokensList : List SExp → List (List Char)
  | [] => []
  | e :: es => tokens e ++ tokensList es

end

/-! ### Replacement -/

mutual

def replace (hit : SExp → Option (List SExp)) : SExp → List SExp
  | .atom s => (hit (.atom s)).getD [.atom s]
  | .list items => (hit (.list items)).getD [.list (replaceList hit items)]

def replaceList (hit : SExp → Option (List SExp)) : List SExp → List SExp
  | [] => []
  | e :: es => replace hit e ++ replaceList hit es

end

/-- Replacements one after the other. -/
def replaceSeq (hits : List (SExp → Option (List SExp))) (l : List SExp) : List SExp :=
  hits.foldl (fun l hit => replaceList hit l) l

section Replace

variable {hit : SExp → Option (List SExp)} {hits hits' : List (SExp → Option (List SExp))}

theorem replaceList_append (l l' : List SExp) : replaceList hit (l ++ l') = replaceList hit l ++ replaceList hit l' := by
  induction l with
  | nil => rfl
  | cons e l ih => rw [List.cons_append, replaceList, ih, replaceList, List.append_assoc]

theorem replaceList_singleton (e : SExp) : replaceList hit [e] = replace hit e := List.append_nil _

@[simp] theorem replaceSeq_nil (hits : List (SExp → Option (List SExp))) : replaceSeq hits [] = [] := by
  induction hits with
  | nil => rfl
  | cons hit hits ih => exact ih

theorem replaceSeq_append (l l' : List SExp) : replaceSeq hits (l ++ l') = replaceSeq hits l ++ replaceSeq hits l' := by
  induction hits generalizing l l' with
  | nil => rfl
  | cons hit hits ih =>
    change replaceSeq hits (replaceList hit (l ++ l')) = _
    rw [replaceList_append]
    exact ih _ _

theorem replaceSeq_cons (e : SExp) (l : List SExp) : replaceSeq hits (e :: l) = replaceSeq hits [e] ++ replaceSeq hits l :=
  replaceSeq_append [e] l

theorem replaceSeq_concat (l : List SExp) : replaceSeq (hits ++ hits') l = replaceSeq hits' (replaceSeq hits l) :=
  List.foldl_append

theorem replaceSeq_atom {s : List Char} (h : ∀ hit ∈ hits, hit (.atom s) = none) : replaceSeq hits [.atom s] = [.atom s] := by
  induction hits with
  | nil => rfl
  | cons hit hits ih =>
    change replaceSeq hits (replaceList hit [.atom s]) = _
    rw [replaceList_singleton, replace, h hit List.mem_cons_self]
    exact ih fun hit' hmem => h hit' (List.mem_cons_of_mem _ hmem)

theorem replaceSeq_atoms {names : List (List Char)} (h : ∀ hit ∈ hits, ∀ s, hit (.atom s) = none) :
    replaceSeq hits (names.map .atom) = names.map .atom := by
  induction names with
  | nil => exact replaceSeq_nil hits
  | cons s names ih =>
    rw [List.map_cons, replaceSeq_cons, replaceSeq_atom fun hit hmem => h hit hmem s, ih]
    rfl

theorem replaceSeq_list {items : List SExp}
    (h : ∀ hits₁ hit hits₂, hits = hits₁ ++ hit :: hits₂ → hit (.list (replaceSeq hits₁ items)) = none) :
    replaceSeq hits [.list items] = [.list (replaceSeq hits items)] := by
  induction hits generalizing items with
  | nil => rfl
  | cons hit hits ih =>
    change replaceSeq hits (replaceList hit [.list items]) = [.list (replaceSeq hits (replaceList hit items))]
    rw [replaceList_singleton, replace, show hit (.list items) = none from h [] hit hits rfl]
    exact ih fun hits₁ hit' hits₂ heq => h (hit :: hits₁) hit' hits₂ (by rw [heq]; rfl)

/-- The replacement that hits an expression is what the sequence does, if the ones before leave the expression alone and the
ones after leave the result alone. -/
theorem replaceSeq_hit {e : SExp} {new : List SExp} (hbefore : replaceSeq hits [e] = [e]) (hhit : hit e = some new)
    (hafter : replaceSeq hits' new = new) : replaceSeq (hits ++ hit :: hits') [e] = new := by
  rw [replaceSeq_concat, hbefore]
  change replaceSeq hits' (replaceList hit [e]) = new
  rw [replaceList_singleton]
  have hreplace : replace hit e = new := by
    cases e with
    | atom s => rw [replace, hhit]; rfl
    | list items => rw [replace, hhit]; rfl
  rw [hreplace, hafter]

end Replace

/-! ### Meaning -/

/-- The meaning of tokens, of applied tokens, and of applied indexed symbols. -/
structure Interp (V : Type) where
  sym : List Char → Option V
  app : List Char → List V → Option V
  idx : List SExp → List V → Option V

section Eval

variable {V W : Type} (I : Interp V)

mutual

def eval : SExp → Option V
  | .atom s => I.sym s
  | .list (.atom f :: args) => (evalList args).bind (I.app f)
  | .list (.list items :: args) => (evalList args).bind (I.idx items)
  | .list [] => none

def evalList : List SExp → Option (List V)
  | [] => some []
  | e :: es => (eval e).bind fun v => (evalList es).map (v :: ·)

end

variable {I} {J : Interp W}

theorem evalList_atoms {names : List (List Char)} {vs : List V} (h : List.Forall₂ (fun s v => I.sym s = some v) names vs) :
    evalList I (names.map .atom) = some vs := by
  induction h with
  | nil => rfl
  | cons hs _ ih => rw [List.map_cons, evalList, eval, hs, ih]; rfl

theorem evalList_map {f : W → V} {l : List SExp} {l' : List SExp}
    (h : List.Forall₂ (fun e e' => eval I e = (eval J e').map f) l l') :
    evalList I l = (evalList J l').map (List.map f) := by
  induction h with
  | nil => rfl
  | @cons e e' l l' he _ ih =>
    rw [evalList, evalList, he, ih]
    cases eval J e' with
    | none => rfl
    | some v =>
      cases evalList J l' with
      | none => rfl
      | some vs => rfl

end Eval

end SExp
