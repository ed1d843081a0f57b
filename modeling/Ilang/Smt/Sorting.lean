import Ilang.Smt.Term

/-!
# Sorts of terms

A solver accepts a term if every application in it is one of its sort rules. Such a term has a value of its sort in
every model, and any other has none.
-/

namespace Smt

namespace Term

mutual

/-- The sort of a term that a solver accepts. -/
def check : Term → Option Srt
  | .const c => some c.sort
  | .bool _ => some .bool
  | .bv w _ => some (.bv w)
  | .op o args => (checkList args).bind o.check
  | .app f args => (checkList args).bind fun ss => if ss = f.args then some f.out else none

def checkList : List Term → Option (List Srt)
  | [] => some []
  | t :: ts => (check t).bind fun s => (checkList ts).map (s :: ·)

end

mutual

theorem eval_map_sort (M : Model) : ∀ t : Term, (t.eval M).map Value.sort = t.check
  | .const c => by rw [eval, check, Option.map_some, M.const_sort]
  | .bool b => rfl
  | .bv w x => rfl
  | .op o args => by
    have hargs := evalList_map_sort M args
    rw [eval, check, ← hargs]
    cases evalList M args with
    | none => rfl
    | some vs => exact Op.apply_sort o vs
  | .app f args => by
    have hargs := evalList_map_sort M args
    rw [eval, check, ← hargs]
    cases evalList M args with
    | none => rfl
    | some vs =>
      rw [Option.bind_some, Option.map_some, Option.bind_some, Model.apply]
      split
      · rw [Option.map_some, M.func_sort]
      · rfl

theorem evalList_map_sort (M : Model) : ∀ ts : List Term, (evalList M ts).map (List.map Value.sort) = checkList ts
  | [] => rfl
  | t :: ts => by
    have hhead := eval_map_sort M t
    have htail := evalList_map_sort M ts
    rw [evalList, checkList, ← hhead, ← htail]
    cases eval M t <;> cases evalList M ts <;> rfl

end

theorem check_congr {t u : Term} (h : ∀ M, t.eval M = u.eval M) : t.check = u.check := by
  rw [← eval_map_sort default t, ← eval_map_sort default u, h]

end Term

end Smt
