import Mathlib.Data.List.Basic

/-!
# Scanning guarded actions

A program that tests a list of guarded actions in turn and fires each one whose guard holds when it is tested, then
scans a second list over and over until a scan fires nothing. The program is a machine with one step for each test,
so that a run that does not end has a trace as well.

Against it stand the paths: sequences of actions, each enabled where it fires. When at most one action of the second
list is ever enabled, the scans follow the paths, wherever a scan happens to be.
-/

namespace Sched

variable {α σ : Type}

/-- A guard, and what the action does to the state. -/
structure Actions (α σ : Type) where
  enabled : α → σ → Bool
  fire : α → σ → σ

/-- Which tests are left: in the first scan, or in the current scan of the loop with the number of firings in it. -/
inductive Pc (α : Type) where
  | first (rest : List α)
  | scan (rest : List α) (count : Nat)
  | done

/-- The fired actions, each with the state it leaves. -/
abbrev Fired (α σ : Type) := List (α × σ)

section Machine

variable (A : Actions α σ) (L : List α)

def step : Pc α × σ → Fired α σ × Pc α × σ
  | (.first [], s) => ([], .scan L 0, s)
  | (.first (a :: rest), s) =>
    if A.enabled a s then ([(a, A.fire a s)], .first rest, A.fire a s) else ([], .first rest, s)
  | (.scan [] count, s) => if count = 0 then ([], .done, s) else ([], .scan L 0, s)
  | (.scan (a :: rest) count, s) =>
    if A.enabled a s then ([(a, A.fire a s)], .scan rest (count + 1), A.fire a s) else ([], .scan rest count, s)
  | (.done, s) => ([], .done, s)

def exec : Nat → Pc α × σ → Fired α σ × Pc α × σ
  | 0, c => ([], c)
  | n + 1, c => ((step A L c).1 ++ (exec n (step A L c).2).1, (exec n (step A L c).2).2)

/-- The machine fires these actions, and perhaps more. -/
def Fires (c : Pc α × σ) (tr : Fired α σ) : Prop := ∃ n, (exec A L n c).1 = tr

/-- The machine stops after these actions. -/
def Stops (c : Pc α × σ) (tr : Fired α σ) (t : σ) : Prop := ∃ n, exec A L n c = (tr, .done, t)

end Machine

/-- A sequence of actions of a set, each enabled in the state before it. -/
inductive Path (A : Actions α σ) (P : α → Prop) (s : σ) : Fired α σ → σ → Prop
  | nil : Path A P s [] s
  | snoc {tr : Fired α σ} {t : σ} {a : α} : Path A P s tr t → P a → A.enabled a t = true →
    Path A P s (tr ++ [(a, A.fire a t)]) (A.fire a t)

variable {A : Actions α σ} {L : List α}

theorem Path.cons {P : α → Prop} {s : σ} {a : α} (ha : P a) (hen : A.enabled a s = true) {tr : Fired α σ} {t : σ}
    (h : Path A P (A.fire a s) tr t) : Path A P s ((a, A.fire a s) :: tr) t := by
  induction h with
  | nil => exact .snoc .nil ha hen
  | snoc _ hb henb ih => exact .snoc ih hb henb

theorem Path.mono {P Q : α → Prop} {s : σ} {tr : Fired α σ} {t : σ} (h : Path A P s tr t) (hPQ : ∀ a, P a → Q a) :
    Path A Q s tr t := by
  induction h with
  | nil => exact .nil
  | snoc _ ha hen ih => exact .snoc ih (hPQ _ ha) hen

/-- At most one action of a list is enabled. -/
def AtMostOne (A : Actions α σ) (as : List α) : Prop :=
  ∀ s, ∀ a ∈ as, ∀ b ∈ as, A.enabled a s = true → A.enabled b s = true → a = b

section First

variable {tops pre post : List α} {s : σ} {i : α}

end First

/-! ### One action and its program -/

section Program

variable (B : Actions α σ) (tops : List α) (prog : α → α → Prop) (s : σ)

variable {B tops prog s}

theorem Path.last {P : α → Prop} {tr : Fired α σ} {u : σ} {x : α × σ} (h : Path A P s (tr ++ [x]) u) :
    P x.1 ∧ ∃ t, Path A P s tr t ∧ x.2 = A.fire x.1 t := by
  generalize htr : tr ++ [x] = tr' at h
  cases h with
  | nil => simp at htr
  | snoc hprev ha hena =>
    obtain ⟨rfl, hx⟩ := List.append_inj' htr rfl
    obtain rfl := List.singleton_inj.mp hx
    exact ⟨ha, _, hprev, rfl⟩

theorem Path.state_eq {P : α → Prop} {tr : Fired α σ} {t : σ} (h : Path A P s tr t) :
    t = (tr.getLast?.map Prod.snd).getD s := by
  cases h with
  | nil => rfl
  | snoc _ _ _ => simp

end Program

end Sched
