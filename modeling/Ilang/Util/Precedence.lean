import Mathlib.Tactic

/-!
# Operator precedence

Texts with prefix operators, binary operators that group to the left, one conditional operator and brackets. A tree that respects
the levels of its operators is the only one with its text.
-/

namespace Ilang.Precedence

/-- The operators of a language. A binary operator has a level, and a higher level binds tighter. The conditional operator has the
level 1. Its colon can also separate operands in brackets, as an operator of the level 0. -/
structure Table (ω : Type*) where
  unary : ω → Bool
  binary : ω → Option Nat
  colon : ω
  binary_ne_one : ∀ o, binary o ≠ some 1
  colon_level : ∀ l, binary colon = some l → l = 0

inductive Tok (α ω κ : Type*)
  | atom (a : α)
  | op (o : ω)
  | quest
  | opn (k : κ)
  | cls (k : κ)

/-- Trees keep their brackets. A suffix is a select or a list of arguments. -/
inductive Tree (α ω κ : Type*)
  | atom (a : α)
  | un (o : ω) (t : Tree α ω κ)
  | bin (o : ω) (a b : Tree α ω κ)
  | cond (c a b : Tree α ω κ)
  | group (k : κ) (t : Tree α ω κ)
  | suffix (p : Tree α ω κ) (k : κ) (t : Tree α ω κ)

variable {α ω κ : Type*}

/-- An operator or a suffix with what is to the right of it. -/
inductive Frame (α ω κ : Type*)
  | bin (o : ω) (b : Tree α ω κ)
  | cond (a b : Tree α ω κ)
  | suffix (k : κ) (t : Tree α ω κ)

variable (T : Table ω)

namespace Tree

def toks : Tree α ω κ → List (Tok α ω κ)
  | .atom a => [.atom a]
  | .un o t => .op o :: t.toks
  | .bin o a b => a.toks ++ .op o :: b.toks
  | .cond c a b => c.toks ++ .quest :: (a.toks ++ .op T.colon :: b.toks)
  | .group k t => .opn k :: (t.toks ++ [.cls k])
  | .suffix p k t => p.toks ++ .opn k :: (t.toks ++ [.cls k])

def isPrimary : Tree α ω κ → Bool
  | .atom _ | .group _ _ | .suffix _ _ _ => true
  | .un _ _ | .bin _ _ _ | .cond _ _ _ => false

/-- Outside the brackets, no operator binds looser than the level `n`. -/
def AtLeast (n : Nat) : Tree α ω κ → Prop
  | .bin o _ _ => ∃ l, T.binary o = some l ∧ n ≤ l
  | .cond _ _ _ => n ≤ 1
  | .atom _ | .un _ _ | .group _ _ | .suffix _ _ _ => True

/-- Every operand binds tight enough to stand where it stands without brackets. -/
def WF : Tree α ω κ → Prop
  | .atom _ => True
  | .un o t => T.unary o = true ∧ t.isPrimary = true ∧ t.WF
  | .bin o a b => ∃ l, T.binary o = some l ∧ a.AtLeast T l ∧ b.AtLeast T (l + 1) ∧ a.WF ∧ b.WF
  | .cond c a b => c.AtLeast T 2 ∧ a.AtLeast T 1 ∧ b.AtLeast T 1 ∧ c.WF ∧ a.WF ∧ b.WF
  | .group _ t => t.WF
  | .suffix p _ t => p.isPrimary = true ∧ p.WF ∧ t.WF

/-- The first operand of a text, and what follows it. -/
def base : Tree α ω κ → Tree α ω κ
  | .bin _ a _ => a.base
  | .cond c _ _ => c.base
  | .suffix p _ _ => p.base
  | .atom a => .atom a
  | .un o t => .un o t
  | .group k t => .group k t

def frames : Tree α ω κ → List (Frame α ω κ)
  | .bin o a b => a.frames ++ [.bin o b]
  | .cond c a b => c.frames ++ [.cond a b]
  | .suffix p k t => p.frames ++ [.suffix k t]
  | .atom _ | .un _ _ | .group _ _ => []

end Tree

namespace Frame

def toks : Frame α ω κ → List (Tok α ω κ)
  | .bin o b => .op o :: b.toks T
  | .cond a b => .quest :: (a.toks T ++ .op T.colon :: b.toks T)
  | .suffix k t => .opn k :: (t.toks T ++ [.cls k])

def wrap (t : Tree α ω κ) : Frame α ω κ → Tree α ω κ
  | .bin o b => .bin o t b
  | .cond a b => .cond t a b
  | .suffix k s => .suffix t k s

def AtLeast (n : Nat) : Frame α ω κ → Prop
  | .bin o _ => ∃ l, T.binary o = some l ∧ n ≤ l
  | .cond _ _ => n ≤ 1
  | .suffix _ _ => True

def WF : Frame α ω κ → Prop
  | .bin o b => ∃ l, T.binary o = some l ∧ b.AtLeast T (l + 1) ∧ b.WF T
  | .cond a b => a.AtLeast T 1 ∧ b.AtLeast T 1 ∧ a.WF T ∧ b.WF T
  | .suffix _ t => t.WF T

end Frame

/-- A text that does not go on with an operator of the level `n` or a tighter one, or with a suffix. -/
def Stops (n : Nat) : List (Tok α ω κ) → Prop
  | .op o :: _ => ∀ l, T.binary o = some l → l < n
  | .quest :: _ => 1 < n
  | .atom _ :: _ | .opn _ :: _ => False
  | .cls _ :: _ | [] => True

/-- What a frame has on its right ends before the text. -/
def Frame.Ends (s : List (Tok α ω κ)) : Frame α ω κ → Prop
  | .bin o _ => ∀ l, T.binary o = some l → Stops T (l + 1) s
  | .cond _ _ => Stops T 1 s
  | .suffix _ _ => True

variable {T}

theorem Stops.mono {n m : Nat} {s : List (Tok α ω κ)} (h : Stops T n s) (hle : n ≤ m) : Stops T m s := by
  cases s with
  | nil => trivial
  | cons x s =>
    cases x with
    | op o => exact fun l hl => lt_of_lt_of_le (h l hl) hle
    | quest => exact lt_of_lt_of_le h hle
    | atom a => exact h
    | opn k => exact h
    | cls k => trivial

theorem Frame.AtLeast.mono {n m : Nat} {F : Frame α ω κ} (h : F.AtLeast T m) (hle : n ≤ m) : F.AtLeast T n := by
  cases F with
  | bin o b =>
    obtain ⟨l, hl, hm⟩ := h
    exact ⟨l, hl, hle.trans hm⟩
  | cond a b => exact hle.trans h
  | suffix k t => trivial

theorem Frame.not_stops {n : Nat} {F : Frame α ω κ} (h : F.AtLeast T n) (s : List (Tok α ω κ)) : ¬ Stops T n (F.toks T ++ s) := by
  intro hstops
  cases F with
  | bin o b =>
    obtain ⟨l, hl, hn⟩ := h
    exact absurd (hstops l hl) (Nat.not_lt.mpr hn)
  | cond a b => exact absurd hstops (Nat.not_lt.mpr h)
  | suffix k t => exact hstops

/-! ### Operands and frames -/

namespace Tree

theorem toks_base_frames (t : Tree α ω κ) : t.base.toks T ++ t.frames.flatMap (Frame.toks T) = t.toks T := by
  induction t with
  | bin o a b iha _ =>
    rw [base, frames, List.flatMap_append, ← List.append_assoc, iha, toks, List.flatMap_singleton, Frame.toks]
  | cond c a b ihc _ _ =>
    rw [base, frames, List.flatMap_append, ← List.append_assoc, ihc, toks, List.flatMap_singleton, Frame.toks]
  | suffix p k t ihp _ =>
    rw [base, frames, List.flatMap_append, ← List.append_assoc, ihp, toks, List.flatMap_singleton, Frame.toks]
  | atom a => exact List.append_nil _
  | un o t _ => exact List.append_nil _
  | group k t _ => exact List.append_nil _

theorem foldl_wrap (t : Tree α ω κ) : t.frames.foldl Frame.wrap t.base = t := by
  induction t with
  | bin o a b iha _ => rw [base, frames, List.foldl_append, iha]; rfl
  | cond c a b ihc _ _ => rw [base, frames, List.foldl_append, ihc]; rfl
  | suffix p k t ihp _ => rw [base, frames, List.foldl_append, ihp]; rfl
  | atom a => rfl
  | un o t _ => rfl
  | group k t _ => rfl

theorem eq_of_base_frames {t t' : Tree α ω κ} (hbase : t.base = t'.base) (hframes : t.frames = t'.frames) : t = t' := by
  rw [← foldl_wrap t, ← foldl_wrap t', hbase, hframes]

theorem atLeast_of_primary {t : Tree α ω κ} (h : t.isPrimary = true) (n : Nat) : t.AtLeast T n := by
  cases t with
  | un o t => cases h
  | bin o a b => cases h
  | cond c a b => cases h
  | _ => trivial

theorem atLeast_zero (t : Tree α ω κ) (hw : t.WF T) : t.AtLeast T 0 := by
  cases t with
  | bin o a b =>
    obtain ⟨l, hl, _⟩ := hw
    exact ⟨l, hl, Nat.zero_le l⟩
  | cond c a b => exact Nat.zero_le 1
  | _ => trivial

theorem frames_wf {t : Tree α ω κ} (hw : t.WF T) : ∀ F ∈ t.frames, F.WF T := by
  induction t with
  | bin o a b iha _ =>
    obtain ⟨l, hl, _, hb, hwa, hwb⟩ := hw
    intro F hF
    cases List.mem_append.mp hF with
    | inl hin => exact iha hwa F hin
    | inr hin =>
      rw [List.mem_singleton.mp hin]
      exact ⟨l, hl, hb, hwb⟩
  | cond c a b ihc _ _ =>
    obtain ⟨_, ha, hb, hwc, hwa, hwb⟩ := hw
    intro F hF
    cases List.mem_append.mp hF with
    | inl hin => exact ihc hwc F hin
    | inr hin =>
      rw [List.mem_singleton.mp hin]
      exact ⟨ha, hb, hwa, hwb⟩
  | suffix p k t ihp _ =>
    obtain ⟨_, hwp, hwt⟩ := hw
    intro F hF
    cases List.mem_append.mp hF with
    | inl hin => exact ihp hwp F hin
    | inr hin =>
      rw [List.mem_singleton.mp hin]
      exact hwt
  | _ => exact fun F hF => absurd hF List.not_mem_nil

theorem frames_atLeast {t : Tree α ω κ} {n : Nat} (hw : t.WF T) (hn : t.AtLeast T n) : ∀ F ∈ t.frames, F.AtLeast T n := by
  induction t generalizing n with
  | bin o a b iha _ =>
    obtain ⟨l, hl, ha, _, hwa, _⟩ := hw
    obtain ⟨l', hl', hle⟩ := hn
    intro F hF
    cases List.mem_append.mp hF with
    | inl hin =>
      obtain rfl : l = l' := Option.some.inj (hl.symm.trans hl')
      exact (iha hwa ha F hin).mono hle
    | inr hin =>
      rw [List.mem_singleton.mp hin]
      exact ⟨l', hl', hle⟩
  | cond c a b ihc _ _ =>
    obtain ⟨hc, _, _, hwc, _⟩ := hw
    intro F hF
    cases List.mem_append.mp hF with
    | inl hin =>
      have hle : n ≤ 1 := hn
      exact (ihc hwc hc F hin).mono (by omega)
    | inr hin =>
      rw [List.mem_singleton.mp hin]
      exact hn
  | suffix p k t ihp _ =>
    obtain ⟨hp, hwp, _⟩ := hw
    intro F hF
    cases List.mem_append.mp hF with
    | inl hin => exact ihp hwp (atLeast_of_primary hp n) F hin
    | inr hin =>
      rw [List.mem_singleton.mp hin]
      trivial
  | _ => exact fun F hF => absurd hF List.not_mem_nil

theorem frames_of_primary {t : Tree α ω κ} (hw : t.WF T) (h : t.isPrimary = true) :
    ∀ F ∈ t.frames, ∃ k s, F = .suffix k s := by
  induction t with
  | suffix p k t ihp _ =>
    intro F hF
    cases List.mem_append.mp hF with
    | inl hin => exact ihp hw.2.1 hw.1 F hin
    | inr hin => exact ⟨k, t, List.mem_singleton.mp hin⟩
  | un o t _ => cases h
  | bin o a b _ _ => cases h
  | cond c a b _ _ _ => cases h
  | _ => exact fun F hF => absurd hF List.not_mem_nil

theorem frames_pairwise {t : Tree α ω κ} (hw : t.WF T) :
    t.frames.Pairwise fun F F' => ∀ s, F.Ends T (F'.toks T ++ s) := by
  induction t with
  | bin o a b iha _ =>
    obtain ⟨l, hl, ha, _, hwa, _⟩ := hw
    refine List.pairwise_append.mpr ⟨iha hwa, List.pairwise_singleton _ _, fun F hF F' hF' s => ?_⟩
    rw [List.mem_singleton.mp hF']
    have hat := frames_atLeast hwa ha F hF
    cases F with
    | bin o' b' =>
      intro l' hl' l'' hl''
      obtain ⟨l₁, hl₁, hle⟩ := hat
      obtain rfl : l' = l₁ := Option.some.inj (hl'.symm.trans hl₁)
      obtain rfl : l = l'' := Option.some.inj (hl.symm.trans hl'')
      omega
    | cond a' b' =>
      intro l'' hl''
      obtain rfl : l = l'' := Option.some.inj (hl.symm.trans hl'')
      have hle : l ≤ 1 := hat
      have hne : l ≠ 1 := fun heq => T.binary_ne_one o (heq ▸ hl)
      omega
    | suffix k s => trivial
  | cond c a b ihc _ _ =>
    obtain ⟨hc, _, _, hwc, _⟩ := hw
    refine List.pairwise_append.mpr ⟨ihc hwc, List.pairwise_singleton _ _, fun F hF F' hF' s => ?_⟩
    rw [List.mem_singleton.mp hF']
    have hat := frames_atLeast hwc hc F hF
    cases F with
    | bin o' b' =>
      intro l' hl'
      obtain ⟨l₁, hl₁, hle⟩ := hat
      obtain rfl : l' = l₁ := Option.some.inj (hl'.symm.trans hl₁)
      change 1 < l' + 1
      omega
    | cond a' b' =>
      have hle : 2 ≤ 1 := hat
      omega
    | suffix k s => trivial
  | suffix p k t ihp _ =>
    obtain ⟨hp, hwp, _⟩ := hw
    refine List.pairwise_append.mpr ⟨ihp hwp, List.pairwise_singleton _ _, fun F hF F' _ s => ?_⟩
    obtain ⟨k', s', rfl⟩ := frames_of_primary hwp hp F hF
    trivial
  | _ => exact List.Pairwise.nil

end Tree

/-! ### Unambiguity -/

/-- What is read of a tree before a text that stops it is the tree. -/
def Unique (T : Table ω) (t : Tree α ω κ) : Prop :=
  ∀ (t' : Tree α ω κ) (n : Nat) (r r' : List (Tok α ω κ)), t.WF T → t'.WF T → t.AtLeast T n → t'.AtLeast T n →
    Stops T n r → Stops T n r' → t.toks T ++ r = t'.toks T ++ r' → t = t' ∧ r = r'

theorem Unique.closed {t t' : Tree α ω κ} {k k' : κ} {s s' : List (Tok α ω κ)} (hu : Unique T t) (hw : t.WF T) (hw' : t'.WF T)
    (h : t.toks T ++ .cls k :: s = t'.toks T ++ .cls k' :: s') : t = t' ∧ s = s' := by
  obtain ⟨heq, hrest⟩ := hu t' 0 (.cls k :: s) (.cls k' :: s') hw hw' (t.atLeast_zero hw) (t'.atLeast_zero hw') trivial trivial h
  exact ⟨heq, (List.cons.inj hrest).2⟩

/-- All trees of a frame. -/
def Frame.Unique (T : Table ω) : Frame α ω κ → Prop
  | .bin _ b => Precedence.Unique T b
  | .cond a b => Precedence.Unique T a ∧ Precedence.Unique T b
  | .suffix _ t => Precedence.Unique T t

theorem frame_inj {F F' : Frame α ω κ} {s s' : List (Tok α ω κ)} (hu : F.Unique T) (hw : F.WF T) (hw' : F'.WF T)
    (he : F.Ends T s) (he' : F'.Ends T s') (h : F.toks T ++ s = F'.toks T ++ s') : F = F' ∧ s = s' := by
  cases F with
  | bin o b =>
    cases F' with
    | bin o' b' =>
      obtain ⟨hop, hrest⟩ := List.cons.inj h
      obtain rfl := Tok.op.inj hop
      obtain ⟨l, hl, hb, hwb⟩ := hw
      obtain ⟨l', hl', hb', hwb'⟩ := hw'
      obtain rfl : l = l' := Option.some.inj (hl.symm.trans hl')
      obtain ⟨rfl, hs⟩ := hu b' (l + 1) s s' hwb hwb' hb hb' (he l hl) (he' l hl) hrest
      exact ⟨rfl, hs⟩
    | cond a' b' => cases (List.cons.inj h).1
    | suffix k' t' => cases (List.cons.inj h).1
  | cond a b =>
    cases F' with
    | bin o' b' => cases (List.cons.inj h).1
    | cond a' b' =>
      obtain ⟨ha, hb, hwa, hwb⟩ := hw
      obtain ⟨ha', hb', hwa', hwb'⟩ := hw'
      have hcolon : ∀ u : List (Tok α ω κ), Stops T 1 (.op T.colon :: u) := by
        intro u l hl
        have hzero := T.colon_level l hl
        omega
      rw [Frame.toks, Frame.toks, List.cons_append, List.cons_append, List.append_assoc, List.append_assoc] at h
      obtain ⟨rfl, hrest⟩ := hu.1 a' 1 _ _ hwa hwa' ha ha' (hcolon _) (hcolon _) (List.cons.inj h).2
      obtain ⟨rfl, hs⟩ := hu.2 b' 1 s s' hwb hwb' hb hb' he he' (List.cons.inj hrest).2
      exact ⟨rfl, hs⟩
    | suffix k' t' => cases (List.cons.inj h).1
  | suffix k t =>
    cases F' with
    | bin o' b' => cases (List.cons.inj h).1
    | cond a' b' => cases (List.cons.inj h).1
    | suffix k' t' =>
      rw [Frame.toks, Frame.toks, List.cons_append, List.cons_append, List.append_assoc, List.append_assoc] at h
      obtain ⟨hopen, hrest⟩ := List.cons.inj h
      obtain rfl := Tok.opn.inj hopen
      obtain ⟨rfl, hs⟩ := hu.closed hw hw' hrest
      exact ⟨rfl, hs⟩

theorem ends_rest {F : Frame α ω κ} {fs : List (Frame α ω κ)} {n : Nat} {r : List (Tok α ω κ)} (hat : F.AtLeast T n)
    (hnext : ∀ F' ∈ fs, ∀ s, F.Ends T (F'.toks T ++ s)) (hr : Stops T n r) : F.Ends T (fs.flatMap (Frame.toks T) ++ r) := by
  cases fs with
  | nil =>
    cases F with
    | bin o b =>
      intro l hl
      obtain ⟨l', hl', hle⟩ := hat
      obtain rfl : l = l' := Option.some.inj (hl.symm.trans hl')
      exact hr.mono (by omega)
    | cond a b => exact hr.mono hat
    | suffix k t => trivial
  | cons F' fs =>
    rw [List.flatMap_cons, List.append_assoc]
    exact hnext F' List.mem_cons_self _

theorem frames_inj {fs fs' : List (Frame α ω κ)} {n : Nat} {r r' : List (Tok α ω κ)} (hu : ∀ F ∈ fs, F.Unique T)
    (hw : ∀ F ∈ fs, F.WF T) (hw' : ∀ F ∈ fs', F.WF T) (hn : ∀ F ∈ fs, F.AtLeast T n) (hn' : ∀ F ∈ fs', F.AtLeast T n)
    (hp : fs.Pairwise fun F F' => ∀ s, F.Ends T (F'.toks T ++ s))
    (hp' : fs'.Pairwise fun F F' => ∀ s, F.Ends T (F'.toks T ++ s)) (hr : Stops T n r) (hr' : Stops T n r')
    (h : fs.flatMap (Frame.toks T) ++ r = fs'.flatMap (Frame.toks T) ++ r') : fs = fs' ∧ r = r' := by
  induction fs generalizing fs' with
  | nil =>
    cases fs' with
    | nil => exact ⟨rfl, h⟩
    | cons F' fs' =>
      rw [List.flatMap_cons, List.append_assoc] at h
      have hstops : Stops T n (F'.toks T ++ (fs'.flatMap (Frame.toks T) ++ r')) := h ▸ hr
      exact absurd hstops (Frame.not_stops (hn' F' List.mem_cons_self) _)
  | cons F fs ih =>
    cases fs' with
    | nil =>
      rw [List.flatMap_cons, List.append_assoc] at h
      have hstops : Stops T n (F.toks T ++ (fs.flatMap (Frame.toks T) ++ r)) := h ▸ hr'
      exact absurd hstops (Frame.not_stops (hn F List.mem_cons_self) _)
    | cons F' fs' =>
      obtain ⟨hnext, htail⟩ := List.pairwise_cons.mp hp
      obtain ⟨hnext', htail'⟩ := List.pairwise_cons.mp hp'
      rw [List.flatMap_cons, List.flatMap_cons, List.append_assoc, List.append_assoc] at h
      obtain ⟨rfl, hrest⟩ := frame_inj (hu F List.mem_cons_self) (hw F List.mem_cons_self) (hw' F' List.mem_cons_self)
        (ends_rest (hn F List.mem_cons_self) hnext hr) (ends_rest (hn' F' List.mem_cons_self) hnext' hr') h
      obtain ⟨rfl, hr⟩ := ih (fun G hG => hu G (List.mem_cons_of_mem F hG)) (fun G hG => hw G (List.mem_cons_of_mem F hG))
        (fun G hG => hw' G (List.mem_cons_of_mem F hG)) (fun G hG => hn G (List.mem_cons_of_mem F hG))
        (fun G hG => hn' G (List.mem_cons_of_mem F hG)) htail htail' hrest
      exact ⟨rfl, hr⟩

theorem Tree.base_cases (t : Tree α ω κ) :
    (∃ a, t.base = .atom a) ∨ (∃ o p, t.base = .un o p) ∨ ∃ k s, t.base = .group k s := by
  induction t with
  | atom a => exact .inl ⟨a, rfl⟩
  | un o p _ => exact .inr (.inl ⟨o, p, rfl⟩)
  | group k s _ => exact .inr (.inr ⟨k, s, rfl⟩)
  | bin o a b iha _ => exact iha
  | cond c a b ihc _ _ => exact ihc
  | suffix p k t ihp _ => exact ihp

theorem Tree.base_wf {t : Tree α ω κ} (hw : t.WF T) : t.base.WF T := by
  induction t with
  | bin o a b iha _ =>
    obtain ⟨_, _, _, _, hwa, _⟩ := hw
    exact iha hwa
  | cond c a b ihc _ _ => exact ihc hw.2.2.2.1
  | suffix p k t ihp _ => exact ihp hw.2.1
  | _ => exact hw

theorem base_inj {t t' : Tree α ω κ} {s s' : List (Tok α ω κ)}
    (hu : ∀ q : Tree α ω κ, (q.toks T).length < (t.base.toks T).length → Unique T q) (hw : t.WF T) (hw' : t'.WF T)
    (hs : ∀ o p, t.base = .un o p → ∃ m, Stops T m s) (hs' : ∀ o p, t'.base = .un o p → ∃ m, Stops T m s')
    (h : t.base.toks T ++ s = t'.base.toks T ++ s') : t.base = t'.base ∧ s = s' := by
  have hwb := Tree.base_wf hw
  have hwb' := Tree.base_wf hw'
  rcases t.base_cases with ⟨a, hb⟩ | ⟨o, p, hb⟩ | ⟨k, q, hb⟩
  · rcases t'.base_cases with ⟨a', hb'⟩ | ⟨o', p', hb'⟩ | ⟨k', q', hb'⟩
    · rw [hb, hb'] at h ⊢
      obtain ⟨hatom, hrest⟩ := List.cons.inj h
      obtain rfl := Tok.atom.inj hatom
      exact ⟨rfl, hrest⟩
    · rw [hb, hb'] at h
      cases (List.cons.inj h).1
    · rw [hb, hb'] at h
      cases (List.cons.inj h).1
  · rcases t'.base_cases with ⟨a', hb'⟩ | ⟨o', p', hb'⟩ | ⟨k', q', hb'⟩
    · rw [hb, hb'] at h
      cases (List.cons.inj h).1
    · obtain ⟨m, hm⟩ := hs o p hb
      obtain ⟨m', hm'⟩ := hs' o' p' hb'
      rw [hb] at hwb hu h ⊢
      rw [hb'] at hwb' h ⊢
      obtain ⟨hop, hrest⟩ := List.cons.inj h
      obtain rfl := Tok.op.inj hop
      obtain ⟨rfl, hsame⟩ := hu p (by rw [Tree.toks, List.length_cons]; omega) p' (max m m') s s' hwb.2.2 hwb'.2.2
        (Tree.atLeast_of_primary hwb.2.1 _) (Tree.atLeast_of_primary hwb'.2.1 _) (hm.mono (Nat.le_max_left m m'))
        (hm'.mono (Nat.le_max_right m m')) hrest
      exact ⟨rfl, hsame⟩
    · rw [hb, hb'] at h
      cases (List.cons.inj h).1
  · rcases t'.base_cases with ⟨a', hb'⟩ | ⟨o', p', hb'⟩ | ⟨k', q', hb'⟩
    · rw [hb, hb'] at h
      cases (List.cons.inj h).1
    · rw [hb, hb'] at h
      cases (List.cons.inj h).1
    · rw [hb] at hwb hu h ⊢
      rw [hb'] at hwb' h ⊢
      rw [Tree.toks, Tree.toks, List.cons_append, List.cons_append, List.append_assoc, List.append_assoc] at h
      obtain ⟨hopen, hrest⟩ := List.cons.inj h
      obtain rfl := Tok.opn.inj hopen
      have hsize : (q.toks T).length < ((Tree.group k q).toks T).length := by
        rw [Tree.toks, List.length_cons, List.length_append]
        omega
      have hwq : q.WF T := hwb
      have hwq' : q'.WF T := hwb'
      obtain ⟨rfl, hsame⟩ := (hu q hsize).closed hwq hwq' hrest
      exact ⟨rfl, hsame⟩

theorem exists_stops {t : Tree α ω κ} {n : Nat} {r : List (Tok α ω κ)} {o : ω} {p : Tree α ω κ} (hw : t.WF T)
    (hbase : t.base = .un o p) (hr : Stops T n r) : ∃ m, Stops T m (t.frames.flatMap (Frame.toks T) ++ r) := by
  have hfirst : ∀ F ∈ t.frames, ∀ k s, F ≠ .suffix k s := by
    clear hr
    induction t with
    | bin o' a b iha _ =>
      intro F hF k s
      cases List.mem_append.mp hF with
      | inl hin =>
        obtain ⟨_, _, _, _, hwa, _⟩ := hw
        exact iha hwa hbase F hin k s
      | inr hin =>
        rw [List.mem_singleton.mp hin]
        simp
    | cond c a b ihc _ _ =>
      intro F hF k s
      cases List.mem_append.mp hF with
      | inl hin => exact ihc hw.2.2.2.1 hbase F hin k s
      | inr hin =>
        rw [List.mem_singleton.mp hin]
        simp
    | suffix p' k' t' _ _ =>
      have hprimary : ∀ q : Tree α ω κ, q.isPrimary = true → q.WF T → q.base ≠ .un o p := by
        intro q hq hwq heq
        induction q with
        | suffix q' k t ihq _ => exact ihq hwq.1 hwq.2.1 heq
        | un o t _ => cases hq
        | bin o a b _ _ => cases hq
        | cond c a b _ _ _ => cases hq
        | atom a => cases heq
        | group k t _ => cases heq
      exact absurd hbase (hprimary p' hw.1 hw.2.1)
    | _ => exact fun F hF => absurd hF List.not_mem_nil
  cases hfs : t.frames with
  | nil => exact ⟨n, hr⟩
  | cons F fs =>
    have hmem : F ∈ t.frames := hfs ▸ List.mem_cons_self
    rw [List.flatMap_cons, List.append_assoc]
    cases F with
    | bin o' b =>
      obtain ⟨l, hl, _⟩ := t.frames_wf hw _ hmem
      refine ⟨l + 1, fun l' hl' => ?_⟩
      obtain rfl : l = l' := Option.some.inj (hl.symm.trans hl')
      exact Nat.lt_succ_self l
    | cond a b => exact ⟨2, Nat.lt_succ_self 1⟩
    | suffix k s => exact absurd rfl (hfirst _ hmem k s)

theorem unique (t : Tree α ω κ) : Unique T t := by
  induction hN : (t.toks T).length using Nat.strong_induction_on generalizing t with
  | _ N ih =>
    have hsmaller : ∀ s : Tree α ω κ, (s.toks T).length < (t.toks T).length → Unique T s :=
      fun s hs => ih _ (hN ▸ hs) s rfl
    have hlen : (t.base.toks T).length + (t.frames.flatMap (Frame.toks T)).length = (t.toks T).length := by
      rw [← List.length_append, t.toks_base_frames]
    intro t' n r r' hw hw' hn hn' hr hr' h
    rw [← t.toks_base_frames, ← t'.toks_base_frames, List.append_assoc, List.append_assoc] at h
    have hframes : ∀ F ∈ t.frames, F.Unique T := by
      intro F hF
      have hle : (F.toks T).length ≤ (t.frames.flatMap (Frame.toks T)).length := by
        obtain ⟨fs, fs', heq⟩ := List.append_of_mem hF
        rw [heq, List.flatMap_append, List.flatMap_cons, List.length_append, List.length_append]
        omega
      cases F with
      | bin o b =>
        apply hsmaller
        rw [Frame.toks, List.length_cons] at hle
        omega
      | cond a b =>
        rw [Frame.toks, List.length_cons, List.length_append, List.length_cons] at hle
        exact ⟨hsmaller a (by omega), hsmaller b (by omega)⟩
      | suffix k s =>
        apply hsmaller
        rw [Frame.toks, List.length_cons, List.length_append, List.length_singleton] at hle
        omega
    have hbase : t.base = t'.base ∧ t.frames.flatMap (Frame.toks T) ++ r = t'.frames.flatMap (Frame.toks T) ++ r' := by
      apply base_inj (fun q hq => hsmaller q (by omega)) hw hw' (fun o p hb => exists_stops hw hb hr)
        (fun o p hb => exists_stops hw' hb hr') h
    obtain ⟨hfs, hrest⟩ := frames_inj hframes (t.frames_wf hw) (t'.frames_wf hw') (t.frames_atLeast hw hn)
      (t'.frames_atLeast hw' hn') (t.frames_pairwise hw) (t'.frames_pairwise hw') hr hr' hbase.2
    exact ⟨Tree.eq_of_base_frames hbase.1 hfs, hrest⟩

theorem Tree.unique {t t' : Tree α ω κ} (hw : t.WF T) (hw' : t'.WF T) (h : t.toks T = t'.toks T) : t = t' := by
  have happend : t.toks T ++ [] = t'.toks T ++ [] := by rw [h]
  exact (Precedence.unique t t' 0 [] [] hw hw' (t.atLeast_zero hw) (t'.atLeast_zero hw') trivial trivial happend).1

/-! ### Other names -/

variable {β : Type*}

def Tok.map (f : α → β) : Tok α ω κ → Tok β ω κ
  | .atom a => .atom (f a)
  | .op o => .op o
  | .quest => .quest
  | .opn k => .opn k
  | .cls k => .cls k

namespace Tree

def map (f : α → β) : Tree α ω κ → Tree β ω κ
  | .atom a => .atom (f a)
  | .un o t => .un o (t.map f)
  | .bin o a b => .bin o (a.map f) (b.map f)
  | .cond c a b => .cond (c.map f) (a.map f) (b.map f)
  | .group k t => .group k (t.map f)
  | .suffix p k t => .suffix (p.map f) k (t.map f)

theorem toks_map (f : α → β) (t : Tree α ω κ) : (t.map f).toks T = (t.toks T).map (Tok.map f) := by
  induction t with
  | atom a => rfl
  | un o t ih => simp [map, toks, ih, Tok.map]
  | bin o a b iha ihb => simp [map, toks, iha, ihb, Tok.map]
  | cond c a b ihc iha ihb => simp [map, toks, ihc, iha, ihb, Tok.map]
  | group k t ih => simp [map, toks, ih, Tok.map]
  | suffix p k t ihp iht => simp [map, toks, ihp, iht, Tok.map]

@[simp] theorem isPrimary_map (f : α → β) (t : Tree α ω κ) : (t.map f).isPrimary = t.isPrimary := by
  cases t with
  | _ => rfl

@[simp] theorem atLeast_map (f : α → β) (n : Nat) (t : Tree α ω κ) : (t.map f).AtLeast T n ↔ t.AtLeast T n := by
  cases t with
  | _ => exact Iff.rfl

@[simp] theorem wf_map (f : α → β) (t : Tree α ω κ) : (t.map f).WF T ↔ t.WF T := by
  induction t with
  | atom a => exact Iff.rfl
  | un o t ih => simp [map, WF, ih]
  | bin o a b iha ihb => simp [map, WF, iha, ihb]
  | cond c a b ihc iha ihb => simp [map, WF, ihc, iha, ihb]
  | group k t ih => simp [map, WF, ih]
  | suffix p k t ihp iht => simp [map, WF, ihp, iht]

end Tree

end Ilang.Precedence
