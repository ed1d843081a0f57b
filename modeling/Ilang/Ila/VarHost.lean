import Ilang.Ila.Register
import Mathlib.Logic.Relation

/-!
# Hosts of variables

The solver knows a variable by the root name of its host, a separator and its own name. Two ILAs keep their variables
apart if every variable has its own ILA, or one above it, as host, and the root names with the separator can be told
apart.
-/

namespace Ilang

open Smt Relation

/-! ### Symbols -/

/-- The part of a symbol before the name of the variable. -/
def hostText (root : String) : List Char := (root ++ "_sEp_").toList

/-- Neither root name is empty, and with the separator neither of them begins with the other. -/
def RootsApart (r r' : String) : Prop :=
  r ≠ "" ∧ r' ≠ "" ∧ ¬hostText r <+: hostText r' ∧ ¬hostText r' <+: hostText r

instance (r r' : String) : Decidable (RootsApart r r') := inferInstanceAs (Decidable (_ ∧ _))

theorem RootsApart.symm {r r' : String} (h : RootsApart r r') : RootsApart r' r := ⟨h.2.1, h.1, h.2.2.2, h.2.2.1⟩

theorem hostText_initial {r : String} (hr : r ≠ "") (name suffix : String) :
    hostText r <+: (formatStr name r suffix).toList := by
  rw [formatStr, if_neg hr, hostText]
  split
  · rw [String.toList_append (s := r ++ "_sEp_")]
    exact List.prefix_append _ _
  · rw [String.append_assoc, String.append_assoc, String.toList_append (s := r ++ "_sEp_")]
    exact List.prefix_append _ _

theorem formatStr_ne {r r' : String} (h : RootsApart r r') (name name' suffix suffix' : String) :
    formatStr name r suffix ≠ formatStr name' r' suffix' := by
  intro heq
  have hpre := hostText_initial h.1 name suffix
  have hpre' := hostText_initial h.2.1 name' suffix'
  rw [← heq] at hpre'
  rcases List.prefix_or_prefix_of_prefix hpre hpre' with hcase | hcase
  · exact h.2.2.1 hcase
  · exact h.2.2.2 hcase

namespace Heap

/-! ### Hosts and root names -/

def IsParent (h : Heap) (a b : Nat) : Prop := ∃ d : IlaObj, h.ilas[b]? = some d ∧ d.parent = some a

/-- An ILA and the ones that it is below. -/
def Above (h : Heap) : Nat → Nat → Prop := ReflTransGen h.IsParent

def hostOf (h : Heap) (v : Nat) : Option Nat := h.vars[v]?.bind VarObj.host

/-- The host of a variable is an ILA or one above it. -/
def HostedBy (h : Heap) (i v : Nat) : Prop := ∃ a, h.hostOf v = some a ∧ h.Above a i

/-- A recursion along the parents, as deep as the number says. -/
def upTo {α : Type} (missing : α) (top : String → α) (below : α → String → α) (h : Heap) : Nat → Nat → α
  | 0, _ => missing
  | fuel + 1, i =>
    match h.ilas[i]? with
    | none => missing
    | some d =>
      match d.parent with
      | none => top d.name
      | some p => below (upTo missing top below h fuel p) d.name

/-- `GetRootName`. A parent is made before its children. -/
def rootName (h : Heap) (i : Nat) : String := h.upTo "" id (fun root name => root ++ "." ++ name) (i + 1) i

/-- The names on the way from the top to an ILA. -/
def path (h : Heap) (i : Nat) : List String := h.upTo [] (fun name => [name]) (fun path name => path ++ [name]) (i + 1) i

/-- What the solver knows a variable by. -/
def sym (h : Heap) (v : VarObj) (suffix : String) : Sym := Var.sym ⟨0, v.name, v.host.map h.rootName, v.sort⟩ suffix

/-- A new root name can be told apart from those of the ILAs with other names. -/
def ApartFrom (h : Heap) (root : String) (path : List String) : Prop :=
  ∀ j < h.ilas.length, h.path j ≠ path → RootsApart root (h.rootName j)

/-- A call gives every variable that it registers a host, and a new ILA can be told apart from the others. -/
def HostOk (h : Heap) : RegCall → Prop
  | .newIla name => h.ApartFrom name [name]
  | .newChild i name => h.ApartFrom (h.rootName i ++ "." ++ name) (h.path i ++ [name])
  | .newObject i (some k) name sort =>
    ∀ obj n es, VarContainer.make sort name h.vars.length = some (obj, n) → obj.visit = some es →
      ∀ e ∈ es, e.name ∈ h.names i (.ofKind k)
  | .addVar i k v => ∀ var, h.vars[v]? = some var → var.name ∈ h.names i (.ofKind k) ∨ h.HostedBy i v
  | .addObject i k _ obj => ∀ es, obj.visit = some es → ∀ e ∈ es, e.name ∈ h.names i (.ofKind k) ∨ h.HostedBy i e.id
  | _ => True

/-! ### Later calls -/

variable {debug : Bool} {h h' : Heap} {i : Nat}

theorem ila_of_grows (hg : Grows h h') (hi : i < h.ilas.length) {d' : IlaObj} (hd' : h'.ilas[i]? = some d') :
    ∃ d : IlaObj, h.ilas[i]? = some d ∧ d'.name = d.name ∧ d'.parent = d.parent := by
  have hd := List.getElem?_eq_getElem hi
  obtain ⟨d'', hd'', hname, hparent⟩ := hg.ila i _ hd
  obtain rfl := Option.some.inj (hd'.symm.trans hd'')
  exact ⟨_, hd, hname, hparent⟩

theorem Above.grows (hg : Grows h h') {a : Nat} (habove : h.Above a i) : h'.Above a i := by
  have hmono : h.IsParent ≤ h'.IsParent := by
    intro a b hab
    obtain ⟨d, hd, hparent⟩ := hab
    obtain ⟨d', hd', -, hparent'⟩ := hg.ila b d hd
    exact ⟨d', hd', hparent'.trans hparent⟩
  exact ReflTransGen.mono hmono _ _ habove

theorem hostOf_grows (hg : Grows h h') {v a : Nat} (hhost : h.hostOf v = some a) : h'.hostOf v = some a := by
  obtain ⟨var, hvar, ha⟩ := Option.bind_eq_some_iff.mp hhost
  rw [hostOf, getElem?_of_initial hg.vars hvar]
  exact ha

theorem HostedBy.grows (hg : Grows h h') {v : Nat} (hhosted : h.HostedBy i v) : h'.HostedBy i v := by
  obtain ⟨a, ha, habove⟩ := hhosted
  exact ⟨a, hostOf_grows hg ha, habove.grows hg⟩

/-- Parents are made first. -/
def ParentsFirst (h : Heap) : Prop := ∀ (i : Nat) (d : IlaObj) (p : Nat), h.ilas[i]? = some d → d.parent = some p → p < i

section UpTo

variable {α : Type} {missing : α} {top : String → α} {below : α → String → α}

theorem upTo_eq (hparents : h.ParentsFirst) {fuel : Nat} (hi : i < fuel) :
    h.upTo missing top below fuel i = h.upTo missing top below (i + 1) i := by
  induction i using Nat.strongRecOn generalizing fuel with
  | ind i ih =>
    cases fuel with
    | zero => omega
    | succ fuel =>
      rw [upTo, upTo]
      cases hd : h.ilas[i]? with
      | none => rfl
      | some d =>
        cases hp : d.parent with
        | none => simp only [hp]
        | some p =>
          have hlt : p < i := hparents i d p hd hp
          simp only [hp]
          rw [ih p hlt (by omega), ih p hlt hlt]

theorem upTo_grows (hg : Grows h h') (hparents : h.ParentsFirst) (fuel : Nat) (hi : i < h.ilas.length) :
    h'.upTo missing top below fuel i = h.upTo missing top below fuel i := by
  induction fuel generalizing i with
  | zero => rfl
  | succ fuel ih =>
    have hd := List.getElem?_eq_getElem hi
    obtain ⟨d', hd', hname, hparent⟩ := hg.ila i _ hd
    rw [upTo, upTo, hd', hd]
    simp only
    rw [hparent, hname]
    cases hp : (h.ilas[i]).parent with
    | none => rfl
    | some p =>
      have hlt : p < i := hparents i _ p hd hp
      simp only
      rw [ih (by omega)]

end UpTo

theorem ilas_step {c : RegCall} {rs : List Ret} (hstep : StepTo h c h' rs) :
    h'.ilas.length = h.ilas.length ∨ h'.ilas.length = h.ilas.length + 1 ∧
      ∃ d : IlaObj, h'.ilas[h.ilas.length]? = some d ∧ (c = .newIla d.name ∧ d.parent = none ∨
        ∃ i < h.ilas.length, c = .newChild i d.name ∧ d.parent = some i) := by
  cases hstep with
  | newIla name =>
    refine .inr ⟨by simp, { name := name, parent := none }, List.getElem?_concat_length, .inl ⟨rfl, rfl⟩⟩
  | newChild i name h₁ hi hgrows hlen =>
    obtain ⟨d, hd, hname, hparent⟩ := (hgrows.trans grows_push).ila h.ilas.length
      { name := name, parent := some i } List.getElem?_concat_length
    exact .inr ⟨by rw [length_push, hlen], d, hd, .inr ⟨i, hi, by rw [hname], hparent⟩⟩
  | newBareVar | freeVar | freeObject => exact .inl rfl
  | newVar | addVar | newInstr => exact .inl length_push
  | newObject _ _ _ _ _ _ _ _ _ _ _ hreg | addObject _ _ _ _ _ _ _ _ hreg => exact .inl hreg.length

/-- What the calls keep under the condition. -/
structure HostInv (h : Heap) (log : List Ret) : Prop where
  parents : h.ParentsFirst
  inside : ∀ v a, h.hostOf v = some a → a < h.ilas.length
  hosted : ∀ i (k : Kind), ∀ p ∈ h.reg i (.ofKind k), h.HostedBy i p.2
  free : ∀ r ∈ log, r.slot = none → h.hostOf r.id = some r.ila
  apart : ∀ i < h.ilas.length, ∀ j < h.ilas.length, h.path i ≠ h.path j → RootsApart (h.rootName i) (h.rootName j)

theorem parentsFirst_step {c : RegCall} {rs : List Ret} (hstep : StepTo h c h' rs) (hparents : h.ParentsFirst) :
    h'.ParentsFirst := by
  intro i d p hd hp
  have hi := (List.getElem?_eq_some_iff.mp hd).1
  have hold : i < h.ilas.length → p < i := by
    intro hi
    obtain ⟨d₀, hd₀, -, hparent⟩ := ila_of_grows hstep.grows hi hd
    exact hparents i d₀ p hd₀ (hparent ▸ hp)
  rcases ilas_step hstep with hlen | ⟨hlen, d', hd', hnew⟩
  · exact hold (by omega)
  · by_cases hlt : i < h.ilas.length
    · exact hold hlt
    · obtain rfl : i = h.ilas.length := by omega
      obtain rfl := Option.some.inj (hd.symm.trans hd')
      rcases hnew with ⟨-, hnone⟩ | ⟨j, hj, -, hsome⟩
      · rw [hnone] at hp
        cases hp
      · rw [hsome] at hp
        exact Option.some.inj hp ▸ hj

theorem hostOf_step {c : RegCall} {rs : List Ret} (hstep : StepTo h c h' rs) {v a : Nat} (hhost : h'.hostOf v = some a) :
    h.hostOf v = some a ∨ a < h.ilas.length := by
  have hnew : ∀ vs : List VarObj, (∀ w ∈ vs, ∀ a, w.host = some a → a < h.ilas.length) →
      (h.vars ++ vs)[v]?.bind VarObj.host = some a → h.hostOf v = some a ∨ a < h.ilas.length := by
    intro vs hvs hv
    obtain ⟨var, hvar, ha⟩ := Option.bind_eq_some_iff.mp hv
    by_cases hlt : v < h.vars.length
    · rw [List.getElem?_append_left hlt] at hvar
      exact .inl (Option.bind_eq_some_iff.mpr ⟨var, hvar, ha⟩)
    · rw [List.getElem?_append_right (by omega)] at hvar
      exact .inr (hvs var (List.mem_of_getElem? hvar) a ha)
  cases hstep with
  | newIla | newInstr | addVar => exact .inl hhost
  | newBareVar name sort => exact hnew [⟨name, sort, none⟩] (by simp) hhost
  | freeVar i name sort hi => exact hnew [⟨name, sort, some i⟩] (by simp [hi]) hhost
  | newVar i kind name sort hi => exact hnew [⟨name, sort, some i⟩] (by simp [hi]) hhost
  | freeObject i name sort es hi => exact hnew _ (by simp [hi]) hhost
  | newObject i kind name sort obj n es _ _ _ _ hreg =>
    rw [hostOf, hreg.vars] at hhost
    exact hnew _ (by simp) hhost
  | addObject i kind name obj es _ _ _ hreg =>
    rw [hostOf, hreg.vars] at hhost
    exact .inl hhost
  | newChild i name h₁ _ _ _ hvars =>
    have hhost' : h₁.vars[v]?.bind VarObj.host = some a := hhost
    rw [hvars] at hhost'
    exact .inl hhost'

theorem isParent_newChild {name : String} {h₁ : Heap}
    (hgrows : Grows { h with ilas := h.ilas ++ [{ name := name, parent := some i }] } h₁) :
    h₁.IsParent i h.ilas.length := by
  obtain ⟨d, hd, -, hparent⟩ := hgrows.ila h.ilas.length _ List.getElem?_concat_length
  exact ⟨d, hd, hparent⟩

theorem hosted_step {c : RegCall} {rs : List Ret} (hstep : StepTo h c h' rs) (hok : h.HostOk c)
    (hhosted : ∀ i (k : Kind), ∀ p ∈ h.reg i (.ofKind k), h.HostedBy i p.2) :
    ∀ i (k : Kind), ∀ p ∈ h'.reg i (.ofKind k), h'.HostedBy i p.2 := by
  intro j k p hp
  have hgrows := hstep.grows
  have hold : p ∈ h.reg j (.ofKind k) → h'.HostedBy j p.2 := fun hp => (hhosted j k p hp).grows hgrows
  cases hstep with
  | newIla name =>
    rw [reg_newIla] at hp
    exact hold hp
  | newBareVar | freeVar | freeObject => exact hold hp
  | newVar i kind name sort =>
    rcases mem_reg_push hp with hp | ⟨rfl, -, rfl, -⟩
    · exact hold hp
    · refine ⟨j, ?_, .refl⟩
      exact congrArg (fun o : Option VarObj => o.bind VarObj.host) List.getElem?_concat_length
  | newObject i kind name sort obj n es _ _ hmake hvisit hreg =>
    rcases hreg.reg j _ p hp with hp | ⟨rfl, hk, hp, hfree⟩
    · exact hold hp
    · obtain ⟨e, he, rfl⟩ := List.mem_map.mp hp
      exact absurd (hk ▸ hok obj n es hmake hvisit e he) hfree
  | addVar i kind v var _ hvar =>
    rcases mem_reg_push hp with hp | ⟨rfl, hk, rfl, hfree⟩
    · exact hold hp
    · exact ((hok var hvar).resolve_left hfree).grows hgrows
  | addObject i kind name obj es _ _ hvisit hreg =>
    rcases hreg.reg j _ p hp with hp | ⟨rfl, hk, hp, hfree⟩
    · exact hold hp
    · obtain ⟨e, he, rfl⟩ := List.mem_map.mp hp
      exact ((hok es hvisit e he).resolve_left (hk ▸ hfree)).grows hgrows
  | newInstr i name =>
    rcases mem_reg_push hp with hp | ⟨-, hk, -⟩
    · exact hold hp
    · cases k <;> cases hk
  | newChild i name h₁ _ hgrows₁ _ _ hreg =>
    rcases mem_reg_push hp with hp | ⟨-, hk, -⟩
    · rcases hreg j _ p hp with hp | ⟨rfl, hp, -⟩
      · exact hold hp
      · -- the child has it from its parent
        obtain ⟨a, ha, habove⟩ := (hhosted i k p hp).grows hgrows
        obtain ⟨d, hd, hparent⟩ := isParent_newChild hgrows₁
        obtain ⟨d', hd', -, hparent'⟩ := grows_push.ila _ _ hd
        exact ⟨a, ha, habove.tail ⟨d', hd', hparent'.trans hparent⟩⟩
    · cases k <;> cases hk

theorem free_step {c : RegCall} {rs : List Ret} (hstep : StepTo h c h' rs) :
    ∀ r ∈ rs, r.slot = none → h'.hostOf r.id = some r.ila := by
  intro r hr hslot
  cases hstep with
  | freeVar i name sort =>
    obtain rfl := List.mem_singleton.mp hr
    exact congrArg (fun o : Option VarObj => o.bind VarObj.host) List.getElem?_concat_length
  | freeObject i name sort es _ hvars =>
    obtain ⟨e, he, rfl⟩ := List.mem_map.mp hr
    rw [hostOf, hvars e he]
    rfl
  | newVar | newInstr | newChild =>
    obtain rfl := List.mem_singleton.mp hr
    cases hslot
  | newIla | newBareVar | newObject | addVar | addObject => cases hr

theorem rootName_grows (hg : Grows h h') (hparents : h.ParentsFirst) (hi : i < h.ilas.length) :
    h'.rootName i = h.rootName i := upTo_grows hg hparents _ hi

theorem path_grows (hg : Grows h h') (hparents : h.ParentsFirst) (hi : i < h.ilas.length) : h'.path i = h.path i :=
  upTo_grows hg hparents _ hi

theorem upTo_new {α : Type} {missing : α} {top : String → α} {below : α → String → α} (hg : Grows h h')
    (hparents : h.ParentsFirst) {d : IlaObj} (hd : h'.ilas[h.ilas.length]? = some d) :
    (d.parent = none → h'.upTo missing top below (h.ilas.length + 1) h.ilas.length = top d.name) ∧
    ∀ p < h.ilas.length, d.parent = some p → h'.upTo missing top below (h.ilas.length + 1) h.ilas.length =
      below (h.upTo missing top below (p + 1) p) d.name := by
  refine ⟨fun hp => by simp only [upTo, hd, hp], fun p hlt hp => ?_⟩
  simp only [upTo, hd, hp]
  rw [upTo_grows hg hparents _ hlt, upTo_eq hparents hlt]
  simp only [upTo]

theorem apart_step {c : RegCall} {rs : List Ret} (hstep : StepTo h c h' rs) (hok : h.HostOk c)
    (hparents : h.ParentsFirst)
    (hapart : ∀ i < h.ilas.length, ∀ j < h.ilas.length, h.path i ≠ h.path j → RootsApart (h.rootName i) (h.rootName j)) :
    ∀ i < h'.ilas.length, ∀ j < h'.ilas.length, h'.path i ≠ h'.path j → RootsApart (h'.rootName i) (h'.rootName j) := by
  have hg := hstep.grows
  have hold : ∀ i < h.ilas.length, ∀ j < h.ilas.length, h'.path i ≠ h'.path j →
      RootsApart (h'.rootName i) (h'.rootName j) := by
    intro i hi j hj hne
    rw [path_grows hg hparents hi, path_grows hg hparents hj] at hne
    rw [rootName_grows hg hparents hi, rootName_grows hg hparents hj]
    exact hapart i hi j hj hne
  rcases ilas_step hstep with hlen | ⟨hlen, d, hd, hnew⟩
  · rwa [hlen]
  · have hfrom : h.ApartFrom (h'.rootName h.ilas.length) (h'.path h.ilas.length) := by
      obtain ⟨hroot, hbelow⟩ := @upTo_new h h' _ "" id (fun root name => root ++ "." ++ name) hg hparents d hd
      obtain ⟨hroot', hbelow'⟩ := @upTo_new h h' _ [] (fun name => [name]) (fun path name => path ++ [name]) hg hparents d hd
      rcases hnew with ⟨rfl, hp⟩ | ⟨p, hlt, rfl, hp⟩
      · rw [rootName, path, hroot hp, hroot' hp]
        exact hok
      · rw [rootName, path, hbelow p hlt hp, hbelow' p hlt hp]
        exact hok
    have hlast : ∀ j < h.ilas.length, h'.path h.ilas.length ≠ h'.path j →
        RootsApart (h'.rootName h.ilas.length) (h'.rootName j) := by
      intro j hj hne
      rw [rootName_grows hg hparents hj]
      rw [path_grows hg hparents hj] at hne
      exact hfrom j hj hne.symm
    intro i hi j hj hne
    rcases Nat.lt_or_ge i h.ilas.length with hi' | hi'
    · rcases Nat.lt_or_ge j h.ilas.length with hj' | hj'
      · exact hold i hi' j hj' hne
      · obtain rfl : j = h.ilas.length := by omega
        exact (hlast i hi' hne.symm).symm
    · obtain rfl : i = h.ilas.length := by omega
      rcases Nat.lt_or_ge j h.ilas.length with hj' | hj'
      · exact hlast j hj' hne
      · obtain rfl : j = h.ilas.length := by omega
        exact absurd rfl hne

theorem HostInv.step {c : RegCall} {log rs : List Ret} (hinv : HostInv h log) (hok : h.HostOk c) (hstep : StepTo h c h' rs) :
    HostInv h' (log ++ rs) := by
  refine ⟨parentsFirst_step hstep hinv.parents, fun v a hhost => ?_, hosted_step hstep hok hinv.hosted, fun r hr hslot => ?_,
    apart_step hstep hok hinv.parents hinv.apart⟩
  · have hle : h.ilas.length ≤ h'.ilas.length := by
      rcases ilas_step hstep with hlen | ⟨hlen, -⟩ <;> omega
    rcases hostOf_step hstep hhost with hold | hlt
    · exact Nat.lt_of_lt_of_le (hinv.inside v a hold) hle
    · exact Nat.lt_of_lt_of_le hlt hle
  · rcases List.mem_append.mp hr with hr | hr
    · exact hostOf_grows hstep.grows (hinv.free r hr hslot)
    · exact free_step hstep r hr hslot

theorem hostInv_init : HostInv {} [] := by
  refine ⟨fun i d p hd => ?_, fun v a hhost => ?_, fun i k p hp => ?_, by simp, by simp⟩
  · cases hd
  · cases hhost
  · cases hp

/-- Whenever every call of a run gives hosts to the variables that it registers and names new ILAs apart, the host of a
registered variable is the ILA it is in or one above it, the host of a free variable is the ILA that returned it, and the
solver never confuses the variables of two ILAs with different names. -/
theorem run_hosts {cs : List RegCall} {log : List Ret} (hrun : run debug {} cs = some (h, log))
    (hok : Every debug HostOk {} cs) :
    (∀ i (k : Kind), ∀ p ∈ h.reg i (.ofKind k), h.HostedBy i p.2) ∧
    (∀ r ∈ log, r.slot = none → h.hostOf r.id = some r.ila) ∧
    ∀ v ∈ h.vars, ∀ w ∈ h.vars, ∀ a b, v.host = some a → w.host = some b → h.path a ≠ h.path b →
      ∀ s t, (h.sym v s).name ≠ (h.sym w t).name := by
  have hinv : HostInv h log := by
    have hall := run_induction (I := HostInv) (fun h log c h' rs hinv hok hstep => hinv.step hok (step_to hstep)) []
      hostInv_init hok hrun
    rwa [List.nil_append] at hall
  refine ⟨hinv.hosted, hinv.free, fun v hv w hw a b ha hb hne s t => ?_⟩
  have hinside : ∀ x ∈ h.vars, ∀ c, x.host = some c → c < h.ilas.length := by
    intro x hx c hc
    obtain ⟨n, hn⟩ := List.mem_iff_getElem?.mp hx
    exact hinv.inside n c (Option.bind_eq_some_iff.mpr ⟨x, hn, hc⟩)
  have hapart := hinv.apart a (hinside v hv a ha) b (hinside w hw b hb) hne
  rw [sym, sym, Var.sym, Var.sym, ha, hb]
  exact formatStr_ne hapart v.name w.name s t

/-- Two ILAs, each with an object of states that is made from one sort under one name. -/
def objectTwins : List RegCall :=
  [.newIla "p", .newIla "q", .newObject 0 (some .state) "s" (.struct [("x", .bv 8)]),
    .newObject 1 (some .state) "s" (.struct [("x", .bv 8)])]

/-- The states have no host, and the solver takes the one for the other. -/
theorem run_hosts_objectTwins : ∃ h log, run true {} objectTwins = some (h, log) ∧
    ∃ p ∈ h.reg 0 (.ofKind .state), ∃ q ∈ h.reg 1 (.ofKind .state), ¬h.HostedBy 0 p.2 ∧ ¬h.HostedBy 1 q.2 ∧ p.2 ≠ q.2 ∧
      h.path 0 ≠ h.path 1 ∧ ∃ v w, h.vars[p.2]? = some v ∧ h.vars[q.2]? = some w ∧ ∀ s, h.sym v s = h.sym w s := by
  refine ⟨_, _, rfl, ("s_x_", 0), by decide, ("s_x_", 1), by decide, ?_, ?_, by decide, by decide, ⟨"s_x_", .bv 8, none⟩,
    ⟨"s_x_", .bv 8, none⟩, rfl, rfl, fun s => rfl⟩
  · rintro ⟨a, ha, -⟩
    cases ha
  · rintro ⟨a, ha, -⟩
    cases ha

/-- A child that takes a free variable of its parent as an input, next to a second ILA with the same names. -/
def childInput : List RegCall :=
  [.newIla "m", .newVar 0 (some .state) "x" (.bv 8), .newObject 0 none "f" (.struct [("y", .bool)]), .newChild 0 "c",
    .newIla "n", .newVar 2 (some .state) "x" (.bv 8), .addVar 1 .input 1]

theorem run_hosts_childInput : ∃ h log, run true {} childInput = some (h, log) ∧
    (∀ i (k : Kind), ∀ p ∈ h.reg i (.ofKind k), h.HostedBy i p.2) ∧
    (∀ r ∈ log, r.slot = none → h.hostOf r.id = some r.ila) ∧
    ∀ v ∈ h.vars, ∀ w ∈ h.vars, ∀ a b, v.host = some a → w.host = some b → h.path a ≠ h.path b →
      ∀ s t, (h.sym v s).name ≠ (h.sym w t).name := by
  refine ⟨_, _, rfl, @run_hosts true _ childInput _ rfl ?_⟩
  refine .cons ?_ rfl (.cons trivial rfl (.cons trivial rfl (.cons ?_ rfl (.cons ?_ rfl (.cons trivial rfl
    (.cons ?_ rfl trivial))))))
  · exact fun j hj => absurd hj (Nat.not_lt_zero j)
  · unfold HostOk ApartFrom
    decide
  · unfold HostOk ApartFrom
    decide
  · exact fun var hvar => .inr ⟨0, rfl, .single ⟨_, rfl, rfl⟩⟩

end Heap

end Ilang
