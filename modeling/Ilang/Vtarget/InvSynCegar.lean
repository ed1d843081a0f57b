import Ilang.Util.Container
import Mathlib.Data.List.Infix
import Mathlib.Tactic

/-!
# The invariant synthesis loop

`InvariantSynthesizerCegar` verifies a design, takes a counterexample from the verifier to a synthesis tool, and adds the
invariant that the tool finds. The calls can be made in any order. Two flags carry the verdicts of the tools from the run
of a tool to the extraction of its result, and both verdicts are decoded from the text of an output file.

An output that cannot be read, a tool error and an unknown result are logged, and the verdict is success. The flags are
not initialized, so an extraction before the first run reads whatever is there.
-/

namespace Ilang

abbrev Text := List Char

/-! ### Reading an output -/

/-- `S_IN`. -/
def sIn (sub s : Text) : Bool := decide (sub <:+: s)

/-- The lines of a file, as a loop over `std::getline` reads them. -/
def fileLines : Text → List Text
  | [] => []
  | c :: cs =>
    if c = '\n' then [] :: fileLines cs
    else
      match fileLines cs with
      | [] => [[c]]
      | l :: ls => (c :: l) :: ls

def hasLine (marker : Text) (text : Text) : Bool := (fileLines text).any (sIn marker)

def isAlnum (c : Char) : Bool := c.isAlphanum

/-- The loop of `os_portable_read_last_line`, which goes from the last byte to the first one. Its first argument is the
position of the byte that is read next. -/
def lastLineFrom (text : Text) : Nat → Bool → Text
  | 0, _ => text.takeWhile (· ≠ '\n')
  | pos + 1, hasAlnum =>
    let ch := text.getD (pos + 1) ' '
    let hasAlnum := hasAlnum || isAlnum ch
    let after := text.drop (pos + 2)
    if ch = '\r' ∧ hasAlnum then after.takeWhile (· ≠ '\n')
    else if ch = '\n' ∧ hasAlnum then
      (if after.head? = some '\r' then after.tail else after).takeWhile (· ≠ '\n')
    else lastLineFrom text pos hasAlnum

/-- An empty file has no last line. -/
def readLastLine (text : Text) : Text := lastLineFrom text (text.length - 1) false

def isSpace (c : Char) : Bool := c = ' ' || c = '\t' || c = '\n' || c = '\x0b' || c = '\x0c' || c = '\r'

/-- The name after the line of the traces: the second word, and whatever was read before the end of the file. -/
def extractVcdNameFromCex (text : Text) : Text :=
  let lines := fileLines text
  match lines.findIdx? (sIn "*** TRACES ***".toList) with
  | none => []
  | some i =>
    let consumed := ((lines.take (i + 1)).map fun l => l.length + 1).sum
    -- The end of the file is reached when the line has no end of its own.
    if text.length < consumed then []
    else
      match (text.drop consumed).splitOnP isSpace |>.filter (fun w => !w.isEmpty) with
      | [] => []
      | [w] => w
      | _ :: w :: _ => w

/-! ### State and calls -/

/-- NEXT_V, V_RES, NEXT_S, S_RES, DONE and FAILED. -/
inductive CegarStatus where
  | nextV | vRes | nextS | sRes | done | failed
  deriving DecidableEq, Repr

/-- The synthesis back ends. All but Grain and ABC are read like Z3. -/
inductive SynBackend where
  | z3 | grain | abc | elderica | nosyn
  deriving DecidableEq, Repr

inductive CurInvTp where
  | none | grainChc | chc | cegarAbc
  deriving DecidableEq, Repr

/-- The type of invariants that a synthesis target of the back end has. -/
def SynBackend.invTp : SynBackend → CurInvTp
  | .abc => .cegarAbc
  | .grain => .grainChc
  | _ => .chc

/-- What a check of the vcd file works on: the script of the run and the name in its directory, or a name from the user. -/
structure VcdFile where
  script : Text
  name : Text

structure Cegar where
  status : CegarStatus
  badState : Bool
  vlgModInstName : Text
  /-- The instance name that the invariants know, which only a verification target sets. -/
  dutInstName : Text
  runnableScriptName : List Text
  verificationPass : Bool
  vcdFileName : VcdFile
  cexReachable : Bool
  currentInvType : CurInvTp
  /-- The SMT information of the design is there. -/
  designSmtInfo : Bool
  cexExtract : Option VcdFile
  invObj : List Text

/-- The object after its constructor. The two flags have no initial value. -/
def Cegar.new (cosa : Bool) (verificationPass cexReachable : Bool) : Cegar where
  status := .nextV
  badState := !cosa
  vlgModInstName := []
  dutInstName := []
  runnableScriptName := []
  verificationPass := verificationPass
  vcdFileName := ⟨[], []⟩
  cexReachable := cexReachable
  currentInvType := .none
  designSmtInfo := false
  cexExtract := none
  invObj := []

/-- The calls, with what comes from outside: the generated scripts, the output file after a run (none if it cannot be
opened), and the invariant that a result file is parsed to. -/
inductive CegarCall where
  | generateVerificationTarget (invs : List Text) (instName : Text) (scripts : List Text)
  | runVerifAuto (scriptSelection : Text) (output : Option Text)
  | extractVerificationResult (autodet pass : Bool) (vcdFile modInstName : Text)
  | generateSynthesisTarget (smtInfo : Bool) (scripts : List Text)
  | runSynAuto (output : Option Text)
  | extractSynthesisResult (autodet reachable : Bool) (parsed : Option Text)

namespace Cegar

variable (backend : SynBackend) (s : Cegar)

/-- The one script that matches. Everything else aborts. -/
def selectScriptToRun (scripts : List Text) (sel : Text) : Option Text :=
  if sel = [] then none
  else
    match scripts.filter (sIn sel) with
    | [sc] => some sc
    | _ => none

def generateVerificationTarget (invs : List Text) (instName : Text) (scripts : List Text) : Cegar :=
  let s := { s with invObj := s.invObj ++ invs }
  if s.badState then s
  else { s with vlgModInstName := instName, dutInstName := instName, runnableScriptName := scripts, status := .vRes }

/-- The last line of the output decides. A tool error, an unknown result and an unreadable file are only logged. -/
def unexpectedResult : Text := "Verifications with unexpected result".toList

def verifVerdict (output : Option Text) : Bool :=
  match output with
  | none => true
  | some text => !sIn unexpectedResult (readLastLine text)

def runVerifAuto (scriptSelection : Text) (output : Option Text) : Option Cegar := do
  let scriptSel ← selectScriptToRun s.runnableScriptName scriptSelection
  if s.badState then some s
  else if verifVerdict output then some { s with verificationPass := true, status := .done }
  else
    some { s with verificationPass := false, vcdFileName := ⟨scriptSel, (output.map extractVcdNameFromCex).getD []⟩ }

/-- A verdict is the one of the last run, or the argument. -/
def detected {α : Type} (autodet : Bool) (found given : α) : α := if autodet then found else given

/-- The instance name is the known one, if there is one. -/
def nameInstance (modInstName : Text) : Cegar :=
  { s with vlgModInstName := if s.vlgModInstName = [] then modInstName else s.vlgModInstName }

def extractVerificationResult (autodet pass : Bool) (vcdFile modInstName : Text) : Cegar :=
  if s.badState then s
  else if (s.nameInstance modInstName).vlgModInstName = [] then { s.nameInstance modInstName with badState := true }
  else if detected autodet s.verificationPass pass then { s.nameInstance modInstName with status := .done }
  else
    { s.nameInstance modInstName with
      cexExtract := some (detected autodet s.vcdFileName ⟨[], vcdFile⟩)
      status := .nextS }

def generateSynthesisTarget (smtInfo : Bool) (scripts : List Text) : Cegar :=
  if s.badState then s
  else
    { s with
      designSmtInfo := if backend = .abc then s.designSmtInfo else smtInfo
      currentInvType := backend.invTp
      runnableScriptName := scripts
      status := .sRes }

/-- The verdict of a synthesis tool, by the type of invariants. -/
def synReachable (tp : CurInvTp) (text : Text) : Bool :=
  match tp with
  | .cegarAbc => !(sIn "Property proved.".toList text && sIn "Invariant contains ".toList text)
  | .grainChc => !sIn "proved".toList text || sIn "unknown".toList text
  | _ => !sIn "unsat".toList ((fileLines text).headD [])

/-- The number of candidates is read from the text of Grain. The search for it wraps around when it is not there, and the
text is too short for what is left. -/
def retrieveColonEolThrows (text : Text) : Bool := !sIn "TotalCand:".toList text && text.length < 9

def runSynAuto (output : Option Text) : Option Cegar :=
  if s.badState then some s
  else if s.runnableScriptName.length ≠ 1 then none
  else
    match output with
    | none => some { s with status := .failed, badState := true }
    | some text =>
      if s.currentInvType = .grainChc ∧ retrieveColonEolThrows text then none
      else some { s with cexReachable := synReachable s.currentInvType text }

/-- `AddInvariantFromChcResultFile` and `AddInvariantFromAbcResultFile`, which are checked. -/
def addChecked (parsed : Option Text) : Option Cegar := do
  let inv ← parsed
  if s.dutInstName = [] ∨ inv ∈ s.invObj then none
  else some { s with invObj := s.invObj ++ [inv] }

/-- `AddInvariantFromGrainResultFile`. -/
def addGrain (parsed : Option Text) : Option Cegar :=
  if s.dutInstName = [] then none
  else some { s with invObj := s.invObj ++ parsed.toList }

/-- The end of an extraction. -/
def extracted : Cegar := { s with status := .nextV, currentInvType := .none }

/-- The invariant is added by its type. Without the SMT information of the design, nothing happens. -/
def addInvariant (parsed : Option Text) : Option Cegar :=
  match s.currentInvType with
  | .chc => if s.designSmtInfo then extracted <$> s.addChecked parsed else some s
  | .grainChc => if s.designSmtInfo then extracted <$> s.addGrain parsed else some s
  | .cegarAbc => extracted <$> s.addChecked parsed
  | .none => some s.extracted

def extractSynthesisResult (autodet reachable : Bool) (parsed : Option Text) : Option Cegar :=
  if s.badState then some s
  else if detected autodet s.cexReachable reachable then some { s with status := .failed }
  else s.addInvariant parsed

/-- One call. An `ILA_CHECK` that fails ends the process. -/
def step (c : CegarCall) : Option Cegar :=
  match c with
  | .generateVerificationTarget invs instName scripts => some (s.generateVerificationTarget invs instName scripts)
  | .runVerifAuto sel output => s.runVerifAuto sel output
  | .extractVerificationResult autodet pass vcdFile modInstName =>
    some (s.extractVerificationResult autodet pass vcdFile modInstName)
  | .generateSynthesisTarget smtInfo scripts => some (s.generateSynthesisTarget backend smtInfo scripts)
  | .runSynAuto output => s.runSynAuto output
  | .extractSynthesisResult autodet reachable parsed => s.extractSynthesisResult autodet reachable parsed

/-! ### What a call can do -/

variable {backend s} {s' : Cegar}

theorem runVerifAuto_cases {sel : Text} {output : Option Text} (h : s.runVerifAuto sel output = some s') :
    (s.badState = true ∧ s' = s) ∨
    (s.badState = false ∧ verifVerdict output = true ∧ s' = { s with verificationPass := true, status := .done }) ∨
    (s.badState = false ∧ verifVerdict output = false ∧
      ∃ vcd, s' = { s with verificationPass := false, vcdFileName := vcd }) := by
  obtain ⟨script, -, h⟩ := Option.bind_eq_some_iff.mp h
  split at h
  · rename_i hbad
    exact .inl ⟨hbad, (Option.some.inj h).symm⟩
  · rename_i hbad
    rw [Bool.not_eq_true] at hbad
    split at h
    · rename_i hverdict
      exact .inr (.inl ⟨hbad, hverdict, (Option.some.inj h).symm⟩)
    · rename_i hverdict
      exact .inr (.inr ⟨hbad, Bool.not_eq_true _ ▸ hverdict, _, (Option.some.inj h).symm⟩)

theorem extractVerificationResult_cases (autodet pass : Bool) (vcdFile modInstName : Text) :
    let s' := s.extractVerificationResult autodet pass vcdFile modInstName
    (s'.verificationPass = s.verificationPass ∧ s'.cexReachable = s.cexReachable ∧
      s'.currentInvType = s.currentInvType ∧ (s'.badState = false → s.badState = false)) ∧
    (s'.status = .done → s.status ≠ .done → detected autodet s.verificationPass pass = true) := by
  unfold extractVerificationResult
  split
  · exact ⟨⟨rfl, rfl, rfl, id⟩, fun hdone hne => absurd hdone hne⟩
  · rename_i hbad
    rw [Bool.not_eq_true] at hbad
    split
    · exact ⟨⟨rfl, rfl, rfl, fun _ => hbad⟩, fun hdone hne => absurd hdone hne⟩
    · split
      · rename_i hpass
        exact ⟨⟨rfl, rfl, rfl, fun _ => hbad⟩, fun _ _ => hpass⟩
      · exact ⟨⟨rfl, rfl, rfl, fun _ => hbad⟩, fun hdone _ => by cases hdone⟩

theorem runSynAuto_cases {output : Option Text} (h : s.runSynAuto output = some s') :
    (s.badState = true ∧ s' = s) ∨
    (s.badState = false ∧ output = none ∧ s' = { s with status := .failed, badState := true }) ∨
    (s.badState = false ∧ ∃ text, output = some text ∧
      s' = { s with cexReachable := synReachable s.currentInvType text }) := by
  unfold runSynAuto at h
  split at h
  · rename_i hbad
    exact .inl ⟨hbad, (Option.some.inj h).symm⟩
  · rename_i hbad
    rw [Bool.not_eq_true] at hbad
    split at h
    · cases h
    · cases output with
      | none => exact .inr (.inl ⟨hbad, rfl, (Option.some.inj h).symm⟩)
      | some text =>
        dsimp only at h
        split at h
        · cases h
        · exact .inr (.inr ⟨hbad, text, rfl, (Option.some.inj h).symm⟩)

/-- What all the ways to add an invariant have in common. -/
def SameFlags (s s' : Cegar) : Prop :=
  s'.verificationPass = s.verificationPass ∧ s'.cexReachable = s.cexReachable ∧ s'.badState = s.badState ∧
    (s'.currentInvType = .none ∨ s'.currentInvType = s.currentInvType)

theorem addChecked_sameFlags {parsed : Option Text} (h : s.addChecked parsed = some s') : SameFlags s s' := by
  obtain ⟨inv, -, h⟩ := Option.bind_eq_some_iff.mp h
  split at h
  · cases h
  · cases h
    exact ⟨rfl, rfl, rfl, .inr rfl⟩

theorem addGrain_sameFlags {parsed : Option Text} (h : s.addGrain parsed = some s') : SameFlags s s' := by
  rw [addGrain] at h
  split at h
  · cases h
  · cases h
    exact ⟨rfl, rfl, rfl, .inr rfl⟩

theorem SameFlags.extracted (h : SameFlags s s') : SameFlags s s'.extracted :=
  ⟨h.1, h.2.1, h.2.2.1, .inl rfl⟩

theorem addInvariant_sameFlags {parsed : Option Text} (h : s.addInvariant parsed = some s') : SameFlags s s' := by
  have hchecked : Cegar.extracted <$> s.addChecked parsed = some s' → SameFlags s s' := by
    intro h
    obtain ⟨s₁, hs₁, rfl⟩ := Option.map_eq_some_iff.mp h
    exact (addChecked_sameFlags hs₁).extracted
  unfold addInvariant at h
  split at h
  · split at h
    · exact hchecked h
    · cases h
      exact ⟨rfl, rfl, rfl, .inr rfl⟩
  · split at h
    · obtain ⟨s₁, hs₁, rfl⟩ := Option.map_eq_some_iff.mp h
      exact (addGrain_sameFlags hs₁).extracted
    · cases h
      exact ⟨rfl, rfl, rfl, .inr rfl⟩
  · exact hchecked h
  · cases h
    exact ⟨rfl, rfl, rfl, .inl rfl⟩

theorem extractSynthesisResult_cases {autodet reachable : Bool} {parsed : Option Text}
    (h : s.extractSynthesisResult autodet reachable parsed = some s') :
    SameFlags s s' ∧ (s'.invObj ≠ s.invObj → s.badState = false ∧ detected autodet s.cexReachable reachable = false) := by
  unfold extractSynthesisResult at h
  split at h
  · cases h
    exact ⟨⟨rfl, rfl, rfl, .inr rfl⟩, fun hne => absurd rfl hne⟩
  · rename_i hbad
    split at h
    · cases h
      exact ⟨⟨rfl, rfl, rfl, .inr rfl⟩, fun hne => absurd rfl hne⟩
    · rename_i hreach
      exact ⟨addInvariant_sameFlags h, fun _ => ⟨Bool.not_eq_true _ ▸ hbad, Bool.not_eq_true _ ▸ hreach⟩⟩

end Cegar

/-! ### Runs -/

/-- The loop with its history: the outputs of the last verification run and of the last synthesis run. A call in a bad
state runs no tool. -/
structure CegarRun where
  st : Cegar
  lastVerif : Option (Option Text)
  lastSyn : Option (Option Text)

namespace CegarRun

variable (backend : SynBackend)

def verifAfter (r : CegarRun) : CegarCall → Option (Option Text)
  | .runVerifAuto _ output => if r.st.badState then r.lastVerif else some output
  | _ => r.lastVerif

def synAfter (r : CegarRun) : CegarCall → Option (Option Text)
  | .runSynAuto output => if r.st.badState then r.lastSyn else some output
  | _ => r.lastSyn

def step (r : CegarRun) (c : CegarCall) : Option CegarRun := do
  let st ← r.st.step backend c
  some ⟨st, r.verifAfter c, r.synAfter c⟩

/-- An output of the verifier that can be read, and reports no tool error, no unknown result and no counterexample. -/
def CleanOutput (output : Option Text) : Prop :=
  ∃ text, output = some text ∧ hasLine "See yosys-err.log for more info.".toList text = false ∧
    hasLine "UNKNOWN != TRUE <<<---------| ERROR".toList text = false ∧ hasLine Cegar.unexpectedResult text = false

/-- An output of the synthesis tool that reports the counterexample unreachable. -/
def Unreachable (output : Option Text) : Prop :=
  ∃ text, output = some text ∧ Cegar.synReachable backend.invTp text = false

/-- A call that detects the result of the verifier by itself. -/
def AutoVerif : CegarCall → Prop
  | .runVerifAuto _ _ => True
  | .extractVerificationResult autodet _ _ _ => autodet = true
  | _ => False

def AutoSyn : CegarCall → Prop
  | .extractSynthesisResult autodet _ _ => autodet = true
  | _ => False

/-- What a call between two states of the loop must keep to. -/
structure Lawful (r : CegarRun) (c : CegarCall) (r' : CegarRun) : Prop where
  /-- `verification_pass` is true after a call only on a clean output. -/
  pass : AutoVerif c → r.st.badState = false → r'.st.verificationPass = true →
    ∃ output, r'.lastVerif = some output ∧ CleanOutput output
  /-- The status becomes DONE on a clean output. -/
  done : AutoVerif c → r.st.status ≠ .done → r'.st.status = .done →
    ∃ output, r'.lastVerif = some output ∧ CleanOutput output
  /-- An invariant is added when the counterexample is unreachable. -/
  inv : AutoSyn c → r'.st.invObj ≠ r.st.invObj → ∃ output, r'.lastSyn = some output ∧ Unreachable backend output

/-- The calls on which the loop is right. A verifier's output is clean, or reports the counterexample in its last line. A
synthesis tool is run between the target and the extraction, unless it is read like Z3. An extraction comes after a run. -/
def Guarded (r : CegarRun) : CegarCall → Prop
  | .runVerifAuto _ output => CleanOutput output ∨ ∃ text, output = some text ∧ sIn Cegar.unexpectedResult (readLastLine text)
  | .extractVerificationResult autodet _ _ _ => autodet = true → r.lastVerif.isSome
  | .runSynAuto _ => r.st.currentInvType = .none → backend.invTp = .chc
  | .extractSynthesisResult autodet _ _ => autodet = true → r.lastSyn.isSome
  | _ => True

/-- The states that guarded calls lead to, from a new object with any contents of its flags. -/
inductive Reachable : CegarRun → Prop where
  | new (cosa verificationPass cexReachable : Bool) : Reachable ⟨.new cosa verificationPass cexReachable, none, none⟩
  | step {r r' : CegarRun} {c : CegarCall} : Reachable r → Guarded backend r c → r.step backend c = some r' → Reachable r'

/-! ### Invariant -/

/-- The flags say what the last outputs said. -/
structure Inv (r : CegarRun) : Prop where
  verif : ∀ output, r.lastVerif = some output → r.st.verificationPass = true → CleanOutput output
  syn : ∀ output, r.lastSyn = some output → r.st.badState = false → r.st.cexReachable = false → Unreachable backend output
  invTp : r.st.currentInvType = .none ∨ r.st.currentInvType = backend.invTp

variable {backend} {r r' : CegarRun}

theorem inv_new (cosa verificationPass cexReachable : Bool) :
    Inv backend ⟨.new cosa verificationPass cexReachable, none, none⟩ where
  verif _ h := nomatch h
  syn _ h := nomatch h
  invTp := .inl rfl

theorem step_eq {c : CegarCall} (h : r.step backend c = some r') :
    r.st.step backend c = some r'.st ∧ r'.lastVerif = r.verifAfter c ∧ r'.lastSyn = r.synAfter c := by
  obtain ⟨st, hst, h⟩ := Option.bind_eq_some_iff.mp h
  cases h
  exact ⟨hst, rfl, rfl⟩

theorem clean_of_verdict {sel : Text} {output : Option Text} (hguard : Guarded backend r (.runVerifAuto sel output))
    (hverdict : Cegar.verifVerdict output = true) : CleanOutput output := by
  apply hguard.resolve_right
  rintro ⟨text, rfl, hlast⟩
  rw [Cegar.verifVerdict, hlast] at hverdict
  cases hverdict

theorem synReachable_eq {output : Option Text} (hinv : Inv backend r) (hguard : Guarded backend r (.runSynAuto output))
    (text : Text) : Cegar.synReachable r.st.currentInvType text = Cegar.synReachable backend.invTp text := by
  rcases hinv.invTp with hnone | htp
  · rw [hnone, hguard hnone]
    rfl
  · rw [htp]

theorem Inv.of_sameFlags (hinv : Inv backend r) (hflags : Cegar.SameFlags r.st r'.st) (hverif : r'.lastVerif = r.lastVerif)
    (hsyn : r'.lastSyn = r.lastSyn) : Inv backend r' where
  verif output hout hpass := hinv.verif output (hverif.symm.trans hout) (hflags.1 ▸ hpass)
  syn output hout hbad hreach :=
    hinv.syn output (hsyn.symm.trans hout) (hflags.2.2.1 ▸ hbad) (hflags.2.1 ▸ hreach)
  invTp := by
    rcases hflags.2.2.2 with htp | htp
    · exact .inl htp
    · rw [htp]
      exact hinv.invTp

theorem step_inv {c : CegarCall} (hinv : Inv backend r) (hguard : Guarded backend r c) (h : r.step backend c = some r') :
    Inv backend r' := by
  obtain ⟨hst, hverif, hsyn⟩ := step_eq h
  cases c with
  | generateVerificationTarget invs instName scripts =>
    refine hinv.of_sameFlags ?_ hverif hsyn
    rw [← Option.some.inj hst, Cegar.generateVerificationTarget]
    split
    · exact ⟨rfl, rfl, rfl, .inr rfl⟩
    · exact ⟨rfl, rfl, rfl, .inr rfl⟩
  | runVerifAuto sel output =>
    obtain ⟨hbad, heq⟩ | ⟨hbad, hverdict, heq⟩ | ⟨hbad, -, vcd, heq⟩ := Cegar.runVerifAuto_cases hst
    · rw [verifAfter, hbad, if_pos rfl] at hverif
      exact hinv.of_sameFlags (heq ▸ ⟨rfl, rfl, rfl, .inr rfl⟩) hverif hsyn
    · rw [verifAfter, hbad, if_neg Bool.false_ne_true] at hverif
      refine ⟨fun out hout _ => ?_, fun out hout _ hreach => ?_, ?_⟩
      · rw [hverif] at hout
        cases hout
        exact clean_of_verdict hguard hverdict
      · rw [heq] at hreach
        exact hinv.syn out (hsyn.symm.trans hout) hbad hreach
      · rw [heq]
        exact hinv.invTp
    · refine ⟨fun out hout hpass => ?_, fun out hout _ hreach => ?_, ?_⟩
      · rw [heq] at hpass
        cases hpass
      · rw [heq] at hreach
        exact hinv.syn out (hsyn.symm.trans hout) hbad hreach
      · rw [heq]
        exact hinv.invTp
  | extractVerificationResult autodet pass vcdFile modInstName =>
    obtain ⟨⟨hpass, hreach, htp, hbad⟩, -⟩ := Cegar.extractVerificationResult_cases (s := r.st) autodet pass vcdFile modInstName
    have heq := Option.some.inj hst
    rw [heq] at hpass hreach htp hbad
    refine ⟨fun out hout hp => ?_, fun out hout hb hr => ?_, ?_⟩
    · exact hinv.verif out (hverif.symm.trans hout) (hpass ▸ hp)
    · exact hinv.syn out (hsyn.symm.trans hout) (hbad hb) (hreach ▸ hr)
    · rw [htp]
      exact hinv.invTp
  | generateSynthesisTarget smtInfo scripts =>
    have heq := Option.some.inj hst
    unfold Cegar.generateSynthesisTarget at heq
    split at heq
    · exact hinv.of_sameFlags (heq ▸ ⟨rfl, rfl, rfl, .inr rfl⟩) hverif hsyn
    · refine ⟨fun out hout hp => ?_, fun out hout hb hr => ?_, ?_⟩
      · rw [← heq] at hp
        exact hinv.verif out (hverif.symm.trans hout) hp
      · rw [← heq] at hb hr
        exact hinv.syn out (hsyn.symm.trans hout) hb hr
      · rw [← heq]
        exact .inr rfl
  | runSynAuto output =>
    obtain ⟨hbad, heq⟩ | ⟨-, -, heq⟩ | ⟨hbad, text, rfl, heq⟩ := Cegar.runSynAuto_cases hst
    · rw [synAfter, hbad, if_pos rfl] at hsyn
      exact hinv.of_sameFlags (heq ▸ ⟨rfl, rfl, rfl, .inr rfl⟩) hverif hsyn
    · refine ⟨fun out hout hp => ?_, fun out hout hb hr => ?_, ?_⟩
      · rw [heq] at hp
        exact hinv.verif out (hverif.symm.trans hout) hp
      · rw [heq] at hb
        cases hb
      · rw [heq]
        exact hinv.invTp
    · rw [synAfter, hbad, if_neg Bool.false_ne_true] at hsyn
      refine ⟨fun out hout hp => ?_, fun out hout hb hr => ?_, ?_⟩
      · rw [heq] at hp
        exact hinv.verif out (hverif.symm.trans hout) hp
      · rw [hsyn] at hout
        cases hout
        rw [heq, synReachable_eq hinv hguard] at hr
        exact ⟨text, rfl, hr⟩
      · rw [heq]
        exact hinv.invTp
  | extractSynthesisResult autodet reachable parsed =>
    exact hinv.of_sameFlags (Cegar.extractSynthesisResult_cases hst).1 hverif hsyn

theorem Reachable.inv (h : Reachable backend r) : Inv backend r := by
  induction h with
  | new cosa verificationPass cexReachable => exact inv_new cosa verificationPass cexReachable
  | step _ hguard hstep ih => exact step_inv ih hguard hstep

/-! ### Verdicts -/

theorem lawful_of_inv {c : CegarCall} (hinv : Inv backend r) (hguard : Guarded backend r c)
    (h : r.step backend c = some r') : Lawful backend r c r' := by
  have hinv' := step_inv hinv hguard h
  obtain ⟨hst, hverif, hsyn⟩ := step_eq h
  refine ⟨fun hauto hbad hpass => ?_, fun hauto hne hdone => ?_, fun hauto hne => ?_⟩
  · -- The flag is from the last run, which is this one or an earlier one.
    obtain ⟨output, hout⟩ : ∃ output, r'.lastVerif = some output := by
      cases c with
      | runVerifAuto sel output =>
        rw [verifAfter, hbad, if_neg Bool.false_ne_true] at hverif
        exact ⟨output, hverif⟩
      | extractVerificationResult autodet pass vcdFile modInstName =>
        rw [hverif]
        exact Option.isSome_iff_exists.mp (hguard hauto)
      | _ => exact hauto.elim
    exact ⟨output, hout, hinv'.verif output hout hpass⟩
  · cases c with
    | runVerifAuto sel output =>
      obtain ⟨-, heq⟩ | ⟨hbad, hverdict, -⟩ | ⟨-, -, vcd, heq⟩ := Cegar.runVerifAuto_cases hst
      · rw [heq] at hdone
        exact absurd hdone hne
      · rw [verifAfter, hbad, if_neg Bool.false_ne_true] at hverif
        exact ⟨output, hverif, clean_of_verdict hguard hverdict⟩
      · rw [heq] at hdone
        exact absurd hdone hne
    | extractVerificationResult autodet pass vcdFile modInstName =>
      have heq := Option.some.inj hst
      have hverdict := (Cegar.extractVerificationResult_cases (s := r.st) autodet pass vcdFile modInstName).2
        (heq ▸ hdone) hne
      rw [show autodet = true from hauto] at hverdict
      obtain ⟨output, hout⟩ := Option.isSome_iff_exists.mp (hguard hauto)
      exact ⟨output, hverif.trans hout, hinv.verif output hout hverdict⟩
    | _ => exact hauto.elim
  · cases c with
    | extractSynthesisResult autodet reachable parsed =>
      obtain ⟨hbad, hreach⟩ := (Cegar.extractSynthesisResult_cases hst).2 hne
      rw [show autodet = true from hauto] at hreach
      obtain ⟨output, hout⟩ := Option.isSome_iff_exists.mp (hguard hauto)
      exact ⟨output, hsyn.trans hout, hinv.syn output hout hbad hreach⟩
    | _ => exact hauto.elim

/-- In every run of guarded calls, success is reported on a clean output of the verifier only, and an invariant is added
on an unreachable counterexample only. -/
theorem guarded_run_lawful (backend : SynBackend) (r : CegarRun) (h : Reachable backend r) (c : CegarCall) (r' : CegarRun)
    (hguard : Guarded backend r c) (hstep : r.step backend c = some r') : Lawful backend r c r' :=
  lawful_of_inv h.inv hguard hstep

/-- The verification target of one script, from a new object. -/
def oneTarget : CegarRun := ⟨(Cegar.new true false true).generateVerificationTarget [] ['m'] [['s']], none, none⟩

theorem oneTarget_reachable : Reachable .z3 oneTarget :=
  .step (.new true false true) (c := .generateVerificationTarget [] ['m'] [['s']]) trivial rfl

/-- A counterexample, as the verifier reports it. -/
def cexOutput : Text := "*** TRACES ***\n\n[1]:\ttrace.vcd\n\nWARNING: Verifications with unexpected result\n".toList

def passOutput : Text := "*** SUMMARY ***\n\nDescription: \"m\"\nResult: TRUE\nExpected: TRUE\n".toList

/-- What the synthesis tool is run after: the counterexample is taken from the verifier, and a target is made of it. -/
def toSynthesis : List CegarCall :=
  [.runVerifAuto ['s'] (some cexOutput), .extractVerificationResult true false [] [], .generateSynthesisTarget true [['c']],
    .runSynAuto (some "unsat\n".toList)]

def runCalls (backend : SynBackend) (r : CegarRun) (calls : List CegarCall) : Option CegarRun :=
  calls.foldlM (fun r c => r.step backend c) r

theorem clean_passOutput : CleanOutput (some passOutput) :=
  ⟨_, rfl, by decide +kernel, by decide +kernel, by decide +kernel⟩

theorem reachable_toSynthesis {r : CegarRun} (h : runCalls .z3 oneTarget toSynthesis = some r) : Reachable .z3 r := by
  have hlast : sIn Cegar.unexpectedResult (readLastLine cexOutput) = true := by decide +kernel
  simp only [runCalls, toSynthesis, List.foldlM_cons, List.foldlM_nil, Option.bind_eq_bind, Option.bind_eq_some_iff] at h
  obtain ⟨r₁, h₁, r₂, h₂, r₃, h₃, r₄, h₄, h⟩ := h
  cases h
  have hr₁ : Reachable .z3 r₁ :=
    .step (c := .runVerifAuto ['s'] (some cexOutput)) oneTarget_reachable (.inr ⟨_, rfl, hlast⟩) h₁
  have hr₂ : Reachable .z3 r₂ := by
    refine .step (c := .extractVerificationResult true false [] []) hr₁ (fun _ => ?_) h₂
    rw [(step_eq h₁).2.1]
    rfl
  have hr₃ : Reachable .z3 r₃ := .step (c := .generateSynthesisTarget true [['c']]) hr₂ trivial h₃
  exact .step (c := .runSynAuto (some "unsat\n".toList)) hr₃ (fun _ => rfl) h₄

/-- A counterexample that the synthesis tool finds unreachable adds an invariant, and with it the verification passes. -/
theorem guarded_run_lawful_loop : ∃ r₁ r₂ r₃ r₄, runCalls .z3 oneTarget toSynthesis = some r₁ ∧
    r₁.step .z3 (.extractSynthesisResult true false (some ['i'])) = some r₂ ∧ r₂.st.invObj = [['i']] ∧
    Lawful .z3 r₁ (.extractSynthesisResult true false (some ['i'])) r₂ ∧
    r₂.step .z3 (.generateVerificationTarget [] ['m'] [['s']]) = some r₃ ∧
    r₃.step .z3 (.runVerifAuto ['s'] (some passOutput)) = some r₄ ∧ r₄.st.status = .done ∧
    Lawful .z3 r₃ (.runVerifAuto ['s'] (some passOutput)) r₄ := by
  obtain ⟨r₁, h₁⟩ : ∃ r₁, runCalls .z3 oneTarget toSynthesis = some r₁ := ⟨_, rfl⟩
  obtain ⟨r₂, h₂⟩ : ∃ r₂, r₁.step .z3 (.extractSynthesisResult true false (some ['i'])) = some r₂ := by
    cases h₁
    exact ⟨_, rfl⟩
  obtain ⟨r₃, h₃⟩ : ∃ r₃, r₂.step .z3 (.generateVerificationTarget [] ['m'] [['s']]) = some r₃ := ⟨_, rfl⟩
  obtain ⟨r₄, h₄⟩ : ∃ r₄, r₃.step .z3 (.runVerifAuto ['s'] (some passOutput)) = some r₄ := by
    cases h₁
    cases h₂
    cases h₃
    exact ⟨_, rfl⟩
  have hreach := reachable_toSynthesis h₁
  have hrun : r₁.lastSyn.isSome ∧ r₂.st.invObj = [['i']] ∧ r₄.st.status = .done := by
    cases h₁
    cases h₂
    cases h₃
    cases h₄
    exact ⟨rfl, rfl, rfl⟩
  obtain ⟨hsyn, hinv, hdone⟩ := hrun
  have hreach₂ : Reachable .z3 r₂ := .step (c := .extractSynthesisResult true false (some ['i'])) hreach (fun _ => hsyn) h₂
  have hreach₃ : Reachable .z3 r₃ := .step (c := .generateVerificationTarget [] ['m'] [['s']]) hreach₂ trivial h₃
  exact ⟨r₁, r₂, r₃, r₄, h₁, h₂, hinv, guarded_run_lawful .z3 r₁ hreach _ r₂ (fun _ => hsyn) h₂, h₃, h₄, hdone,
    guarded_run_lawful .z3 r₃ hreach₃ _ r₄ (.inl clean_passOutput) h₄⟩

/-- A run whose output file is missing passes. -/
theorem missing_output_passes : Reachable .z3 oneTarget ∧
    ∃ r', oneTarget.step .z3 (.runVerifAuto ['s'] none) = some r' ∧ r'.st.verificationPass = true ∧ r'.st.status = .done ∧
      ¬ Lawful .z3 oneTarget (.runVerifAuto ['s'] none) r' := by
  refine ⟨oneTarget_reachable, _, rfl, rfl, rfl, fun hlaw => ?_⟩
  obtain ⟨output, hout, text, htext, -⟩ := hlaw.pass trivial rfl rfl
  cases hout
  cases htext

end CegarRun

end Ilang
