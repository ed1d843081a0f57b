import Ilang.Util.Json
import Ilang.Vtarget.Monitor

/-!
# The conditions of a refinement map

The constructor of `VlgSglTgtGen` looks at the fields of an instruction in the refinement map, decides whether the instruction is
verified with flushing, and enters a bad state where a field is missing or not of its shape. The wrapper is written later, from
the fields again. What a condition says is open here: a wrapper is the list of its assumptions, each a list of conditions under a
guard on the monitor, and the wires `__ISSUE__` and `__ENDFLUSH__`.
-/

namespace Ilang

/-- An object of the refinement map. -/
abbrev RefObj := List (String × Json)

namespace RefObj

variable (e : RefObj)

/-- A field that is read without a check is null when it is missing. -/
def get (key : String) : Json := (e.lookup key).getD .null

/-- A field that is there, and not of a shape. -/
def malformed (shape : Json → Bool) (key : String) : Bool := (e.lookup key).any fun v => !shape v

/-- A field that is there and not empty. -/
def filled (key : String) : Bool := (e.lookup key).any fun v => v.size != 0

end RefObj

/-! ### The constructor -/

/-- The refinement conditions. The elements of "instructions" are objects, or the constructor throws. -/
structure RfCond where
  globals : RefObj
  instructions : List RefObj

/-- The backend is one of Yosys, and `VerificationSettingAvoidIssueStage`. -/
structure VtgConfig where
  yosys : Bool
  avoidIssueStage : Bool

/-- `ready_type`. -/
structure ReadyType where
  signal : Bool
  bound : Bool

/-- What the constructor finds out. -/
structure SglTgt where
  hasFlush : Bool
  ready : ReadyType

namespace RfCond

variable (rf : RfCond) (name : String)

/-- `get_current_instruction_rf`: the first entry with the name of the instruction. -/
def currentInstruction : Option RefObj := rf.instructions.find? fun e => (e.get "instruction").str? == some name

def hasRfInvariant : Bool := rf.globals.filled "global invariants" || rf.globals.filled "global-invariants"

end RfCond

/-- The fields of an instruction are not accepted. -/
def badInstruction (e : RefObj) : Bool :=
  !(e.get "instruction").isString || e.malformed Json.isArray "flush constraint" ||
    e.malformed Json.isString "pre-flush end" || e.malformed Json.isString "post-flush end" ||
    (e.filled "flush constraint" && !(e.filled "pre-flush end" && e.filled "post-flush end")) ||
    !(e.filled "ready signal" || (e.lookup "ready bound").any Json.isInt)

/-- The constructor, for an instruction. `none` is the bad state, or a check that ends the program. -/
def VtgConfig.construct (cfg : VtgConfig) (rf : RfCond) (name : String) : Option SglTgt :=
  if rf.hasRfInvariant && (rf.globals.malformed Json.isArray "global invariants" ||
      rf.globals.malformed Json.isArray "global-invariants") then none
  else
    (rf.currentInstruction name).bind fun e =>
      let hasFlush := e.filled "flush constraint" && e.filled "pre-flush end" && e.filled "post-flush end"
      if badInstruction e then none
      else if hasFlush && (cfg.yosys || cfg.avoidIssueStage) then none
      else some ⟨hasFlush, ⟨e.filled "ready signal", (e.lookup "ready bound").any Json.isInt⟩⟩

/-! ### The wrapper -/

/-- The guards of the assumptions: after the reset and before the start, after the end, and at the start. -/
inductive Guard where
  | beforeStart
  | ended
  | start
  deriving DecidableEq

def Guard.on : Guard → Monitor → Bool
  | .beforeStart, m => m.reseted && !(m.start || m.started)
  | .ended, m => m.ended
  | .start, m => m.start

/-- `(~ guard) || (c && c && ..)`. -/
structure CondAssumption where
  guard : Guard
  conds : List String

/-- What the wrapper has of the conditions of an instruction: assumptions, the condition that `__ISSUE__` is under
`__RESETED__`, and the condition that `__ENDFLUSH__` is under `__ENDED__`. -/
structure CondSignals where
  assumptions : List CondAssumption
  issue : Option String
  endFlush : Option String

/-- `handle_start_condition`. What is not a string in an array is reported and left out. -/
def handleStartCondition (dc : Json) : List CondAssumption := (dc.items.filterMap Json.str?).map fun c => ⟨.start, [c]⟩

/-- The assumptions on the start. Without a condition they are that the instruction is decoded and valid. -/
def startAssumptions (e : RefObj) : List CondAssumption :=
  match e.lookup "start condition" with
  | some dc => handleStartCondition dc
  | none => [⟨.start, ["$decode$"]⟩, ⟨.start, ["$valid$"]⟩]

/-- `ConstructWrapper_add_condition_signals`. -/
def SglTgt.condSignals (tgt : SglTgt) (e : RefObj) : CondSignals :=
  if tgt.hasFlush then
    let enforcement := (e.get "flush constraints").strings
    { assumptions := startAssumptions e ++ [⟨.beforeStart, enforcement⟩, ⟨.ended, enforcement⟩]
      issue := (e.get "pre-flush end").str?
      endFlush := (e.get "post-flush end").str? }
  else { assumptions := startAssumptions e, issue := none, endFlush := none }

/-! ### What is declared -/

/-- The flush constraints of an entry. They are checked under one name and written under another. -/
def flushStrings (e : RefObj) : List String := (e.get "flush constraint").strings ++ (e.get "flush constraints").strings

def startStrings (e : RefObj) : List String := (e.get "start condition").strings

/-- The entries of an instruction. -/
def RfCond.entries (rf : RfCond) (name : String) : List RefObj :=
  rf.instructions.filter fun e => (e.get "instruction").str? == some name

/-- An assumption, in a state of the monitor, for the values of the conditions. -/
def CondAssumption.Holds (a : CondAssumption) (m : Monitor) (v : String → Bool) : Prop :=
  a.guard.on m = true → ∀ c ∈ a.conds, v c = true

/-- The wrapper makes a condition hold whenever a guard is on. -/
def CondSignals.Active (w : CondSignals) (g : Guard) (c : String) : Prop :=
  ∀ m v, (∀ a ∈ w.assumptions, a.Holds m v) → g.on m = true → v c = true

/-- Every condition string of the instruction is in the wrapper, in its phase. -/
structure NothingDropped (rf : RfCond) (name : String) (w : CondSignals) : Prop where
  flush : ∀ e ∈ rf.entries name, ∀ c ∈ flushStrings e, w.Active .beforeStart c ∧ w.Active .ended c
  start : ∀ e ∈ rf.entries name, ∀ c ∈ startStrings e, w.Active .start c
  preFlush : ∀ e ∈ rf.entries name, ∀ c, (e.get "pre-flush end").str? = some c → w.issue = some c
  postFlush : ∀ e ∈ rf.entries name, ∀ c, (e.get "post-flush end").str? = some c → w.endFlush = some c

/-- The start conditions that are read from an entry: those in an array, and without the field the default ones. -/
def readStartStrings (e : RefObj) : List String :=
  match e.lookup "start condition" with
  | some dc => dc.items.filterMap Json.str?
  | none => ["$decode$", "$valid$"]

/-- The first entry of the instruction has all the conditions, each where it is read: flush constraints under "flush constraints",
with a "flush constraint" that is not empty, start conditions in an array, and the ends of the flushing with a "flush constraint"
that is not empty. -/
structure AllRead (rf : RfCond) (name : String) (f : RefObj) : Prop where
  flush : ∀ e ∈ rf.entries name, ∀ c ∈ flushStrings e,
    f.filled "flush constraint" = true ∧ c ∈ (f.get "flush constraints").strings
  start : ∀ e ∈ rf.entries name, ∀ c ∈ startStrings e, c ∈ readStartStrings f
  preFlush : ∀ e ∈ rf.entries name, ∀ c, (e.get "pre-flush end").str? = some c →
    f.filled "flush constraint" = true ∧ (f.get "pre-flush end").str? = some c
  postFlush : ∀ e ∈ rf.entries name, ∀ c, (e.get "post-flush end").str? = some c →
    f.filled "flush constraint" = true ∧ (f.get "post-flush end").str? = some c

/-! ### What the wrapper enforces -/

/-- A state of the monitor in which one guard is on. -/
def Guard.only : Guard → Monitor
  | .beforeStart => ⟨0, false, false, false, false, true, false⟩
  | .ended => ⟨0, false, true, true, false, true, false⟩
  | .start => ⟨0, true, false, false, false, true, false⟩

theorem Guard.on_only (g g' : Guard) : g'.on g.only = true ↔ g' = g := by
  cases g <;> cases g' <;> decide

theorem CondSignals.active_iff {w : CondSignals} {g : Guard} {c : String} :
    w.Active g c ↔ ∃ a ∈ w.assumptions, a.guard = g ∧ c ∈ a.conds := by
  constructor
  · intro hactive
    by_contra hnone
    have hfalse := hactive g.only (fun s => decide (s ≠ c)) (fun a ha hon d hd => ?_) ((g.on_only g).mpr rfl)
    · simp at hfalse
    · have hguard := (g.on_only a.guard).mp hon
      rw [decide_eq_true_eq]
      intro hdc
      exact hnone ⟨a, ha, hguard, hdc ▸ hd⟩
  · intro ⟨a, ha, hguard, hc⟩ m v hall hon
    exact hall a ha (hguard ▸ hon) c hc

theorem mem_startAssumptions {e : RefObj} {a : CondAssumption} :
    a ∈ startAssumptions e ↔ ∃ c ∈ readStartStrings e, a = ⟨.start, [c]⟩ := by
  unfold startAssumptions readStartStrings
  cases e.lookup "start condition" with
  | some dc => simp [handleStartCondition, eq_comm]
  | none => simp

theorem SglTgt.mem_assumptions {tgt : SglTgt} {e : RefObj} {a : CondAssumption} :
    a ∈ (tgt.condSignals e).assumptions ↔ a ∈ startAssumptions e ∨ (tgt.hasFlush = true ∧
      (a = ⟨.beforeStart, (e.get "flush constraints").strings⟩ ∨
        a = ⟨.ended, (e.get "flush constraints").strings⟩)) := by
  rw [SglTgt.condSignals]
  cases tgt.hasFlush with
  | false => simp
  | true => simp

theorem SglTgt.active_start_iff {tgt : SglTgt} {e : RefObj} {c : String} :
    (tgt.condSignals e).Active .start c ↔ c ∈ readStartStrings e := by
  rw [CondSignals.active_iff]
  constructor
  · intro ⟨a, ha, hguard, hc⟩
    rcases SglTgt.mem_assumptions.mp ha with ha | ⟨-, rfl | rfl⟩
    · obtain ⟨d, hd, rfl⟩ := mem_startAssumptions.mp ha
      rw [List.mem_singleton.mp hc]
      exact hd
    · cases hguard
    · cases hguard
  · intro hc
    exact ⟨⟨.start, [c]⟩, SglTgt.mem_assumptions.mpr (.inl (mem_startAssumptions.mpr ⟨c, hc, rfl⟩)), rfl,
      List.mem_singleton_self c⟩

theorem SglTgt.active_flush_iff {tgt : SglTgt} {e : RefObj} {c : String} {g : Guard} (hg : g ≠ .start) :
    (tgt.condSignals e).Active g c ↔ tgt.hasFlush = true ∧ c ∈ (e.get "flush constraints").strings := by
  rw [CondSignals.active_iff]
  constructor
  · intro ⟨a, ha, hguard, hc⟩
    rcases SglTgt.mem_assumptions.mp ha with ha | ⟨hflush, rfl | rfl⟩
    · obtain ⟨d, -, rfl⟩ := mem_startAssumptions.mp ha
      exact absurd hguard.symm hg
    · exact ⟨hflush, hc⟩
    · exact ⟨hflush, hc⟩
  · intro ⟨hflush, hc⟩
    cases g with
    | beforeStart => exact ⟨_, SglTgt.mem_assumptions.mpr (.inr ⟨hflush, .inl rfl⟩), rfl, hc⟩
    | ended => exact ⟨_, SglTgt.mem_assumptions.mpr (.inr ⟨hflush, .inr rfl⟩), rfl, hc⟩
    | start => exact absurd rfl hg

theorem SglTgt.issue_eq_some_iff {tgt : SglTgt} {e : RefObj} {c : String} :
    (tgt.condSignals e).issue = some c ↔ tgt.hasFlush = true ∧ (e.get "pre-flush end").str? = some c := by
  rw [SglTgt.condSignals]
  cases tgt.hasFlush with
  | false => simp
  | true => simp

theorem SglTgt.endFlush_eq_some_iff {tgt : SglTgt} {e : RefObj} {c : String} :
    (tgt.condSignals e).endFlush = some c ↔ tgt.hasFlush = true ∧ (e.get "post-flush end").str? = some c := by
  rw [SglTgt.condSignals]
  cases tgt.hasFlush with
  | false => simp
  | true => simp

theorem hasFlush_of_construct {cfg : VtgConfig} {rf : RfCond} {name : String} {tgt : SglTgt}
    (h : cfg.construct rf name = some tgt) {f : RefObj} (hf : rf.currentInstruction name = some f) :
    tgt.hasFlush = f.filled "flush constraint" := by
  rw [VtgConfig.construct, hf] at h
  split at h
  · cases h
  · rw [Option.bind_some] at h
    dsimp only at h
    split at h
    · cases h
    · rename_i hbad
      split at h
      · cases h
      · rw [← Option.some.inj h]
        have hends : f.filled "flush constraint" = true →
            f.filled "pre-flush end" = true ∧ f.filled "post-flush end" = true := by
          intro hfilled
          by_contra hnot
          refine hbad ?_
          rw [badInstruction, hfilled]
          rw [← Bool.and_eq_true, Bool.not_eq_true] at hnot
          simp [hnot]
        cases hfilled : f.filled "flush constraint" with
        | false => simp
        | true => simp [hends hfilled]

/-- Out of the bad state no condition is dropped exactly when all of them are where they are read. -/
theorem nothingDropped_iff {cfg : VtgConfig} {rf : RfCond} {name : String} {tgt : SglTgt}
    (h : cfg.construct rf name = some tgt) {f : RefObj} (hf : rf.currentInstruction name = some f) :
    NothingDropped rf name (tgt.condSignals f) ↔ AllRead rf name f := by
  have hflush := hasFlush_of_construct h hf
  have hbefore : Guard.beforeStart ≠ .start := by decide
  have hended : Guard.ended ≠ .start := by decide
  constructor
  · intro hall
    refine ⟨fun e he c hc => ?_, fun e he c hc => SglTgt.active_start_iff.mp (hall.start e he c hc), fun e he c hc => ?_,
      fun e he c hc => ?_⟩
    · rw [← hflush]
      exact (SglTgt.active_flush_iff hbefore).mp (hall.flush e he c hc).1
    · rw [← hflush]
      exact SglTgt.issue_eq_some_iff.mp (hall.preFlush e he c hc)
    · rw [← hflush]
      exact SglTgt.endFlush_eq_some_iff.mp (hall.postFlush e he c hc)
  · intro hall
    refine ⟨fun e he c hc => ?_, fun e he c hc => SglTgt.active_start_iff.mpr (hall.start e he c hc), fun e he c hc => ?_,
      fun e he c hc => ?_⟩
    · have hread := hall.flush e he c hc
      rw [← hflush] at hread
      exact ⟨(SglTgt.active_flush_iff hbefore).mpr hread, (SglTgt.active_flush_iff hended).mpr hread⟩
    · have hread := hall.preFlush e he c hc
      rw [← hflush] at hread
      exact SglTgt.issue_eq_some_iff.mpr hread
    · have hread := hall.postFlush e he c hc
      rw [← hflush] at hread
      exact SglTgt.endFlush_eq_some_iff.mpr hread

section Pipe

/-- An entry with flushing: the constraint that is checked, and what is written. -/
def pipeEntry (checked written : Json) : RefObj :=
  [("instruction", .str "add"), ("ready bound", .int 1), ("flush constraint", checked), ("flush constraints", written),
    ("pre-flush end", .str "empty"), ("post-flush end", .str "done")]

def pipeRf (checked written : Json) : RfCond := ⟨[], [pipeEntry checked written]⟩

def pipeTgt : SglTgt := ⟨true, ⟨false, true⟩⟩

theorem pipe_construct (written : Json) :
    VtgConfig.construct ⟨false, false⟩ (pipeRf (.arr [.str "no_input"]) written) "add" = some pipeTgt := rfl

theorem pipe_entries {checked written : Json} {e : RefObj} (he : e ∈ (pipeRf checked written).entries "add") :
    e = pipeEntry checked written := List.mem_singleton.mp he

/-- A constraint that is there under both names is kept. -/
theorem pipe_kept : NothingDropped (pipeRf (.arr [.str "no_input"]) (.arr [.str "no_input"])) "add"
    (pipeTgt.condSignals (pipeEntry (.arr [.str "no_input"]) (.arr [.str "no_input"]))) := by
  refine (nothingDropped_iff (pipe_construct _) rfl).mpr ⟨fun e he c hc => ?_, fun e he c hc => ?_, fun e he c hc => ?_,
    fun e he c hc => ?_⟩
  · rw [pipe_entries he] at hc
    have hmem : c ∈ ["no_input", "no_input"] := hc
    have hwritten : c ∈ ["no_input"] := by simpa using hmem
    exact ⟨rfl, hwritten⟩
  · rw [pipe_entries he] at hc
    have hmem : c ∈ ([] : List String) := hc
    cases hmem
  · rw [pipe_entries he] at hc
    exact ⟨rfl, hc⟩
  · rw [pipe_entries he] at hc
    exact ⟨rfl, hc⟩

/-- The constraint under the name that is checked is not written. -/
theorem pipe_dropped :
    VtgConfig.construct ⟨false, false⟩ (pipeRf (.arr [.str "no_input"]) .null) "add" = some pipeTgt ∧
      ¬ NothingDropped (pipeRf (.arr [.str "no_input"]) .null) "add"
        (pipeTgt.condSignals (pipeEntry (.arr [.str "no_input"]) .null)) := by
  refine ⟨pipe_construct .null, fun h => ?_⟩
  have hactive := (h.flush _ List.mem_cons_self "no_input" List.mem_cons_self).1
  have hbefore : Guard.beforeStart ≠ .start := by decide
  have hmem : "no_input" ∈ ([] : List String) := ((SglTgt.active_flush_iff hbefore).mp hactive).2
  cases hmem

end Pipe

end Ilang
