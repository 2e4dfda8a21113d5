import Flowgraph.Run.Round

/-!
# Calls

A call starts a run or resumes one, and drives it round by round until it
completes, suspends or fails.  Its events are those of the start, of the rounds and
of the end; a run that cannot be found has the end only.  `drive_eq` states the rule
of a drive by the step counter: a frontier that is not empty runs as long as the
counter is below the limit.
-/

namespace Flowgraph

variable {σ τ : Type}

/-! ## Driving a run -/

/-- How a drive ended. -/
inductive Ending where
  | completed
  | suspended (checkpoint : Checkpoint)
  | failed (error : RunError)
deriving DecidableEq

/-- A drive: its rounds, where the run stands after them, and how it ended. -/
structure Drive (σ : Type) where
  rounds : List Round
  last : Progress
  ending : Ending
  memory : σ

namespace Workflow

/-- The frontier to run: the given one, or the end if it is to be released. -/
def dueFrontier? (w : Workflow σ) (completed frontier : NameSet) : Option NameSet :=
  if frontier.isEmpty then (w.plan.releasedExit? completed).map NameSet.singleton else some frontier

/-- Drives a run for up to a number of rounds. -/
def driveFor (w : Workflow σ) (run : String) (now : Timestamp) (limit : UInt64) (left : Nat)
    (p : Progress) (frontier : NameSet) (memory : σ) : Drive σ :=
  match w.dueFrontier? p.completed frontier with
  | none => ⟨[], p, .completed, memory⟩
  | some due =>
    match left with
    | 0 => ⟨[], p, .failed (.stepLimitExceeded limit), memory⟩
    | left + 1 =>
      let (r, memory) := w.round run now p due memory
      match r.verdict with
      | .failed error => ⟨[r], r.after, .failed error, memory⟩
      | .suspended checkpoint => ⟨[r], r.after, .suspended checkpoint, memory⟩
      | .ready next =>
        let rest := w.driveFor run now limit left r.after next memory
        { rest with rounds := r :: rest.rounds }

/-- Drives a run until it ends or the step counter has reached the limit. -/
def drive (w : Workflow σ) (run : String) (now : Timestamp) (limit : UInt64) (p : Progress)
    (frontier : NameSet) (memory : σ) : Drive σ :=
  w.driveFor run now limit (limit.toNat - p.step.toNat) p frontier memory

theorem step_after_round (w : Workflow σ) (run : String) (now : Timestamp) (p : Progress)
    (frontier : NameSet) (memory : σ) :
    (w.round run now p frontier memory).1.after.step = p.step + 1 := by
  unfold round
  split <;> rfl

/-- A counter below a limit goes up without wrapping. -/
theorem toNat_step_succ {step limit : UInt64} (h : step < limit) :
    (step + 1).toNat = step.toNat + 1 := by
  have hlt := UInt64.lt_iff_toNat_lt.1 h
  have := limit.toNat_lt
  rw [UInt64.toNat_add]
  simp only [UInt64.reduceToNat]
  omega

/-- The rule of a drive. -/
theorem drive_eq (w : Workflow σ) (run : String) (now : Timestamp) (limit : UInt64) (p : Progress)
    (frontier : NameSet) (memory : σ) :
    w.drive run now limit p frontier memory =
      match w.dueFrontier? p.completed frontier with
      | none => ⟨[], p, .completed, memory⟩
      | some due =>
        if limit ≤ p.step then ⟨[], p, .failed (.stepLimitExceeded limit), memory⟩
        else
          let (r, memory) := w.round run now p due memory
          match r.verdict with
          | .failed error => ⟨[r], r.after, .failed error, memory⟩
          | .suspended checkpoint => ⟨[r], r.after, .suspended checkpoint, memory⟩
          | .ready next =>
            let rest := w.drive run now limit r.after next memory
            { rest with rounds := r :: rest.rounds } := by
  unfold drive
  by_cases h : limit ≤ p.step
  · have hzero : limit.toNat - p.step.toNat = 0 := by
      have := UInt64.le_iff_toNat_le.1 h
      omega
    rw [hzero, driveFor.eq_def]
    cases w.dueFrontier? p.completed frontier <;> simp [h]
  · have hlt := UInt64.lt_iff_toNat_lt.1 (UInt64.not_le.1 h)
    have hnext := toNat_step_succ (UInt64.not_le.1 h)
    obtain ⟨left, hleft⟩ : ∃ left, limit.toNat - p.step.toNat = left + 1 :=
      ⟨limit.toNat - p.step.toNat - 1, by omega⟩
    rw [hleft, driveFor.eq_def]
    cases w.dueFrontier? p.completed frontier with
    | none => rfl
    | some due =>
      have hrest : limit.toNat - (w.round run now p due memory).1.after.step.toNat = left := by
        rw [w.step_after_round run now p due memory, hnext]
        omega
      simp only [h, if_false, hrest]

end Workflow

/-! ## Calls -/

/-- What every call is made with: the step limit, the store, and the time its events bear. -/
structure Runner (τ : Type) where
  maxSteps : UInt64
  store : CheckpointStore τ
  now : Timestamp

/-- A call: its rounds and events, what it returned, and what it left behind. -/
structure Call (σ τ : Type) where
  rounds : List Round
  events : List Event
  result : Except RunError RunOutcome
  memory : σ
  content : τ

/-- The events that a reader of the call's stream sees. -/
def Call.stream (c : Call σ τ) : List RunEvent := c.events.filterMap Event.run?

/-- What the end of a drive comes to. -/
structure Settled (τ : Type) where
  /-- The last event; there is none where a finished run's checkpoint cannot be deleted. -/
  terminal : Option RunEvent
  result : Except RunError RunOutcome
  content : τ

namespace Runner

/-- An event that ends a call with an error. -/
def errorEvent (r : Runner τ) (run : String) (error : RunError) : RunEvent :=
  ⟨.error, RunEvent.errorData error.message, r.now, run⟩

/-- The end of a run that stopped on an error. -/
def settleFailed (r : Runner τ) (run : String) (error : RunError) (s : State) (content : τ) :
    Settled τ where
  terminal := some (r.errorEvent run error)
  result := .error (.failed run error s)
  content

/-- The end of a run that completed. -/
def settleCompleted (r : Runner τ) (run : String) (p : Progress) (content : τ) : Settled τ where
  terminal := some ⟨.complete, .object [("state", p.state.toJson), ("steps", .ofWord p.step)], r.now, run⟩
  result := .ok (.completed run p.state)
  content

/-- The signal that a checkpoint gives. -/
def signalOf (c : Checkpoint) : SuspendSignal := ⟨c.run, c.pending, c.inputKey, c.payload⟩

/-- The end of a run whose checkpoint is saved. -/
def settleSuspended (r : Runner τ) (signal : SuspendSignal) (content : τ) : Settled τ where
  terminal := some ⟨.inputRequired,
    .object [("pending_node", .str signal.pending), ("awaiting_key", .str signal.key),
      ("payload", signal.payload)], r.now, signal.run⟩
  result := .ok (.suspended signal)
  content

/-- Saves or deletes the checkpoint as the end of a drive asks for.  A resumed run that completes
has its checkpoint deleted. -/
def settle (r : Runner τ) (run : String) (resumed : Bool) (d : Drive σ) (content : τ) : Settled τ :=
  match d.ending with
  | .completed =>
    if resumed then
      match r.store.delete run content with
      | (.ok _, content) => r.settleCompleted run d.last content
      | (.error e, content) => ⟨none, .error (.store e), content⟩
    else r.settleCompleted run d.last content
  | .suspended c =>
    match r.store.save c content with
    | (.ok (), content) => r.settleSuspended (signalOf c) content
    | (.error e, content) => r.settleFailed run (.store e) d.last.state content
  | .failed e => r.settleFailed run e d.last.state content

/-- A call that drives a run after its start event. -/
def callOf (r : Runner τ) (w : Workflow σ) (run : String) (resumed : Bool) (startData : Json)
    (p : Progress) (frontier : NameSet) (memory : σ) (content : τ) : Call σ τ :=
  let d := w.drive run r.now r.maxSteps p frontier memory
  let settled := r.settle run resumed d content
  { rounds := d.rounds
    events := .run ⟨.start, startData, r.now, run⟩ ::
      (d.rounds.flatMap (Round.events run r.now) ++ settled.terminal.toList.map .run)
    result := settled.result
    memory := d.memory
    content := settled.content }

/-- Starts a run under an id of its own. -/
def run (r : Runner τ) (w : Workflow σ) (id : String) (initial : State) (memory : σ) (content : τ) :
    Call σ τ :=
  r.callOf w id false (.object [("entry", .str w.plan.entry), ("resumed", .bool false)])
    { state := initial } (.singleton w.plan.entry) memory content

/-- A call that ends before its run is found. -/
def refused (r : Runner τ) (id : String) (error : RunError) (memory : σ) (content : τ) : Call σ τ where
  rounds := []
  events := [.run (r.errorEvent id error)]
  result := .error error
  memory
  content

/-- Where a checkpoint stands once its input has come. -/
def resumePoint (c : Checkpoint) (input : Json) : Progress where
  state := c.state.insert c.inputKey input
  completed := c.completed
  step := c.step

/-- Resumes a suspended run, the input stored under the key it waits for. -/
def resume (r : Runner τ) (w : Workflow σ) (id : String) (input : Json) (memory : σ) (content : τ) :
    Call σ τ :=
  match r.store.load id content with
  | (.error e, content) => r.refused id (.store e) memory content
  | (.ok none, content) => r.refused id (.checkpointNotFound id) memory content
  | (.ok (some c), content) =>
    r.callOf w id true
      (.object [("resumed", .bool true), ("pending_node", .str c.pending), ("input_key", .str c.inputKey)])
      (resumePoint c input) c.frontier memory content

end Runner

end Flowgraph
