import Flowgraph.Proofs.Run.Lineage

/-!
# Journals

The state that a lineage carries is its initial state with the writes of its journal
made one after the other: those of every round, the one that fails included, node by
node in ascending order, and before the rounds of a resume its input

    Journal w id initial journal last →
      last.state? = some (initial.replay journal) ∨ …            (state?_eq_replay)

Only updates that are objects write.  Where several nodes of a round fail, the call
reports the first one.
-/

namespace Flowgraph

open Runner

variable {σ τ : Type}

/-! ## Writes -/

/-- What an execution writes, key by key: the fields of its update, if that is an object.  The first
field of a key is the one that counts, so it is written last. -/
def Execution.writes (e : Execution) : Fields :=
  match e.attempt with
  | .done (.update (.obj fields)) => fields.reverse
  | _ => []

namespace State

/-- Writes made key by key, in their order. -/
def write (s : State) (fields : Fields) : State := fields.foldl (fun s f => s.insert f.1 f.2) s

theorem write_append (s : State) (l m : Fields) : s.write (l ++ m) = (s.write l).write m :=
  List.foldl_append

theorem overlay_eq_write (s : State) (fields : Fields) : s.overlay fields = s.write fields.reverse := by
  rw [write, List.foldl_reverse]
  rfl

/-- Merging the updates of a round makes the writes of its executions. -/
theorem reduce_updates (s : State) (es : Executions) :
    (s.reduce (es.updates.map (·.2))).1 = s.write (es.flatMap (·.2.writes)) := by
  induction es generalizing s with
  | nil => rfl
  | cons e es ih =>
    obtain ⟨id, e⟩ := e
    have hwrites : List.flatMap (fun x : String × Execution => x.2.writes) ((id, e) :: es) =
        e.writes ++ es.flatMap (·.2.writes) := rfl
    rw [hwrites, write_append, ← ih]
    unfold Executions.updates Execution.writes
    rw [List.filterMap_cons]
    cases e.attempt with
    | done outcome =>
      cases outcome with
      | update v =>
        dsimp only
        rw [List.map_cons, reduce_cons, reduce_singleton]
        cases v with
        | obj fields =>
          dsimp only
          rw [overlay_eq_write]
        | _ => rfl
      | suspend key payload => rfl
    | failed error => rfl
    | crashed report => rfl

end State

/-! ## Entries -/

/-- A turn of a lineage: a round, or an input that is stored for a resume. -/
inductive Entry where
  | round (r : Round)
  | input (key : String) (v : Json)

namespace Entry

def writes : Entry → Fields
  | round r => r.executions.flatMap (·.2.writes)
  | input key v => [(key, v)]

def round? : Entry → Option Round
  | round r => some r
  | input _ _ => none

end Entry

/-- A state with the writes of a journal made in their order. -/
def State.replay (s : State) (journal : List Entry) : State := s.write (journal.flatMap Entry.writes)

theorem State.replay_append (s : State) (l m : List Entry) :
    s.replay (l ++ m) = (s.replay l).replay m := by
  rw [replay, List.flatMap_append, write_append]
  rfl

theorem State.replay_cons (s : State) (e : Entry) (journal : List Entry) :
    s.replay (e :: journal) = (s.replay [e]).replay journal :=
  s.replay_append [e] journal

/-! ## Rounds and drives -/

/-- A round leaves the state with its writes made. -/
theorem Workflow.Follows.state_after {w : Workflow σ} {run : String} {p : Progress}
    {frontier : NameSet} {r : Round} (h : w.Follows run p frontier r) :
    r.after.state = p.state.replay [.round r] := by
  obtain ⟨due, now, memory, -, rfl⟩ := h
  rw [w.state_after, State.reduce_updates]
  exact congrArg p.state.write (List.append_nil _).symm

namespace Workflow

variable (w : Workflow σ) (run : String) (now : Timestamp) (limit : UInt64) (left : Nat)
  (p : Progress) (frontier : NameSet) (memory : σ)

/-- A drive leaves the state with the writes of its rounds made. -/
theorem state_last_driveFor :
    (w.driveFor run now limit left p frontier memory).last.state =
      p.state.replay ((w.driveFor run now limit left p frontier memory).rounds.map .round) := by
  refine driveFor_induct w run now limit
    (motive := fun p _ d => d.last.state = p.state.replay (d.rounds.map .round))
    ?_ ?_ ?_ ?_ ?_ left p frontier memory
  · exact fun p frontier memory _ => rfl
  · exact fun p frontier memory => rfl
  · exact fun p frontier r error memory hr _ => hr.state_after
  · exact fun p frontier r c memory hr _ => hr.state_after
  · intro p frontier r next d hr _ ih
    rw [List.map_cons, State.replay_cons, ← hr.state_after]
    exact ih

/-- What a drive is suspended with holds the state that it leaves. -/
theorem state_checkpoint_driveFor (c : Checkpoint) :
    (w.driveFor run now limit left p frontier memory).ending = .suspended c →
      c.state = (w.driveFor run now limit left p frontier memory).last.state := by
  refine driveFor_induct w run now limit
    (motive := fun _ _ d => d.ending = .suspended c → c.state = d.last.state)
    ?_ ?_ ?_ ?_ ?_ left p frontier memory
  · exact fun p frontier memory _ => nofun
  · exact fun p frontier memory => nofun
  · exact fun p frontier r error memory _ _ => nofun
  · intro p frontier r c' memory hr hv hend
    cases hend
    obtain ⟨due, now, memory, -, rfl⟩ := hr
    rw [(w.checkpoint_of_round run now p due memory hv).1]
  · exact fun p frontier r next d _ _ ih => ih

end Workflow

/-! ## Calls -/

/-- The state that the result of a call carries: that of a run which completed or failed, or that of the
checkpoint, which a suspended call has saved (`saved_of_suspended`). -/
def Call.state? (call : Call σ τ) : Option State :=
  match call.result with
  | .ok (.completed _ s) => some s
  | .ok (.suspended _) => call.checkpoint?.map (·.state)
  | .error error => error.partialState?

section

variable {w : Workflow σ} {id : String} (r : Runner τ) (resumed : Bool) (startData : Json)
  (p : Progress) (frontier : NameSet) (memory : σ) (content : τ)

theorem Runner.state_checkpoint_callOf {c : Checkpoint}
    (h : (r.callOf w id resumed startData p frontier memory content).checkpoint? = some c) :
    c.state = p.state.replay
      ((r.callOf w id resumed startData p frontier memory content).rounds.map .round) := by
  have hend := ending_of_checkpoint h
  exact (w.state_checkpoint_driveFor _ _ _ _ _ _ _ c hend).trans (w.state_last_driveFor ..)

/-- What a call carries is what it started from with the writes of its rounds made. -/
theorem Runner.state?_callOf :
    (r.callOf w id resumed startData p frontier memory content).state? = some (p.state.replay
      ((r.callOf w id resumed startData p frontier memory content).rounds.map .round)) ∨
    ∃ source, (r.callOf w id resumed startData p frontier memory content).result =
      .error (.store source) := by
  have hstate : (w.drive id r.now r.maxSteps p frontier memory).last.state = p.state.replay
      ((r.callOf w id resumed startData p frontier memory content).rounds.map .round) :=
    w.state_last_driveFor ..
  have hresult : (r.callOf w id resumed startData p frontier memory content).result =
      (r.settle id resumed (w.drive id r.now r.maxSteps p frontier memory) content).result := rfl
  unfold Call.state?
  rcases r.settle_cases id resumed (w.drive id r.now r.maxSteps p frontier memory) content with
    ⟨-, h | ⟨source, h⟩⟩ | ⟨c, -, h | ⟨source, h⟩⟩ | ⟨e, -, h⟩
  · left
    rw [hresult, h, ← hstate]
  · exact .inr ⟨source, h⟩
  · left
    rw [← hresult] at h
    obtain ⟨c', hc', -⟩ := saved_of_suspended h
    rw [h, hc', ← r.state_checkpoint_callOf resumed startData p frontier memory content hc']
    rfl
  · left
    rw [hresult, h, ← hstate]
    rfl
  · left
    rw [hresult, h, ← hstate]
    rfl

/-- A call in which a node failed reports the first one that failed. -/
theorem Runner.failed_callOf {round : Round} {n : String} {source : StepError}
    (hr : round ∈ (r.callOf w id resumed startData p frontier memory content).rounds)
    (hfollows : ∃ q f, w.Follows id q f round) (h : round.executions.FailedAt n source) :
    ∃ n' source' s, (r.callOf w id resumed startData p frontier memory content).result =
        .error (.failed id (.stepExecution n' source') s) ∧
      round.executions.FailedAt n' source' ∧
      ∀ m other, round.executions.FailedAt m other → n' ≤ m := by
  obtain ⟨q, f, due, now, m, -, rfl⟩ := hfollows
  obtain ⟨error, hfailure⟩ := Executions.failure?_isSome_of_failedAt h
  obtain ⟨n', source', rfl, hfirst, hleast⟩ :=
    Executions.failure?_eq_some (w.ascending_ids id now q due m) hfailure
  have hend : (w.drive id r.now r.maxSteps p frontier memory).ending =
      .failed (.stepExecution n' source') := by
    refine w.ending_driveFor id r.now r.maxSteps _ p frontier memory _ hr _ ?_
    rw [w.verdict_of_failure id now q due m hfailure]
    rfl
  refine ⟨n', source', (w.drive id r.now r.maxSteps p frontier memory).last.state, ?_, hfirst, hleast⟩
  show (r.settle id resumed (w.drive id r.now r.maxSteps p frontier memory) content).result = _
  unfold settle
  rw [hend]
  rfl

end

/-! ## Journals -/

/-- A lineage with all that changed its state: the initial state, the rounds in their order, and before
those of a resume its input. -/
inductive Journal (w : Workflow σ) (id : String) (initial : State) : List Entry → Call σ τ → Prop
  | run (r : Runner τ) (memory : σ) (content : τ) :
      Journal w id initial ((r.run w id initial memory content).rounds.map .round)
        (r.run w id initial memory content)
  | resume {journal : List Entry} {last : Call σ τ} {c : Checkpoint} (r : Runner τ) (input : Json)
      (memory : σ) (content : τ) :
      Journal w id initial journal last → last.checkpoint? = some c →
      (r.store.load id content).1 = .ok (some c) →
      Journal w id initial
        (journal ++ .input c.inputKey input ::
          (r.resume w id input memory content).rounds.map .round)
        (r.resume w id input memory content)

namespace Journal

variable {w : Workflow σ} {id : String} {initial : State} {journal : List Entry} {last : Call σ τ}

theorem filterMap_round? (rounds : List Round) :
    (rounds.map Entry.round).filterMap Entry.round? = rounds := by
  rw [List.filterMap_map]
  exact List.filterMap_some

/-- The rounds of a journal are those of a lineage. -/
theorem lineage (h : Journal w id initial journal last) :
    Lineage w id (journal.filterMap Entry.round?) last := by
  induction h with
  | run r memory content =>
    rw [filterMap_round?]
    exact .run r initial memory content
  | @resume journal last c r input memory content _ hc hload ih =>
    rw [List.filterMap_append, List.filterMap_cons]
    dsimp only [Entry.round?]
    rw [filterMap_round?]
    exact .resume r input memory content ih hc hload

/-- Every round of a journal is one of its workflow. -/
theorem follows (h : Journal w id initial journal last) {r : Round} (hr : .round r ∈ journal) :
    ∃ p frontier, w.Follows id p frontier r := by
  have hmem : r ∈ journal.filterMap Entry.round? := List.mem_filterMap.2 ⟨_, hr, rfl⟩
  obtain ⟨past, rest, hrounds⟩ := List.append_of_mem hmem
  obtain ⟨p, frontier, -, hfollows⟩ := h.lineage.passed hrounds
  exact ⟨p, frontier, hfollows⟩

theorem mem_of_mem_last (h : Journal w id initial journal last) {r : Round} (hr : r ∈ last.rounds) :
    .round r ∈ journal := by
  cases h with
  | run => exact List.mem_map_of_mem hr
  | resume =>
    exact List.mem_append_right _ (List.mem_cons_of_mem _ (List.mem_map_of_mem hr))

/-- What a call gave to its store holds the state with all writes of the journal made. -/
theorem state_checkpoint (h : Journal w id initial journal last) {c : Checkpoint}
    (hc : last.checkpoint? = some c) : c.state = initial.replay journal := by
  induction h generalizing c with
  | run r memory content => exact r.state_checkpoint_callOf _ _ _ _ _ _ hc
  | @resume journal last c' r input memory content _ hc' hload ih =>
    rw [State.replay_append, ← ih hc', State.replay_cons]
    rw [r.resume_eq hload] at hc ⊢
    exact r.state_checkpoint_callOf _ _ _ _ _ _ hc

end Journal

/-- The state that a lineage carries is its initial state with all writes of its journal made in their
order; only a completed run whose checkpoint cannot be deleted carries none.  The nodes of a round stand in
ascending order, and of those that fail the first one is reported. -/
theorem state?_eq_replay {w : Workflow σ} {id : String} {initial : State} {journal : List Entry}
    {last : Call σ τ} (h : Journal w id initial journal last) :
    (last.state? = some (initial.replay journal) ∨
      ∃ source, last.result = .error (.store source)) ∧
    (∀ r, .round r ∈ journal → r.executions.ids.Pairwise (· < ·)) ∧
    ∀ r ∈ last.rounds, ∀ n source, r.executions.FailedAt n source →
      ∃ n' source' s, last.result = .error (.failed id (.stepExecution n' source') s) ∧
        r.executions.FailedAt n' source' ∧
        ∀ m other, r.executions.FailedAt m other → n' ≤ m := by
  refine ⟨?_, ?_, ?_⟩
  · cases h with
    | run r memory content => exact r.state?_callOf ..
    | @resume journal last c r input memory content hlast hc hload =>
      rw [State.replay_append, ← hlast.state_checkpoint hc, State.replay_cons, r.resume_eq hload]
      exact r.state?_callOf ..
  · intro r hr
    obtain ⟨p, frontier, due, now, memory, -, rfl⟩ := h.follows hr
    exact w.ascending_ids id now p due memory
  · intro r hr n source hfailed
    have hfollows := h.follows (h.mem_of_mem_last hr)
    cases h with
    | run runner memory content => exact runner.failed_callOf _ _ _ _ _ _ hr hfollows hfailed
    | @resume journal last c runner input memory content hlast hc hload =>
      rw [runner.resume_eq hload] at hr ⊢
      exact runner.failed_callOf _ _ _ _ _ _ hr hfollows hfailed

/-! ## A resume that fails -/

/-- Steps that write their node's name under one key, that wait for input, and that fail. -/
def Registry.noting : Registry Unit :=
  let note : StepFactory Unit := fun _ =>
    .ok (.pure fun ctx _ => .update [("last", .str ctx.node)])
  let fail : StepFactory Unit := fun _ => .ok (.pure fun ctx _ => ⟨.failed (.other ctx.node), []⟩)
  ⟨(.step "note", note) :: (.step "fail", fail) :: Registry.idle.factories⟩

/-- Two nodes that write before one that asks for input, and after it one that writes beside two that
fail. -/
def halting : Graph where
  nodes := [{ id := "start", type := .start }, { id := "a", type := .step "note" },
    { id := "b", type := .step "note" }, { id := "q", type := .step "ask" },
    { id := "f", type := .step "note" }, { id := "g", type := .step "fail" },
    { id := "h", type := .step "fail" }, { id := "end", type := .finish }]
  edges := [.between "start" "a", .between "start" "b", .between "a" "q", .between "b" "q",
    .between "q" "f", .between "q" "g", .between "q" "h"]
  distinct := by decide
  closed := by decide

def haltingWorkflow : Workflow Unit :=
  ⟨halting, halting.planFrom ⟨"start", "end", ["end", "start", "a", "b", "q", "f", "g", "h"]⟩,
    halting.makeSteps .noting⟩

theorem halting_compile : halting.compile .noting = .ok haltingWorkflow :=
  Graph.compile_of_plan (by decide +kernel) rfl

/-- The rounds of a run and of its resume, and the input between them. -/
def haltingJournal : List Entry :=
  haltingWorkflow.plainRun.rounds.map .round ++ .input "q_human_input" .null ::
    haltingWorkflow.plainResume.rounds.map .round

theorem journal_halting :
    Journal haltingWorkflow "run" ∅ haltingJournal haltingWorkflow.plainResume := by
  obtain ⟨c, hc, hload⟩ := Workflow.exists_checkpoint_plainRun (w := haltingWorkflow)
    (by decide +kernel) (by decide +kernel)
  have hkey : haltingWorkflow.plainRun.checkpoint?.map (·.inputKey) = some "q_human_input" := by
    decide +kernel
  rw [hc] at hkey
  unfold haltingJournal
  rw [← Option.some.inj hkey]
  exact .resume .tenRounds .null () haltingWorkflow.plainRun.content (.run _ _ _) hc hload

/-- The write of the last round counts that did not fail, and the first of the failures. -/
theorem state?_eq_replay_halting :
    halting.compile .noting = .ok haltingWorkflow ∧
    haltingWorkflow.plainResume.result = .error (.failed "run" (.stepExecution "g" (.other "g"))
      (.ofFields [("last", .str "f"), ("q_human_input", .null)])) ∧
    haltingWorkflow.plainResume.state? = some (State.replay ∅ haltingJournal) ∧
    ∀ r, .round r ∈ haltingJournal → r.executions.ids.Pairwise (· < ·) := by
  have hresult : haltingWorkflow.plainResume.result =
      .error (.failed "run" (.stepExecution "g" (.other "g"))
        (.ofFields [("last", .str "f"), ("q_human_input", .null)])) := by
    decide +kernel
  have h := state?_eq_replay journal_halting
  refine ⟨halting_compile, hresult, h.1.resolve_right ?_, h.2.1⟩
  rintro ⟨source, hstore⟩
  rw [hresult] at hstore
  cases hstore

end Flowgraph
