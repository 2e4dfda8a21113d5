import Flowgraph.Proofs.Run.Stores

/-!
# Suspensions

What becomes of a round in which nodes ask for input.  Where none fails and those that
ran can be routed, a checkpoint takes up all that the round brought up
(`Workflow.TakenUp`): of the nodes to run next the least that asked for input is
pending, the others are carried,

    b = c.pending ∨ b ∈ c.carried ↔ b asked for input, or a node that ran is routed to b

and a resume begins by executing these on the state of the round, changed at the key
of the input only.  That is, unless the rounds are used up: a resume at the limit
executes nothing                                                   (resumed_from_round)
-/

namespace Flowgraph

open Runner

variable {σ τ : Type}

/-! ## Checkpoints of rounds -/

/-- A checkpoint holds where the run stands after a round, and all that the round brought up;
`memory` is what the round left. -/
structure Workflow.TakenUp (w : Workflow σ) (p : Progress) (memory : σ) (r : Round) (c : Checkpoint) :
    Prop where
  pending : c.pending ∈ r.executions.suspended
  least : ∀ n ∈ r.executions.suspended, c.pending ≤ n
  frontier : ∀ b, (b = c.pending ∨ b ∈ c.carried) ↔ b ∈ r.executions.suspended ∨
    ∃ n ∈ r.executions.ran, ∃ targets, w.route r.after memory n = .ok targets ∧ b ∈ targets
  completed : ∀ n, n ∈ c.completed ↔ n ∈ r.executions.ran ∨ n ∈ p.completed
  /-- Whatever key the pending node asked for its input under. -/
  key : ∀ key payload, (c.pending, key, payload) ∈ r.executions.suspensions → c.inputKey = key
  state : c.state = r.after.state

/-- What a round is suspended with takes up all that it brought up. -/
theorem Workflow.takenUp_of_round (w : Workflow σ) (run : String) (now : Timestamp) (p : Progress)
    (frontier : NameSet) (memory : σ) {c : Checkpoint}
    (h : (w.round run now p frontier memory).1.verdict = .suspended c) :
    w.TakenUp p (w.round run now p frontier memory).2 (w.round run now p frontier memory).1 c := by
  have hwent := w.went_of_next? run now p frontier memory
    (show (w.round run now p frontier memory).1.next? = some c.frontier by rw [Round.next?, h])
  obtain ⟨hafter, payload, hpending⟩ := w.checkpoint_of_round run now p frontier memory h
  obtain ⟨next, key', payload', others, -, hs, -⟩ := w.checkpoint_eq_of_round run now p frontier memory h
  constructor
  · exact Executions.mem_suspended.2 ⟨_, _, hpending⟩
  · intro n hn
    -- those that asked for input stand in ascending order, the pending one first
    have hascending := (w.ascending_ids run now p frontier memory).sublist
      (Executions.suspended_sublist _)
    rw [Executions.suspended, hs, List.map_cons] at hn hascending
    exact head_le_of_ascending hascending hn
  · intro b
    rw [← hwent.mem_next b]
    exact NameSet.mem_insert.symm
  · intro n
    have hcompleted : c.completed = (w.round run now p frontier memory).1.after.completed := by
      rw [hafter]
    rw [hcompleted]
    exact w.mem_completed_after run now p frontier memory
  · intro key payload' hkey
    obtain ⟨e, he, hdone⟩ := Executions.mem_suspensions.1 hpending
    obtain ⟨f, hf, hdone'⟩ := Executions.mem_suspensions.1 hkey
    rw [Executions.eq_of_mem (w.nodup_ids run now p frontier memory) he hf, hdone'] at hdone
    cases hdone
    rfl
  · rw [hafter]

/-- In a compiled workflow there is a step for each of the nodes that a checkpoint takes up. -/
theorem Workflow.TakenUp.exists_step {g : Graph} {reg : Registry σ} {w : Workflow σ}
    (hc : g.compile reg = .ok w) {run : String} {now : Timestamp} {p : Progress} {due : NameSet}
    {memory : σ} {c : Checkpoint}
    (h : w.TakenUp p (w.round run now p due memory).2 (w.round run now p due memory).1 c) {b : String}
    (hb : b ∈ c.frontier) : ∃ step, w.steps.find? b = some step := by
  rcases (h.frontier b).1 (NameSet.mem_insert.1 hb) with hsusp | ⟨n, -, targets, hroute, hmem⟩
  · obtain ⟨e, he⟩ := Executions.mem_ids.1 (Executions.mem_ids_of_suspended hsusp)
    obtain ⟨-, step, -, -, hstep, -⟩ := w.mem_executions run now p due memory he
    exact ⟨step, hstep⟩
  · exact Graph.exists_step hc
      (Graph.mem_ids_of_leads (Graph.compile_eq_ok hc).1 (w.leads_of_route _ _ hroute hmem))

/-- A resume takes up what a checkpoint holds, on the state of the round with the input, unless the run
has come to its limit. -/
theorem Workflow.TakenUp.resumes {g : Graph} {reg : Registry σ} {w : Workflow σ}
    (hc : g.compile reg = .ok w) {run : String} {now : Timestamp} {p : Progress} {due : NameSet}
    {memory : σ} {c : Checkpoint}
    (h : w.TakenUp p (w.round run now p due memory).2 (w.round run now p due memory).1 c)
    {id : String} {next : Runner τ} {content : τ} (hload : (next.store.load id content).1 = .ok (some c))
    (input : Json) (memory' : σ) :
    if next.maxSteps ≤ c.step then
      (next.resume w id input memory' content).rounds = [] ∧
        (next.resume w id input memory' content).result = .error
          (.failed id (.stepLimitExceeded next.maxSteps) (c.state.insert c.inputKey input))
    else
      ∃ first rest, (next.resume w id input memory' content).rounds = first :: rest ∧
        first.executions.ids = (c.carried.insert c.pending).toList ∧
        ∀ key, first.snapshot.find? key =
          if key = c.inputKey then some input
          else (w.round run now p due memory).1.after.state.find? key := by
  split
  · rename_i hlimit
    obtain ⟨hrounds, -, hfailed⟩ := resume_of_limit (w := w) hload hlimit input memory'
    exact ⟨hrounds, hfailed⟩
  · rename_i hlimit
    obtain ⟨rest, hrounds⟩ := rounds_resume_of_lt (w := w) hload hlimit input memory'
    refine ⟨_, rest, hrounds, ?_, fun key => ?_⟩
    · exact w.ids_round id next.now _ c.frontier memory' fun n hn => h.exists_step hc hn
    · rw [w.snapshot_round]
      show (c.state.insert c.inputKey input).find? key = _
      rw [NameMap.find?_insert, h.state]

/-! ## Calls that suspend -/

/-- A call with a round that is suspended gives its checkpoint to the store, and answers that the run
is suspended unless the store refuses. -/
theorem Runner.suspended_callOf {w : Workflow σ} {id : String} {r : Runner τ} {resumed : Bool}
    {startData : Json} {p : Progress} {frontier : NameSet} {memory : σ} {content : τ} {round : Round}
    {c : Checkpoint}
    (hr : round ∈ (r.callOf w id resumed startData p frontier memory content).rounds)
    (hv : round.verdict = .suspended c) :
    (r.callOf w id resumed startData p frontier memory content).checkpoint? = some c ∧
      ((r.callOf w id resumed startData p frontier memory content).result =
          .ok (.suspended (signalOf c)) ∨
        ∃ source s, (r.callOf w id resumed startData p frontier memory content).result =
          .error (.failed id (.store source) s)) := by
  have hend : (w.drive id r.now r.maxSteps p frontier memory).ending = .suspended c :=
    w.ending_driveFor id r.now r.maxSteps _ p frontier memory round hr _ (by rw [hv]; rfl)
  constructor
  · obtain ⟨before, last, hrounds, hlast⟩ := Workflow.last_of_suspended _ _ _ _ _ _ _ _ c hend
    exact Call.checkpoint?_eq_some_iff.2 ⟨before, last, hrounds, hlast⟩
  · rcases r.settle_cases id resumed (w.drive id r.now r.maxSteps p frontier memory) content with
      ⟨hother, -⟩ | ⟨c', hother, hresult⟩ | ⟨e, hother, -⟩
    · rw [hend] at hother
      cases hother
    · rw [hend] at hother
      cases hother
      exact hresult.imp_right fun ⟨source, h⟩ => ⟨source, _, h⟩
    · rw [hend] at hother
      cases hother

theorem Runner.suspended_answer {w : Workflow σ} {id : String} {r : Runner τ} {q : Request}
    {memory : σ} {content : τ} {round : Round} {c : Checkpoint}
    (hr : round ∈ (r.answer w id q memory content).rounds) (hv : round.verdict = .suspended c) :
    (r.answer w id q memory content).checkpoint? = some c ∧
      ((r.answer w id q memory content).result = .ok (.suspended (signalOf c)) ∨
        ∃ source s, (r.answer w id q memory content).result =
          .error (.failed id (.store source) s)) := by
  rcases r.answer_cases w id q memory content with
    ⟨error, t, -, hrefused⟩ | ⟨startData, p, frontier, t, hcall⟩
  · rw [hrefused] at hr
    cases hr
  · rw [hcall] at hr ⊢
    exact suspended_callOf hr hv

/-- A round of a call in which nodes ask for input, none fails and all that ran are routed is taken up
in a checkpoint.  The call gives it to its store and names its key in the signal; and the next
resume from it, unless the rounds are used up, begins by executing just what it holds, on the state
of the round with the input. -/
theorem resumed_from_round {g : Graph} {reg : Registry σ} {w : Workflow σ} (hc : g.compile reg = .ok w)
    {id : String} {runner : Runner τ} {q : Request} {content : τ} {memory m : σ} {now : Timestamp}
    {p : Progress} {due : NameSet} {r : Round} {m' : σ} (hround : w.round id now p due m = (r, m'))
    (hr : r ∈ (runner.answer w id q memory content).rounds) (hs : r.executions.suspended ≠ [])
    (hf : r.executions.failure? = none)
    (hroutes : ∀ n ∈ r.executions.ran, ∃ targets, w.route r.after m' n = .ok targets) :
    ∃ c, w.TakenUp p m' r c ∧ (runner.answer w id q memory content).checkpoint? = some c ∧
      ((runner.answer w id q memory content).result =
          .ok (.suspended ⟨id, c.pending, c.inputKey, c.payload⟩) ∨
        ∃ source s, (runner.answer w id q memory content).result =
          .error (.failed id (.store source) s)) ∧
      ∀ (next : Runner τ) (input : Json) (memory' : σ) (content' : τ),
        (next.store.load id content').1 = .ok (some c) →
        if next.maxSteps ≤ c.step then
          (next.resume w id input memory' content').rounds = [] ∧
            (next.resume w id input memory' content').result = .error
              (.failed id (.stepLimitExceeded next.maxSteps) (c.state.insert c.inputKey input))
        else
          ∃ first rest, (next.resume w id input memory' content').rounds = first :: rest ∧
            first.executions.ids = (c.carried.insert c.pending).toList ∧
            ∀ key, first.snapshot.find? key =
              if key = c.inputKey then some input else r.after.state.find? key := by
  have hfst : (w.round id now p due m).1 = r := congrArg Prod.fst hround
  have hsnd : (w.round id now p due m).2 = m' := congrArg Prod.snd hround
  subst hfst hsnd
  obtain ⟨c, hv⟩ := w.suspended_of_routed id now p due m hs hf hroutes
  have htaken := w.takenUp_of_round id now p due m hv
  obtain ⟨hcheckpoint, hresult⟩ := suspended_answer hr hv
  refine ⟨c, htaken, hcheckpoint, ?_, ?_⟩
  · have hrun : c.run = id := by
      obtain ⟨next, key, payload, others, -, -, hc⟩ := w.checkpoint_eq_of_round id now p due m hv
      rw [hc]
      rfl
    rw [signalOf, hrun] at hresult
    exact hresult
  · exact fun next input memory' content' hload => htaken.resumes hc hload input memory'

/-! ## Two questions at once -/

/-- A task beside two that ask for input. -/
def panel : Graph where
  nodes := [{ id := "start", type := .start }, { id := "a", type := .step "task" },
    { id := "b", type := .step "task" }, { id := "p", type := .step "ask" },
    { id := "q", type := .step "ask" }, { id := "end", type := .finish }]
  edges := [.between "start" "a", .between "start" "p", .between "start" "q", .between "a" "b",
    .between "b" "end", .between "p" "end", .between "q" "end"]
  distinct := by decide
  closed := by decide

def panelWorkflow : Workflow Unit :=
  ⟨panel, panel.planFrom ⟨"start", "end", ["start", "a", "b", "p", "q", "end"]⟩,
    panel.makeSteps .idle⟩

theorem panel_compile : panel.compile .idle = .ok panelWorkflow :=
  Graph.compile_of_plan (by decide +kernel) rfl

/-- The rounds of a run of the panel. -/
def panelRound (i : Fin 2) : Round :=
  panelWorkflow.plainRun.rounds.get (i.cast (by decide +kernel))

/-- The task that ran leads to the next one, which is carried beside the second question. -/
theorem resumed_from_round_panel :
    ∃ c, panelWorkflow.TakenUp (panelRound 0).after () (panelRound 1) c ∧
      panelWorkflow.plainRun.result = .ok (.suspended ⟨"run", "p", "p_human_input", c.payload⟩) ∧
      ∃ first rest, panelWorkflow.plainResume.rounds = first :: rest ∧
        first.executions.ids = ["b", "p", "q"] := by
  have hroutes : ∀ n ∈ (panelRound 1).executions.ran, ∃ targets,
      panelWorkflow.route (panelRound 1).after () n = .ok targets := by
    have hran : (panelRound 1).executions.ran = ["a"] := by decide +kernel
    intro n hn
    rw [hran, List.mem_singleton] at hn
    exact ⟨["b"], by rw [hn]; decide +kernel⟩
  have hround : panelWorkflow.round "run" .epoch (panelRound 0).after (.ofList ["a", "p", "q"]) () =
      (panelRound 1, ()) := by
    decide +kernel
  have hr : panelRound 1 ∈
      (Runner.tenRounds.answer panelWorkflow "run" (.start ∅) () ∅).rounds :=
    List.get_mem _ _
  obtain ⟨c, htaken, hc, hresult, hnext⟩ := resumed_from_round panel_compile hround hr
    (by decide +kernel) (by decide +kernel) hroutes
  obtain ⟨c', hc', hload⟩ := Workflow.exists_checkpoint_plainRun (w := panelWorkflow)
    (by decide +kernel) (by decide +kernel)
  obtain rfl : c' = c := Option.some.inj (hc'.symm.trans hc)
  obtain ⟨hpending, hkey, hfrontier, hstep⟩ : c'.pending = "p" ∧ c'.inputKey = "p_human_input" ∧
      (c'.carried.insert c'.pending).toList = ["b", "p", "q"] ∧ c'.step = 2 := by
    have hfound : panelWorkflow.plainRun.checkpoint?.map (fun c =>
        (c.pending, c.inputKey, (c.carried.insert c.pending).toList, c.step)) =
        some ("p", "p_human_input", ["b", "p", "q"], 2) := by
      decide +kernel
    rw [hc'] at hfound
    simpa using hfound
  have hresume := hnext .tenRounds .null () panelWorkflow.plainRun.content hload
  rw [hstep, if_neg (by decide)] at hresume
  obtain ⟨first, rest, hrounds, hids, -⟩ := hresume
  refine ⟨c', htaken, ?_, first, rest, hrounds, hids.trans hfrontier⟩
  rw [← hpending, ← hkey]
  refine hresult.resolve_right ?_
  rintro ⟨source, s, herror⟩
  have hok : panelWorkflow.plainRun.result.toBool = true := by decide +kernel
  rw [show panelWorkflow.plainRun.result = _ from herror] at hok
  cases hok

/-! ## A question in the last round -/

/-- A runner with a limit of two rounds and checkpoints in a map. -/
def Runner.twoRounds : Runner (NameMap Checkpoint) := ⟨2, .memory, .epoch⟩

def questionWorkflow : Workflow Unit :=
  ⟨question, question.planFrom ⟨"start", "end", ["start", "q", "end"]⟩, question.makeSteps .idle⟩

/-- A run of the question that uses up its rounds. -/
def questionLast : Call Unit (NameMap Checkpoint) :=
  Runner.twoRounds.run questionWorkflow "run" ∅ () ∅

theorem exists_checkpoint_questionLast :
    ∃ c, questionLast.checkpoint? = some c ∧
      (Runner.twoRounds.store.load "run" questionLast.content).1 = .ok (some c) :=
  Call.exists_checkpoint (by decide +kernel) (by decide +kernel)

/-- Nothing is executed by the resume of a run that asked for input in its last round. -/
theorem not_resumed_questionLast :
    question.compile .idle = .ok questionWorkflow ∧
      ∃ c, questionLast.checkpoint? = some c ∧
        (Runner.twoRounds.store.load "run" questionLast.content).1 = .ok (some c) ∧
        ¬ ∃ first rest, (Runner.twoRounds.resume questionWorkflow "run" .null ()
            questionLast.content).rounds = first :: rest ∧
          first.executions.ids = (c.carried.insert c.pending).toList := by
  obtain ⟨c, hc, hload⟩ := exists_checkpoint_questionLast
  refine ⟨Graph.compile_of_plan (by decide +kernel) rfl, c, hc, hload, ?_⟩
  have hnone : (Runner.twoRounds.resume questionWorkflow "run" .null ()
      questionLast.content).rounds = [] := by
    decide +kernel
  rintro ⟨first, rest, hrounds, -⟩
  rw [hnone] at hrounds
  cases hrounds

end Flowgraph
