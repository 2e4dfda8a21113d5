import Flowgraph.Proofs.Run.Suspension

/-!
# Nodes without a step

Whatever a lineage of a compiled workflow comes to run has a step and a place in the
plan, so that no call of it fails with an unknown node        (Lineage.root_ne_unknownNode).

A checkpoint may also be that of another workflow.  A resume then executes nothing if a
node to run has no step here: it fails with the least of these nodes, or with the limit
if the run has come to it, and hands back the state of the checkpoint with the input

    n ∈ c.frontier → w.steps.find? n = none → … = .error (.failed id …)     (known_or_unknown)
-/

namespace Flowgraph

open Runner

variable {σ τ : Type}

/-! ## Lineages -/

section

variable {g : Graph} {reg : Registry σ} {w : Workflow σ} {id : String}

/-- A round that is due in a lineage does not fail with an unknown node. -/
theorem Passed.root_ne_unknownNode (hc : g.compile reg = .ok w) {past : List Round} {p : Progress}
    {frontier : NameSet} (h : Passed w id past p frontier) {r : Round} (hr : w.Follows id p frontier r)
    {error : RunError} (hv : r.verdict = .failed error) (n : String) :
    error.root ≠ .unknownNode n := by
  obtain ⟨due, now, memory, hdue, rfl⟩ := hr
  rcases w.error_of_round id now p due memory hv with
    ⟨m, hm, -⟩ | hfailure | ⟨source, rfl, -⟩
  · obtain ⟨step, hstep⟩ := h.staffed hc hdue (List.mem_of_find?_eq_some hm)
    have hnone := List.find?_some hm
    rw [hstep] at hnone
    cases hnone
  · obtain ⟨m, source, rfl, -⟩ :=
      Executions.failure?_eq_some (w.ascending_ids id now p due memory) hfailure
    exact nofun
  · exact nofun

/-- Nor does a call that starts where a lineage stands. -/
theorem Passed.root_ne_unknownNode_callOf (hc : g.compile reg = .ok w) {past : List Round}
    {p : Progress} {frontier : NameSet} (h : Passed w id past p frontier) (r : Runner τ)
    (resumed : Bool) (startData : Json) (memory : σ) (content : τ) {error : RunError}
    (herror : (r.callOf w id resumed startData p frontier memory content).result = .error error)
    (n : String) : error.root ≠ .unknownNode n := by
  rcases failed_of_settle herror with ⟨source, hstore⟩ | ⟨e, hend, rfl⟩
  · rw [hstore]
    exact nofun
  · rcases Workflow.failed_driveFor (P := Passed w id) (fun _ _ _ _ _ hp hr hv => hp.ready hr hv)
        _ _ _ _ _ _ _ past h hend with ⟨before, last, q, f, -, hq, hfollows, hv⟩ | ⟨rfl, -⟩
    · exact hq.root_ne_unknownNode hc hfollows hv n
    · exact nofun

/-- No call of a lineage fails with an unknown node. -/
theorem Lineage.root_ne_unknownNode (hc : g.compile reg = .ok w) {rounds : List Round}
    {last : Call σ τ} (hl : Lineage w id rounds last) {error : RunError}
    (herror : last.result = .error error) (n : String) : error.root ≠ .unknownNode n := by
  cases hl with
  | run r initial memory content =>
    exact (Passed.entry initial).root_ne_unknownNode_callOf hc r false _ memory content herror n
  | @resume before last' c r input memory content hlast hcheckpoint hload =>
    rw [resume_eq hload] at herror
    exact (hlast.passed_resume hcheckpoint input).root_ne_unknownNode_callOf hc r true _ memory _
      herror n

/-- What ran in a round is routed by the plan. -/
theorem Workflow.exists_routing (hc : g.compile reg = .ok w) {p : Progress} {frontier : NameSet}
    {r : Round} (hr : w.Follows id p frontier r) {n : String} (hn : n ∈ r.executions.ran) :
    ∃ routing, w.plan.routing.find? n = some routing := by
  obtain ⟨hplan, -, hsteps, -⟩ := Graph.compile_eq_ok hc
  obtain ⟨due, now, memory, -, rfl⟩ := hr
  obtain ⟨e, he⟩ := Executions.mem_ids.1 (Executions.mem_ids_of_ran hn)
  obtain ⟨-, step, -, -, hstep, -⟩ := w.mem_executions id now p due memory he
  rw [hsteps] at hstep
  obtain ⟨node, hnode, hid, -⟩ := Graph.create_of_makeSteps hstep
  exact ⟨_, (Graph.routing_find?_iff hplan).2 ⟨node, hnode, hid, rfl⟩⟩

end

/-! ## Checkpoints of other workflows -/

section

variable {w : Workflow σ}

/-- Where some node of a frontier has no step, the least of these nodes is found. -/
theorem Workflow.exists_unstaffed {frontier : NameSet}
    (h : ∃ n ∈ frontier, w.steps.find? n = none) :
    ∃ n ∈ frontier, w.unstaffed? frontier = some n ∧ w.steps.find? n = none ∧
      ∀ m ∈ frontier, w.steps.find? m = none → n ≤ m := by
  obtain ⟨m, hm, hnone⟩ := h
  cases hu : w.unstaffed? frontier with
  | none =>
    have hall := List.find?_eq_none.1 hu m hm
    rw [hnone] at hall
    exact absurd rfl hall
  | some n =>
    obtain ⟨hmissing, -⟩ := List.find?_eq_some_iff_append.1 hu
    refine ⟨n, List.mem_of_find?_eq_some hu, rfl, Option.isNone_iff_eq_none.1 hmissing, ?_⟩
    intro k hk hkmissing
    exact le_of_find? frontier.ascending hu hk (Option.isNone_iff_eq_none.2 hkmissing)

/-- A resume of a checkpoint with nodes that have no step executes nothing and names the least of
them, unless the run has come to its limit. -/
theorem Runner.resume_of_unknown {id : String} {r : Runner τ} {content : τ} {c : Checkpoint}
    (hload : (r.store.load id content).1 = .ok (some c))
    (h : ∃ n ∈ c.frontier, w.steps.find? n = none) (input : Json) (memory : σ) :
    ∃ n ∈ c.frontier, w.steps.find? n = none ∧
      (∀ m ∈ c.frontier, w.steps.find? m = none → n ≤ m) ∧
      (∀ round ∈ (r.resume w id input memory content).rounds, round.executions = []) ∧
      (r.resume w id input memory content).memory = memory ∧
      (r.resume w id input memory content).result = .error (.failed id
        (if r.maxSteps ≤ c.step then .stepLimitExceeded r.maxSteps else .unknownNode n)
        (c.state.insert c.inputKey input)) := by
  obtain ⟨n, hn, hunstaffed, hmissing, hleast⟩ := Workflow.exists_unstaffed h
  refine ⟨n, hn, hmissing, hleast, ?_⟩
  by_cases hlimit : r.maxSteps ≤ c.step
  · obtain ⟨hrounds, hmemory, hresult⟩ := resume_of_limit hload hlimit input memory (w := w)
    rw [if_pos hlimit, hrounds]
    exact ⟨fun round hround => absurd hround List.not_mem_nil, hmemory, hresult⟩
  · obtain ⟨hnothing, hv, hstate, hkept⟩ :=
      w.round_of_unstaffed id r.now (resumePoint c input) c.frontier memory hunstaffed
    obtain ⟨hrounds, hmemory, hresult⟩ := resume_of_failed hload hlimit hv
    rw [if_neg hlimit, hrounds]
    refine ⟨fun round hround => ?_, hmemory.trans hkept, ?_⟩
    · rw [List.mem_singleton.1 hround]
      exact hnothing
    · rw [hresult, hstate]
      rfl

end

/-- In a compiled workflow no call of a lineage fails with an unknown node, nor does a resume that finds
no checkpoint, and the plan routes every node that ran.  A resume of a checkpoint that names nodes
without a step executes nothing.  It fails with the least of these nodes, or with the limit if the run
has come to it, and with the state of the checkpoint and the input. -/
theorem known_or_unknown {g : Graph} {reg : Registry σ} {w : Workflow σ}
    (hc : g.compile reg = .ok w) :
    (∀ id rounds (last : Call σ τ), Lineage w id rounds last →
      (∀ error, last.result = .error error → ∀ n, error.root ≠ .unknownNode n) ∧
      ∀ n ∈ ranIn rounds, ∃ routing, w.plan.routing.find? n = some routing) ∧
    ∀ (r : Runner τ) id input memory content,
      ((∀ c, (r.store.load id content).1 ≠ .ok (some c)) →
        ∀ error, (r.resume w id input memory content).result = .error error →
          ∀ n, error.root ≠ .unknownNode n) ∧
      ∀ c, (r.store.load id content).1 = .ok (some c) →
        (∃ n ∈ c.frontier, w.steps.find? n = none) →
        ∃ n ∈ c.frontier, w.steps.find? n = none ∧
          (∀ m ∈ c.frontier, w.steps.find? m = none → n ≤ m) ∧
          (∀ round ∈ (r.resume w id input memory content).rounds, round.executions = []) ∧
          (r.resume w id input memory content).memory = memory ∧
          (r.resume w id input memory content).result = .error (.failed id
            (if r.maxSteps ≤ c.step then .stepLimitExceeded r.maxSteps else .unknownNode n)
            (c.state.insert c.inputKey input)) := by
  refine ⟨fun id rounds last hl => ⟨?_, ?_⟩, fun r id input memory content => ⟨?_, ?_⟩⟩
  · exact fun error herror n => hl.root_ne_unknownNode hc herror n
  · intro n hn
    obtain ⟨round, hround, hran⟩ := List.mem_flatMap.1 hn
    obtain ⟨past, rest, hrounds⟩ := List.append_of_mem hround
    obtain ⟨p, frontier, -, hfollows⟩ := hl.passed hrounds
    exact Workflow.exists_routing hc hfollows hran
  · intro hnone error herror n
    obtain ⟨error', hcases, hrefused⟩ := resume_eq_refused hnone input memory (w := w)
    rw [hrefused] at herror
    cases herror
    rcases hcases with rfl | ⟨source, rfl⟩
    · exact nofun
    · exact nofun
  · exact fun c hload hmissing => resume_of_unknown hload hmissing input memory

/-! ## Checkpoints of a panel -/

/-- A task that has the id of a task of the panel. -/
def line : Graph where
  nodes := [{ id := "start", type := .start }, { id := "b", type := .step "task" },
    { id := "end", type := .finish }]
  edges := [.between "start" "b", .between "b" "end"]
  distinct := by decide
  closed := by decide

def lineWorkflow : Workflow Unit :=
  ⟨line, line.planFrom ⟨"start", "end", ["start", "b", "end"]⟩, line.makeSteps .idle⟩

theorem line_compile : line.compile .idle = .ok lineWorkflow :=
  Graph.compile_of_plan (by decide +kernel) rfl

/-- The task is not executed, since two questions of the panel are unknown here. -/
theorem known_or_unknown_line :
    (∀ n ∈ ranIn lineWorkflow.plainRun.rounds, ∃ routing,
      lineWorkflow.plan.routing.find? n = some routing) ∧
    ∃ c s, panelWorkflow.plainRun.checkpoint? = some c ∧ c.frontier.toList = ["b", "p", "q"] ∧
      (Runner.tenRounds.resume lineWorkflow "run" .null () panelWorkflow.plainRun.content).result =
        .error (.failed "run" (.unknownNode "p") s) := by
  obtain ⟨hlineage, hresume⟩ := known_or_unknown line_compile (τ := NameMap Checkpoint)
  refine ⟨(hlineage "run" _ _ (.run .tenRounds ∅ () ∅)).2, ?_⟩
  obtain ⟨c, hc, hload⟩ := Workflow.exists_checkpoint_plainRun (w := panelWorkflow)
    (by decide +kernel) (by decide +kernel)
  obtain ⟨hfrontier, hstep⟩ : c.frontier.toList = ["b", "p", "q"] ∧ c.step = 2 := by
    have hfound : panelWorkflow.plainRun.checkpoint?.map (fun c => (c.frontier.toList, c.step)) =
        some (["b", "p", "q"], 2) := by
      decide +kernel
    rw [hc] at hfound
    simpa using hfound
  have hp : "p" ∈ c.frontier := by
    rw [← NameSet.mem_toList, hfrontier]
    decide
  obtain ⟨n, hn, hmissing, hleast, -, -, hresult⟩ := (hresume .tenRounds "run" .null ()
    panelWorkflow.plainRun.content).2 c hload ⟨"p", hp, by decide +kernel⟩
  obtain rfl : n = "p" := by
    rw [← NameSet.mem_toList, hfrontier] at hn
    simp only [List.mem_cons, List.not_mem_nil, or_false] at hn
    rcases hn with rfl | rfl | rfl
    · revert hmissing
      decide +kernel
    · rfl
    · exact absurd (hleast "p" hp (by decide +kernel)) (by decide)
  rw [hstep, if_neg (by decide)] at hresult
  exact ⟨c, _, hc, hfrontier, hresult⟩

/-- A node without a step is not named where the run has come to its limit. -/
theorem not_unknown_questionLast :
    line.compile .idle = .ok lineWorkflow ∧
      ∃ c, (Runner.twoRounds.store.load "run" questionLast.content).1 = .ok (some c) ∧
        "q" ∈ c.frontier ∧ lineWorkflow.steps.find? "q" = none ∧
        ∀ s, (Runner.twoRounds.resume lineWorkflow "run" .null () questionLast.content).result ≠
          .error (.failed "run" (.unknownNode "q") s) := by
  obtain ⟨c, hc, hload⟩ := exists_checkpoint_questionLast
  obtain ⟨hfrontier, hstep⟩ : "q" ∈ c.frontier ∧ c.step = 2 := by
    have hfound : questionLast.checkpoint?.map (fun c => (decide ("q" ∈ c.frontier), c.step)) =
        some (true, 2) := by
      decide +kernel
    rw [hc] at hfound
    simpa using hfound
  refine ⟨line_compile, c, hload, hfrontier, by decide +kernel, fun s hs => ?_⟩
  have hlimit : Runner.twoRounds.maxSteps ≤ c.step := by
    rw [hstep]
    decide
  have hresult := (resume_of_limit (w := lineWorkflow) hload hlimit .null ()).2.2
  rw [hresult] at hs
  cases hs

end Flowgraph
