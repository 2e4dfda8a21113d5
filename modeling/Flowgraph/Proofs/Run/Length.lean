import Flowgraph.Proofs.Plan.Paths
import Flowgraph.Proofs.Run.Lineage

/-!
# How long a call runs

Where routes do not come back, a call runs at most as many rounds as its graph has
nodes                                                               (rounds_le_nodes)

Every round goes one node further along the routes: between rounds a node that is to
run ends a path with a node for each round and itself (`Walked`).  When the frontier
is empty and the end is released, the last round ended paths that leave the end out.
-/

namespace Flowgraph

open Relation Runner

variable {σ τ : Type}

/-! ## Paths in a graph -/

/-- A node is reached by a path of some nodes of the graph. -/
def Graph.PathTo (g : Graph) (p : Plan) (n : String) (k : Nat) : Prop :=
  ∃ a ∈ g.ids, ∃ l, p.IsPath a n l ∧ l.length = k

namespace Graph.PathTo

variable {g : Graph} {p : Plan} {n : String} {k : Nat}

theorem singleton (hn : n ∈ g.ids) : g.PathTo p n 1 :=
  ⟨n, hn, [n], p.isPath_singleton n, rfl⟩

theorem concat {b : String} (h : g.PathTo p n k) (hl : p.Leads n b) : g.PathTo p b (k + 1) := by
  obtain ⟨a, ha, l, hpath, rfl⟩ := h
  exact ⟨a, ha, l ++ [b], hpath.concat hl, by simp⟩

theorem le (h : g.PathTo p n k) (hplan : g.plan = .ok p) (hexit : ∀ e ∈ g.edges, e.source ≠ p.exit) :
    k ≤ g.nodes.length := by
  obtain ⟨a, ha, l, hpath, rfl⟩ := h
  exact length_le_of_isPath hplan hexit hpath ha

theorem lt (h : g.PathTo p n k) (hplan : g.plan = .ok p) (hexit : ∀ e ∈ g.edges, e.source ≠ p.exit)
    (hn : n ≠ p.exit) : k < g.nodes.length := by
  obtain ⟨a, ha, l, hpath, rfl⟩ := h
  exact length_lt_of_isPath hplan hexit hpath ha hn

end Graph.PathTo

/-! ## Between the rounds of a call -/

/-- What holds between the rounds of a call, counted from its start. -/
structure Walked (g : Graph) (plan : Plan) (past : List Round) (p : Progress)
    (frontier : NameSet) : Prop where
  /-- A node that is to run is one node further than the rounds before. -/
  path : ∀ n ∈ frontier, g.PathTo plan n (past.length + 1)
  /-- If the end has not completed, the last round ran another node. -/
  last : plan.exit ∈ p.completed ∨ past = [] ∨
    ∃ n, n ≠ plan.exit ∧ g.PathTo plan n past.length

namespace Walked

variable {g : Graph} {w : Workflow σ} {id : String} {past : List Round} {p : Progress}
  {frontier : NameSet}

theorem start {plan : Plan} (hids : ∀ n ∈ frontier, n ∈ g.ids) : Walked g plan [] p frontier :=
  ⟨fun n hn => .singleton (hids n hn), .inr (.inl rfl)⟩

/-- As long as something is due, there are more nodes than rounds. -/
theorem length_lt (hplan : g.plan = .ok w.plan) (hexit : ∀ e ∈ g.edges, e.source ≠ w.plan.exit)
    (h : Walked g w.plan past p frontier) {due : NameSet}
    (hdue : w.dueFrontier? p.completed frontier = some due) : past.length < g.nodes.length := by
  rcases Workflow.due_cases hdue with ⟨-, n, hn⟩ | ⟨-, -, hreleased⟩
  · exact (h.path n hn).le hplan hexit
  · obtain ⟨-, hnew, -⟩ := Plan.releasedExit?_eq_some_iff.1 hreleased
    rcases h.last with hdone | rfl | ⟨n, hn, hpath⟩
    · exact absurd hdone hnew
    · have hmem := Graph.exit_mem_ids hplan
      rw [Graph.ids] at hmem
      rw [← List.length_map (fun n : Node => n.id)]
      exact List.length_pos_of_mem hmem
    · exact hpath.lt hplan hexit hn

theorem round (hplan : g.plan = .ok w.plan) (hacyclic : ∀ a, ¬ TransGen w.plan.Leads a a)
    (h : Walked g w.plan past p frontier) {r : Round} {next : NameSet}
    (hr : w.Follows id p frontier r) (hv : r.verdict = .ready next) :
    Walked g w.plan (past ++ [r]) r.after next := by
  have hcompleted : ∀ n ∈ r.executions.ran, n ∈ r.after.completed :=
    fun n hn => hr.mem_completed.2 (.inl hn)
  obtain ⟨due, now, memory, hdue, rfl⟩ := hr
  have hwent := w.went_of_next? id now p due memory (by rw [Round.next?, hv])
  have hsuspended := w.suspended_of_ready id now p due memory hv
  generalize (w.round id now p due memory).1 = r at hcompleted hwent hsuspended ⊢
  have hran : ∀ n, n ∈ r.executions.ran ↔ n ∈ due := by
    intro n
    rw [← NameSet.mem_toList, ← hwent.ids]
    constructor
    · exact Executions.mem_ids_of_ran
    · intro hn
      rcases Executions.ran_or_suspended hwent.noFailure hn with hr | hs
      · exact hr
      · rw [hsuspended] at hs
        cases hs
  have hlead : ∀ b ∈ next, ∃ a ∈ due, w.plan.Leads a b := by
    intro b hb
    rcases (hwent.mem_next b).1 hb with hs | ⟨a, ha, targets, hroute, hmem⟩
    · rw [hsuspended] at hs
      cases hs
    · exact ⟨a, (hran a).1 ha, w.leads_of_route _ _ hroute hmem⟩
  rcases Workflow.due_cases hdue with ⟨rfl, n, hn⟩ | ⟨rfl, -, -⟩
  · refine ⟨fun b hb => ?_, ?_⟩
    · obtain ⟨a, ha, hl⟩ := hlead b hb
      rw [List.length_append, List.length_singleton]
      exact (h.path a ha).concat hl
    · by_cases hexit : n = w.plan.exit
      · exact .inl (hcompleted _ ((hran _).2 (hexit ▸ hn)))
      · right; right
        refine ⟨n, hexit, ?_⟩
        rw [List.length_append, List.length_singleton]
        exact h.path n hn
  · -- the end was released, and leads nowhere
    refine ⟨fun b hb => ?_, .inl (hcompleted _ ((hran _).2 (NameSet.mem_singleton.2 rfl)))⟩
    obtain ⟨a, ha, hl⟩ := hlead b hb
    rw [NameSet.mem_singleton.1 ha] at hl
    exact absurd hl (Graph.not_leads_exit hplan hacyclic b)

end Walked

/-! ## Calls -/

section

variable {g : Graph} {reg : Registry σ} {w : Workflow σ}

/-- A call on nodes of the graph has no more rounds than the graph has nodes. -/
theorem length_rounds_callOf (hplan : g.plan = .ok w.plan)
    (hacyclic : ∀ a, ¬ TransGen w.plan.Leads a a) (r : Runner τ) (id : String) (resumed : Bool)
    (startData : Json) (p : Progress) {frontier : NameSet} (hids : ∀ n ∈ frontier, n ∈ g.ids)
    (memory : σ) (content : τ) :
    (r.callOf w id resumed startData p frontier memory content).rounds.length ≤ g.nodes.length := by
  have hkeep : ∀ past p frontier round next, Walked g w.plan past p frontier →
      w.Follows id p frontier round → round.verdict = .ready next →
      Walked g w.plan (past ++ [round]) round.after next :=
    fun _ _ _ _ _ h hr hv => h.round hplan hacyclic hr hv
  have halong := (r.along_callOf hkeep resumed startData memory content
    (Walked.start (p := p) hids)).1
  generalize (r.callOf w id resumed startData p frontier memory content).rounds = rounds at halong ⊢
  rcases List.eq_nil_or_concat rounds with rfl | ⟨before, last, rfl⟩
  · exact Nat.zero_le _
  · rw [List.concat_eq_append] at halong ⊢
    obtain ⟨q, f, hwalked, due, now, m, hdue, -⟩ := halong.before
    rw [List.nil_append] at hwalked
    have hlt := hwalked.length_lt hplan ((Graph.acyclic_iff hplan).1 hacyclic) hdue
    rw [List.length_append, List.length_singleton]
    omega

theorem length_rounds_run (hplan : g.plan = .ok w.plan)
    (hacyclic : ∀ a, ¬ TransGen w.plan.Leads a a) (r : Runner τ) (id : String) (initial : State)
    (memory : σ) (content : τ) :
    (r.run w id initial memory content).rounds.length ≤ g.nodes.length := by
  refine length_rounds_callOf hplan hacyclic r id false _ _ (fun n hn => ?_) memory content
  rw [NameSet.mem_singleton.1 hn]
  exact Graph.entry_mem_ids hplan

/-- A run with a limit of at least the number of nodes does not come to its limit. -/
theorem root_ne_stepLimit_run (hplan : g.plan = .ok w.plan)
    (hacyclic : ∀ a, ¬ TransGen w.plan.Leads a a) (r : Runner τ) (id : String) (initial : State)
    (memory : σ) (content : τ) (hlimit : g.nodes.length ≤ r.maxSteps.toNat) {error : RunError}
    (h : (r.run w id initial memory content).result = .error error) (limit : UInt64) :
    error.root ≠ .stepLimitExceeded limit := by
  intro hroot
  rcases failed_of_settle h with ⟨source, hstore⟩ | ⟨e, hend, rfl⟩
  · rw [hroot] at hstore
    cases hstore
  · have hstart : Walked g w.plan [] { state := initial } (.singleton w.plan.entry) := by
      refine Walked.start fun n hn => ?_
      rw [NameSet.mem_singleton.1 hn]
      exact Graph.entry_mem_ids hplan
    rcases Workflow.failed_driveFor (P := Walked g w.plan)
        (fun _ _ _ _ _ h hr hv => h.round hplan hacyclic hr hv) _ _ _ _ _ _ _ _ hstart hend with
      ⟨before, last, q, f, -, -, ⟨due, now, m, -, rfl⟩, hv⟩ |
        ⟨-, hlen, q, f, due, hwalked, hdue⟩
    · exact w.root_ne_stepLimit_of_round id now q due m hv limit hroot
    · have hlt := hwalked.length_lt hplan ((Graph.acyclic_iff hplan).1 hacyclic) hdue
      rw [List.nil_append, hlen] at hlt
      exact Nat.not_lt.2 hlimit hlt

/-- Where routes do not come back, a run and a resume of a checkpoint that an earlier call left have at
most as many rounds as the graph has nodes, and a run whose limit is at least that many does not come
to its limit. -/
theorem rounds_le_nodes (hc : g.compile reg = .ok w) (hacyclic : ∀ a, ¬ TransGen w.plan.Leads a a) :
    (∀ (r : Runner τ) id initial memory content,
      (r.run w id initial memory content).rounds.length ≤ g.nodes.length) ∧
    (∀ id rounds (last : Call σ τ), Lineage w id rounds last → ∀ c, last.checkpoint? = some c →
      ∀ (r : Runner τ) id' input memory content, (r.store.load id' content).1 = .ok (some c) →
        (r.resume w id' input memory content).rounds.length ≤ g.nodes.length) ∧
    ∀ (r : Runner τ) id initial memory content, g.nodes.length ≤ r.maxSteps.toNat →
      ∀ error, (r.run w id initial memory content).result = .error error →
        ∀ limit, error.root ≠ .stepLimitExceeded limit := by
  have hplan := (Graph.compile_eq_ok hc).1
  refine ⟨?_, ?_, ?_⟩
  · exact fun r id initial memory content => length_rounds_run hplan hacyclic r id initial memory content
  · intro id rounds last hl c hcp r id' input memory content hload
    rw [r.resume_eq hload]
    refine length_rounds_callOf hplan hacyclic r id' true _ _ (fun n hn => ?_) memory _
    exact (hl.passed_resume hcp input).mem_ids hc hn
  · intro r id initial memory content hlimit error hresult limit
    exact root_ne_stepLimit_run hplan hacyclic r id initial memory content hlimit hresult limit

end

/-- A branch that leaves one of the end's two sources out, and the other source asks for input. -/
def untaken : Graph where
  nodes := [{ id := "start", type := .start }, { id := "b", type := .branch },
    { id := "x", type := .step "ask" }, { id := "y", type := .step "task" },
    { id := "end", type := .finish }]
  edges := [.between "start" "b", .between "b" "x", (Edge.between "b" "y").through "other",
    .between "x" "end", .between "y" "end"]
  distinct := by decide
  closed := by decide

def untakenWorkflow : Workflow Unit :=
  ⟨untaken, untaken.planFrom ⟨"start", "end", ["start", "b", "x", "y", "end"]⟩,
    untaken.makeSteps .idle⟩

theorem untaken_compile : untaken.compile .idle = .ok untakenWorkflow :=
  Graph.compile_of_plan (by decide +kernel) rfl

/-- A run of three rounds and a resume of two, the last of which is that of the released end. -/
theorem rounds_le_nodes_untaken :
    (∀ a, ¬ TransGen untakenWorkflow.plan.Leads a a) ∧
    untakenWorkflow.plainRun.rounds.map (·.executions.ids) = [["start"], ["b"], ["x"]] ∧
    untakenWorkflow.plainResume.rounds.map (·.executions.ids) = [["x"], ["end"]] ∧
    untakenWorkflow.plainRun.rounds.length ≤ untaken.nodes.length ∧
    untakenWorkflow.plainResume.rounds.length ≤ untaken.nodes.length ∧
    ∀ error, untakenWorkflow.plainRun.result = .error error →
      ∀ limit, error.root ≠ .stepLimitExceeded limit := by
  have hacyclic := (Graph.acyclic_iff (Graph.compile_eq_ok untaken_compile).1).2 (by decide)
  obtain ⟨c, hc, hload⟩ := Workflow.exists_checkpoint_plainRun (w := untakenWorkflow)
    (by decide +kernel) (by decide +kernel)
  have h := rounds_le_nodes untaken_compile hacyclic (τ := NameMap Checkpoint)
  refine ⟨hacyclic, by decide +kernel, by decide +kernel, h.1 .tenRounds "run" ∅ () ∅, ?_,
    h.2.2 .tenRounds "run" ∅ () ∅ (by decide)⟩
  exact h.2.1 "run" _ untakenWorkflow.plainRun (.run _ _ _ _) c hc .tenRounds "run" .null () _ hload

end Flowgraph
