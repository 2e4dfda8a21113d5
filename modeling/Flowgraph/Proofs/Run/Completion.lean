import Flowgraph.Proofs.Plan.Paths
import Flowgraph.Proofs.Run.Barriers

/-!
# What a completed run has done

A lineage that completes has run the end and collected its outputs, or it has come to a
standstill: a node that ran leads to a join that never will, and no source of the end's
join has run

    last.result = .ok (.completed run s) →
      (w.plan.exit ∈ ranIn rounds ∧ …) ∨ (… ∧ ∃ a j, w.Stalled rounds a j ∧ …)
                                                              (collected_or_stalled)

Between rounds (`HandedOn`) a node that has run has brought up what it leads to, except
for the joins that still wait.  So from the entry there is a way through nodes that
have run to the end or to such a join.  In `skippedJoin` it goes to a join.
-/

namespace Flowgraph

open Relation

variable {σ τ : Type}

/-! ## Nodes that have come up -/

/-- A node has run or is to run. -/
def Reached (completed frontier : NameSet) (n : String) : Prop := n ∈ completed ∨ n ∈ frontier

namespace Workflow

variable {w : Workflow σ} {id : String} {p : Progress} {frontier next : NameSet} {r : Round}

/-- Whoever was executed in a round that did not fail has run, or runs again. -/
theorem Went.reached {due : NameSet} {memory : σ} (h : w.Went p due memory r next) {n : String}
    (hn : n ∈ r.executions.ids) : Reached r.after.completed next n := by
  rcases Executions.ran_or_suspended h.noFailure hn with hran | hsusp
  · left
    rw [h.after]
    exact NameSet.mem_union.2 (.inl (NameSet.mem_ofList.2 hran))
  · exact .inr ((h.mem_next n).2 (.inl hsusp))

/-- A node that has come up stays up. -/
theorem Follows.reached (hr : w.Follows id p frontier r) (hnext : r.next? = some next) {n : String}
    (h : Reached p.completed frontier n) : Reached r.after.completed next n := by
  rcases h with hdone | hmem
  · exact .inl (hr.mem_completed.2 (.inr hdone))
  · obtain ⟨due, memory, hdue, hwent⟩ := hr.went hnext
    rcases due_cases hdue with ⟨rfl, -⟩ | ⟨-, rfl, -⟩
    · refine hwent.reached ?_
      rw [hwent.ids]
      exact hmem
    · exact absurd hmem NameSet.not_mem_empty

/-- The end has stored its outputs in the state. -/
theorem contains_outputs {c : EndConfig} (hend : w.steps.find? w.plan.exit = some c.step)
    (hr : w.Follows id p frontier r) (hran : w.plan.exit ∈ r.executions.ran) :
    r.after.state.contains "outputs" = true := by
  obtain ⟨due, now, memory, -, rfl⟩ := hr
  obtain ⟨v, hv⟩ := Executions.mem_ran.1 hran
  obtain ⟨e, he, hdone⟩ := Executions.mem_updates.1 hv
  obtain ⟨-, step, ctx, m, hstep, -, rfl⟩ := w.mem_executions id now p due memory he
  rw [hend] at hstep
  cases Option.some.inj hstep
  obtain ⟨fields, hattempt, hfield⟩ := c.attempt_step ctx p.state m
  rw [hattempt] at hdone
  cases hdone
  rw [w.state_after]
  exact State.contains_reduce_of_mem _ (List.mem_map.2 ⟨_, hv, rfl⟩) hfield

end Workflow

/-! ## Between rounds -/

/-- What holds between the rounds of a lineage. -/
structure HandedOn (w : Workflow σ) (past : List Round) (p : Progress) (frontier : NameSet) :
    Prop where
  entry : Reached p.completed frontier w.plan.entry
  executed : ∀ r ∈ past, ∀ n ∈ r.executions.ids, Reached p.completed frontier n
  /-- What a node leads to has come up, or waits for its join. -/
  all : ∀ a ∈ p.completed, ∀ targets, w.plan.routing.find? a = some (.all targets) →
    ∀ b ∈ targets, Reached p.completed frontier b ∨ w.plan.isReady p.completed b = false
  choice : ∀ a ∈ p.completed, ∀ handles, w.plan.routing.find? a = some (.choice handles) →
    ∃ b ∈ handles.values, Reached p.completed frontier b
  outputs : w.plan.exit ∈ p.completed → p.state.contains "outputs" = true

namespace HandedOn

variable {g : Graph} {w : Workflow σ} {id : String} {past : List Round} {p : Progress}
  {frontier : NameSet}

theorem all_round (hplan : g.plan = .ok w.plan) (h : HandedOn w past p frontier) {r : Round}
    {next : NameSet} (hr : w.Follows id p frontier r) (hnext : r.next? = some next) {a b : String}
    (ha : a ∈ r.after.completed) {targets : NameSet}
    (hrouting : w.plan.routing.find? a = some (.all targets)) (hb : b ∈ targets) :
    Reached r.after.completed next b ∨ w.plan.isReady r.after.completed b = false := by
  obtain ⟨due, memory, -, hwent⟩ := hr.went hnext
  cases hready : w.plan.isReady r.after.completed b with
  | false => exact .inr rfl
  | true =>
    left
    rcases hr.mem_completed.1 ha with hran | hdone
    · exact .inr (hwent.mem_next_of_all hran hrouting hb hready)
    · rcases h.all a hdone targets hrouting b hb with hreached | hwaits
      · exact hr.reached hnext hreached
      · -- the source that was missing has just run, and leads to all its targets
        obtain ⟨sources, hj, s, hs, hmissing⟩ := Plan.isReady_eq_false_iff.1 hwaits
        have hran : s ∈ r.executions.ran :=
          (hr.mem_completed.1 (Plan.isReady_iff.1 hready sources hj s hs)).resolve_right hmissing
        obtain ⟨-, rfl, -⟩ := (Graph.joins_find?_iff hplan).1 hj
        obtain ⟨targets', hrouting', hmem⟩ := Graph.targets_of_source hplan hs
        exact .inr (hwent.mem_next_of_all hran hrouting' hmem hready)

theorem round (hplan : g.plan = .ok w.plan) {c : EndConfig}
    (hend : w.steps.find? w.plan.exit = some c.step) (h : HandedOn w past p frontier) {r : Round}
    {next : NameSet} {s : State} (hr : w.Follows id p frontier r) (hnext : r.next? = some next)
    (hstate : ∀ key, r.after.state.contains key = true → s.contains key = true) :
    HandedOn w (past ++ [r]) { r.after with state := s } next where
  entry := hr.reached hnext h.entry
  executed := by
    intro r' hr' n hn
    rcases List.mem_append.1 hr' with hpast | hlast
    · exact hr.reached hnext (h.executed r' hpast n hn)
    · rw [List.mem_singleton.1 hlast] at hn
      obtain ⟨due, memory, -, hwent⟩ := hr.went hnext
      exact hwent.reached hn
  all := fun a ha targets hrouting b hb => h.all_round hplan hr hnext ha hrouting hb
  choice := by
    intro a ha handles hrouting
    rcases hr.mem_completed.1 ha with hran | hdone
    · obtain ⟨due, memory, -, hwent⟩ := hr.went hnext
      obtain ⟨b, hb, hmem⟩ := hwent.mem_next_of_choice hran hrouting
      exact ⟨b, hb, .inr hmem⟩
    · obtain ⟨b, hb, hreached⟩ := h.choice a hdone handles hrouting
      exact ⟨b, hb, hr.reached hnext hreached⟩
  outputs := by
    intro hexit
    refine hstate "outputs" ?_
    rcases hr.mem_completed.1 hexit with hran | hdone
    · exact w.contains_outputs hend hr hran
    · exact hr.contains_after (h.outputs hdone)

end HandedOn

theorem Passed.handedOn {g : Graph} {w : Workflow σ} {id : String} {past : List Round}
    {p : Progress} {frontier : NameSet} (hplan : g.plan = .ok w.plan) {c : EndConfig}
    (hend : w.steps.find? w.plan.exit = some c.step) (h : Passed w id past p frontier) :
    HandedOn w past p frontier := by
  refine h.along (I := HandedOn w) ?_
    (fun past p frontier r next s _ ih hr hnext hstate => ih.round hplan hend hr hnext hstate)
  intro initial
  exact {
    entry := .inr (NameSet.mem_singleton.2 rfl)
    executed := fun r hr => absurd hr List.not_mem_nil
    all := fun a ha => absurd ha NameSet.not_mem_empty
    choice := fun a ha => absurd ha NameSet.not_mem_empty
    outputs := fun hexit => absurd hexit NameSet.not_mem_empty }

/-! ## Standstills -/

/-- A node has run, and one of its targets has not since it waits for its join. -/
structure Plan.Waiting (p : Plan) (completed : NameSet) (a j : String) : Prop where
  ran : a ∈ completed
  target : ∃ targets, p.routing.find? a = some (.all targets) ∧ j ∈ targets
  new : j ∉ completed
  waits : p.isReady completed j = false

namespace Plan.Waiting

variable {g : Graph} {p : Plan} {completed : NameSet} {a j : String}

theorem leads (h : p.Waiting completed a j) : p.Leads a j := by
  obtain ⟨targets, hrouting, hj⟩ := h.target
  exact ⟨_, hrouting, hj⟩

/-- What waits for the end, where no source of the end's join has run, is a leaf. -/
theorem isLeaf (hplan : g.plan = .ok p) (h : p.Waiting completed a p.exit)
    (hsources : ∀ sources, p.joins.find? p.exit = some sources → ∀ n ∈ sources, n ∉ completed) :
    g.IsLeaf a := by
  rcases Graph.leads_cases hplan h.leads with ⟨e, he, rfl, ht⟩ | ⟨hleaf, -⟩
  · -- an edge would make the node a source of the end's join
    exfalso
    obtain ⟨sources, hjoin, -⟩ := Plan.isReady_eq_false_iff.1 h.waits
    obtain ⟨targets, hrouting, -⟩ := h.target
    refine hsources sources hjoin e.source ?_ h.ran
    obtain ⟨-, rfl, -⟩ := (Graph.joins_find?_iff hplan).1 hjoin
    exact Graph.mem_staticSources.2 ⟨⟨e, he, rfl, ht⟩, Graph.isConditionalId_of_all hplan hrouting⟩
  · exact hleaf

end Plan.Waiting

/-- Where nothing is to run and the end has not run, a way from a node that has run stops before a join
that waits. -/
theorem HandedOn.exists_waiting {g : Graph} {w : Workflow σ} {past : List Round} {p : Progress}
    (hplan : g.plan = .ok w.plan) (hexit : ∀ e ∈ g.edges, e.source ≠ w.plan.exit)
    (h : HandedOn w past p ∅) (hnot : w.plan.exit ∉ p.completed) (n : String) (hn : n ∈ g.ids)
    (hran : n ∈ p.completed) : ∃ a j, w.plan.Waiting p.completed a j := by
  -- by induction on how far the node is from the end in rank
  induction hk : w.plan.rank w.plan.exit - w.plan.rank n using Nat.strongRecOn generalizing n with
  | ind k ih =>
    have hne : n ≠ w.plan.exit := by
      rintro rfl
      exact hnot hran
    have hon : ∀ b, w.plan.Leads n b → b ∈ p.completed → ∃ a j, w.plan.Waiting p.completed a j := by
      intro b hl hb
      have hlt := Graph.rank_lt hplan hexit hl
      have hbelow := Plan.rank_lt_exit hne
      exact ih _ (by omega) b (Graph.mem_ids_of_leads hplan hl) hb rfl
    obtain ⟨b, routing, hrouting, hb⟩ := Graph.leads_of_ne_exit hplan hn hne
    cases routing with
    | choice handles =>
      obtain ⟨c, hc, hreached⟩ := h.choice n hran handles hrouting
      exact hon c ⟨_, hrouting, hc⟩ (hreached.resolve_right NameSet.not_mem_empty)
    | all targets =>
      by_cases hdone : b ∈ p.completed
      · exact hon b ⟨_, hrouting, hb⟩ hdone
      · rcases h.all n hran targets hrouting b hb with (hb' | hb') | hwaits
        · exact absurd hb' hdone
        · exact absurd hb' NameSet.not_mem_empty
        · exact ⟨n, b, hran, ⟨targets, hrouting, hb⟩, hdone, hwaits⟩

/-- A node has run and leads to another that was never executed, since a source of its join has not
run. -/
structure Workflow.Stalled (w : Workflow σ) (rounds : List Round) (a j : String) : Prop where
  ran : a ∈ ranIn rounds
  leads : w.plan.Leads a j
  skipped : ∀ r ∈ rounds, j ∉ r.executions.ids
  missing : ¬ w.Waited rounds j

theorem HandedOn.stalled {w : Workflow σ} {id : String} {rounds : List Round} {p : Progress}
    (h : HandedOn w rounds p ∅) (hp : Passed w id rounds p ∅) {a j : String}
    (hwaiting : w.plan.Waiting p.completed a j) : w.Stalled rounds a j where
  ran := (hp.mem_completed a).1 hwaiting.ran
  leads := hwaiting.leads
  skipped := fun r hr hmem => (h.executed r hr j hmem).elim hwaiting.new NameSet.not_mem_empty
  missing := by
    obtain ⟨sources, hjoin, n, hn, hmissing⟩ := Plan.isReady_eq_false_iff.1 hwaiting.waits
    exact fun hwaited => hmissing ((hp.mem_completed n).2 (hwaited sources hjoin n hn))

/-- In a workflow whose routes do not come back and whose end is the built-in step, a lineage that
completes has run the end, and its outputs are in the final state; or it never executed the end, no
source of the end's join has run, and it has come to a standstill before a join, which is the end only
for a step without edges that leads there. -/
theorem Workflow.collected_or_stalled {g : Graph} {reg : Registry σ} {w : Workflow σ}
    (hc : g.compile reg = .ok w) (hacyclic : ∀ a, ¬ TransGen w.plan.Leads a a) {c : EndConfig}
    (hend : w.steps.find? w.plan.exit = some c.step) {id : String} {rounds : List Round}
    {last : Call σ τ} (hl : Lineage w id rounds last) {run : String} {s : State}
    (hresult : last.result = .ok (.completed run s)) :
    (w.plan.exit ∈ ranIn rounds ∧ s.contains "outputs" = true) ∨
      ((∀ r ∈ rounds, w.plan.exit ∉ r.executions.ids) ∧
        (∀ sources, w.plan.joins.find? w.plan.exit = some sources → ∀ n ∈ sources, n ∉ ranIn rounds) ∧
        ∃ a j, w.Stalled rounds a j ∧ (j = w.plan.exit → g.IsLeaf a)) := by
  have hplan := (Graph.compile_eq_ok hc).1
  obtain ⟨p, frontier, hp, hnone, rfl⟩ := hl.completed hresult
  obtain ⟨rfl, hreleased⟩ := dueFrontier?_eq_none_iff.1 hnone
  have hon := hp.handedOn hplan hend
  by_cases hexit : w.plan.exit ∈ p.completed
  · exact .inl ⟨(hp.mem_completed _).1 hexit, hon.outputs hexit⟩
  · right
    have hsources : ∀ sources, w.plan.joins.find? w.plan.exit = some sources →
        ∀ n ∈ sources, n ∉ p.completed := by
      intro sources hj n hn hran
      have hsome := Plan.releasedExit?_eq_some_iff.2 ⟨rfl, hexit, sources, hj, n, hn, hran⟩
      rw [hreleased] at hsome
      cases hsome
    obtain ⟨a, j, hwaiting⟩ :=
      hon.exists_waiting hplan ((Graph.acyclic_iff hplan).1 hacyclic) hexit w.plan.entry
        (Graph.entry_mem_ids hplan) (hon.entry.resolve_right NameSet.not_mem_empty)
    refine ⟨?_, ?_, a, j, hon.stalled hp hwaiting, ?_⟩
    · exact fun r hr hmem => (hon.executed r hr _ hmem).elim hexit NameSet.not_mem_empty
    · exact fun sources hj n hn hran => hsources sources hj n hn ((hp.mem_completed n).2 hran)
    · rintro rfl
      exact hwaiting.isLeaf hplan hsources

/-! ## Branches that leave a source out -/

/-- The built-in steps, with branches that take no condition, and tasks that write what they gave. -/
def Registry.tasks : Registry Unit :=
  (Registry.builtin fun _ _ => .ok false).register (.step "task") fun _ =>
    .ok (.pure fun ctx _ => .update [(ctx.key "output", .ofWord 1)])

/-- A branch before one of the two sources of the end. -/
def skippedSource : Graph where
  nodes := [{ id := "start", type := .start }, { id := "b", type := .branch },
    { id := "x", type := .step "task" }, { id := "y", type := .step "task" },
    { id := "end", type := .finish }]
  edges := [.between "start" "b", .between "b" "x", (Edge.between "b" "y").through "other",
    .between "x" "end", .between "y" "end"]
  distinct := by decide
  closed := by decide

def skippedSourceWorkflow : Workflow Unit :=
  ⟨skippedSource, skippedSource.planFrom ⟨"start", "end", ["start", "b", "x", "y", "end"]⟩,
    skippedSource.makeSteps .tasks⟩

theorem skippedSource_compile : skippedSource.compile .tasks = .ok skippedSourceWorkflow :=
  Graph.compile_of_plan (by decide +kernel) rfl

/-- A run that completes after the end was released. -/
theorem collected_or_stalled_skippedSource :
    (∀ a, ¬ TransGen skippedSourceWorkflow.plan.Leads a a) ∧
    ∃ s, skippedSourceWorkflow.plainRun.result = .ok (.completed "run" s) ∧
      ("end" ∈ ranIn skippedSourceWorkflow.plainRun.rounds ∧ s.contains "outputs" = true) := by
  have hacyclic := (Graph.acyclic_iff (Graph.compile_eq_ok skippedSource_compile).1).2 (by decide)
  obtain ⟨s, hresult⟩ : ∃ s, skippedSourceWorkflow.plainRun.result = .ok (.completed "run" s) :=
    ⟨.ofFields [("b_decision", .str "default"), ("end_outputs", .obj []), ("outputs", .obj []),
      ("x_output", .ofWord 1)], by decide +kernel⟩
  refine ⟨hacyclic, s, hresult, ?_⟩
  have hend : skippedSourceWorkflow.steps.find? skippedSourceWorkflow.plan.exit =
      some (EndConfig.step {}) := by
    rfl
  refine (Workflow.collected_or_stalled skippedSource_compile hacyclic hend
    (.run .tenRounds ∅ () ∅) hresult).resolve_right ?_
  rintro ⟨hskipped, -⟩
  revert hskipped
  decide +kernel

/-- A branch before one of the two sources of a join other than the end. -/
def skippedJoin : Graph where
  nodes := [{ id := "start", type := .start }, { id := "b", type := .branch },
    { id := "x", type := .step "task" }, { id := "y", type := .step "task" },
    { id := "j", type := .step "task" }, { id := "end", type := .finish }]
  edges := [.between "start" "b", .between "b" "x", (Edge.between "b" "y").through "other",
    .between "x" "j", .between "y" "j", .between "j" "end"]
  distinct := by decide
  closed := by decide

def skippedJoinWorkflow : Workflow Unit :=
  ⟨skippedJoin, skippedJoin.planFrom ⟨"start", "end", ["start", "b", "x", "y", "j", "end"]⟩,
    skippedJoin.makeSteps .tasks⟩

/-- A run can complete without the end. -/
theorem not_collected_skippedJoin :
    skippedJoin.compile .tasks = .ok skippedJoinWorkflow ∧
      (∀ a, ¬ TransGen skippedJoinWorkflow.plan.Leads a a) ∧
      skippedJoinWorkflow.steps.find? skippedJoinWorkflow.plan.exit = some (EndConfig.step {}) ∧
      Lineage skippedJoinWorkflow "run" skippedJoinWorkflow.plainRun.rounds
        skippedJoinWorkflow.plainRun ∧
      ∃ s, skippedJoinWorkflow.plainRun.result = .ok (.completed "run" s) ∧
        (∀ r ∈ skippedJoinWorkflow.plainRun.rounds, "end" ∉ r.executions.ids) ∧
        s.contains "outputs" = false := by
  have hc : skippedJoin.compile .tasks = .ok skippedJoinWorkflow :=
    Graph.compile_of_plan (by decide +kernel) rfl
  refine ⟨hc, (Graph.acyclic_iff (Graph.compile_eq_ok hc).1).2 (by decide), rfl, .run _ _ _ _,
    .ofFields [("b_decision", .str "default"), ("x_output", .ofWord 1)], ?_, ?_, ?_⟩
  · decide +kernel
  · decide +kernel
  · decide

end Flowgraph
