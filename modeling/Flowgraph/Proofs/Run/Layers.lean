import Flowgraph.Proofs.Run.Dataflow
import Flowgraph.Proofs.Run.Length
import Mathlib.Order.Bounds.Defs

/-!
# Layers

In a graph in which no node chooses, and which no edge leaves the end of, a run in which
every execution gives an update goes layer by layer: a node runs in the round whose
number is that of the nodes on a longest path to it, and the end runs last and alone
                                                                         (layered_run)

Between rounds (`Layered`) those nodes have run to which no path is longer than the
rounds there have been.  A node runs in the round before which such a path still existed
(`Layered.longestPath`), and the end runs alone in the last one since any other node would
lead on to a node that is ready (`Went.eq_exit`).
-/

namespace Flowgraph

open Relation Runner

variable {σ τ : Type}

/-! ## Longest paths -/

/-- A longest path from the entry to a node has a number of nodes. -/
def Plan.LongestPath (p : Plan) (n : String) (k : Nat) : Prop :=
  IsGreatest {k | ∃ l, p.IsPath p.entry n l ∧ l.length = k} k

/-- Every node but the end is on a path from the entry. -/
theorem Graph.Dataflow.exists_isPath {g : Graph} {p : Plan} (h : g.Dataflow p) (n : String)
    (hn : n ∈ g.ids) (hexit : n ≠ p.exit) : ∃ l, p.IsPath p.entry n l := by
  refine induct_sources h.plan h.exit (P := fun n => ∃ l, p.IsPath p.entry n l) ?_ n hn hexit
  intro n hn hexit hsources
  by_cases hentry : n = p.entry
  · rw [hentry]
    exact ⟨[p.entry], p.isPath_singleton p.entry⟩
  · obtain ⟨node, hnode, rfl⟩ := List.mem_map.1 hn
    obtain ⟨e, he, ht⟩ := entered h.plan hnode hentry hexit
    obtain ⟨l, hl⟩ := hsources e he ht
    exact ⟨l ++ [node.id], hl.concat (ht ▸ h.leads_of_edge he)⟩

/-! ## Between rounds -/

variable {g : Graph} {w : Workflow σ} {id : String}

/-- What holds between rounds in which every execution gave an update. -/
structure Layered (g : Graph) (plan : Plan) (past : List Round) (p : Progress) : Prop where
  step : p.step = UInt64.ofNat past.length
  /-- A node has run if no path to it is longer than the rounds before. -/
  mem_completed : ∀ n, n ≠ plan.exit → (n ∈ p.completed ↔ n ∈ g.ids ∧
    ∀ l, plan.IsPath plan.entry n l → l.length ≤ past.length)

namespace Layered

variable {past : List Round} {p : Progress} {frontier next : NameSet} {memory : σ} {r : Round}

theorem entry (hg : g.Dataflow w.plan) (initial : State) :
    Layered g w.plan [] { state := initial } := by
  refine ⟨rfl, fun n hexit => iff_of_false NameSet.not_mem_empty ?_⟩
  rintro ⟨hn, hpaths⟩
  obtain ⟨l, hl⟩ := hg.exists_isPath n hn hexit
  exact hl.ne_nil (List.length_eq_zero_iff.1 (Nat.le_zero.1 (hpaths l hl)))

theorem mem_completed_round (hg : g.Dataflow w.plan) (hflow : Flow g w.plan past p frontier)
    (h : Layered g w.plan past p)
    (hcompleted : ∀ n, n ∈ r.after.completed ↔ n ∈ frontier ∨ n ∈ p.completed) (n : String)
    (hn : n ≠ w.plan.exit) : n ∈ r.after.completed ↔ n ∈ g.ids ∧
      ∀ l, w.plan.IsPath w.plan.entry n l → l.length ≤ past.length + 1 := by
  rw [hcompleted n]
  constructor
  · rintro (hmem | hdone)
    · obtain ⟨hids, -, hsources⟩ := (hflow.mem_frontier n hn).1 hmem
      refine ⟨hids, fun l hl => ?_⟩
      rcases hl.eq_or_concat with ⟨-, rfl⟩ | ⟨m, b, rfl, hm, hleads⟩
      · rw [List.length_singleton]
        omega
      · rcases Graph.leads_cases hg.plan hleads with ⟨e, he, rfl, ht⟩ | ⟨-, hexit⟩
        · have hle := ((h.mem_completed _ (hg.exit e he)).1 (hsources e he ht)).2 m hm
          rw [List.length_append, List.length_singleton]
          omega
        · exact absurd hexit hn
    · obtain ⟨hids, hpaths⟩ := (h.mem_completed n hn).1 hdone
      exact ⟨hids, fun l hl => Nat.le_succ_of_le (hpaths l hl)⟩
  · rintro ⟨hids, hpaths⟩
    by_cases hdone : n ∈ p.completed
    · exact .inr hdone
    · refine .inl ((hflow.mem_frontier n hn).2 ⟨hids, hdone, fun e he ht => ?_⟩)
      -- a path to the source goes on to the node
      refine (h.mem_completed _ (hg.exit e he)).2 ⟨(g.closed e he).1, fun l hl => ?_⟩
      have hle := hpaths (l ++ [n]) (hl.concat (ht ▸ hg.leads_of_edge he))
      rw [List.length_append, List.length_singleton] at hle
      omega

/-- In the round after, a node runs to which a longest path has a node for every round. -/
theorem longestPath (hflow : Flow g w.plan past p frontier) (h : Layered g w.plan past p)
    (hafter : Layered g w.plan (past ++ [r]) r.after) {n : String} (hn : n ≠ w.plan.exit)
    (hmem : n ∈ frontier) (hran : n ∈ r.after.completed) :
    w.plan.LongestPath n (past.length + 1) := by
  obtain ⟨hids, hnew, -⟩ := (hflow.mem_frontier n hn).1 hmem
  have hpaths := ((hafter.mem_completed n hn).1 hran).2
  rw [List.length_append, List.length_singleton] at hpaths
  have hlong : ∃ l, w.plan.IsPath w.plan.entry n l ∧ past.length < l.length := by
    by_contra hnone
    refine hnew ((h.mem_completed n hn).2 ⟨hids, fun l hl => ?_⟩)
    exact Nat.not_lt.1 fun hlt => hnone ⟨l, hl, hlt⟩
  obtain ⟨l, hl, hlt⟩ := hlong
  refine ⟨⟨l, hl, Nat.le_antisymm (hpaths l hl) hlt⟩, ?_⟩
  rintro k ⟨m, hm, rfl⟩
  exact hpaths m hm

end Layered

/-! ## Rounds without a stop -/

section

variable {reg : Registry σ} {past : List Round} {p : Progress} {frontier : NameSet} {r : Round}

theorem Workflow.Follows.completed_of_updated (hc : g.compile reg = .ok w)
    (hg : g.Dataflow w.plan) (hp : Passed w id past p frontier) (hr : w.Follows id p frontier r)
    (hup : r.executions.Updated) (n : String) :
    n ∈ r.after.completed ↔ n ∈ frontier ∨ n ∈ p.completed := by
  rw [hr.mem_completed, hup.ran_eq_ids]
  refine or_congr_left ?_
  obtain ⟨due, now, memory, hdue, rfl⟩ := hr
  cases (hp.flow hg).due hg hdue
  rw [w.ids_round id now p frontier memory fun m hm => hp.staffed hc hdue hm, NameSet.mem_toList]

/-- Between rounds in which every execution gave an update the invariant holds. -/
theorem Passed.layered (hc : g.compile reg = .ok w) (hg : g.Dataflow w.plan)
    (h : Passed w id past p frontier) (hup : ∀ r ∈ past, r.executions.Updated) :
    Layered g w.plan past p := by
  refine h.along (I := fun past p _ => (∀ r ∈ past, r.executions.Updated) →
    Layered g w.plan past p) (fun initial _ => .entry hg initial) ?_ hup
  intro past p frontier r next s hp ih hr _ _ hup
  have hlayered := ih fun r' hr' => hup r' (List.mem_append_left _ hr')
  have hcompleted :=
    hr.completed_of_updated hc hg hp (hup r List.mem_concat_self)
  refine ⟨?_, fun n hn => ?_⟩
  · show r.after.step = _
    rw [hr.step_after, hlayered.step, List.length_append, List.length_singleton, UInt64.ofNat_add]
    rfl
  · rw [List.length_append, List.length_singleton]
    exact hlayered.mem_completed_round hg (hp.flow hg) hcompleted n hn

/-- Where every execution gave an update the run goes on. -/
theorem Workflow.Follows.ready_of_updated (hc : g.compile reg = .ok w) (hg : g.Dataflow w.plan)
    (hp : Passed w id past p frontier) (hr : w.Follows id p frontier r)
    (hup : r.executions.Updated) : ∃ next, r.verdict = .ready next := by
  obtain ⟨due, now, memory, hdue, rfl⟩ := hr
  cases hv : (w.round id now p due memory).1.verdict with
  | ready next => exact ⟨next, rfl⟩
  | suspended c =>
    obtain ⟨-, payload, hs⟩ := w.checkpoint_of_round id now p due memory hv
    rw [hup.suspensions_eq_nil] at hs
    cases hs
  | failed error =>
    exfalso
    rcases w.error_of_round id now p due memory hv with
      ⟨n, hn, -⟩ | hfailure | ⟨source, -, n, -, hroute⟩
    · obtain ⟨step, hstep⟩ := hp.staffed hc hdue (List.mem_of_find?_eq_some hn)
      have hnone := List.find?_some hn
      rw [hstep] at hnone
      cases hnone
    · rw [hup.failure?_eq_none] at hfailure
      cases hfailure
    · exact hg.route_ne_error _ _ hroute

/-- A node is executed in the round whose number is that of the nodes on a longest path to it. -/
theorem Workflow.Follows.longestPath (hc : g.compile reg = .ok w) (hg : g.Dataflow w.plan)
    (hp : Passed w id past p frontier) (hr : w.Follows id p frontier r)
    (hup : ∀ r' ∈ past ++ [r], r'.executions.Updated) (hsize : past.length + 1 < UInt64.size) {n : String}
    (hn : n ≠ w.plan.exit) (hmem : n ∈ r.executions.ids) :
    w.plan.LongestPath n r.number.toNat := by
  have hlast := hup r List.mem_concat_self
  have hlayered := hp.layered hc hg fun r' hr' => hup r' (List.mem_append_left _ hr')
  obtain ⟨next, hv⟩ := hr.ready_of_updated hc hg hp hlast
  have hafter := (hp.ready hr hv).layered hc hg hup
  have hran : n ∈ r.after.completed := by
    rw [hr.mem_completed, hlast.ran_eq_ids]
    exact .inl hmem
  have hnumber : r.number.toNat = past.length + 1 := by
    have hword : r.number = UInt64.ofNat (past.length + 1) := by
      rw [hr.number, hlayered.step, UInt64.ofNat_add]
      rfl
    rw [hword]
    exact UInt64.toNat_ofNat_of_lt hsize
  rw [hnumber]
  exact hlayered.longestPath (hp.flow hg) hafter hn ((hp.mem_executed hc hr hn).1 hmem) hran

/-- After rounds with nothing left to run, every node has run. -/
theorem Passed.mem_ranIn_of_done (hg : g.Dataflow w.plan) (h : Passed w id past p frontier)
    (hnone : w.dueFrontier? p.completed frontier = none) {n : String} (hn : n ∈ g.ids) :
    n ∈ ranIn past := by
  rw [← h.mem_completed n]
  refine (h.flow hg).completed hg (fun m => ?_) n hn
  rw [(Workflow.dueFrontier?_eq_none_iff.1 hnone).1]
  exact NameSet.not_mem_empty

/-- A round after which every node has run and none is to run has run no node but the end. -/
theorem Workflow.Went.eq_exit (hg : g.Dataflow w.plan) {due : NameSet} {memory : σ}
    (h : w.Went p due memory r ∅) (hup : r.executions.Updated)
    (hall : ∀ n ∈ g.ids, n ∈ r.after.completed) {n : String} (hn : n ∈ g.ids) (hmem : n ∈ due) :
    n = w.plan.exit := by
  by_contra hexit
  -- another node leads on to a node that is ready now
  obtain ⟨b, hleads⟩ := Graph.leads_of_ne_exit hg.plan hn hexit
  have hran : n ∈ r.executions.ran := by
    rw [hup.ran_eq_ids, h.ids]
    exact hmem
  have hready : w.plan.isReady r.after.completed b = true :=
    hg.isReady_of_sources fun e he _ => hall _ (g.closed e he).1
  exact NameSet.not_mem_empty ((hg.mem_next h b).2 (.inr ⟨n, hran, hleads, hready⟩))

/-- The end alone is executed in the last round, after all other nodes. -/
theorem Passed.exit_last (hc : g.compile reg = .ok w) (hg : g.Dataflow w.plan) {rounds : List Round}
    (h : Passed w id rounds p frontier) (hnone : w.dueFrontier? p.completed frontier = none)
    (hup : ∀ r ∈ rounds, r.executions.Updated) :
    ∃ before final, rounds = before ++ [final] ∧ final.executions.ids = [w.plan.exit] ∧
      ∀ n ∈ g.ids, n ≠ w.plan.exit → n ∈ ranIn before := by
  have hall : ∀ n ∈ g.ids, n ∈ ranIn rounds := fun n hn => h.mem_ranIn_of_done hg hnone hn
  obtain ⟨rfl, -⟩ := Workflow.dueFrontier?_eq_none_iff.1 hnone
  rcases List.eq_nil_or_concat rounds with rfl | ⟨before, final, rfl⟩
  · cases hall w.plan.exit (Graph.exit_mem_ids hg.plan)
  · rw [List.concat_eq_append] at h hall hup ⊢
    have hlast := hup final List.mem_concat_self
    obtain ⟨hnext, q, f, hq, hr⟩ := h.last
    obtain ⟨due, memory, hdue, hwent⟩ := hr.went hnext
    cases (hq.flow hg).due hg hdue
    have honly : ∀ n ∈ f, n = w.plan.exit := fun n hn => hwent.eq_exit hg hlast
      (fun m hm => (hq.mem_completed_after hr m).2 (hall m hm)) (hq.mem_ids hc hn) hn
    have hf : f = .singleton w.plan.exit := by
      rcases Workflow.due_cases hdue with ⟨-, n, hn⟩ | ⟨hf, -⟩
      · refine NameSet.ext fun m => ⟨fun hm => NameSet.mem_singleton.2 (honly m hm), fun hm => ?_⟩
        rw [NameSet.mem_singleton.1 hm, ← honly n hn]
        exact hn
      · exact hf
    have hids : final.executions.ids = [w.plan.exit] := by
      rw [hwent.ids, hf]
      rfl
    refine ⟨before, final, rfl, hids, fun n hn hexit => ?_⟩
    refine (mem_ranIn_append.1 (hall n hn)).resolve_right fun hran => hexit ?_
    rw [hlast.ran_eq_ids, hids] at hran
    exact List.mem_singleton.1 hran

/-- Where every execution gave an update, those that were executed ran. -/
theorem ids_eq_ranIn {rounds : List Round} (hup : ∀ r ∈ rounds, r.executions.Updated) :
    rounds.flatMap (·.executions.ids) = ranIn rounds :=
  List.flatMap_congr fun r hr => (hup r hr).ran_eq_ids.symm

end

/-! ## Runs -/

section

variable {reg : Registry σ} (r : Runner τ) (initial : State) (memory : σ) (content : τ)

/-- A run within its limit in which every execution gave an update completes. -/
theorem completed_run (hc : g.compile reg = .ok w) (hg : g.Dataflow w.plan)
    (hlimit : g.nodes.length ≤ r.maxSteps.toNat)
    (hup : ∀ round ∈ (r.run w id initial memory content).rounds, round.executions.Updated) :
    ∃ s, (r.run w id initial memory content).result = .ok (.completed id s) := by
  rcases r.completed_or_stopped w id initial memory content with
    hdone | ⟨before, last, hrounds, hstopped⟩ | ⟨s, hresult⟩
  · exact hdone
  · have hl : Lineage w id (r.run w id initial memory content).rounds
        (r.run w id initial memory content) := .run r initial memory content
    obtain ⟨p, frontier, hp, hr⟩ := hl.passed hrounds
    have hlast : last.executions.Updated := by
      refine hup last ?_
      rw [hrounds]
      exact List.mem_concat_self
    obtain ⟨next, hv⟩ := hr.ready_of_updated hc hg hp hlast
    exact absurd hv (hstopped next)
  · exact absurd rfl (root_ne_stepLimit_run hg.plan ((Graph.acyclic_iff hg.plan).2 hg.exit) r id
      initial memory content hlimit hresult r.maxSteps)

/-- A run, within a limit of at least the number of nodes, of a graph in which no node chooses and
which no edge leaves the end of, each of whose executions gives an update: it completes; every node
other than the end is executed once, in the round whose number is that of the nodes on a longest path
to it; and the last round executes the end alone, after all other nodes. -/
theorem layered_run (hc : g.compile reg = .ok w)
    (hstatic : ∀ n ∈ g.nodes, n.type.isConditional = false)
    (hend : ∀ e ∈ g.edges, e.source ≠ w.plan.exit) (hlimit : g.nodes.length ≤ r.maxSteps.toNat)
    (hup : ∀ round ∈ (r.run w id initial memory content).rounds, ∀ e ∈ round.executions,
      ∃ v, e.2.attempt = .done (.update v)) :
    (∃ s, (r.run w id initial memory content).result = .ok (.completed id s)) ∧
    (∀ n ∈ g.ids, n ≠ w.plan.exit →
      ((r.run w id initial memory content).rounds.flatMap (·.executions.ids)).count n = 1 ∧
      ∃ round ∈ (r.run w id initial memory content).rounds, n ∈ round.executions.ids ∧
        w.plan.LongestPath n round.number.toNat) ∧
    ∃ before final, (r.run w id initial memory content).rounds = before ++ [final] ∧
      final.executions.ids = [w.plan.exit] ∧
      ∀ n ∈ g.ids, n ≠ w.plan.exit → n ∈ ranIn before := by
  have hg : g.Dataflow w.plan := ⟨(Graph.compile_eq_ok hc).1, hstatic, hend⟩
  obtain ⟨s, hresult⟩ := completed_run r initial memory content hc hg hlimit hup
  have hl : Lineage w id (r.run w id initial memory content).rounds
      (r.run w id initial memory content) := .run r initial memory content
  obtain ⟨p, frontier, hp, hnone, -⟩ := hl.completed hresult
  refine ⟨⟨s, hresult⟩, fun n hn hexit => ?_, hp.exit_last hc hg hnone hup⟩
  have hran := hp.mem_ranIn_of_done hg hnone hn
  constructor
  · rw [ids_eq_ranIn hup]
    exact Nat.le_antisymm ((hp.flow hg).once n hexit) (List.count_pos_iff.2 hran)
  · obtain ⟨round, hround, hmem⟩ := List.mem_flatMap.1 hran
    have hids := Executions.mem_ids_of_ran hmem
    refine ⟨round, hround, hids, ?_⟩
    obtain ⟨past, rest, hrounds⟩ := List.append_of_mem hround
    obtain ⟨q, f, hq, hr⟩ := hl.passed hrounds
    have hsize : past.length + 1 < UInt64.size := by
      have hle := length_rounds_run hg.plan ((Graph.acyclic_iff hg.plan).2 hg.exit) r id initial memory
        content
      have hlt := r.maxSteps.toNat_lt_size
      rw [hrounds, List.length_append, List.length_cons] at hle
      omega
    refine hr.longestPath hc hg hq (fun r' hr' => hup r' ?_) hsize hexit hids
    rw [hrounds, List.append_cons]
    exact List.mem_append_left _ hr'

end

/-- A node with a short and a long path to it, and a step without edges beside them. -/
def uneven : Graph where
  nodes := [{ id := "start", type := .start }, { id := "a", type := .step "task" },
    { id := "b", type := .step "task" }, { id := "c", type := .step "task" },
    { id := "j", type := .step "task" }, { id := "end", type := .finish }]
  edges := [.between "start" "a", .between "start" "c", .between "start" "j", .between "a" "b",
    .between "b" "j", .between "j" "end"]
  distinct := by decide
  closed := by decide

def unevenWorkflow : Workflow Unit :=
  ⟨uneven, uneven.planFrom ⟨"start", "end", ["start", "a", "b", "c", "j", "end"]⟩,
    uneven.makeSteps .idle⟩

theorem uneven_compile : uneven.compile .idle = .ok unevenWorkflow :=
  Graph.compile_of_plan (by decide +kernel) rfl

/-- A run of five rounds that executes the end twice. -/
theorem layered_run_uneven :
    unevenWorkflow.plainRun.rounds.map (·.executions.ids) =
      [["start"], ["a", "c"], ["b", "end"], ["j"], ["end"]] ∧
    (∃ s, unevenWorkflow.plainRun.result = .ok (.completed "run" s)) ∧
    (∀ n ∈ uneven.ids, n ≠ unevenWorkflow.plan.exit →
      (unevenWorkflow.plainRun.rounds.flatMap (·.executions.ids)).count n = 1 ∧
      ∃ round ∈ unevenWorkflow.plainRun.rounds, n ∈ round.executions.ids ∧
        unevenWorkflow.plan.LongestPath n round.number.toNat) ∧
    ∃ before final, unevenWorkflow.plainRun.rounds = before ++ [final] ∧
      final.executions.ids = [unevenWorkflow.plan.exit] ∧
      ∀ n ∈ uneven.ids, n ≠ unevenWorkflow.plan.exit → n ∈ ranIn before := by
  have hempty : ∀ round ∈ unevenWorkflow.plainRun.rounds, ∀ e ∈ round.executions,
      e.2.attempt = .done (.update (.object [])) := by
    decide +kernel
  exact ⟨by decide +kernel, layered_run .tenRounds ∅ () ∅ uneven_compile (by decide) (by decide)
    (by decide) fun round hround e he => ⟨_, hempty round hround e he⟩⟩

end Flowgraph
