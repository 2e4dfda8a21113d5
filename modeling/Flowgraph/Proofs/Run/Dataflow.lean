import Flowgraph.Proofs.Plan.Paths
import Flowgraph.Proofs.Run.Lineage

/-!
# Runs along the edges

A graph in which no node chooses, and which no edge leaves the end of, is run along its
edges.  In every lineage of it a node other than the end runs once, after all its
predecessors and on a state with everything they wrote, and a lineage that completes
has run every node                                                      (dataflow_lineage)

Between rounds (`Flow`) a node is to run exactly if it has not run and its predecessors
have.  So nothing is left to run only when every node has run (`Flow.completed`), and
the end is never released.
-/

namespace Flowgraph

/-- A planned graph in which no node chooses and no edge leaves the end. -/
structure Graph.Dataflow (g : Graph) (p : Plan) : Prop where
  plan : g.plan = .ok p
  static : ∀ n ∈ g.nodes, n.type.isConditional = false
  exit : ∀ e ∈ g.edges, e.source ≠ p.exit

/-! ## The graph -/

namespace Graph.Dataflow

variable {g : Graph} {p : Plan}

theorem leads_of_edge (h : g.Dataflow p) {e : Edge} (he : e ∈ g.edges) :
    p.Leads e.source e.target := by
  obtain ⟨n, hn, hid⟩ := List.mem_map.1 (g.closed e he).1
  obtain ⟨targets, hfind, hmem⟩ := targets_of_static h.plan hn (h.static n hn)
  rw [hid] at hfind
  exact ⟨_, hfind, (hmem e.target).2 (.inl ⟨e, he, hid.symm, rfl⟩)⟩

theorem ne_exit_of_leads (h : g.Dataflow p) {a b : String} (hl : p.Leads a b) : a ≠ p.exit := by
  rcases leads_cases h.plan hl with ⟨e, he, rfl, -⟩ | ⟨⟨⟨n, hn, rfl, hstep⟩, -⟩, -⟩
  · exact h.exit e he
  · intro heq
    obtain ⟨m, hm, hfinish, hid, -⟩ := exit_node h.plan
    rw [eq_of_id_eq hn hm (by rw [heq, hid]), hfinish] at hstep
    cases hstep

/-- Some node leads to the end. -/
theorem leads_exit (h : g.Dataflow p) : ∃ a, p.Leads a p.exit := by
  have hfrom : ∀ n, n ∈ g.ids → n ≠ p.exit → ∃ a, p.Leads a p.exit := by
    intro n hn hexit
    -- by induction on how far the node stands from the end of the order
    induction hk : p.order.length - p.order.idxOf n using Nat.strongRecOn generalizing n with
    | ind k ih =>
      obtain ⟨node, hnode, rfl⟩ := List.mem_map.1 hn
      rcases left_or_leaf h.plan hnode hexit with ⟨e, he, hs⟩ | hleaf
      · by_cases ht : e.target = p.exit
        · exact ⟨e.source, ht ▸ h.leads_of_edge he⟩
        · have hlt := order_lt h.plan he
          have hle : p.order.idxOf e.target ≤ p.order.length := List.idxOf_le_length
          rw [hs] at hlt
          exact ih _ (by omega) e.target (g.closed e he).2 ht rfl
      · exact ⟨_, leads_exit_of_leaf h.plan hleaf⟩
  exact hfrom p.entry (entry_mem_ids h.plan) (entry_ne_exit h.plan)

theorem mem_sources (h : g.Dataflow p) {n s : String} :
    s ∈ g.staticSources n ↔ ∃ e ∈ g.edges, e.source = s ∧ e.target = n := by
  rw [mem_staticSources]
  constructor
  · exact fun hs => hs.1
  · rintro ⟨e, he, rfl, rfl⟩
    refine ⟨⟨e, he, rfl, rfl⟩, ?_⟩
    obtain ⟨m, hm, hid⟩ := List.mem_map.1 (g.closed e he).1
    rw [← hid, isConditionalId_eq hm, h.static m hm]

/-- Where all predecessors have completed a node is ready. -/
theorem isReady_of_sources (h : g.Dataflow p) {completed : NameSet} {n : String}
    (hs : ∀ e ∈ g.edges, e.target = n → e.source ∈ completed) : p.isReady completed n = true := by
  refine Plan.isReady_iff.2 fun sources hj s hmem => ?_
  obtain ⟨-, rfl, -⟩ := (joins_find?_iff h.plan).1 hj
  obtain ⟨e, he, rfl, ht⟩ := h.mem_sources.1 hmem
  exact hs e he ht

/-- A node that is ready when one predecessor has completed is ready when all have. -/
theorem sources_of_isReady (h : g.Dataflow p) {completed : NameSet} {e : Edge} (he : e ∈ g.edges)
    (hs : e.source ∈ completed) (hready : p.isReady completed e.target = true) :
    ∀ f ∈ g.edges, f.target = e.target → f.source ∈ completed := by
  intro f hf ht
  have hfs : f.source ∈ g.staticSources e.target := h.mem_sources.2 ⟨f, hf, rfl, ht⟩
  have hes : e.source ∈ g.staticSources e.target := h.mem_sources.2 ⟨e, he, rfl, rfl⟩
  by_cases heq : f.source = e.source
  · rw [heq]
    exact hs
  · exact Plan.isReady_iff.1 hready _ (join_of_sources h.plan hfs hes heq) f.source hfs

theorem routing_all (h : g.Dataflow p) {a : String} {r : Routing}
    (hr : p.routing.find? a = some r) : ∃ targets, r = .all targets := by
  obtain ⟨n, hn, -, rfl⟩ := (routing_find?_iff h.plan).1 hr
  unfold routingOf
  rw [h.static n hn]
  exact ⟨_, rfl⟩

end Graph.Dataflow

variable {σ τ : Type} {g : Graph} {w : Workflow σ} {id : String}

/-- What is to run after a round is what asked for input, and what is ready among the nodes that
those which ran lead to. -/
theorem Graph.Dataflow.mem_next (h : g.Dataflow w.plan) {p : Progress} {frontier next : NameSet}
    {memory : σ} {r : Round} (hwent : w.Went p frontier memory r next) (b : String) :
    b ∈ next ↔ b ∈ r.executions.suspended ∨ ∃ a ∈ r.executions.ran,
      w.plan.Leads a b ∧ w.plan.isReady r.after.completed b = true := by
  constructor
  · intro hb
    refine ((hwent.mem_next b).1 hb).imp_right ?_
    rintro ⟨a, ha, targets, hroute, hb⟩
    refine ⟨a, ha, w.leads_of_route _ _ hroute hb, ?_⟩
    rcases w.mem_route _ _ hroute hb with ⟨ts, -, -, hready⟩ | ⟨handles, hchoice, -⟩
    · exact hready
    · obtain ⟨ts, hts⟩ := h.routing_all hchoice
      cases hts
  · rintro (hsusp | ⟨a, ha, ⟨routing, hfind, hmem⟩, hready⟩)
    · exact (hwent.mem_next b).2 (.inl hsusp)
    · obtain ⟨ts, rfl⟩ := h.routing_all hfind
      exact hwent.mem_next_of_all ha hfind hmem hready

/-- Where no node chooses, every node can be routed. -/
theorem Graph.Dataflow.route_ne_error (h : g.Dataflow w.plan) (p : Progress) (memory : σ)
    {n : String} {error : PlanError} : w.route p memory n ≠ .error error := by
  unfold Workflow.route
  split
  · exact nofun
  · exact nofun
  · rename_i handles hhandles
    obtain ⟨targets, htargets⟩ := h.routing_all hhandles
    cases htargets

/-! ## Between rounds -/

/-- An update of a node wrote a key in one of the rounds. -/
def Wrote (rounds : List Round) (n key : String) : Prop :=
  ∃ r ∈ rounds, ∃ fields v, (n, Json.obj fields) ∈ r.executions.updates ∧ (key, v) ∈ fields

/-- What holds between the rounds of a run along the edges. -/
structure Flow (g : Graph) (plan : Plan) (past : List Round) (p : Progress)
    (frontier : NameSet) : Prop where
  /-- A node is to run if it has not run and its predecessors have. -/
  mem_frontier : ∀ n, n ≠ plan.exit → (n ∈ frontier ↔ n ∈ g.ids ∧ n ∉ p.completed ∧
    ∀ e ∈ g.edges, e.target = n → e.source ∈ p.completed)
  sources : ∀ n ∈ p.completed, n ≠ plan.exit →
    ∀ e ∈ g.edges, e.target = n → e.source ∈ p.completed
  /-- The end is not passed over. -/
  exit : plan.exit ∈ p.completed ∨ plan.exit ∈ frontier ∨
    ∀ a ∈ p.completed, plan.Leads a plan.exit → plan.isReady p.completed plan.exit = false
  wrote : ∀ n key, Wrote past n key → p.state.contains key = true
  once : ∀ n, n ≠ plan.exit → (ranIn past).count n ≤ 1

namespace Flow

variable {past : List Round} {p : Progress} {frontier : NameSet}

/-- When nothing is left to run, every node has run. -/
theorem completed (hg : g.Dataflow w.plan) (h : Flow g w.plan past p frontier)
    (hempty : ∀ n, n ∉ frontier) : ∀ n ∈ g.ids, n ∈ p.completed := by
  have hothers : ∀ n ∈ g.ids, n ≠ w.plan.exit → n ∈ p.completed := by
    refine Graph.induct_sources hg.plan hg.exit fun n hn hexit hsources => ?_
    by_contra hnot
    exact hempty n ((h.mem_frontier n hexit).2 ⟨hn, hnot, hsources⟩)
  intro n hn
  by_cases hexit : n = w.plan.exit
  · rw [hexit]
    rcases h.exit with hdone | hmem | hwaits
    · exact hdone
    · exact absurd hmem (hempty _)
    · obtain ⟨a, ha⟩ := hg.leads_exit
      have hcompleted : a ∈ p.completed := by
        refine hothers a ?_ (hg.ne_exit_of_leads ha)
        rcases Graph.leads_cases hg.plan ha with ⟨e, he, rfl, -⟩ | ⟨⟨⟨m, hm, rfl, -⟩, -⟩, -⟩
        · exact (g.closed e he).1
        · exact List.mem_map_of_mem hm
      have hready : w.plan.isReady p.completed w.plan.exit = true :=
        hg.isReady_of_sources fun e he _ => hothers _ (g.closed e he).1 (hg.exit e he)
      rw [hwaits a hcompleted ha] at hready
      cases hready
  · exact hothers n hn hexit

theorem released (hg : g.Dataflow w.plan) (h : Flow g w.plan past p frontier)
    (hempty : frontier.isEmpty = true) : w.plan.releasedExit? p.completed = none := by
  rw [NameSet.isEmpty_eq_true_iff] at hempty
  have hexit := h.completed hg (fun n hn => NameSet.not_mem_empty (hempty ▸ hn)) w.plan.exit
    (Graph.exit_mem_ids hg.plan)
  unfold Plan.releasedExit?
  rw [if_pos hexit]

/-- What is due is the frontier: the end is never released. -/
theorem due (hg : g.Dataflow w.plan) (h : Flow g w.plan past p frontier) {due : NameSet}
    (hdue : w.dueFrontier? p.completed frontier = some due) : due = frontier := by
  unfold Workflow.dueFrontier? at hdue
  split at hdue
  · rename_i hempty
    rw [h.released hg hempty] at hdue
    cases hdue
  · exact (Option.some.inj hdue).symm

/-- Also a round that fails runs no node for the second time. -/
theorem once_round (hg : g.Dataflow w.plan) (hp : Passed w id past p frontier)
    (h : Flow g w.plan past p frontier) {r : Round} (hr : w.Follows id p frontier r) (n : String)
    (hn : n ≠ w.plan.exit) : (ranIn (past ++ [r])).count n ≤ 1 := by
  obtain ⟨due, now, memory, hdue, rfl⟩ := hr
  cases h.due hg hdue
  have hnodup := w.nodup_ids id now p frontier memory
  generalize hx : (w.round id now p frontier memory).1 = x at hnodup ⊢
  have hcount : (ranIn (past ++ [x])).count n =
      (ranIn past).count n + x.executions.ran.count n := by
    simp [ranIn, List.count_append]
  have hran : x.executions.ran.count n ≤ 1 :=
    List.nodup_iff_count.1 (hnodup.sublist x.executions.ran_sublist) n
  by_cases hmem : n ∈ x.executions.ran
  · have hfrontier : n ∈ frontier := by
      obtain ⟨e, he⟩ := Executions.mem_ids.1 (Executions.mem_ids_of_ran hmem)
      rw [← hx] at he
      exact (w.mem_executions id now p frontier memory he).1
    have hnew := ((h.mem_frontier n hn).1 hfrontier).2.1
    rw [hp.mem_completed n] at hnew
    rw [hcount, List.count_eq_zero_of_not_mem hnew]
    omega
  · have hold := h.once n hn
    rw [hcount, List.count_eq_zero_of_not_mem hmem]
    omega

theorem entry (hg : g.Dataflow w.plan) (initial : State) :
    Flow g w.plan [] { state := initial } (.singleton w.plan.entry) := by
  refine ⟨fun n hn => ?_, ?_, ?_, ?_, ?_⟩
  · rw [NameSet.mem_singleton]
    constructor
    · rintro rfl
      refine ⟨Graph.entry_mem_ids hg.plan, NameSet.not_mem_empty, fun e he ht => ?_⟩
      exact absurd ht (Graph.target_ne_entry hg.plan hg.exit he)
    · rintro ⟨hids, -, hsources⟩
      obtain ⟨node, hnode, rfl⟩ := List.mem_map.1 hids
      by_contra hentry
      obtain ⟨e, he, ht⟩ := Graph.entered hg.plan hnode hentry hn
      exact NameSet.not_mem_empty (hsources e he ht)
  · exact fun n hn => absurd hn NameSet.not_mem_empty
  · exact .inr (.inr fun a ha => absurd ha NameSet.not_mem_empty)
  · rintro n key ⟨r, hr, -⟩
    cases hr
  · intro n hn
    simp [ranIn]

theorem mem_frontier_round (hg : g.Dataflow w.plan) (h : Flow g w.plan past p frontier)
    {next : NameSet} {memory : σ} {r : Round} (hwent : w.Went p frontier memory r next)
    (hcompleted : ∀ n, n ∈ r.after.completed ↔ n ∈ r.executions.ran ∨ n ∈ p.completed) (n : String)
    (hn : n ≠ w.plan.exit) : n ∈ next ↔ n ∈ g.ids ∧ n ∉ r.after.completed ∧
      ∀ e ∈ g.edges, e.target = n → e.source ∈ r.after.completed := by
  have hids : ∀ m, m ∈ r.executions.ids ↔ m ∈ frontier := by
    intro m
    rw [hwent.ids, NameSet.mem_toList]
  have hran : ∀ m ∈ r.executions.ran, m ∈ frontier := fun m hm =>
    (hids m).1 (Executions.mem_ids_of_ran hm)
  have hnodup : r.executions.ids.Nodup := by
    rw [hwent.ids]
    exact frontier.nodup_toList
  rw [hg.mem_next hwent n]
  constructor
  · rintro (hsusp | ⟨a, ha, hleads, hready⟩)
    · obtain ⟨hmem, hnew, hsources⟩ :=
        (h.mem_frontier n hn).1 ((hids n).1 (Executions.mem_ids_of_suspended hsusp))
      refine ⟨hmem, fun hdone => ?_, fun e he ht => (hcompleted _).2 (.inr (hsources e he ht))⟩
      rcases (hcompleted n).1 hdone with hr | hc
      · exact Executions.not_suspended_of_ran hnodup hr hsusp
      · exact hnew hc
    · rcases Graph.leads_cases hg.plan hleads with ⟨e, he, rfl, rfl⟩ | ⟨-, rfl⟩
      · refine ⟨(g.closed e he).2, fun hdone => ?_, ?_⟩
        · -- the source has only just run, so the target cannot have
          have hsource : e.source ∉ p.completed :=
            ((h.mem_frontier _ (hg.exit e he)).1 (hran _ ha)).2.1
          rcases (hcompleted _).1 hdone with hr | hc
          · exact hsource (((h.mem_frontier _ hn).1 (hran _ hr)).2.2 e he rfl)
          · exact hsource (h.sources _ hc hn e he rfl)
        · exact hg.sources_of_isReady he ((hcompleted _).2 (.inl ha)) hready
      · exact absurd rfl hn
  · rintro ⟨hmem, hnew, hsources⟩
    have hold : n ∉ p.completed := fun hc => hnew ((hcompleted n).2 (.inr hc))
    by_cases hall : ∀ e ∈ g.edges, e.target = n → e.source ∈ p.completed
    · have hfrontier := (h.mem_frontier n hn).2 ⟨hmem, hold, hall⟩
      rcases Executions.ran_or_suspended hwent.noFailure ((hids n).2 hfrontier) with hr | hs
      · exact absurd ((hcompleted n).2 (.inl hr)) hnew
      · exact .inl hs
    · push Not at hall
      obtain ⟨e, he, rfl, hsource⟩ := hall
      rcases (hcompleted _).1 (hsources e he rfl) with hr | hc
      · exact .inr ⟨e.source, hr, hg.leads_of_edge he, hg.isReady_of_sources hsources⟩
      · exact absurd hc hsource

theorem exit_round (hg : g.Dataflow w.plan) (h : Flow g w.plan past p frontier)
    {next : NameSet} {memory : σ} {r : Round} (hwent : w.Went p frontier memory r next)
    (hcompleted : ∀ n, n ∈ r.after.completed ↔ n ∈ r.executions.ran ∨ n ∈ p.completed) :
    w.plan.exit ∈ r.after.completed ∨ w.plan.exit ∈ next ∨
      ∀ a ∈ r.after.completed, w.plan.Leads a w.plan.exit →
        w.plan.isReady r.after.completed w.plan.exit = false := by
  rcases h.exit with hdone | hmem | hwaits
  · exact .inl ((hcompleted _).2 (.inr hdone))
  · have hids : w.plan.exit ∈ r.executions.ids := by
      rw [hwent.ids]
      exact hmem
    rcases Executions.ran_or_suspended hwent.noFailure hids with hr | hs
    · exact .inl ((hcompleted _).2 (.inl hr))
    · exact .inr (.inl ((hg.mem_next hwent _).2 (.inl hs)))
  · right
    cases hready : w.plan.isReady r.after.completed w.plan.exit with
    | false => exact .inr fun _ _ _ => rfl
    | true =>
      by_cases hroute : ∃ a ∈ r.executions.ran, w.plan.Leads a w.plan.exit
      · obtain ⟨a, ha, hleads⟩ := hroute
        exact .inl ((hg.mem_next hwent _).2 (.inr ⟨a, ha, hleads, hready⟩))
      · -- no source of the end has just run, so it was ready before
        right
        intro a ha hleads
        rcases (hcompleted a).1 ha with hr | hc
        · exact absurd ⟨a, hr, hleads⟩ hroute
        · have hbefore : w.plan.isReady p.completed w.plan.exit = true := by
            refine Plan.isReady_iff.2 fun sources hj s hs => ?_
            rcases (hcompleted s).1 (Plan.isReady_iff.1 hready sources hj s hs) with hr | hc
            · obtain ⟨-, rfl, -⟩ := (Graph.joins_find?_iff hg.plan).1 hj
              obtain ⟨e, he, rfl, ht⟩ := hg.mem_sources.1 hs
              exact absurd ⟨e.source, hr, ht ▸ hg.leads_of_edge he⟩ hroute
            · exact hc
          rw [hwaits a hc hleads] at hbefore
          cases hbefore

theorem wrote_round (h : Flow g w.plan past p frontier) {next : NameSet} {memory : σ} {r : Round}
    (hwent : w.Went p frontier memory r next) {n key : String} (hw : Wrote (past ++ [r]) n key) :
    r.after.state.contains key = true := by
  rw [hwent.after]
  show (p.state.reduce (r.executions.updates.map (·.2))).1.contains key = true
  obtain ⟨r', hr', fields, v, hupdate, hkey⟩ := hw
  rcases List.mem_append.1 hr' with hpast | hlast
  · exact State.contains_reduce (h.wrote n key ⟨r', hpast, fields, v, hupdate, hkey⟩) _
  · rw [List.mem_singleton.1 hlast] at hupdate
    exact State.contains_reduce_of_mem _ (List.mem_map.2 ⟨_, hupdate, rfl⟩) hkey

end Flow

/-- Between the rounds of a lineage the invariant holds. -/
theorem Passed.flow (hg : g.Dataflow w.plan) {past : List Round} {p : Progress}
    {frontier : NameSet} (h : Passed w id past p frontier) : Flow g w.plan past p frontier := by
  refine h.along (I := Flow g w.plan) (Flow.entry hg) ?_
  intro past p frontier r next s hp ih hr hnext hstate
  have honce := ih.once_round hg hp hr
  have hcompleted : ∀ n, n ∈ r.after.completed ↔ n ∈ r.executions.ran ∨ n ∈ p.completed :=
    fun n => hr.mem_completed
  obtain ⟨due, memory, hdue, hwent⟩ := hr.went hnext
  cases ih.due hg hdue
  exact {
    mem_frontier := ih.mem_frontier_round hg hwent hcompleted
    sources := by
      intro n hn hexit e he ht
      refine (hcompleted _).2 (.inr ?_)
      rcases (hcompleted n).1 hn with hran | hdone
      · have hids := Executions.mem_ids_of_ran hran
        rw [hwent.ids] at hids
        exact ((ih.mem_frontier n hexit).1 hids).2.2 e he ht
      · exact ih.sources n hdone hexit e he ht
    exit := ih.exit_round hg hwent hcompleted
    wrote := fun n key hw => hstate key (ih.wrote_round hwent hw)
    once := honce }

/-! ## Lineages -/

/-- In every lineage of a graph in which no node chooses and which no edge leaves the end of: a node
other than the end gives an update at most once; when it is executed all its predecessors have given
one, and its snapshot has every key that they wrote; the end is never released; and if the lineage
completes, every node has given an update. -/
theorem dataflow_lineage {reg : Registry σ} (hc : g.compile reg = .ok w)
    (hstatic : ∀ n ∈ g.nodes, n.type.isConditional = false)
    (hend : ∀ e ∈ g.edges, e.source ≠ w.plan.exit) {rounds : List Round} {last : Call σ τ}
    (hl : Lineage w id rounds last) :
    (∀ n, n ≠ w.plan.exit → (ranIn rounds).count n ≤ 1) ∧
    (∀ past r rest, rounds = past ++ r :: rest → ∀ n ∈ r.executions.ids, n ≠ w.plan.exit →
      ∀ e ∈ g.edges, e.target = n →
        e.source ∈ ranIn past ∧ ∀ key, Wrote past e.source key → r.snapshot.contains key = true) ∧
    (∀ r ∈ rounds, ∀ next, r.verdict = .ready next → next.isEmpty = true →
      w.plan.releasedExit? r.after.completed = none) ∧
    (∀ run s, last.result = .ok (.completed run s) → ∀ n ∈ g.ids, n ∈ ranIn rounds) := by
  have hg : g.Dataflow w.plan := ⟨(Graph.compile_eq_ok hc).1, hstatic, hend⟩
  refine ⟨?_, ?_, ?_, ?_⟩
  · intro n hn
    rcases List.eq_nil_or_concat rounds with rfl | ⟨past, r, hrounds⟩
    · simp [ranIn]
    · rw [List.concat_eq_append] at hrounds
      obtain ⟨p, frontier, hp, hr⟩ := hl.passed hrounds
      rw [hrounds]
      exact (hp.flow hg).once_round hg hp hr n hn
  · intro past r rest hrounds n hids hn e he ht
    obtain ⟨p, frontier, hp, hr⟩ := hl.passed hrounds
    have hflow := hp.flow hg
    have hmem := (hp.mem_executed hc hr hn).1 hids
    have hsource := ((hflow.mem_frontier n hn).1 hmem).2.2 e he ht
    refine ⟨(hp.mem_completed _).1 hsource, fun key hw => ?_⟩
    obtain ⟨due, now, memory, -, rfl⟩ := hr
    rw [w.snapshot_round]
    exact hflow.wrote _ _ hw
  · intro r hr next hv hempty
    obtain ⟨past, rest, hrounds⟩ := List.append_of_mem hr
    obtain ⟨p, frontier, hp, hfollows⟩ := hl.passed hrounds
    exact ((hp.ready hfollows hv).flow hg).released hg hempty
  · intro run s hresult n hn
    obtain ⟨p, frontier, hp, hnone, -⟩ := hl.completed hresult
    have hflow := hp.flow hg
    rw [← hp.mem_completed n]
    refine hflow.completed hg (fun m hm => ?_) n hn
    unfold Workflow.dueFrontier? at hnone
    split at hnone
    · rename_i hempty
      rw [NameSet.isEmpty_eq_true_iff] at hempty
      exact NameSet.not_mem_empty (hempty ▸ hm)
    · cases hnone

/-- A join of two nodes, one of which asks for input. -/
def diamond : Graph where
  nodes := [{ id := "start", type := .start }, { id := "a", type := .step "ask" },
    { id := "b", type := .step "task" }, { id := "j", type := .step "task" },
    { id := "end", type := .finish }]
  edges := [.between "start" "a", .between "start" "b", .between "a" "j", .between "b" "j",
    .between "j" "end"]
  distinct := by decide
  closed := by decide

def diamondWorkflow : Workflow Unit :=
  ⟨diamond, diamond.planFrom ⟨"start", "end", ["start", "a", "b", "j", "end"]⟩,
    diamond.makeSteps .idle⟩

theorem diamond_compile : diamond.compile .idle = .ok diamondWorkflow :=
  Graph.compile_of_plan (by decide +kernel) rfl

theorem diamond_lineage :
    Lineage diamondWorkflow "run"
      (diamondWorkflow.plainRun.rounds ++ diamondWorkflow.plainResume.rounds)
      diamondWorkflow.plainResume :=
  Workflow.lineage_plainResume (by decide +kernel) (by decide +kernel)

/-- A lineage of two calls that completes. -/
theorem dataflow_lineage_diamond :
    (∀ n, n ≠ diamondWorkflow.plan.exit →
      (ranIn (diamondWorkflow.plainRun.rounds ++ diamondWorkflow.plainResume.rounds)).count n ≤ 1) ∧
    diamondWorkflow.plainResume.result = .ok (.completed "run" (.ofFields [("a_human_input", .null)])) ∧
    ∀ n ∈ diamond.ids,
      n ∈ ranIn (diamondWorkflow.plainRun.rounds ++ diamondWorkflow.plainResume.rounds) := by
  have hresult : diamondWorkflow.plainResume.result =
      .ok (.completed "run" (.ofFields [("a_human_input", .null)])) := by
    decide +kernel
  have h := dataflow_lineage diamond_compile (by decide) (by decide) diamond_lineage
  exact ⟨h.1, hresult, h.2.2.2 _ _ hresult⟩

end Flowgraph
