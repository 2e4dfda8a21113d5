import Flowgraph.Proofs.Plan.Order
import Flowgraph.Proofs.Plan.Tables

/-!
# The routes of a plan

What is in a plan, read off the graph it was made from.  For `h : g.plan = .ok p`:

    p.routing.find? id = some r ↔ ∃ n ∈ g.nodes, n.id = id ∧ r = g.routingOf p.exit n
                                                                  (routing_find?_iff)
    p.joins.find? id = some s ↔ id ∈ g.ids ∧ s = g.staticSources id ∧ 1 < s.size
                                                                  (joins_find?_iff)

`Plan.Leads` is the routing relation: a node leads to every node it can route to.
-/

namespace Flowgraph

/-- One node leads to another if its routing has the other among its targets. -/
def Plan.Leads (p : Plan) (a b : String) : Prop :=
  ∃ r, p.routing.find? a = some r ∧ b ∈ r.targets

/-- A decision is resolved to the target of a handle. -/
theorem Plan.mem_values_of_resolve {p : Plan} {id decision target : String}
    {handles : NameMap String} (hr : p.routing.find? id = some (.choice handles))
    (h : p.resolve id decision = .ok target) : target ∈ handles.values := by
  unfold resolve at h
  rw [hr] at h
  dsimp only at h
  split at h
  · rename_i t ht
    rw [← Except.ok.inj h]
    exact NameMap.mem_values.2 ⟨decision, ht⟩
  · cases h

/-- Only decisions of nodes that choose are resolved. -/
theorem Plan.choice_of_resolve {p : Plan} {id decision target : String}
    (h : p.resolve id decision = .ok target) :
    ∃ handles, p.routing.find? id = some (.choice handles) := by
  unfold resolve at h
  split at h
  · rename_i handles hr
    exact ⟨handles, hr⟩
  · cases h

namespace Graph

/-- A step without edges, which is led to the end. -/
def IsLeaf (g : Graph) (id : String) : Prop :=
  (∃ n ∈ g.nodes, n.id = id ∧ n.type.isStep = true) ∧ ∀ e ∈ g.edges, e.source ≠ id

/-! ## Edges -/

theorem mem_targetsOf {g : Graph} {id target : String} :
    target ∈ g.targetsOf id ↔ ∃ e ∈ g.edges, e.source = id ∧ e.target = target := by
  simp only [targetsOf, NameSet.mem_ofList, List.mem_map, mem_outgoing, and_assoc]

theorem targetsOf_eq_empty_iff {g : Graph} {id : String} :
    g.targetsOf id = ∅ ↔ ∀ e ∈ g.edges, e.source ≠ id := by
  constructor
  · intro h e he hs
    have hmem : e.target ∈ g.targetsOf id := mem_targetsOf.2 ⟨e, he, hs, rfl⟩
    rw [h] at hmem
    exact NameSet.not_mem_empty hmem
  · intro h
    refine NameSet.ext fun a => ⟨fun ha => ?_, fun ha => absurd ha NameSet.not_mem_empty⟩
    obtain ⟨e, he, hs, _⟩ := mem_targetsOf.1 ha
    exact absurd hs (h e he)

/-! ## The parts of a plan -/

theorem plan_eq_ok {g : Graph} {p : Plan} (h : g.plan = .ok p) :
    ∃ a, g.analyze = .ok a ∧ p = g.planFrom a := by
  unfold plan at h
  cases ha : g.analyze with
  | error e => rw [ha] at h; cases h
  | ok a =>
    rw [ha] at h
    exact ⟨a, rfl, (Except.ok.inj h).symm⟩

theorem analyze_eq_ok {g : Graph} {a : Analysis} (h : g.analyze = .ok a) :
    g.theNode .start "start" = .ok a.start ∧ g.theNode .finish "end" = .ok a.finish ∧
      g.checkConnections = .ok () ∧ g.topologicalOrder = .ok a.order := by
  unfold analyze at h
  cases hs : g.theNode .start "start" with
  | error e => rw [hs] at h; cases h
  | ok start =>
    cases hf : g.theNode .finish "end" with
    | error e => rw [hs, hf] at h; cases h
    | ok finish =>
      cases hc : g.checkConnections with
      | error e => rw [hs, hf, hc] at h; cases h
      | ok u =>
        cases ho : g.topologicalOrder with
        | error e => rw [hs, hf, hc, ho] at h; cases h
        | ok order =>
          rw [hs, hf, hc, ho] at h
          cases Except.ok.inj h
          exact ⟨rfl, rfl, rfl, rfl⟩

variable {g : Graph} {p : Plan}

theorem entry_node (h : g.plan = .ok p) :
    ∃ n ∈ g.nodes, n.type = .start ∧ n.id = p.entry ∧ ∀ m ∈ g.nodes, m.type = .start → m = n := by
  obtain ⟨a, ha, rfl⟩ := plan_eq_ok h
  exact theNode_eq_ok g _ _ _ (analyze_eq_ok ha).1

theorem exit_node (h : g.plan = .ok p) :
    ∃ n ∈ g.nodes, n.type = .finish ∧ n.id = p.exit ∧ ∀ m ∈ g.nodes, m.type = .finish → m = n := by
  obtain ⟨a, ha, rfl⟩ := plan_eq_ok h
  exact theNode_eq_ok g _ _ _ (analyze_eq_ok ha).2.1

theorem entry_mem_ids (h : g.plan = .ok p) : p.entry ∈ g.ids := by
  obtain ⟨n, hn, -, hid, -⟩ := entry_node h
  rw [← hid]
  exact List.mem_map_of_mem hn

theorem exit_mem_ids (h : g.plan = .ok p) : p.exit ∈ g.ids := by
  obtain ⟨n, hn, -, hid, -⟩ := exit_node h
  rw [← hid]
  exact List.mem_map_of_mem hn

theorem entry_ne_exit (h : g.plan = .ok p) : p.entry ≠ p.exit := by
  intro heq
  obtain ⟨n, hn, hstart, hid, -⟩ := entry_node h
  obtain ⟨m, hm, hfinish, hid', -⟩ := exit_node h
  have hnm : n = m := eq_of_id_eq hn hm (by rw [hid, hid', heq])
  rw [hnm, hfinish] at hstart
  cases hstart

/-- A node that is neither the entry nor the exit is entered by an edge. -/
theorem entered (h : g.plan = .ok p) {n : Node} (hn : n ∈ g.nodes) (hentry : n.id ≠ p.entry)
    (hexit : n.id ≠ p.exit) : ∃ e ∈ g.edges, e.target = n.id := by
  obtain ⟨a, ha, rfl⟩ := plan_eq_ok h
  obtain ⟨hs, hf, hc, -⟩ := analyze_eq_ok ha
  refine entered_of_connectionFault? g n (checkConnections_eq_ok g hc n hn) ?_ ?_
  · intro ht
    obtain ⟨m, -, -, hid, huniq⟩ := theNode_eq_ok g _ _ _ hs
    exact hentry (by rw [huniq n hn ht, hid]; rfl)
  · intro ht
    obtain ⟨m, -, -, hid, huniq⟩ := theNode_eq_ok g _ _ _ hf
    exact hexit (by rw [huniq n hn ht, hid]; rfl)

/-- A node other than the exit is left by an edge, or is a leaf. -/
theorem left_or_leaf (h : g.plan = .ok p) {n : Node} (hn : n ∈ g.nodes) (hexit : n.id ≠ p.exit) :
    (∃ e ∈ g.edges, e.source = n.id) ∨ g.IsLeaf n.id := by
  obtain ⟨a, ha, rfl⟩ := plan_eq_ok h
  obtain ⟨-, hf, hc, -⟩ := analyze_eq_ok ha
  have hfinish : n.type ≠ .finish := by
    intro ht
    obtain ⟨m, -, -, hid, huniq⟩ := theNode_eq_ok g _ _ _ hf
    exact hexit (by rw [huniq n hn ht, hid]; rfl)
  by_cases hout : ∃ e ∈ g.edges, e.source = n.id
  · exact .inl hout
  · rcases left_of_connectionFault? g n (checkConnections_eq_ok g hc n hn) hfinish with hl | hstep
    · exact .inl hl
    · exact .inr ⟨⟨n, hn, rfl, hstep⟩, fun e he hs => hout ⟨e, he, hs⟩⟩

/-- The order of a plan follows every edge. -/
theorem order_lt (h : g.plan = .ok p) {e : Edge} (he : e ∈ g.edges) :
    p.order.idxOf e.source < p.order.idxOf e.target := by
  obtain ⟨a, ha, rfl⟩ := plan_eq_ok h
  exact topologicalOrder_lt g _ (analyze_eq_ok ha).2.2.2 e he

theorem routing_find?_iff (h : g.plan = .ok p) {id : String} {r : Routing} :
    p.routing.find? id = some r ↔ ∃ n ∈ g.nodes, n.id = id ∧ r = g.routingOf p.exit n := by
  obtain ⟨a, -, rfl⟩ := plan_eq_ok h
  rw [planFrom, routing_tables, NameMap.find?_ofList_of_nodup (g.nodup_keys_nodes _)]
  simp only [List.mem_map, Prod.mk.injEq]
  constructor
  · rintro ⟨n, hn, hid, hr⟩
    exact ⟨n, hn, hid, hr.symm⟩
  · rintro ⟨n, hn, hid, hr⟩
    exact ⟨n, hn, hid, hr.symm⟩

theorem joins_find?_iff (h : g.plan = .ok p) {id : String} {s : NameSet} :
    p.joins.find? id = some s ↔ id ∈ g.ids ∧ s = g.staticSources id ∧ 1 < s.size := by
  obtain ⟨a, -, rfl⟩ := plan_eq_ok h
  refine (find?_joins_tables g a.finish).trans (iff_and_self.2 ?_)
  rintro ⟨rfl, hsize⟩
  -- a join has a source, and the edge from it leads to a node
  obtain ⟨source, hsource⟩ := List.exists_mem_of_length_pos (Nat.lt_trans Nat.zero_lt_one hsize)
  obtain ⟨⟨e, he, -, rfl⟩, -⟩ := mem_staticSources.1 hsource
  exact (g.closed e he).2

/-! ## The routing relation -/

theorem mem_values_handlesOf {g : Graph} {id target : String}
    (h : target ∈ (g.handlesOf id).values) : ∃ e ∈ g.edges, e.source = id ∧ e.target = target := by
  obtain ⟨handle, hfind⟩ := NameMap.mem_values.1 h
  obtain ⟨e, he, heq⟩ := List.mem_map.1 (NameMap.mem_of_find?_ofList hfind)
  obtain ⟨hmem, hs⟩ := mem_outgoing.1 he
  exact ⟨e, hmem, hs, (Prod.mk.inj heq).2⟩

/-- A node leads along its edges, and a leaf leads to the end. -/
theorem leads_cases (h : g.plan = .ok p) {a b : String} (hl : p.Leads a b) :
    (∃ e ∈ g.edges, e.source = a ∧ e.target = b) ∨ (g.IsLeaf a ∧ b = p.exit) := by
  obtain ⟨r, hr, hb⟩ := hl
  obtain ⟨n, hn, rfl, rfl⟩ := (routing_find?_iff h).1 hr
  unfold routingOf at hb
  split at hb
  · exact .inl (mem_values_handlesOf hb)
  · rw [Routing.targets] at hb
    split at hb
    · rename_i hleaf
      obtain ⟨hempty, hstep⟩ := Bool.and_eq_true_iff.1 hleaf
      right
      refine ⟨⟨⟨n, hn, rfl, hstep⟩, ?_⟩, NameSet.mem_singleton.1 hb⟩
      exact targetsOf_eq_empty_iff.1 (NameSet.isEmpty_eq_true_iff.1 hempty)
    · exact .inl (mem_targetsOf.1 hb)

/-- Routes lead to nodes of the graph. -/
theorem mem_ids_of_leads (h : g.plan = .ok p) {a b : String} (hl : p.Leads a b) : b ∈ g.ids := by
  rcases leads_cases h hl with ⟨e, he, -, rfl⟩ | ⟨-, rfl⟩
  · exact (g.closed e he).2
  · exact exit_mem_ids h

theorem leads_exit_of_leaf (h : g.plan = .ok p) {id : String} (hl : g.IsLeaf id) :
    p.Leads id p.exit := by
  obtain ⟨⟨n, hn, rfl, hstep⟩, hout⟩ := hl
  refine ⟨_, (routing_find?_iff h).2 ⟨n, hn, rfl, rfl⟩, ?_⟩
  have hcond : n.type.isConditional = false := by
    cases ht : n.type <;> rw [ht] at hstep <;> first | rfl | cases hstep
  have hempty : (g.targetsOf n.id).isEmpty = true :=
    NameSet.isEmpty_eq_true_iff.2 (targetsOf_eq_empty_iff.2 hout)
  rw [routingOf, hcond]
  simp only [Bool.false_eq_true, if_false, Routing.targets]
  rw [hempty, hstep]
  exact NameSet.mem_singleton.2 rfl

/-- A node that is not conditional leads along every edge that leaves it. -/
theorem targets_of_static (h : g.plan = .ok p) {n : Node} (hn : n ∈ g.nodes)
    (hc : n.type.isConditional = false) :
    ∃ targets, p.routing.find? n.id = some (.all targets) ∧
      ∀ b, b ∈ targets ↔ (∃ e ∈ g.edges, e.source = n.id ∧ e.target = b) ∨
        (g.IsLeaf n.id ∧ b = p.exit) := by
  have hfind := (routing_find?_iff h).2 ⟨n, hn, rfl, rfl⟩
  unfold routingOf at hfind
  rw [hc] at hfind
  simp only [Bool.false_eq_true, if_false] at hfind
  refine ⟨_, hfind, fun b => ⟨fun hb => leads_cases h ⟨_, hfind, hb⟩, ?_⟩⟩
  rintro (⟨e, he, hs, ht⟩ | ⟨hleaf, rfl⟩)
  · have hmem : b ∈ g.targetsOf n.id := mem_targetsOf.2 ⟨e, he, hs, ht⟩
    split
    · rename_i hl
      have hempty := NameSet.isEmpty_eq_true_iff.1 (Bool.and_eq_true_iff.1 hl).1
      rw [hempty] at hmem
      exact absurd hmem NameSet.not_mem_empty
    · exact hmem
  · obtain ⟨r, hr, hmem⟩ := leads_exit_of_leaf h hleaf
    rw [hfind] at hr
    cases Option.some.inj hr
    exact hmem

/-- A source of a join leads to all its targets, the join among them. -/
theorem targets_of_source (h : g.plan = .ok p) {a b : String} (ha : a ∈ g.staticSources b) :
    ∃ targets, p.routing.find? a = some (.all targets) ∧ b ∈ targets := by
  obtain ⟨⟨e, he, rfl, rfl⟩, hstatic⟩ := mem_staticSources.1 ha
  obtain ⟨n, hn, hid⟩ := List.mem_map.1 (g.closed e he).1
  rw [← hid, isConditionalId_eq hn] at hstatic
  obtain ⟨targets, hrouting, hmem⟩ := targets_of_static h hn hstatic
  rw [hid] at hrouting
  exact ⟨targets, hrouting, (hmem e.target).2 (.inl ⟨e, he, hid.symm, rfl⟩)⟩

/-- A node that leads to all its targets is not conditional. -/
theorem isConditionalId_of_all (h : g.plan = .ok p) {a : String} {targets : NameSet}
    (hr : p.routing.find? a = some (.all targets)) : g.isConditionalId a = false := by
  obtain ⟨n, hn, rfl, hrouting⟩ := (routing_find?_iff h).1 hr
  rw [isConditionalId_eq hn]
  cases hc : n.type.isConditional with
  | false => rfl
  | true =>
    rw [routingOf, if_pos hc] at hrouting
    cases hrouting

/-- A node that chooses is conditional. -/
theorem isConditionalId_of_choice (h : g.plan = .ok p) {a : String} {handles : NameMap String}
    (hr : p.routing.find? a = some (.choice handles)) : g.isConditionalId a = true := by
  obtain ⟨n, hn, rfl, hrouting⟩ := (routing_find?_iff h).1 hr
  rw [isConditionalId_eq hn]
  cases hc : n.type.isConditional with
  | true => rfl
  | false =>
    rw [routingOf, hc] at hrouting
    cases hrouting

/-- A node that leads to all its targets is a source of each but the end. -/
theorem source_of_targets (h : g.plan = .ok p) {a b : String} {targets : NameSet}
    (hr : p.routing.find? a = some (.all targets)) (hb : b ∈ targets) (hne : b ≠ p.exit) :
    a ∈ g.staticSources b := by
  rcases leads_cases h ⟨_, hr, hb⟩ with hedge | ⟨-, rfl⟩
  · exact mem_staticSources.2 ⟨hedge, isConditionalId_of_all h hr⟩
  · exact absurd rfl hne

/-- A node with two sources is a join of its sources. -/
theorem join_of_sources (h : g.plan = .ok p) {a b n : String} (ha : a ∈ g.staticSources n)
    (hb : b ∈ g.staticSources n) (hab : a ≠ b) : p.joins.find? n = some (g.staticSources n) := by
  obtain ⟨⟨e, he, -, rfl⟩, -⟩ := mem_staticSources.1 ha
  exact (joins_find?_iff h).2 ⟨(g.closed e he).2, rfl, NameSet.one_lt_size_iff.2 ⟨a, b, hab, ha, hb⟩⟩

end Graph

end Flowgraph
