import Flowgraph.Proofs.Names.Bytes
import Flowgraph.Proofs.Plan.Declarations

/-!
# What a plan contains

A plan is the image of its graph (`Graph.Mirrors`): handle by handle a conditional node
routes along the edge declared last, every other node routes along all its edges, a leaf
routes to the end, and the joins are the targets that two nodes route to in full.

    g.plan = .ok p → g.Mirrors p                                     (mirrors_of_plan)

Each field has its own lemma below, which reads one table of the plan; a decision that
matches no handle is answered with all handles in ascending order
(`resolve_of_conditional`).
-/

namespace Flowgraph

namespace Graph

/-- Of the edges that leave a node through a handle, the one declared last. -/
def lastThrough? (g : Graph) (id handle : String) : Option Edge :=
  (g.edges.filter fun e => e.source == id && e.handle == handle).getLast?

/-- A node that is not conditional has an edge to another. -/
def Feeds (g : Graph) (a b : String) : Prop :=
  (∃ n ∈ g.nodes, n.id = a ∧ n.type.isConditional = false) ∧
    ∃ e ∈ g.edges, e.source = a ∧ e.target = b

/-- The tables of a plan hold what the nodes and edges of the graph say, and nothing else. -/
structure Mirrors (g : Graph) (p : Plan) : Prop where
  nodes : ∀ id, (∃ r, p.routing.find? id = some r) ↔ id ∈ g.ids
  conditional : ∀ n ∈ g.nodes, n.type.isConditional = true → ∃ handles,
    p.routing.find? n.id = some (.choice handles) ∧
    (∀ d, d ∈ handles.keys ↔ ∃ e ∈ g.edges, e.source = n.id ∧ e.handle = d) ∧
    ∀ d, handles.find? d = (g.lastThrough? n.id d).map (·.target)
  decided : ∀ n ∈ g.nodes, n.type.isConditional = true → ∀ d e, g.lastThrough? n.id d = some e →
    p.resolve n.id d = .ok e.target
  undecided : ∀ n ∈ g.nodes, n.type.isConditional = true → ∀ d,
    (∀ e ∈ g.edges, e.source = n.id → e.handle ≠ d) → ∃ available,
      p.resolve n.id d = .error ⟨n.id, d, available⟩ ∧
      available.Pairwise (nameBytes · < nameBytes ·) ∧
      ∀ handle, handle ∈ available ↔ ∃ e ∈ g.edges, e.source = n.id ∧ e.handle = handle
  static : ∀ n ∈ g.nodes, n.type.isConditional = false → ∃ targets,
    p.routing.find? n.id = some (.all targets) ∧
    (¬ g.IsLeaf n.id → ∀ b, b ∈ targets ↔ ∃ e ∈ g.edges, e.source = n.id ∧ e.target = b) ∧
    (g.IsLeaf n.id → targets = .singleton p.exit)
  joins : ∀ t sources, p.joins.find? t = some sources ↔
    (∃ a b, a ≠ b ∧ g.Feeds a t ∧ g.Feeds b t) ∧ ∀ a, a ∈ sources ↔ g.Feeds a t
  leaves : ∀ t sources, p.joins.find? t = some sources → ∀ id ∈ sources, ¬ g.IsLeaf id

/-! ## Handles -/

theorem mem_keys_handlesOf {g : Graph} {id handle : String} :
    handle ∈ (g.handlesOf id).keys ↔ ∃ e ∈ g.edges, e.source = id ∧ e.handle = handle := by
  rw [NameMap.mem_keys, find?_handlesOf]
  constructor
  · rintro ⟨target, h⟩
    obtain ⟨e, he, -⟩ := Option.map_eq_some_iff.1 h
    obtain ⟨hmem, hpass⟩ := List.mem_filter.1 (List.mem_of_getLast? he)
    rw [Bool.and_eq_true, beq_iff_eq, beq_iff_eq] at hpass
    exact ⟨e, hmem, hpass⟩
  · rintro ⟨e, he, rfl, rfl⟩
    have hne := List.ne_nil_of_mem (List.mem_filter.2 ⟨he, by simp⟩ :
      e ∈ g.edges.filter fun f => f.source == e.source && f.handle == e.handle)
    exact ⟨_, by rw [List.getLast?_eq_some_getLast hne, Option.map_some]⟩

theorem lastThrough?_eq_none_iff {g : Graph} {id handle : String} :
    g.lastThrough? id handle = none ↔ ∀ e ∈ g.edges, e.source = id → e.handle ≠ handle := by
  simp [lastThrough?]

/-! ## The parts of a plan -/

section

variable {g : Graph} {p : Plan} (h : g.plan = .ok p) {n : Node} (hn : n ∈ g.nodes)

include h

theorem routing_iff_ids (id : String) : (∃ r, p.routing.find? id = some r) ↔ id ∈ g.ids := by
  simp only [routing_find?_iff h, ids, List.mem_map]
  constructor
  · rintro ⟨r, n, hn, hid, -⟩
    exact ⟨n, hn, hid⟩
  · rintro ⟨n, hn, hid⟩
    exact ⟨_, n, hn, hid, rfl⟩

/-- A target is a join exactly if two nodes feed it, and it waits for all that do. -/
theorem joins_iff_feeds (t : String) (sources : NameSet) :
    p.joins.find? t = some sources ↔
      (∃ a b, a ≠ b ∧ g.Feeds a t ∧ g.Feeds b t) ∧ ∀ a, a ∈ sources ↔ g.Feeds a t := by
  have hsource : ∀ a, a ∈ g.staticSources t ↔ g.Feeds a t := by
    intro a
    rw [mem_staticSources, Feeds, and_comm]
    refine and_congr_left ?_
    rintro ⟨e, he, rfl, -⟩
    obtain ⟨n, hn, hid⟩ := List.mem_map.1 (g.closed e he).1
    rw [← hid, isConditionalId_eq hn]
    refine ⟨fun hc => ⟨n, hn, rfl, hc⟩, ?_⟩
    rintro ⟨m, hm, heq, hc⟩
    rwa [← eq_of_id_eq hm hn heq]
  simp only [← hsource, ← NameSet.one_lt_size_iff]
  rw [joins_find?_iff h]
  constructor
  · rintro ⟨-, rfl, hsize⟩
    exact ⟨hsize, fun a => Iff.rfl⟩
  · rintro ⟨hsize, hmem⟩
    obtain rfl := NameSet.ext hmem
    obtain ⟨a, -, -, ha, -⟩ := NameSet.one_lt_size_iff.1 hsize
    obtain ⟨⟨e, he, -, rfl⟩, -⟩ := mem_staticSources.1 ha
    exact ⟨(g.closed e he).2, rfl, hsize⟩

/-- What a leaf is wired to does not wait for it. -/
theorem not_leaf_of_join {t : String} {sources : NameSet} (hj : p.joins.find? t = some sources)
    {id : String} (hid : id ∈ sources) : ¬ g.IsLeaf id := by
  intro hleaf
  obtain ⟨-, e, he, hs, -⟩ := (((joins_iff_feeds h t sources).1 hj).2 id).1 hid
  exact hleaf.2 e he hs

include hn

theorem choice_of_conditional (hc : n.type.isConditional = true) :
    p.routing.find? n.id = some (.choice (g.handlesOf n.id)) :=
  (routing_find?_iff h).2 ⟨n, hn, rfl, by rw [routingOf, if_pos hc]⟩

/-- A decision leads along the last edge through its handle, or is answered with all handles. -/
theorem resolve_of_conditional (hc : n.type.isConditional = true) (d : String) :
    p.resolve n.id d = match g.lastThrough? n.id d with
      | some e => .ok e.target
      | none => .error ⟨n.id, d, (g.handlesOf n.id).keys.toList⟩ := by
  rw [Plan.resolve, choice_of_conditional h hn hc]
  dsimp only
  rw [find?_handlesOf, ← lastThrough?]
  cases g.lastThrough? n.id d <;> rfl

theorem targets_of_static_or_leaf (hc : n.type.isConditional = false) :
    ∃ targets, p.routing.find? n.id = some (.all targets) ∧
      (¬ g.IsLeaf n.id → ∀ b, b ∈ targets ↔ ∃ e ∈ g.edges, e.source = n.id ∧ e.target = b) ∧
      (g.IsLeaf n.id → targets = .singleton p.exit) := by
  obtain ⟨targets, hrouting, hmem⟩ := targets_of_static h hn hc
  refine ⟨targets, hrouting, fun hleaf b => ?_, fun hleaf => NameSet.ext fun b => ?_⟩
  · rw [hmem b, or_iff_left (fun hb => hleaf hb.1)]
  · rw [hmem b, NameSet.mem_singleton]
    constructor
    · rintro (⟨e, he, hs, -⟩ | ⟨-, hb⟩)
      · exact absurd hs (hleaf.2 e he)
      · exact hb
    · exact fun hb => .inr ⟨hleaf, hb⟩

end

/-! ## The whole plan -/

/-- A plan that is made holds exactly what its graph says: the routing of every node, the answer to
every decision, and the joins with their sources. -/
theorem mirrors_of_plan {g : Graph} {p : Plan} (h : g.plan = .ok p) : g.Mirrors p where
  nodes := routing_iff_ids h
  conditional n hn hc := ⟨_, choice_of_conditional h hn hc, fun _ => mem_keys_handlesOf,
    fun d => find?_handlesOf g n.id d⟩
  decided n hn hc d e he := by rw [resolve_of_conditional h hn hc, he]
  undecided n hn hc d hd := by
    refine ⟨(g.handlesOf n.id).keys.toList, ?_, ?_, fun _ => mem_keys_handlesOf⟩
    · rw [resolve_of_conditional h hn hc, lastThrough?_eq_none_iff.2 hd]
    · exact (NameSet.ascending _).imp lt_iff_nameBytes_lt.1
  static n hn hc := targets_of_static_or_leaf h hn hc
  joins := joins_iff_feeds h
  leaves _ _ hj _ hid := not_leaf_of_join h hj hid

/-- The branch has two edges through one handle and one without a handle; `y` and `z` both lead to
`end`, where the step `x` is wired to as well. -/
def mixed : Graph where
  nodes := [{ id := "start", type := .start }, { id := "fork", type := .branch },
    { id := "x", type := .step "task" }, { id := "y", type := .step "task" },
    { id := "z", type := .step "task" }, { id := "end", type := .finish }]
  edges := [.between "start" "fork", (Edge.between "fork" "x").through "go", .between "fork" "z",
    (Edge.between "fork" "y").through "go", .between "start" "x", .between "y" "end",
    .between "z" "end", .between "z" "end"]
  distinct := show ["start", "fork", "x", "y", "z", "end"].Nodup by decide
  closed := by decide

def mixedPlan : Plan := mixed.planFrom ⟨"start", "end", ["start", "fork", "x", "y", "z", "end"]⟩

/-- The first edge through the handle `go` does not count, an edge without a handle goes by
`default`, and the leaf `x` is no source of the join at the end. -/
theorem mirrors_mixed :
    mixed.plan = .ok mixedPlan ∧ mixed.Mirrors mixedPlan ∧
      mixedPlan.resolve "fork" "go" = .ok "y" ∧
      mixedPlan.resolve "fork" "stay" = .error ⟨"fork", "stay", ["default", "go"]⟩ ∧
      mixedPlan.routing.find? "x" = some (.all (.singleton "end")) ∧
      mixedPlan.joins.find? "end" = some (.ofList ["y", "z"]) := by
  have h : mixed.plan = .ok mixedPlan := by decide +kernel
  exact ⟨h, mirrors_of_plan h, by decide +kernel, by decide +kernel, by decide +kernel,
    by decide +kernel⟩

end Graph

end Flowgraph
