import Flowgraph.Proofs.Plan.Routes
import Mathlib.Data.List.Chain
import Mathlib.Data.List.Perm.Subperm
import Mathlib.Logic.Relation

/-!
# Paths along the routes of a plan

A path is a list of nodes each of which leads to the next (`Plan.IsPath`).  All routes
go on to the end (`reaches_exit`), so a path can stop nowhere else (`stops_at_exit`), and
routes come back as soon as an edge leaves the end, and only then:

    (∀ a, ¬ TransGen p.Leads a a) ↔ ∀ e ∈ g.edges, e.source ≠ p.exit      (acyclic_iff)

Where no edge leaves the end none comes to the entry (`target_ne_entry`), and every route
goes up in a rank (`rank_lt`).  So no path has more nodes than the graph, and one that
stops before the end has one less (`length_le_of_isPath`, `length_lt_of_isPath`).
-/

namespace Flowgraph

open Relation

namespace Plan

/-- A path from one node to another: a list of nodes, each of which leads to the next. -/
def IsPath (p : Plan) (a b : String) (l : List String) : Prop :=
  l.head? = some a ∧ l.getLast? = some b ∧ l.IsChain p.Leads

variable {p : Plan} {a b c : String} {l : List String}

theorem isPath_singleton (p : Plan) (a : String) : p.IsPath a a [a] :=
  ⟨rfl, rfl, List.isChain_singleton a⟩

theorem IsPath.ne_nil (h : p.IsPath a b l) : l ≠ [] := by
  rintro rfl
  cases h.1

theorem IsPath.concat (h : p.IsPath a b l) (hl : p.Leads b c) : p.IsPath a c (l ++ [c]) := by
  refine ⟨?_, List.getLast?_concat, ?_⟩
  · rw [List.head?_append_of_ne_nil _ h.ne_nil, h.1]
  · refine h.2.2.append (List.isChain_singleton c) fun x hx y hy => ?_
    rw [h.2.1, Option.mem_some_iff] at hx
    rw [List.head?_singleton, Option.mem_some_iff] at hy
    rw [← hx, ← hy]
    exact hl

/-- A path is a node, or goes on from a shorter path. -/
theorem IsPath.eq_or_concat (h : p.IsPath a c l) :
    (a = c ∧ l = [c]) ∨ ∃ m b, l = m ++ [c] ∧ p.IsPath a b m ∧ p.Leads b c := by
  obtain ⟨hhead, hlast, hchain⟩ := h
  obtain ⟨m, rfl⟩ := List.getLast?_eq_some_iff.1 hlast
  rcases List.eq_nil_or_concat m with rfl | ⟨k, b, rfl⟩
  · left
    exact ⟨(Option.some.inj hhead).symm, rfl⟩
  · rw [List.concat_eq_append] at hhead hchain ⊢
    right
    obtain ⟨hinit, -, hlink⟩ := List.isChain_append.1 hchain
    refine ⟨k ++ [b], b, rfl, ⟨?_, List.getLast?_concat, hinit⟩, ?_⟩
    · rw [List.head?_append_of_ne_nil _ (by simp)] at hhead
      exact hhead
    · exact hlink b (by simp) c (by simp)

/-- The place of a node in the order, the end after all others. -/
def rank (p : Plan) (n : String) : Nat :=
  if n = p.exit then p.order.length + 1 else p.order.idxOf n

theorem rank_lt_exit (h : a ≠ p.exit) : p.rank a < p.rank p.exit := by
  have hle : p.order.idxOf a ≤ p.order.length := List.idxOf_le_length
  rw [rank, rank, if_neg h, if_pos rfl]
  omega

end Plan

namespace Graph

variable {g : Graph} {p : Plan}

/-! ## Routes to the end -/

/-- A node that is left by an edge leads along one of its edges. -/
theorem exists_leads (h : g.plan = .ok p) {e : Edge} (he : e ∈ g.edges) :
    ∃ f ∈ g.edges, f.source = e.source ∧ p.Leads e.source f.target := by
  obtain ⟨n, hn, hid⟩ := List.mem_map.1 (g.closed e he).1
  cases hc : n.type.isConditional with
  | false =>
    obtain ⟨targets, hfind, hmem⟩ := targets_of_static h hn hc
    rw [hid] at hfind
    exact ⟨e, he, rfl, _, hfind, (hmem e.target).2 (.inl ⟨e, he, hid.symm, rfl⟩)⟩
  | true =>
    have hfind := (routing_find?_iff h).2 ⟨n, hn, hid, rfl⟩
    rw [routingOf, if_pos hc, hid] at hfind
    -- the handle of the edge has a target, if perhaps that of a later edge
    have hhandle : ∃ t, (g.handlesOf e.source).find? e.handle = some t := by
      cases ht : (g.handlesOf e.source).find? e.handle with
      | some t => exact ⟨t, rfl⟩
      | none =>
        rw [handlesOf, NameMap.find?_ofList] at ht
        have hedge : (e.handle, e.target) ∈
            ((g.outgoing e.source).map fun e => (e.handle, e.target)).reverse :=
          List.mem_reverse.2 (List.mem_map.2 ⟨e, mem_outgoing.2 ⟨he, rfl⟩, rfl⟩)
        have hother := List.lookup_eq_none_iff.1 ht _ hedge
        simp at hother
    obtain ⟨t, ht⟩ := hhandle
    have hvalue : t ∈ (g.handlesOf e.source).values := NameMap.mem_values.2 ⟨_, ht⟩
    obtain ⟨f, hf, hs, rfl⟩ := mem_values_handlesOf hvalue
    exact ⟨f, hf, hs, _, hfind, hvalue⟩

/-- Every node but the end leads to some node. -/
theorem leads_of_ne_exit (h : g.plan = .ok p) {n : String} (hn : n ∈ g.ids) (hexit : n ≠ p.exit) :
    ∃ b, p.Leads n b := by
  obtain ⟨node, hnode, rfl⟩ := List.mem_map.1 hn
  rcases left_or_leaf h hnode hexit with ⟨e, he, hs⟩ | hleaf
  · obtain ⟨f, -, -, hl⟩ := exists_leads h he
    exact ⟨f.target, hs ▸ hl⟩
  · exact ⟨p.exit, leads_exit_of_leaf h hleaf⟩

theorem leaf_ne_exit (h : g.plan = .ok p) {id : String} (hl : g.IsLeaf id) : id ≠ p.exit := by
  rintro rfl
  obtain ⟨⟨n, hn, hid, hstep⟩, -⟩ := hl
  obtain ⟨m, hm, hfinish, hid', -⟩ := exit_node h
  rw [eq_of_id_eq hn hm (by rw [hid, hid']), hfinish] at hstep
  cases hstep

/-- All routes go on to the end. -/
theorem reaches_exit (h : g.plan = .ok p) {n : String} (hn : n ∈ g.ids) :
    ReflTransGen p.Leads n p.exit := by
  -- by induction on how far the node stands from the end of the order
  induction hk : p.order.length - p.order.idxOf n using Nat.strongRecOn generalizing n with
  | ind k ih =>
    by_cases hexit : n = p.exit
    · rw [hexit]
    · obtain ⟨node, hnode, rfl⟩ := List.mem_map.1 hn
      rcases left_or_leaf h hnode hexit with ⟨e, he, hs⟩ | hleaf
      · obtain ⟨f, hf, hfs, hl⟩ := exists_leads h he
        rw [hs] at hfs hl
        have hlt := order_lt h hf
        have hle : p.order.idxOf f.target ≤ p.order.length := List.idxOf_le_length
        rw [hfs] at hlt
        exact .head hl (ih _ (by omega) (g.closed f hf).2 rfl)
      · exact .single (leads_exit_of_leaf h hleaf)

/-! ## Routes from the entry -/

/-- Where no edge leaves the end, what passes to a node from all its predecessors holds of every node
but the end. -/
theorem induct_sources (h : g.plan = .ok p) (hexit : ∀ e ∈ g.edges, e.source ≠ p.exit)
    {P : String → Prop}
    (hpass : ∀ n ∈ g.ids, n ≠ p.exit → (∀ e ∈ g.edges, e.target = n → P e.source) → P n)
    (n : String) (hn : n ∈ g.ids) (hne : n ≠ p.exit) : P n := by
  induction hk : p.order.idxOf n using Nat.strongRecOn generalizing n with
  | ind k ih =>
    refine hpass n hn hne fun e he ht => ?_
    have hlt := order_lt h he
    rw [ht, hk] at hlt
    exact ih _ hlt e.source (g.closed e he).1 (hexit e he) rfl

/-- Where no edge leaves the end, none comes to the entry. -/
theorem target_ne_entry (h : g.plan = .ok p) (hexit : ∀ e ∈ g.edges, e.source ≠ p.exit) {e : Edge}
    (he : e ∈ g.edges) : e.target ≠ p.entry := by
  -- the entry comes first in the order
  have hfirst : ∀ n ∈ g.ids, n ≠ p.exit → p.order.idxOf p.entry ≤ p.order.idxOf n := by
    refine induct_sources h hexit fun n hn hne hsources => ?_
    by_cases hentry : n = p.entry
    · exact Nat.le_of_eq (congrArg p.order.idxOf hentry.symm)
    · obtain ⟨node, hnode, rfl⟩ := List.mem_map.1 hn
      obtain ⟨e', he', ht⟩ := entered h hnode hentry hne
      have hle := hsources e' he' ht
      have hlt := order_lt h he'
      rw [ht] at hlt
      omega
  intro ht
  have hle := hfirst e.source (g.closed e he).1 (hexit e he)
  have hlt := order_lt h he
  rw [ht] at hlt
  omega

/-! ## Ranks -/

/-- Where no edge leaves the end, every route goes up. -/
theorem rank_lt (h : g.plan = .ok p) (hexit : ∀ e ∈ g.edges, e.source ≠ p.exit) {a b : String}
    (hl : p.Leads a b) : p.rank a < p.rank b := by
  rcases leads_cases h hl with ⟨e, he, rfl, rfl⟩ | ⟨hleaf, rfl⟩
  · by_cases htarget : e.target = p.exit
    · rw [htarget]
      exact Plan.rank_lt_exit (hexit e he)
    · rw [Plan.rank, Plan.rank, if_neg (hexit e he), if_neg htarget]
      exact order_lt h he
  · exact Plan.rank_lt_exit (leaf_ne_exit h hleaf)

/-- Routes come back to a node exactly if an edge leaves the end. -/
theorem acyclic_iff (h : g.plan = .ok p) :
    (∀ a, ¬ TransGen p.Leads a a) ↔ ∀ e ∈ g.edges, e.source ≠ p.exit := by
  constructor
  · intro hacyclic e he hs
    obtain ⟨f, hf, -, hl⟩ := exists_leads h he
    rw [hs] at hl
    exact hacyclic p.exit (.head' hl (reaches_exit h (g.closed f hf).2))
  · intro hexit a ha
    have hup : ∀ b, TransGen p.Leads a b → p.rank a < p.rank b := by
      intro b hb
      induction hb with
      | single hl => exact rank_lt h hexit hl
      | tail _ hl ih => exact Nat.lt_trans ih (rank_lt h hexit hl)
    exact Nat.lt_irrefl _ (hup a ha)

theorem not_leads_exit (h : g.plan = .ok p) (hacyclic : ∀ a, ¬ TransGen p.Leads a a) (b : String) :
    ¬ p.Leads p.exit b :=
  fun hl => hacyclic p.exit (.head' hl (reaches_exit h (mem_ids_of_leads h hl)))

theorem not_leads_entry (h : g.plan = .ok p) (hacyclic : ∀ a, ¬ TransGen p.Leads a a) (a : String) :
    ¬ p.Leads a p.entry := by
  intro hl
  rcases leads_cases h hl with ⟨e, he, -, ht⟩ | ⟨-, heq⟩
  · exact target_ne_entry h ((acyclic_iff h).1 hacyclic) he ht
  · exact entry_ne_exit h heq

/-! ## Lengths of paths -/

/-- A list of nodes that goes up in rank is no longer than the graph. -/
theorem length_le_of_rank {l : List String} (hids : ∀ n ∈ l, n ∈ g.ids)
    (hl : l.IsChain fun a b => p.rank a < p.rank b) : l.length ≤ g.nodes.length := by
  have hpairwise : (l.map p.rank).Pairwise (· < ·) :=
    List.isChain_iff_pairwise.1 ((List.isChain_map p.rank).2 hl)
  have hnodup : l.Nodup := List.Nodup.of_map p.rank (hpairwise.imp Nat.ne_of_lt)
  have hle := (List.subperm_of_subset hnodup hids).length_le
  rwa [ids, List.length_map] at hle

theorem mem_ids_of_isPath (h : g.plan = .ok p) {a b : String} {l : List String}
    (hl : p.IsPath a b l) (ha : a ∈ g.ids) : ∀ n ∈ l, n ∈ g.ids := by
  induction hlen : l.length generalizing l b with
  | zero => exact absurd (List.length_eq_zero_iff.1 hlen) hl.ne_nil
  | succ k ih =>
    intro n hn
    rcases hl.eq_or_concat with ⟨rfl, rfl⟩ | ⟨m, c, rfl, hm, hlead⟩
    · rw [List.mem_singleton.1 hn]
      exact ha
    · rcases List.mem_append.1 hn with hn | hn
      · rw [List.length_append, List.length_singleton] at hlen
        exact ih hm (by omega) n hn
      · rw [List.mem_singleton.1 hn]
        exact mem_ids_of_leads h hlead

/-- No path has more nodes than the graph. -/
theorem length_le_of_isPath (h : g.plan = .ok p) (hexit : ∀ e ∈ g.edges, e.source ≠ p.exit)
    {a b : String} {l : List String} (hl : p.IsPath a b l) (ha : a ∈ g.ids) :
    l.length ≤ g.nodes.length :=
  length_le_of_rank (mem_ids_of_isPath h hl ha) (hl.2.2.imp fun _ _ => rank_lt h hexit)

/-- A path that stops before the end leaves out the end. -/
theorem length_lt_of_isPath (h : g.plan = .ok p) (hexit : ∀ e ∈ g.edges, e.source ≠ p.exit)
    {a b : String} {l : List String} (hl : p.IsPath a b l) (ha : a ∈ g.ids) (hb : b ≠ p.exit) :
    l.length < g.nodes.length := by
  have hle : (l ++ [p.exit]).length ≤ g.nodes.length := by
    refine length_le_of_rank (p := p) (fun n hn => ?_) ?_
    · rcases List.mem_append.1 hn with hn | hn
      · exact mem_ids_of_isPath h hl ha n hn
      · rw [List.mem_singleton.1 hn]
        exact exit_mem_ids h
    · refine (hl.2.2.imp fun _ _ => rank_lt h hexit).append (List.isChain_singleton _) ?_
      intro x hx y hy
      rw [hl.2.1, Option.mem_some_iff] at hx
      rw [List.head?_singleton, Option.mem_some_iff] at hy
      rw [← hx, ← hy]
      exact Plan.rank_lt_exit hb
  rw [List.length_append, List.length_singleton] at hle
  omega

/-! ## Where paths stop -/

/-- The exit is the end of the graph, and every node leads on to it.  Every node has a routing, which
is empty for none but the exit, so that a path of the plan that cannot go on has come to the exit. -/
theorem stops_at_exit (h : g.plan = .ok p) :
    (∃ n ∈ g.nodes, n.id = p.exit ∧ n.type = .finish) ∧
      (∀ n ∈ g.ids, ReflTransGen p.Leads n p.exit) ∧
      (∀ n ∈ g.ids, ∃ r, p.routing.find? n = some r ∧ (n ≠ p.exit → r.targets ≠ [])) ∧
      ∀ a ∈ g.ids, ∀ b l, p.IsPath a b l → (∀ c, ¬ p.Leads b c) → b = p.exit := by
  refine ⟨?_, fun n hn => reaches_exit h hn, fun n hn => ?_, fun a ha b l hl hstuck => ?_⟩
  · obtain ⟨n, hn, hfinish, hid, -⟩ := exit_node h
    exact ⟨n, hn, hid, hfinish⟩
  · obtain ⟨node, hnode, hid⟩ := List.mem_map.1 hn
    refine ⟨_, (routing_find?_iff h).2 ⟨node, hnode, hid, rfl⟩, fun hne hempty => ?_⟩
    obtain ⟨b, r, hr, hb⟩ := leads_of_ne_exit h hn hne
    rw [(routing_find?_iff h).2 ⟨node, hnode, hid, rfl⟩] at hr
    rw [← Option.some.inj hr, hempty] at hb
    cases hb
  · have hb : b ∈ g.ids := mem_ids_of_isPath h hl ha b (List.mem_of_getLast? hl.2.1)
    by_contra hne
    obtain ⟨c, hc⟩ := leads_of_ne_exit h hb hne
    exact hstuck c hc

/-! ## A graph with a handle used twice -/

/-- Two edges leave a branch through one handle, and the last node is a step without edges. -/
def rerouted : Graph where
  nodes := [{ id := "start", type := .start }, { id := "b", type := .branch },
    { id := "x", type := .step "task" }, { id := "y", type := .step "task" },
    { id := "z", type := .step "task" }, { id := "end", type := .finish }]
  edges := [.between "start" "b", .between "start" "x", (Edge.between "b" "x").through "go",
    (Edge.between "b" "y").through "go", .between "x" "z", .between "y" "z"]
  distinct := by decide
  closed := by decide

def reroutedPlan : Plan := rerouted.planFrom ⟨"start", "end", ["end", "start", "b", "x", "y", "z"]⟩

theorem rerouted_plan : rerouted.plan = .ok reroutedPlan := by
  decide +kernel

/-- The branch leads to the target of its last edge only, the last step to the end. -/
theorem stops_at_exit_rerouted :
    rerouted.plan = .ok reroutedPlan ∧
      reroutedPlan.routing.find? "b" = some (.choice (.ofList [("go", "y")])) ∧
      reroutedPlan.routing.find? "z" = some (.all (.singleton "end")) ∧
      (∃ n ∈ rerouted.nodes, n.id = reroutedPlan.exit ∧ n.type = .finish) ∧
      (∀ n ∈ rerouted.ids, ReflTransGen reroutedPlan.Leads n reroutedPlan.exit) ∧
      (∀ n ∈ rerouted.ids, ∃ r, reroutedPlan.routing.find? n = some r ∧
        (n ≠ reroutedPlan.exit → r.targets ≠ [])) ∧
      ∀ a ∈ rerouted.ids, ∀ b l, reroutedPlan.IsPath a b l → (∀ c, ¬ reroutedPlan.Leads b c) →
        b = reroutedPlan.exit :=
  ⟨rerouted_plan, by decide +kernel, by decide +kernel, stops_at_exit rerouted_plan⟩

end Graph

end Flowgraph
