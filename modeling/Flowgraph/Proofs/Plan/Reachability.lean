import Flowgraph.Proofs.Plan.Declarations

/-!
# Routes from the entry

Of the edges that leave a conditional node through one handle a plan keeps the last
(`Graph.Keeps`), and routes follow the edges that are kept, or lead a leaf to the end:

    p.Leads a b ↔ (∃ e, g.Keeps e ∧ e.source = a ∧ e.target = b) ∨ (g.IsLeaf a ∧ b = p.exit)
                                                                  (leads_iff_keeps)

A node is cut off if none of the edges that enter it is kept (`Graph.CutOff`).  Going back
from a node along kept edges ends at the entry or at a node that is cut off, and no route
from the entry comes to one of those; so the entry reaches every node exactly if none is
cut off (`reached_or_cutOff`).
-/

namespace Flowgraph.Graph

open Relation

/-- An edge that the plan keeps: if it leaves a conditional node, no later edge leaves the node
through its handle. -/
def Keeps (g : Graph) (e : Edge) : Prop :=
  ∃ before after, g.edges = before ++ e :: after ∧
    (g.isConditionalId e.source = true → ∀ f ∈ after, f.source = e.source → f.handle ≠ e.handle)

/-- A node, neither the entry nor the exit, that edges enter only through handles whose last edge
leads elsewhere. -/
structure CutOff (g : Graph) (p : Plan) (id : String) : Prop where
  mem_ids : id ∈ g.ids
  ne_entry : id ≠ p.entry
  ne_exit : id ≠ p.exit
  not_kept : ∀ e, g.Keeps e → e.target ≠ id

variable {g : Graph} {p : Plan}

/-! ## Edges that are kept -/

theorem Keeps.mem {e : Edge} (h : g.Keeps e) : e ∈ g.edges := by
  obtain ⟨before, after, hedges, -⟩ := h
  rw [hedges]
  exact List.mem_append_right _ List.mem_cons_self

/-- All edges of a node that is not conditional are kept. -/
theorem keeps_of_static {e : Edge} (he : e ∈ g.edges) (hs : g.isConditionalId e.source = false) :
    g.Keeps e := by
  obtain ⟨before, after, hedges⟩ := List.append_of_mem he
  refine ⟨before, after, hedges, fun hc => ?_⟩
  rw [hs] at hc
  cases hc

/-- An edge of a conditional node is kept exactly if it is the last one through its handle. -/
theorem keeps_iff_of_conditional {e : Edge} (hc : g.isConditionalId e.source = true) :
    g.Keeps e ↔ (g.edges.filter e.sharesHandle).getLast? = some e := by
  have hself : e.sharesHandle e = true := by simp [Edge.sharesHandle]
  have hlater : ∀ after : List Edge, (∀ f ∈ after, f.source = e.source → f.handle ≠ e.handle) ↔
      ∀ f ∈ after, e.sharesHandle f = false := by
    intro after
    refine forall₂_congr fun f _ => ?_
    rw [Edge.sharesHandle, Bool.and_eq_false_imp, beq_iff_eq]
    exact imp_congr_right fun _ => beq_eq_false_iff_ne.symm
  rw [← List.head?_reverse, ← List.filter_reverse, List.head?_filter, List.find?_eq_some_iff_append]
  constructor
  · rintro ⟨before, after, hedges, hlast⟩
    refine ⟨hself, after.reverse, before.reverse, ?_, fun f hf => ?_⟩
    · rw [hedges]
      simp
    · rw [(hlater after).1 (hlast hc) f (List.mem_reverse.1 hf)]
      rfl
  · rintro ⟨-, after, before, hedges, hlast⟩
    refine ⟨before.reverse, after.reverse, ?_, fun _ => (hlater _).2 fun f hf => ?_⟩
    · rw [← List.reverse_reverse g.edges, hedges]
      simp
    · have hf := hlast f (List.mem_reverse.1 hf)
      rwa [Bool.not_eq_true'] at hf

/-- A handle leads to a node exactly if the edge that is kept for it does. -/
theorem find?_handlesOf_iff {id handle target : String} (hc : g.isConditionalId id = true) :
    (g.handlesOf id).find? handle = some target ↔
      ∃ e, g.Keeps e ∧ e.source = id ∧ e.handle = handle ∧ e.target = target := by
  rw [find?_handlesOf, Option.map_eq_some_iff]
  constructor
  · rintro ⟨e, he, ht⟩
    have hpass := (List.mem_filter.1 (List.mem_of_getLast? he)).2
    rw [Bool.and_eq_true, beq_iff_eq, beq_iff_eq] at hpass
    obtain ⟨rfl, rfl⟩ := hpass
    exact ⟨e, (keeps_iff_of_conditional hc).2 he, rfl, rfl, ht⟩
  · rintro ⟨e, he, rfl, rfl, ht⟩
    exact ⟨e, (keeps_iff_of_conditional hc).1 he, ht⟩

/-- Routes follow the edges that are kept, and lead leaves to the end. -/
theorem leads_iff_keeps (h : g.plan = .ok p) {a b : String} :
    p.Leads a b ↔
      (∃ e, g.Keeps e ∧ e.source = a ∧ e.target = b) ∨ (g.IsLeaf a ∧ b = p.exit) := by
  by_cases hconditional : g.isConditionalId a = true
  · have hrouting : ∀ r, p.routing.find? a = some r → r = .choice (g.handlesOf a) := by
      intro r hr
      obtain ⟨n, hn, rfl, rfl⟩ := (routing_find?_iff h).1 hr
      rw [isConditionalId_eq hn] at hconditional
      rw [routingOf, if_pos hconditional]
    constructor
    · rintro ⟨r, hr, hb⟩
      rw [hrouting r hr] at hb
      obtain ⟨handle, hfind⟩ := NameMap.mem_values.1 hb
      obtain ⟨e, he, hs, -, ht⟩ := (find?_handlesOf_iff hconditional).1 hfind
      exact .inl ⟨e, he, hs, ht⟩
    · rintro (⟨e, he, rfl, rfl⟩ | ⟨hleaf, rfl⟩)
      · obtain ⟨f, -, -, r, hr, -⟩ := exists_leads h he.mem
        refine ⟨r, hr, ?_⟩
        rw [hrouting r hr]
        exact NameMap.mem_values.2
          ⟨e.handle, (find?_handlesOf_iff hconditional).2 ⟨e, he, rfl, rfl, rfl⟩⟩
      · exact leads_exit_of_leaf h hleaf
  · rw [Bool.not_eq_true] at hconditional
    constructor
    · intro hl
      rcases leads_cases h hl with ⟨e, he, rfl, ht⟩ | hleaf
      · exact .inl ⟨e, keeps_of_static he hconditional, rfl, ht⟩
      · exact .inr hleaf
    · rintro (⟨e, he, rfl, rfl⟩ | ⟨hleaf, rfl⟩)
      · obtain ⟨n, hn, hid⟩ := List.mem_map.1 (g.closed e he.mem).1
        rw [← hid, isConditionalId_eq hn] at hconditional
        obtain ⟨targets, hfind, hmem⟩ := targets_of_static h hn hconditional
        rw [hid] at hfind
        exact ⟨_, hfind, (hmem e.target).2 (.inl ⟨e, he.mem, hid.symm, rfl⟩)⟩
      · exact leads_exit_of_leaf h hleaf

/-! ## Routes from the entry -/

/-- No route from the entry comes to a node that is cut off. -/
theorem not_reached_of_cutOff (h : g.plan = .ok p) {id : String} (hcut : g.CutOff p id) :
    ¬ ReflTransGen p.Leads p.entry id := by
  intro hreached
  rcases hreached.cases_tail with heq | ⟨b, -, hl⟩
  · exact hcut.ne_entry heq
  · rcases (leads_iff_keeps h).1 hl with ⟨e, he, -, ht⟩ | ⟨-, hexit⟩
    · exact hcut.not_kept e he ht
    · exact hcut.ne_exit hexit

/-- Every node is reached from the entry or from a node that is cut off. -/
theorem reached_from (h : g.plan = .ok p) {n : String} (hn : n ∈ g.ids) :
    ReflTransGen p.Leads p.entry n ∨ ∃ m, g.CutOff p m ∧ ReflTransGen p.Leads m n := by
  -- by induction on the place of the node in the order, back along an edge that is kept
  induction hk : p.order.idxOf n using Nat.strongRecOn generalizing n with
  | ind k ih =>
    by_cases hentry : n = p.entry
    · left
      rw [hentry]
    by_cases hexit : n = p.exit
    · left
      rw [hexit]
      exact reaches_exit h (entry_mem_ids h)
    by_cases hkept : ∃ e, g.Keeps e ∧ e.target = n
    · obtain ⟨e, he, rfl⟩ := hkept
      have hlt := order_lt h he.mem
      have hlast : p.Leads e.source e.target := (leads_iff_keeps h).2 (.inl ⟨e, he, rfl, rfl⟩)
      rcases ih _ (by omega) (g.closed e he.mem).1 rfl with hreached | ⟨m, hcut, hreached⟩
      · exact .inl (hreached.tail hlast)
      · exact .inr ⟨m, hcut, hreached.tail hlast⟩
    · right
      exact ⟨n, ⟨hn, hentry, hexit, fun e he ht => hkept ⟨e, he, ht⟩⟩, .refl⟩

/-- The entry reaches every node but those that are cut off and what only they reach.  So it reaches
every node exactly if every node but the entry and the exit is entered by an edge that is kept. -/
theorem reached_or_cutOff (h : g.plan = .ok p) :
    (∀ n ∈ g.ids,
      ReflTransGen p.Leads p.entry n ∨ ∃ m, g.CutOff p m ∧ ReflTransGen p.Leads m n) ∧
    (∀ m, g.CutOff p m → ¬ ReflTransGen p.Leads p.entry m) ∧
    ((∀ n ∈ g.ids, ReflTransGen p.Leads p.entry n) ↔
      ∀ n ∈ g.ids, n ≠ p.entry → n ≠ p.exit → ∃ e, g.Keeps e ∧ e.target = n) := by
  refine ⟨fun n hn => reached_from h hn, fun m hm => not_reached_of_cutOff h hm, ?_, ?_⟩
  · intro hall n hn hentry hexit
    by_contra hkept
    refine not_reached_of_cutOff h ⟨hn, hentry, hexit, fun e he ht => ?_⟩ (hall n hn)
    exact hkept ⟨e, he, ht⟩
  · intro hkept n hn
    rcases reached_from h hn with hreached | ⟨m, hcut, -⟩
    · exact hreached
    · obtain ⟨e, he, ht⟩ := hkept m hcut.mem_ids hcut.ne_entry hcut.ne_exit
      exact absurd ht (hcut.not_kept e he)

/-! ## A graph with a node that is cut off -/

/-- The branch leaves for `x` through a handle that a later edge takes to `y`; `x` goes on to `z`. -/
def overridden : Graph where
  nodes := [{ id := "start", type := .start }, { id := "b", type := .branch },
    { id := "x", type := .step "task" }, { id := "y", type := .step "task" },
    { id := "z", type := .step "task" }, { id := "end", type := .finish }]
  edges := [.between "start" "b", (Edge.between "b" "x").through "go",
    (Edge.between "b" "y").through "go", .between "x" "z", .between "y" "end"]
  distinct := show ["start", "b", "x", "y", "z", "end"].Nodup by decide
  closed := by decide

def overriddenPlan : Plan :=
  overridden.planFrom ⟨"start", "end", ["start", "b", "x", "y", "end", "z"]⟩

theorem overridden_plan : overridden.plan = .ok overriddenPlan := by
  decide +kernel

theorem cutOff_overridden : overridden.CutOff overriddenPlan "x" := by
  refine ⟨by decide, by decide, by decide, fun e he ht => ?_⟩
  have hentering : ∀ e ∈ overridden.edges, e.target = "x" →
      overridden.isConditionalId e.source = true ∧
        (overridden.edges.filter e.sharesHandle).getLast? ≠ some e := by
    decide +kernel
  obtain ⟨hc, hlast⟩ := hentering e he.mem ht
  exact hlast ((keeps_iff_of_conditional hc).1 he)

/-- The entry reaches neither the node that is cut off nor the node `z` behind it. -/
theorem reached_or_cutOff_overridden :
    overridden.plan = .ok overriddenPlan ∧ overridden.CutOff overriddenPlan "x" ∧
      (∀ n ∈ overridden.ids, ReflTransGen overriddenPlan.Leads overriddenPlan.entry n ∨
        ∃ m, overridden.CutOff overriddenPlan m ∧ ReflTransGen overriddenPlan.Leads m n) ∧
      (∀ m, overridden.CutOff overriddenPlan m →
        ¬ ReflTransGen overriddenPlan.Leads overriddenPlan.entry m) ∧
      ((∀ n ∈ overridden.ids, ReflTransGen overriddenPlan.Leads overriddenPlan.entry n) ↔
        ∀ n ∈ overridden.ids, n ≠ overriddenPlan.entry → n ≠ overriddenPlan.exit →
          ∃ e, overridden.Keeps e ∧ e.target = n) :=
  ⟨overridden_plan, cutOff_overridden, reached_or_cutOff overridden_plan⟩

/-- A graph can have a plan in which routes from the entry do not reach every node. -/
theorem not_reached_overridden :
    ¬ ∀ (g : Graph) (p : Plan), g.plan = .ok p →
      ∀ n ∈ g.ids, ReflTransGen p.Leads p.entry n := by
  intro hall
  exact not_reached_of_cutOff overridden_plan cutOff_overridden
    (hall overridden overriddenPlan overridden_plan "x" (by decide))

end Flowgraph.Graph
