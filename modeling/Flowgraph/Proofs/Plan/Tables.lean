import Flowgraph.Graph.Plan
import Mathlib.Data.List.Nodup

/-!
# The tables of a plan

One pass over the nodes builds the routing and, target by target, the sources that joins are made of.
What stands in the tables in the end does not depend on the pass: the routing has one entry for each
node, and the sources of a target are the nodes with an edge to it that are not conditional.

    (g.tables finish).routing = .ofList (g.nodes.map fun n => (n.id, g.routingOf finish n))
                                                                  (routing_tables)
    noted (g.tables finish).sources target = g.staticSources target
                                                                  (noted_tables)

An edge of any node is noted at its target and nowhere else (`mem_noted_noteSource`); the end that a
leaf is led to is the target of no edge of the leaf.
-/

namespace Flowgraph.Graph

def isConditionalId (g : Graph) (id : String) : Bool :=
  g.nodes.any fun n => n.id == id && n.type.isConditional

/-- The nodes with an edge to the given one that are not conditional. -/
def staticSources (g : Graph) (id : String) : NameSet :=
  .ofList ((g.incoming id).map (·.source) |>.filter (!g.isConditionalId ·))

/-! ## Edges and nodes -/

theorem mem_outgoing {g : Graph} {id : String} {e : Edge} :
    e ∈ g.outgoing id ↔ e ∈ g.edges ∧ e.source = id := by
  simp [outgoing]

theorem mem_incoming {g : Graph} {id : String} {e : Edge} :
    e ∈ g.incoming id ↔ e ∈ g.edges ∧ e.target = id := by
  simp [incoming]

theorem mem_staticSources {g : Graph} {id source : String} :
    source ∈ g.staticSources id ↔
      (∃ e ∈ g.edges, e.source = source ∧ e.target = id) ∧ g.isConditionalId source = false := by
  simp only [staticSources, NameSet.mem_ofList, List.mem_filter, List.mem_map, mem_incoming,
    Bool.not_eq_true']
  constructor
  · rintro ⟨⟨e, ⟨he, ht⟩, hs⟩, hc⟩
    exact ⟨⟨e, he, hs, ht⟩, hc⟩
  · rintro ⟨⟨e, he, hs, ht⟩, hc⟩
    exact ⟨⟨e, ⟨he, ht⟩, hs⟩, hc⟩

/-- Nodes with one id are one node. -/
theorem eq_of_id_eq {g : Graph} {n m : Node} (hn : n ∈ g.nodes) (hm : m ∈ g.nodes)
    (h : n.id = m.id) : n = m :=
  List.inj_on_of_nodup_map g.distinct hn hm h

theorem isConditionalId_eq {g : Graph} {n : Node} (hn : n ∈ g.nodes) :
    g.isConditionalId n.id = n.type.isConditional := by
  cases hc : n.type.isConditional with
  | true => exact List.any_eq_true.2 ⟨n, hn, by simp [hc]⟩
  | false =>
    refine List.any_eq_false.2 fun m hm => ?_
    by_cases hid : m.id = n.id
    · rw [eq_of_id_eq hm hn hid, hc]
      simp
    · simp [hid]

/-! ## Noting sources -/

theorem mem_noted_noteSource (sources : NameMap NameSet) (e : Edge) (source target : String) :
    source ∈ noted (noteSource sources e) target ↔
      source ∈ noted sources target ∨ (e.source = source ∧ e.target = target) := by
  unfold noteSource noted
  rw [NameMap.find?_insert]
  by_cases ht : target = e.target
  · subst ht
    simp only [if_true, Option.getD_some, NameSet.mem_insert, and_true]
    rw [or_comm, eq_comm]
  · simp only [if_neg ht, Ne.symm ht, and_false, or_false]

theorem mem_noted_foldl (edges : List Edge) (sources : NameMap NameSet) (source target : String) :
    source ∈ noted (edges.foldl noteSource sources) target ↔
      source ∈ noted sources target ∨ ∃ e ∈ edges, e.source = source ∧ e.target = target := by
  induction edges generalizing sources with
  | nil => simp
  | cons e edges ih =>
    rw [List.foldl_cons, ih, mem_noted_noteSource, or_assoc, List.exists_mem_cons_iff]

/-! ## Entering nodes -/

/-- Entering a node notes it where its edges lead, unless it is conditional. -/
theorem mem_noted_enter (g : Graph) (finish : String) (t : Tables) (n : Node)
    (source target : String) :
    source ∈ noted (g.enter finish t n).sources target ↔
      source ∈ noted t.sources target ∨ (n.type.isConditional = false ∧ n.id = source ∧
        ∃ e ∈ g.edges, e.source = source ∧ e.target = target) := by
  unfold enter
  cases n.type.isConditional with
  | true => simp
  | false =>
    simp only [Bool.false_eq_true, if_false, true_and]
    rw [mem_noted_foldl]
    refine or_congr_right ⟨?_, ?_⟩
    · rintro ⟨e, he, rfl, ht⟩
      obtain ⟨hmem, hid⟩ := mem_outgoing.1 he
      exact ⟨hid.symm, e, hmem, rfl, ht⟩
    · rintro ⟨rfl, e, he, hs, ht⟩
      exact ⟨e, mem_outgoing.2 ⟨he, hs⟩, hs, ht⟩

theorem mem_noted_entered (g : Graph) (finish : String) (nodes : List Node) (t : Tables)
    (source target : String) :
    source ∈ noted (nodes.foldl (g.enter finish) t).sources target ↔
      source ∈ noted t.sources target ∨ ((∃ n ∈ nodes, n.type.isConditional = false ∧ n.id = source) ∧
        ∃ e ∈ g.edges, e.source = source ∧ e.target = target) := by
  induction nodes generalizing t with
  | nil => simp
  | cons n nodes ih =>
    rw [List.foldl_cons, ih, mem_noted_enter, or_assoc, List.exists_mem_cons_iff, or_and_right,
      and_assoc]

theorem routing_entered (g : Graph) (finish : String) (nodes : List Node) (t : Tables) :
    (nodes.foldl (g.enter finish) t).routing =
      (nodes.map fun n => (n.id, g.routingOf finish n)).foldl (fun m e => m.insert e.1 e.2)
        t.routing := by
  induction nodes generalizing t with
  | nil => rfl
  | cons n nodes ih =>
    rw [List.foldl_cons, ih]
    rfl

/-! ## The whole tables -/

/-- The pass enters the routing of each node. -/
theorem routing_tables (g : Graph) (finish : String) : (g.tables finish).routing =
    .ofList (g.nodes.map fun n => (n.id, g.routingOf finish n)) := routing_entered g finish g.nodes {}

/-- The pass notes at each target the nodes with an edge to it that are not conditional. -/
theorem noted_tables (g : Graph) (finish target : String) :
    noted (g.tables finish).sources target = g.staticSources target := by
  refine NameSet.ext fun source => ?_
  have hempty : source ∉ noted ({} : Tables).sources target := NameSet.not_mem_empty
  rw [tables, mem_noted_entered, or_iff_right hempty, mem_staticSources, and_comm]
  refine and_congr_right ?_
  rintro ⟨e, he, rfl, -⟩
  obtain ⟨n, hn, hid⟩ := List.mem_map.1 (g.closed e he).1
  rw [← hid, isConditionalId_eq hn]
  constructor
  · rintro ⟨m, hm, hc, heq⟩
    rw [eq_of_id_eq hn hm heq.symm]
    exact hc
  · exact fun hc => ⟨n, hn, hc, rfl⟩

/-- A target is a join exactly if two of its sources or more are noted. -/
theorem find?_joins_tables (g : Graph) (finish : String) {target : String} {s : NameSet} :
    (g.tables finish).joins.find? target = some s ↔ s = g.staticSources target ∧ 1 < s.size := by
  rw [Tables.joins, NameMap.find?_filter_eq_some_iff, decide_eq_true_iff, ← noted_tables g finish]
  refine and_congr_left fun hsize => ?_
  unfold noted
  cases (g.tables finish).sources.find? target with
  | some sources => simp [eq_comm]
  | none =>
    refine iff_of_false nofun ?_
    rintro rfl
    exact absurd hsize (Nat.not_lt_zero 1)

end Flowgraph.Graph
