import Flowgraph.Proofs.Plan.Peeling

/-!
# Topological orders

What a successful analysis says of a graph.  An order that takes every node follows
every edge:

    g.topologicalOrder = .ok order → e ∈ g.edges →
      order.idxOf e.source < order.idxOf e.target        (topologicalOrder_lt)

so positions in it are a rank under which no path of edges comes back.
-/

namespace Flowgraph.Graph

/-! ## Edges -/

/-- What is taken comes after the sources of its edges that waited. -/
theorem peel_lt (edges : List Edge) (n : Nat) (waiting : List String) (e : Edge) (he : e ∈ edges)
    (hs : e.source ∈ waiting) (ht : e.target ∈ (peel edges n waiting).1) :
    e.source ∈ (peel edges n waiting).1 ∧
      (peel edges n waiting).1.idxOf e.source < (peel edges n waiting).1.idxOf e.target := by
  induction n generalizing waiting with
  | zero => cases ht
  | succ n ih =>
    simp only [peel] at ht ⊢
    cases hf : waiting.find? (!isHeldBack edges waiting ·) with
    | none =>
      rw [hf] at ht
      cases ht
    | some id =>
      rw [hf] at ht
      have hfree : isHeldBack edges waiting id = false := by simpa using List.find?_some hf
      have hid : e.target ≠ id := by
        intro heq
        have hheld := isHeldBack_eq_true_iff.2 ⟨e, he, heq, hs⟩
        rw [hfree] at hheld
        cases hheld
      have hrest := (List.mem_cons.1 ht).resolve_left hid
      rw [List.idxOf_cons_ne _ (Ne.symm hid)]
      by_cases hsid : e.source = id
      · rw [hsid, List.idxOf_cons_self]
        exact ⟨List.mem_cons_self, Nat.succ_pos _⟩
      · rw [List.idxOf_cons_ne _ (Ne.symm hsid)]
        obtain ⟨hmem, hlt⟩ := ih (waiting.erase id) ((List.mem_erase_of_ne hsid).2 hs) hrest
        exact ⟨List.mem_cons_of_mem _ hmem, Nat.succ_lt_succ hlt⟩

theorem topologicalOrder_lt (g : Graph) (order : List String) (h : g.topologicalOrder = .ok order)
    (e : Edge) (he : e ∈ g.edges) : order.idxOf e.source < order.idxOf e.target := by
  have hpeel := topologicalOrder_eq_ok_iff.1 h
  have hall := peel_perm g.edges g.nodes.length (NameSet.ofList g.ids).toList
  have hlt := peel_lt g.edges g.nodes.length (NameSet.ofList g.ids).toList e he
    (NameSet.mem_ofList.2 (g.closed e he).1)
  rw [hpeel, List.append_nil] at hall
  rw [hpeel] at hlt
  exact (hlt (hall.mem_iff.2 (NameSet.mem_ofList.2 (g.closed e he).2))).2

/-! ## Shape -/

theorem theNode_eq_ok (g : Graph) (type : NodeType) (role id : String)
    (h : g.theNode type role = .ok id) :
    ∃ n ∈ g.nodes, n.type = type ∧ n.id = id ∧ ∀ m ∈ g.nodes, m.type = type → m = n := by
  unfold theNode at h
  split at h
  · rename_i id' hone
    obtain ⟨n, hn, hid⟩ := List.map_eq_singleton_iff.1 hone
    have hmem : ∀ m, m ∈ g.nodes ∧ m.type = type ↔ m = n := by
      intro m
      have hfilter : m ∈ g.nodes.filter (fun x => decide (x.type = type)) ↔ _ := List.mem_filter
      rw [hn, List.mem_singleton, decide_eq_true_iff] at hfilter
      exact hfilter.symm
    have hself := (hmem n).2 rfl
    refine ⟨n, hself.1, hself.2, ?_, fun m hm ht => (hmem m).1 ⟨hm, ht⟩⟩
    rw [hid, Except.ok.inj h]
  · cases h
  · cases h

theorem checkConnections_eq_ok (g : Graph) (h : g.checkConnections = .ok ()) (n : Node)
    (hn : n ∈ g.nodes) : g.connectionFault? n = none := by
  unfold checkConnections at h
  split at h
  · cases h
  · rename_i hnone
    exact List.findSome?_eq_none_iff.1 hnone n hn

/-- What can be wrong with a node that is neither the start nor the end. -/
theorem connectionFault?_eq (g : Graph) (n : Node) (hstart : n.type ≠ .start)
    (hfinish : n.type ≠ .finish) : g.connectionFault? n =
      if !g.edges.any (·.target == n.id) && !g.edges.any (·.source == n.id) then
        some (.orphan n.id)
      else if !g.edges.any (·.target == n.id) then some (.noIncoming n.id)
      else if !g.edges.any (·.source == n.id) && !n.type.isStep then some (.noOutgoing n.id)
      else none := by
  unfold connectionFault?
  cases ht : n.type with
  | start => exact absurd ht hstart
  | finish => exact absurd ht hfinish
  | branch => rfl
  | approval => rfl
  | step kind => rfl

/-- A node that is not the start and not the end is entered by an edge. -/
theorem entered_of_connectionFault? (g : Graph) (n : Node) (h : g.connectionFault? n = none)
    (hstart : n.type ≠ .start) (hfinish : n.type ≠ .finish) : ∃ e ∈ g.edges, e.target = n.id := by
  rw [connectionFault?_eq g n hstart hfinish] at h
  cases hin : g.edges.any (·.target == n.id) with
  | true => simpa using hin
  | false =>
    rw [hin] at h
    split at h
    · cases h
    · cases h

/-- A node that is not the end is left by an edge, or is a step. -/
theorem left_of_connectionFault? (g : Graph) (n : Node) (h : g.connectionFault? n = none)
    (hfinish : n.type ≠ .finish) : (∃ e ∈ g.edges, e.source = n.id) ∨ n.type.isStep = true := by
  cases hout : g.edges.any (·.source == n.id) with
  | true =>
    left
    simpa using hout
  | false =>
    right
    by_cases hstart : n.type = .start
    · unfold connectionFault? at h
      rw [hstart, hout] at h
      cases h
    · rw [connectionFault?_eq g n hstart hfinish, hout] at h
      cases hstep : n.type.isStep with
      | true => rfl
      | false =>
        rw [hstep] at h
        split at h
        · cases h
        · split at h
          · cases h
          · cases h

end Flowgraph.Graph
