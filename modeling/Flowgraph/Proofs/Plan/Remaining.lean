import Flowgraph.Proofs.Plan.LeastOrder

/-!
# The nodes that no order reaches

Where no topological order is found, the error names the nodes that a cycle holds
back, and no others: those on a cycle and those that edges lead to from one.

    g.topologicalOrder = .error e → ∃ left, e = .cycle left ∧
      ∀ id, id ∈ left ↔ ∃ c, TransGen g.Joined c c ∧ ReflTransGen g.Joined c id
                                                            (cycle_of_topologicalOrder)

What is taken comes after all that leads to it (`taken_of_transGen`), so nothing on a
cycle is taken and nothing behind one.  Conversely each node that is left is held back
by one that is left, and going back along these some node comes up again
(`exists_cycle_of_left`).
-/

namespace Flowgraph.Graph

open Relation

variable {g : Graph}

/-- The nodes that are taken, in order, and those that are left when no more can be. -/
abbrev peeled (g : Graph) : List String × List String :=
  peel g.edges g.nodes.length (NameSet.ofList g.ids).toList

theorem mem_peeled {id : String} (hid : id ∈ g.ids) : id ∈ g.peeled.1 ∨ id ∈ g.peeled.2 := by
  rw [← List.mem_append, (peel_perm _ _ _).mem_iff]
  exact NameSet.mem_ofList.2 hid

theorem ids_of_joined {a b : String} (h : g.Joined a b) : a ∈ g.ids ∧ b ∈ g.ids := by
  obtain ⟨e, he, rfl, rfl⟩ := h
  exact g.closed e he

/-! ## Behind a cycle -/

/-- What leads to a node that is taken was taken before it. -/
theorem taken_of_transGen {a b : String} (h : TransGen g.Joined a b) (hb : b ∈ g.peeled.1) :
    a ∈ g.peeled.1 ∧ g.peeled.1.idxOf a < g.peeled.1.idxOf b := by
  have hedge : ∀ {a b}, g.Joined a b → b ∈ g.peeled.1 →
      a ∈ g.peeled.1 ∧ g.peeled.1.idxOf a < g.peeled.1.idxOf b := by
    rintro _ _ ⟨e, he, rfl, rfl⟩ ht
    exact peel_lt _ _ _ e he (NameSet.mem_ofList.2 (g.closed e he).1) ht
  induction h with
  | single hj => exact hedge hj hb
  | tail _ hj ih =>
    obtain ⟨hmid, hlt⟩ := hedge hj hb
    obtain ⟨ha, hlt'⟩ := ih hmid
    exact ⟨ha, Nat.lt_trans hlt' hlt⟩

/-- A node on a cycle is left, and so is each that edges lead to from it. -/
theorem left_of_cycle {c id : String} (hc : TransGen g.Joined c c) (h : ReflTransGen g.Joined c id) :
    id ∈ g.peeled.2 := by
  have hback : TransGen g.Joined c id := hc.trans_left h
  have hid : id ∈ g.ids := by
    obtain ⟨b, -, hj⟩ := TransGen.tail'_iff.1 hback
    exact (ids_of_joined hj).2
  refine (mem_peeled hid).resolve_left fun htaken => ?_
  have hct := (taken_of_transGen hback htaken).1
  exact Nat.lt_irrefl _ (taken_of_transGen hc hct).2

/-! ## Stuck -/

/-- From each node that is left there is a way back to a cycle. -/
theorem exists_cycle_of_left {id : String} (hid : id ∈ g.peeled.2) :
    ∃ c, TransGen g.Joined c c ∧ ReflTransGen g.Joined c id := by
  classical
  by_contra hnone
  -- the nodes left on the ways to this one, each with an edge from another of them
  let onWay : String → String → Prop := fun a b => g.Joined a b ∧ ReflTransGen g.Joined b id
  have hacyclic : ∀ a, ¬ TransGen onWay a a := by
    intro a ha
    obtain ⟨b, -, hb⟩ := TransGen.tail'_iff.1 ha
    exact hnone ⟨a, TransGen.mono (fun _ _ => And.left) a a ha, hb.2⟩
  have hempty : g.peeled.2.filter (ReflTransGen g.Joined · id) = [] := by
    refine eq_nil_of_acyclic hacyclic fun b hb => ?_
    obtain ⟨hleft, hway⟩ := List.mem_filter.1 hb
    have hway := of_decide_eq_true hway
    obtain ⟨e, he, ht, hs⟩ := exists_edge_of_left g.edges g.nodes.length _
      (Nat.le_of_eq g.length_toList_ids) b hleft
    have hj : g.Joined e.source b := ⟨e, he, rfl, ht⟩
    exact ⟨e.source, List.mem_filter.2 ⟨hs, decide_eq_true (hway.head hj)⟩, hj, hway⟩
  exact List.filter_eq_nil_iff.1 hempty id hid (decide_eq_true .refl)

/-! ## The error -/

/-- Where no order takes every node, the error names in ascending order those on a cycle and
those that edges lead to from one, and no other. -/
theorem cycle_of_topologicalOrder {e : GraphError} (h : g.topologicalOrder = .error e) :
    ∃ left, e = .cycle left ∧ left.Pairwise (nameBytes · < nameBytes ·) ∧
      ∀ id, id ∈ left ↔ ∃ c, TransGen g.Joined c c ∧ ReflTransGen g.Joined c id := by
  have hleft : e = .cycle g.peeled.2 := by
    rw [topologicalOrder_eq_peel] at h
    split at h
    · cases h
    · rename_i hpeel
      rw [peeled, hpeel]
      exact (Except.error.inj h).symm
  refine ⟨_, hleft, ?_, fun id => ⟨exists_cycle_of_left, fun ⟨c, hc, hid⟩ => left_of_cycle hc hid⟩⟩
  exact ((NameSet.ascending _).sublist (left_sublist _ _ _)).imp lt_iff_nameBytes_lt.1

/-- Two cycles with a node before them and one behind, edges that are drawn twice, and a node
that is held back by none. -/
def tangled : Graph where
  nodes := ["behind", "loop", "b", "a", "free", "before"].map fun id => { id, type := .step "task" }
  edges := [.between "loop" "behind", .between "loop" "loop", .between "a" "b", .between "a" "b",
    .between "before" "a", .between "b" "a", .between "before" "free"]
  distinct := by decide
  closed := by decide

theorem cycle_of_tangled :
    tangled.topologicalOrder = .error (.cycle ["a", "b", "behind", "loop"]) ∧
      ∃ left, GraphError.cycle ["a", "b", "behind", "loop"] = .cycle left ∧
        left.Pairwise (nameBytes · < nameBytes ·) ∧ ∀ id, id ∈ left ↔
          ∃ c, TransGen tangled.Joined c c ∧ ReflTransGen tangled.Joined c id := by
  have h : tangled.topologicalOrder = .error (.cycle ["a", "b", "behind", "loop"]) := by
    decide +kernel
  exact ⟨h, cycle_of_topologicalOrder h⟩

end Flowgraph.Graph
