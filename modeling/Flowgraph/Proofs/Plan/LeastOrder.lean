import Flowgraph.Proofs.Names.Bytes
import Flowgraph.Proofs.Plan.Order
import Mathlib.Data.Fintype.Card
import Mathlib.Data.Fintype.EquivFin
import Mathlib.Data.Fintype.Sets
import Mathlib.Data.List.Nodup
import Mathlib.Logic.Relation

/-!
# The least topological order

A topological order is found exactly if no path of edges comes back, and it is then the
least of all orders that follow the edges, names compared by their bytes:

    (∃ order, g.topologicalOrder = .ok order) ↔ ∀ a, ¬ TransGen g.Joined a a
    g.topologicalOrder = .ok order ↔ g.Orders order ∧
      ∀ l, g.Orders l → l = order ∨ order.map nameBytes < l.map nameBytes
                                                             (topologicalOrder_least)

Peeling gets stuck only where each node that is left is held back by one that is left,
and then some path comes back (`exists_topologicalOrder_iff`).  It takes the least free
node each time, and the first node of any order is free (`peel_least`).
-/

namespace Flowgraph.Graph

open Relation

/-- An edge leads from one node to another. -/
def Joined (g : Graph) (a b : String) : Prop := ∃ e ∈ g.edges, e.source = a ∧ e.target = b

/-- A list of all nodes in which the source of every edge stands before its target. -/
structure Orders (g : Graph) (l : List String) : Prop where
  perm : l.Perm g.ids
  forward : ∀ e ∈ g.edges, l.idxOf e.source < l.idxOf e.target

/-! ## Peeling -/

/-- Peeling as often as nodes wait leaves only nodes that are held back by nodes that are left. -/
theorem exists_edge_of_left (edges : List Edge) (n : Nat) (waiting : List String)
    (hn : waiting.length ≤ n) (id : String) (hid : id ∈ (peel edges n waiting).2) :
    ∃ e ∈ edges, e.target = id ∧ e.source ∈ (peel edges n waiting).2 := by
  induction n generalizing waiting with
  | zero =>
    have hempty : waiting = [] := List.length_eq_zero_iff.1 (by omega)
    rw [hempty] at hid
    cases hid
  | succ n ih =>
    simp only [peel] at hid ⊢
    cases hf : waiting.find? (!isHeldBack edges waiting ·) with
    | none =>
      rw [hf] at hid
      have hheld := List.find?_eq_none.1 hf id hid
      exact isHeldBack_eq_true_iff.1 (by simpa using hheld)
    | some a =>
      rw [hf] at hid
      have hlength := List.length_erase_of_mem (List.mem_of_find?_eq_some hf)
      exact ih (waiting.erase a) (by omega) hid

/-! ## Cycles -/

/-- Where no path comes back, a list is empty in which each node is reached from one of the list. -/
theorem eq_nil_of_acyclic {α : Type} [DecidableEq α] {R : α → α → Prop}
    (hacyclic : ∀ a, ¬ TransGen R a a) {l : List α} (hl : ∀ b ∈ l, ∃ a ∈ l, R a b) : l = [] := by
  have htrans : IsTrans {a // a ∈ l} fun a b => TransGen R a b := ⟨fun _ _ _ => TransGen.trans⟩
  have hirrefl : Std.Irrefl fun a b : {a // a ∈ l} => TransGen R a b := ⟨fun a => hacyclic a⟩
  have hwf : WellFounded fun a b : {a // a ∈ l} => TransGen R a b :=
    Finite.wellFounded_of_trans_of_irrefl _
  by_contra hne
  obtain ⟨x, hx⟩ := List.exists_mem_of_ne_nil l hne
  -- no node of the list can be the first that is reached
  have hnone : ∀ b : {a // a ∈ l}, False := by
    intro b
    induction b using hwf.induction with
    | _ b ih =>
      obtain ⟨a, ha, hab⟩ := hl b b.2
      exact ih ⟨a, ha⟩ (.single hab)
  exact hnone ⟨x, hx⟩

/-- No path of edges comes back where a list has the source of every edge before its target. -/
theorem acyclic_of_forward {g : Graph} {l : List String}
    (hforward : ∀ e ∈ g.edges, l.idxOf e.source < l.idxOf e.target) (a : String) :
    ¬ TransGen g.Joined a a := by
  have hup : ∀ b, TransGen g.Joined a b → l.idxOf a < l.idxOf b := by
    intro b hb
    induction hb with
    | single hj =>
      obtain ⟨e, he, rfl, rfl⟩ := hj
      exact hforward e he
    | tail _ hj ih =>
      obtain ⟨e, he, rfl, rfl⟩ := hj
      exact Nat.lt_trans ih (hforward e he)
  exact fun ha => Nat.lt_irrefl _ (hup a ha)

/-- A topological order is found exactly if no path of edges comes back. -/
theorem exists_topologicalOrder_iff {g : Graph} :
    (∃ order, g.topologicalOrder = .ok order) ↔ ∀ a, ¬ TransGen g.Joined a a := by
  constructor
  · rintro ⟨order, h⟩ a
    exact acyclic_of_forward (topologicalOrder_lt g order h) a
  · intro hacyclic
    have hleft : (peel g.edges g.nodes.length (NameSet.ofList g.ids).toList).2 = [] := by
      refine eq_nil_of_acyclic hacyclic fun b hb => ?_
      obtain ⟨e, he, ht, hs⟩ := exists_edge_of_left g.edges g.nodes.length _
        (Nat.le_of_eq g.length_toList_ids) b hb
      exact ⟨e.source, hs, e, he, rfl, ht⟩
    exact ⟨_, topologicalOrder_eq_ok_iff.2 (Prod.ext rfl hleft)⟩

/-! ## The least order -/

/-- What peeling takes, if it takes all, is the least list of these nodes that follows the edges. -/
theorem peel_least {edges : List Edge} {n : Nat} {waiting order l : List String}
    (h : peel edges n waiting = (order, [])) (hascending : waiting.Pairwise (· < ·))
    (hperm : l.Perm waiting)
    (hforward : ∀ e ∈ edges, e.source ∈ l → e.target ∈ l → l.idxOf e.source < l.idxOf e.target) :
    l = order ∨ order < l := by
  induction l generalizing n waiting order with
  | nil =>
    left
    have hall := peel_perm edges n waiting
    rw [h, ← hperm.nil_eq, List.append_nil] at hall
    exact hall.symm.nil_eq
  | cons a l ih =>
    have hmem : a ∈ waiting := hperm.mem_iff.1 List.mem_cons_self
    obtain ⟨k, id, rest, hf, rfl, hrest⟩ := exists_taken h (List.ne_nil_of_mem hmem)
    -- nothing stands before the first node of an order, so nothing holds it back
    have hfree : isHeldBack edges waiting a = false := by
      by_contra hheld
      obtain ⟨e, he, ht, hs⟩ := isHeldBack_eq_true_iff.1 (by simpa using hheld)
      have hlt := hforward e he (hperm.mem_iff.2 hs) (by rw [ht]; exact List.mem_cons_self)
      rw [ht, List.idxOf_cons_self] at hlt
      omega
    have hle : id ≤ a := le_of_find? hascending hf hmem (by simp [hfree])
    by_cases heq : a = id
    · subst heq
      have hnodup : (a :: l).Nodup := hperm.nodup_iff.2 (hascending.imp String.ne_of_lt)
      have hother : ∀ b ∈ l, a ≠ b := fun b hb hab => (List.nodup_cons.1 hnodup).1 (hab ▸ hb)
      have hrestperm : l.Perm (waiting.erase a) :=
        (hperm.trans (List.perm_cons_erase hmem)).cons_inv
      have hrestforward : ∀ e ∈ edges, e.source ∈ l → e.target ∈ l →
          l.idxOf e.source < l.idxOf e.target := by
        intro e he hs ht
        have hlt := hforward e he (List.mem_cons_of_mem _ hs) (List.mem_cons_of_mem _ ht)
        rw [List.idxOf_cons_ne _ (hother _ hs), List.idxOf_cons_ne _ (hother _ ht)] at hlt
        omega
      rcases ih hrest (hascending.sublist List.erase_sublist) hrestperm hrestforward with
        heq | hlt
      · exact .inl (by rw [heq])
      · exact .inr (List.cons_lt_cons_iff.2 (.inr ⟨rfl, hlt⟩))
    · right
      exact List.cons_lt_cons_iff.2 (.inl (name_lt_of_not_lt (String.not_lt.2 hle) heq))

/-- The order that is found follows the edges. -/
theorem orders_of_topologicalOrder {g : Graph} {order : List String}
    (h : g.topologicalOrder = .ok order) : g.Orders order where
  perm := by
    have hall := peel_perm g.edges g.nodes.length (NameSet.ofList g.ids).toList
    rw [topologicalOrder_eq_ok_iff.1 h, List.append_nil] at hall
    exact hall.trans g.toList_ids_perm
  forward := topologicalOrder_lt g order h

/-- No other order comes before the one that is found. -/
theorem least_of_topologicalOrder {g : Graph} {order l : List String}
    (h : g.topologicalOrder = .ok order) (hl : g.Orders l) :
    l = order ∨ order.map nameBytes < l.map nameBytes := by
  have hleast := peel_least (topologicalOrder_eq_ok_iff.1 h) (NameSet.ofList g.ids).ascending
    (hl.perm.trans g.toList_ids_perm.symm) fun e he _ _ => hl.forward e he
  exact hleast.imp id (List.map_lt fun _ _ => lt_iff_nameBytes_lt.1)

/-- There is a topological order exactly if no path of edges comes back.  The one that is found holds
every node once, with the source of every edge before its target, and of all such lists it is the
least, compared name by name and the names byte by byte. -/
theorem topologicalOrder_least (g : Graph) :
    ((∃ order, g.topologicalOrder = .ok order) ↔ ∀ a, ¬ TransGen g.Joined a a) ∧
    ∀ order, g.topologicalOrder = .ok order ↔
      g.Orders order ∧ ∀ l, g.Orders l → l = order ∨ order.map nameBytes < l.map nameBytes := by
  refine ⟨exists_topologicalOrder_iff, fun order => ⟨fun h => ?_, ?_⟩⟩
  · exact ⟨orders_of_topologicalOrder h, fun l hl => least_of_topologicalOrder h hl⟩
  · rintro ⟨horders, hleast⟩
    obtain ⟨found, hfound⟩ := exists_topologicalOrder_iff.2 (acyclic_of_forward horders.forward)
    rcases hleast found (orders_of_topologicalOrder hfound) with rfl | hlt
    · exact hfound
    rcases least_of_topologicalOrder hfound horders with rfl | hgt
    · exact hfound
    · exact absurd hlt (List.lt_asymm hgt)

end Flowgraph.Graph
