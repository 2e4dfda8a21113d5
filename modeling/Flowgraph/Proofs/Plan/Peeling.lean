import Flowgraph.Graph.Analysis
import Mathlib.Data.List.Nodup

/-!
# Topological orders as peeling

The order of a graph takes nodes by counts of edges.  It takes the same nodes as
peeling does, which looks at the edges themselves: it takes the first of the nodes that
wait to which no edge leads from a node that waits.

    g.topologicalOrder = match peel g.edges g.nodes.length (NameSet.ofList g.ids).toList with
      | (order, []) => .ok order
      | (_, left) => .error (.cycle left)                      (topologicalOrder_eq_peel)

At every turn the counts are those of the edges from nodes that wait (`Sorting.Tracks`),
edges with the same ends counted each.
-/

namespace Flowgraph.Graph

/-- Whether some node still waiting has an edge to this one. -/
def isHeldBack (edges : List Edge) (waiting : List String) (id : String) : Bool :=
  edges.any fun e => e.target == id && waiting.contains e.source

/-- Takes the first node that is not held back, up to a number of times; answers the nodes taken,
in order, and the nodes still waiting. -/
def peel (edges : List Edge) : Nat → List String → List String × List String
  | 0, waiting => ([], waiting)
  | n + 1, waiting =>
    match waiting.find? (!isHeldBack edges waiting ·) with
    | none => ([], waiting)
    | some id =>
      let (taken, left) := peel edges n (waiting.erase id)
      (id :: taken, left)

/-- How many edges lead to a node from nodes still waiting. -/
def heldBy (edges : List Edge) (waiting : List String) (id : String) : Nat :=
  edges.countP fun e => e.target == id && waiting.contains e.source

/-! ## Peeling -/

theorem isHeldBack_eq_true_iff {edges : List Edge} {waiting : List String} {id : String} :
    isHeldBack edges waiting id = true ↔ ∃ e ∈ edges, e.target = id ∧ e.source ∈ waiting := by
  simp [isHeldBack]

theorem heldBy_eq_zero_iff {edges : List Edge} {waiting : List String} {id : String} :
    heldBy edges waiting id = 0 ↔ isHeldBack edges waiting id = false := by
  rw [heldBy, List.countP_eq_zero, isHeldBack, List.any_eq_false]

theorem heldBy_pos {edges : List Edge} {waiting : List String} {e : Edge} (he : e ∈ edges)
    (hs : e.source ∈ waiting) : 0 < heldBy edges waiting e.target :=
  List.countP_pos_iff.2 ⟨e, he, by simpa using hs⟩

/-- Of the edges that hold a node back, those from a node that is taken do so no longer. -/
theorem heldBy_eq_add {g : Graph} {waiting : List String} (hnodup : waiting.Nodup) {id : String}
    (hid : id ∈ waiting) (a : String) :
    heldBy g.edges waiting a =
      heldBy g.edges (waiting.erase id) a + ((g.outgoing id).map (·.target)).count a := by
  rw [outgoing, List.count_eq_countP, List.countP_map, List.countP_filter, heldBy, heldBy]
  induction g.edges with
  | nil => rfl
  | cons e edges ih =>
    rw [List.countP_cons, List.countP_cons, List.countP_cons, ih]
    by_cases ht : e.target = a
    · by_cases hs : e.source = id
      · simp [ht, hs, hid, hnodup.not_mem_erase]
        omega
      · simp [ht, hs, List.mem_erase_of_ne hs]
        omega
    · simp [ht]

/-- Peeling splits the nodes that wait. -/
theorem peel_perm (edges : List Edge) (n : Nat) (waiting : List String) :
    ((peel edges n waiting).1 ++ (peel edges n waiting).2).Perm waiting := by
  induction n generalizing waiting with
  | zero => exact List.Perm.refl _
  | succ n ih =>
    simp only [peel]
    cases hf : waiting.find? (!isHeldBack edges waiting ·) with
    | none => exact List.Perm.refl _
    | some id =>
      have hmem : id ∈ waiting := List.mem_of_find?_eq_some hf
      exact ((ih (waiting.erase id)).cons id).trans (List.perm_cons_erase hmem).symm

/-- Peeling that takes all nodes takes the first free one, and then the others. -/
theorem exists_taken {edges : List Edge} {n : Nat} {waiting order : List String}
    (h : peel edges n waiting = (order, [])) (hne : waiting ≠ []) :
    ∃ k id rest, waiting.find? (!isHeldBack edges waiting ·) = some id ∧ order = id :: rest ∧
      peel edges k (waiting.erase id) = (rest, []) := by
  cases n with
  | zero =>
    simp only [peel, Prod.mk.injEq] at h
    exact absurd h.2 hne
  | succ k =>
    simp only [peel] at h
    cases hf : waiting.find? (!isHeldBack edges waiting ·) with
    | none =>
      rw [hf] at h
      simp only [Prod.mk.injEq] at h
      exact absurd h.2 hne
    | some id =>
      rw [hf] at h
      simp only [Prod.mk.injEq] at h
      exact ⟨k, id, _, rfl, h.1.symm, Prod.ext rfl h.2⟩

/-- The nodes that are left keep their order. -/
theorem left_sublist (edges : List Edge) (n : Nat) (waiting : List String) :
    (peel edges n waiting).2.Sublist waiting := by
  induction n generalizing waiting with
  | zero => exact List.Sublist.refl _
  | succ n ih =>
    simp only [peel]
    cases hf : waiting.find? (!isHeldBack edges waiting ·) with
    | none => exact List.Sublist.refl _
    | some id => exact (ih (waiting.erase id)).trans List.erase_sublist

/-! ## Counts -/

theorem find?_foldl_countTarget (edges : List Edge) (m : NameMap Nat) (id : String) {k : Nat}
    (hk : m.find? id = some k) :
    (edges.foldl countTarget m).find? id = some (k + edges.countP (·.target == id)) := by
  induction edges generalizing m k with
  | nil => simpa using hk
  | cons e edges ih =>
    rw [List.foldl_cons, List.countP_cons]
    by_cases ht : e.target = id
    · have hmore : (countTarget m e).find? id = some (k + 1) := by
        rw [countTarget, NameMap.find?_insert, if_pos ht.symm, ht, hk, Option.getD_some]
      rw [ih _ hmore]
      simp [ht]
      omega
    · have hsame : (countTarget m e).find? id = some k := by
        rw [countTarget, NameMap.find?_insert, if_neg (Ne.symm ht), hk]
      rw [ih _ hsame]
      simp [ht]

theorem mem_keys_foldl_countTarget (edges : List Edge) (m : NameMap Nat) (id : String) :
    id ∈ (edges.foldl countTarget m).keys ↔ id ∈ m.keys ∨ ∃ e ∈ edges, e.target = id := by
  induction edges generalizing m with
  | nil => simp
  | cons e edges ih =>
    have hkey : id ∈ (countTarget m e).keys ↔ id ∈ m.keys ∨ e.target = id := by
      rw [NameMap.mem_keys, NameMap.mem_keys, countTarget, NameMap.find?_insert]
      by_cases ht : id = e.target
      · simp [ht]
      · simp [ht, Ne.symm ht]
    rw [List.foldl_cons, ih, hkey, or_assoc, List.exists_mem_cons_iff]

/-- Counting starts at zero. -/
theorem find?_zeros (g : Graph) {id : String} (hid : id ∈ g.ids) :
    (NameMap.ofList (g.ids.map fun id => (id, 0))).find? id = some 0 :=
  (NameMap.find?_ofList_of_nodup (g.nodup_keys_ids _)).2 (List.mem_map_of_mem hid)

theorem find?_degrees (g : Graph) {id : String} (hid : id ∈ g.ids) :
    g.degrees.find? id = some (g.edges.countP (·.target == id)) := by
  rw [degrees, find?_foldl_countTarget _ _ _ (g.find?_zeros hid), Nat.zero_add]

/-- All nodes are counted, and nothing else. -/
theorem keys_degrees (g : Graph) : g.degrees.keys = NameSet.ofList g.ids := by
  refine NameSet.ext fun a => ?_
  rw [degrees, mem_keys_foldl_countTarget, NameSet.mem_ofList]
  constructor
  · rintro (hkey | ⟨e, he, rfl⟩)
    · obtain ⟨k, hk⟩ := NameMap.mem_keys.1 hkey
      obtain ⟨id, hid, heq⟩ := List.mem_map.1 (NameMap.mem_of_find?_ofList hk)
      cases heq
      exact hid
    · exact (g.closed e he).2
  · intro ha
    exact .inl (NameMap.mem_keys.2 ⟨0, g.find?_zeros ha⟩)

theorem toList_ids_perm (g : Graph) : (NameSet.ofList g.ids).toList.Perm g.ids :=
  (List.perm_ext_iff_of_nodup (NameSet.nodup_toList _) g.distinct).2 fun _ => NameSet.mem_ofList

theorem length_toList_ids (g : Graph) : (NameSet.ofList g.ids).toList.length = g.nodes.length := by
  rw [g.toList_ids_perm.length_eq, ids, List.length_map]

theorem size_degrees (g : Graph) : g.degrees.size = g.nodes.length := by
  have hkeys : g.degrees.keys.toList.length = g.degrees.size := List.length_map _
  rw [← hkeys, keys_degrees, length_toList_ids]

/-! ## Releasing -/

namespace Sorting

theorem find?_release (s : Sorting) (a id : String) :
    (s.release a).degrees.find? id =
      if id = a then (s.degrees.find? id).map (· - 1) else s.degrees.find? id := by
  unfold release
  by_cases ha : id = a
  · rw [if_pos ha, ha]
    cases hk : s.degrees.find? a with
    | none => exact hk
    | some k => rw [NameMap.find?_insert, if_pos rfl, Option.map_some]
  · rw [if_neg ha]
    cases s.degrees.find? a with
    | none => rfl
    | some k => rw [NameMap.find?_insert, if_neg ha]

theorem mem_ready_release (s : Sorting) (a id : String) :
    id ∈ (s.release a).ready ↔
      id ∈ s.ready ∨ (id = a ∧ ∃ k, s.degrees.find? id = some k ∧ k ≤ 1) := by
  unfold release
  by_cases ha : id = a
  · rw [← ha]
    cases s.degrees.find? id with
    | none => simp
    | some k =>
      dsimp only
      split
      · simp
        omega
      · simp
        omega
  · cases s.degrees.find? a with
    | none => simp [ha]
    | some k =>
      dsimp only
      split
      · simp [ha]
      · simp [ha]

/-- Each edge released is one less. -/
theorem find?_foldl_release (targets : List String) (s : Sorting) (id : String) {k : Nat}
    (hk : s.degrees.find? id = some k) :
    (targets.foldl release s).degrees.find? id = some (k - targets.count id) := by
  induction targets generalizing s k with
  | nil => simpa using hk
  | cons a targets ih =>
    rw [List.foldl_cons]
    by_cases ha : id = a
    · have hless : (s.release a).degrees.find? id = some (k - 1) := by
        rw [find?_release, if_pos ha, hk, Option.map_some]
      rw [ih _ hless, ← ha, List.count_cons_self]
      congr 1
      omega
    · have hsame : (s.release a).degrees.find? id = some k := by
        rw [find?_release, if_neg ha, hk]
      rw [ih _ hsame, List.count_cons_of_ne (Ne.symm ha)]

/-- Those edges make a node ready that are all that hold it back. -/
theorem mem_ready_foldl_release (targets : List String) (s : Sorting) (id : String) :
    id ∈ (targets.foldl release s).ready ↔
      id ∈ s.ready ∨ (id ∈ targets ∧ ∃ k, s.degrees.find? id = some k ∧ k ≤ targets.count id) := by
  induction targets generalizing s with
  | nil => simp
  | cons a targets ih =>
    rw [List.foldl_cons, ih, mem_ready_release, or_assoc, find?_release]
    refine or_congr_right ?_
    by_cases ha : id = a
    · rw [if_pos ha, ← ha, List.count_cons_self]
      cases s.degrees.find? id with
      | none => simp
      | some k =>
        simp only [Option.map_some, Option.some.injEq, exists_eq_left', true_and, List.mem_cons,
          true_or]
        by_cases hmem : id ∈ targets
        · simp only [hmem, true_and]
          omega
        · rw [List.count_eq_zero.2 hmem]
          simp only [hmem, false_and, or_false, Nat.zero_add]
    · rw [if_neg ha, List.count_cons_of_ne (Ne.symm ha)]
      simp only [ha, false_and, false_or, List.mem_cons]

/-! ## Counts of the nodes that wait -/

/-- The counts and the ready nodes are those of the nodes that wait; nothing holds the others back. -/
structure Tracks (s : Sorting) (g : Graph) (waiting : List String) : Prop where
  degree : ∀ id ∈ g.ids, s.degrees.find? id = some (heldBy g.edges waiting id)
  ready : ∀ id, id ∈ s.ready ↔ id ∈ waiting ∧ heldBy g.edges waiting id = 0
  free : ∀ id ∈ g.ids, id ∉ waiting → heldBy g.edges waiting id = 0

variable {g : Graph} {s : Sorting} {waiting : List String}

/-- The edges of a node that waits lead to nodes that wait. -/
theorem Tracks.target_mem (h : s.Tracks g waiting) {e : Edge} (he : e ∈ g.edges)
    (hs : e.source ∈ waiting) : e.target ∈ waiting := by
  by_contra hgone
  have hzero := h.free e.target (g.closed e he).2 hgone
  have hpos := heldBy_pos he hs
  omega

/-- Taking a ready node keeps the counts. -/
theorem tracks_take (h : s.Tracks g waiting) (hnodup : waiting.Nodup) {id : String}
    (hid : id ∈ s.ready) : (s.take g id).Tracks g (waiting.erase id) := by
  obtain ⟨hwaits, hfree⟩ := (h.ready id).1 hid
  have hsplit := heldBy_eq_add (g := g) hnodup hwaits
  refine ⟨fun a ha => ?_, fun a => ?_, fun a ha hgone => ?_⟩
  · have hless := find?_foldl_release ((g.outgoing id).map (·.target))
      { s with ready := s.ready.erase id } a (h.degree a ha)
    rw [hsplit a, Nat.add_sub_cancel] at hless
    exact hless
  · have herase : a ∈ s.ready.erase id ↔ a ∈ s.ready ∧ a ≠ id := by simp [NameSet.erase]
    rw [take, mem_ready_foldl_release, herase, h.ready]
    constructor
    · rintro (⟨⟨hmem, hzero⟩, hne⟩ | ⟨htarget, k, hk, hle⟩)
      · have := hsplit a
        exact ⟨(List.mem_erase_of_ne hne).2 hmem, by omega⟩
      · obtain ⟨e, he, rfl⟩ := List.mem_map.1 htarget
        rw [outgoing, List.mem_filter, beq_iff_eq] at he
        obtain ⟨he, rfl⟩ := he
        have hcount : heldBy g.edges waiting e.target = k :=
          Option.some.inj ((h.degree e.target (g.closed e he).2).symm.trans hk)
        -- the node taken is ready, so its edge does not come back to it
        have hne : e.target ≠ e.source := by
          intro heq
          have hpos := heldBy_pos he hwaits
          rw [heq] at hpos
          omega
        have := hsplit e.target
        exact ⟨(List.mem_erase_of_ne hne).2 (h.target_mem he hwaits), by omega⟩
    · rintro ⟨hmem, hzero⟩
      have hmem' : a ∈ waiting := List.mem_of_mem_erase hmem
      have hne : a ≠ id := by
        rintro rfl
        exact hnodup.not_mem_erase hmem
      have := hsplit a
      by_cases hready : heldBy g.edges waiting a = 0
      · exact .inl ⟨⟨hmem', hready⟩, hne⟩
      · have htarget : a ∈ (g.outgoing id).map (·.target) := List.count_pos_iff.1 (by omega)
        obtain ⟨e, he, rfl⟩ := List.mem_map.1 htarget
        have hids := (g.closed e (List.mem_of_mem_filter he)).2
        exact .inr ⟨htarget, _, h.degree _ hids, by omega⟩
  · have hzero : heldBy g.edges waiting a = 0 := by
      by_cases heq : a = id
      · rw [heq, hfree]
      · exact h.free a ha fun hmem => hgone ((List.mem_erase_of_ne heq).2 hmem)
    have := hsplit a
    omega

theorem Tracks.toList_ready (h : s.Tracks g waiting) (hascending : waiting.Pairwise (· < ·)) :
    s.ready.toList = waiting.filter (!isHeldBack g.edges waiting ·) := by
  refine ascending_ext s.ready.ascending (hascending.filter _) fun a => ?_
  rw [NameSet.mem_toList, h.ready, List.mem_filter, heldBy_eq_zero_iff, Bool.not_eq_true']

/-- Taking ready nodes is peeling. -/
theorem Tracks.run_eq (h : s.Tracks g waiting) (hascending : waiting.Pairwise (· < ·)) (n : Nat) :
    s.run g n = (peel g.edges n waiting).1 := by
  induction n generalizing s waiting with
  | zero => rfl
  | succ n ih =>
    have hfirst : s.ready.toList.head? = waiting.find? (!isHeldBack g.edges waiting ·) := by
      rw [h.toList_ready hascending, List.head?_filter]
    simp only [run, peel, ← hfirst]
    cases hr : s.ready.toList with
    | nil => rfl
    | cons id l =>
      have hid : id ∈ s.ready := by
        rw [← NameSet.mem_toList, hr]
        exact List.mem_cons_self
      have hrest := ih (tracks_take h (hascending.imp String.ne_of_lt) hid)
        (hascending.sublist List.erase_sublist)
      simp only [List.head?_cons, hrest]

end Sorting

/-! ## The whole order -/

theorem heldBy_ids (g : Graph) (id : String) :
    heldBy g.edges (NameSet.ofList g.ids).toList id = g.edges.countP (·.target == id) := by
  refine List.countP_congr fun e he => ?_
  have hsource : e.source ∈ NameSet.ofList g.ids := NameSet.mem_ofList.2 (g.closed e he).1
  simp [hsource]

theorem tracks_sorting (g : Graph) : g.sorting.Tracks g (NameSet.ofList g.ids).toList where
  degree id hid := by rw [sorting, heldBy_ids, find?_degrees g hid]
  ready id := by
    rw [heldBy_ids, NameSet.mem_toList, ← keys_degrees, sorting, NameMap.mem_keys, NameMap.mem_keys]
    simp only [NameMap.find?_filter_eq_some_iff, beq_iff_eq]
    have hcount : ∀ {k}, g.degrees.find? id = some k → g.edges.countP (·.target == id) = k := by
      intro k hk
      have hkey : id ∈ g.degrees.keys := NameMap.mem_keys.2 ⟨k, hk⟩
      rw [keys_degrees, NameSet.mem_ofList] at hkey
      exact Option.some.inj ((find?_degrees g hkey).symm.trans hk)
    constructor
    · rintro ⟨k, hk, rfl⟩
      exact ⟨⟨0, hk⟩, hcount hk⟩
    · rintro ⟨⟨k, hk⟩, hzero⟩
      exact ⟨k, hk, (hcount hk).symm.trans hzero⟩
  free id hid hgone := absurd (NameSet.mem_ofList.2 hid) hgone

/-- The order takes the nodes that peeling does. -/
theorem run_sorting (g : Graph) (n : Nat) :
    g.sorting.run g n = (peel g.edges n (NameSet.ofList g.ids).toList).1 :=
  g.tracks_sorting.run_eq (NameSet.ofList g.ids).ascending n

/-- The order is that of peeling. -/
theorem topologicalOrder_eq_peel (g : Graph) :
    g.topologicalOrder = match peel g.edges g.nodes.length (NameSet.ofList g.ids).toList with
      | (order, []) => .ok order
      | (_, left) => .error (.cycle left) := by
  unfold topologicalOrder
  rw [run_sorting, size_degrees]
  have hsplit := peel_perm g.edges g.nodes.length (NameSet.ofList g.ids).toList
  have hleft := left_sublist g.edges g.nodes.length (NameSet.ofList g.ids).toList
  generalize peel g.edges g.nodes.length (NameSet.ofList g.ids).toList = peeled at hsplit hleft
  obtain ⟨order, left⟩ := peeled
  have hlength : order.length + left.length = g.nodes.length := by
    rw [← List.length_append, hsplit.length_eq, length_toList_ids]
  cases left with
  | nil =>
    rw [List.length_nil] at hlength
    dsimp only
    rw [if_neg (by omega)]
  | cons a left =>
    rw [List.length_cons] at hlength
    have hremaining : (g.degrees.keys.filter (!order.contains ·)).toList = a :: left := by
      refine ascending_ext (NameSet.ascending _) ((NameSet.ascending _).sublist hleft) fun b => ?_
      have hdisjoint : b ∈ order → b ∉ a :: left := by
        intro hb hmem
        have hnodup := hsplit.nodup_iff.2 (NameSet.nodup_toList _)
        exact List.disjoint_of_nodup_append hnodup hb hmem
      have hmem : b ∈ NameSet.ofList g.ids ↔ b ∈ order ∨ b ∈ a :: left :=
        hsplit.mem_iff.symm.trans List.mem_append
      rw [NameSet.mem_toList, NameSet.mem_filter, keys_degrees, hmem, Bool.not_eq_true',
        List.contains_eq_mem, decide_eq_false_iff_not]
      tauto
    dsimp only
    rw [if_pos (by omega), hremaining]

theorem topologicalOrder_eq_ok_iff {g : Graph} {order : List String} :
    g.topologicalOrder = .ok order ↔
      peel g.edges g.nodes.length (NameSet.ofList g.ids).toList = (order, []) := by
  rw [topologicalOrder_eq_peel]
  constructor
  · intro h
    split at h
    · rename_i taken hpeel
      rw [hpeel, Except.ok.inj h]
    · cases h
  · intro h
    rw [h]

end Flowgraph.Graph
