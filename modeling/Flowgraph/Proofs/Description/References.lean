import Flowgraph.Proofs.Plan.Declarations
import Mathlib.Data.List.Induction

/-!
# Faults of references

What is wrong with how nodes and edges refer to each other is told fault by fault: every id that occurs
more than once is reported once, whatever stands between its occurrences, in the order in which the ids
occur for the second time (`NamesRepeats`); then every edge in turn, its source before its target.

    NamesRepeats ids (Sightings.ofIds ids).repeated                        (namesRepeats_ofIds)
    danglingEdges ids index edges = (edges.zipIdx index).flatMap …         (danglingEdges_eq)

So nodes and edges make a graph exactly if ids are distinct and edges join nodes
(`joined_or_reported`).
-/

namespace Flowgraph

/-- An id occurs for the second time. -/
structure SecondAt (ids : List String) (i : Nat) (id : String) : Prop where
  here : ids[i]? = some id
  once : (ids.take i).count id = 1

/-- The ids that occur more than once, each of them once and in the order of their second
occurrences. -/
structure NamesRepeats (ids repeated : List String) : Prop where
  once : ∀ id, repeated.count id = if 2 ≤ ids.count id then 1 else 0
  ordered : repeated.Pairwise fun a b => ∃ i j, i < j ∧ SecondAt ids i a ∧ SecondAt ids j b

namespace SecondAt

variable {ids : List String} {i : Nat} {id : String}

theorem lt_length (h : SecondAt ids i id) : i < ids.length :=
  (List.getElem?_eq_some_iff.1 h.here).1

theorem append (h : SecondAt ids i id) (more : List String) : SecondAt (ids ++ more) i id := by
  refine ⟨?_, ?_⟩
  · rw [List.getElem?_append_left h.lt_length]
    exact h.here
  · rw [List.take_append_of_le_length h.lt_length.le]
    exact h.once

theorem concat (h : ids.count id = 1) : SecondAt (ids ++ [id]) ids.length id :=
  ⟨List.getElem?_concat_length, by rw [List.take_left]; exact h⟩

end SecondAt

/-- What occurs more than once occurs for the second time. -/
theorem exists_secondAt {ids : List String} {a : String} (h : 2 ≤ ids.count a) :
    ∃ i, SecondAt ids i a := by
  induction ids using List.reverseRecOn with
  | nil => simp at h
  | append_singleton ids id ih =>
    by_cases hearlier : 2 ≤ ids.count a
    · obtain ⟨i, hi⟩ := ih hearlier
      exact ⟨i, hi.append [id]⟩
    · rw [Sightings.count_concat] at h
      have hid : id = a := by
        by_contra hne
        rw [if_neg hne] at h
        omega
      subst hid
      rw [if_pos rfl] at h
      exact ⟨ids.length, SecondAt.concat (by omega)⟩

namespace NamesRepeats

variable {ids repeated : List String} {id : String}

/-- An id that occurs for the first time, or once more than twice, changes nothing. -/
theorem concat (h : NamesRepeats ids repeated) (hid : ids.count id ≠ 1) :
    NamesRepeats (ids ++ [id]) repeated := by
  refine ⟨fun a => ?_, h.ordered.imp fun ⟨i, j, hij, hi, hj⟩ => ⟨i, j, hij, hi.append _, hj.append _⟩⟩
  have hiff : 2 ≤ (ids ++ [id]).count a ↔ 2 ≤ ids.count a := by
    rw [Sightings.count_concat]
    split
    · rename_i heq
      subst heq
      omega
    · rfl
  simp only [h.once, hiff]

/-- An id that occurs for the second time comes last. -/
theorem concat_second (h : NamesRepeats ids repeated) (hid : ids.count id = 1) :
    NamesRepeats (ids ++ [id]) (repeated ++ [id]) := by
  refine ⟨fun a => ?_, List.pairwise_append.2 ⟨?_, List.pairwise_singleton _ _, ?_⟩⟩
  · rw [Sightings.count_concat, Sightings.count_concat, h.once]
    by_cases heq : id = a
    · subst heq
      simp [hid]
    · simp [heq]
  · exact h.ordered.imp fun ⟨i, j, hij, hi, hj⟩ => ⟨i, j, hij, hi.append _, hj.append _⟩
  · intro a ha b hb
    rw [List.mem_singleton.1 hb]
    have hcount := h.once a
    have hpos : 1 ≤ repeated.count a := List.one_le_count_iff.2 ha
    have htwice : 2 ≤ ids.count a := by
      by_contra hless
      rw [if_neg hless] at hcount
      omega
    obtain ⟨i, hi⟩ := exists_secondAt htwice
    exact ⟨i, ids.length, hi.lt_length, hi.append _, SecondAt.concat hid⟩

end NamesRepeats

namespace Sightings

theorem ofIds_concat (ids : List String) (id : String) :
    ofIds (ids ++ [id]) = (ofIds ids).note id := by
  rw [ofIds, List.foldl_append]
  rfl

/-- One more id is reported exactly if it occurs for the second time. -/
theorem namesRepeats_note {s : Sightings} {ids : List String} (hcounts : s.Counts ids)
    (h : NamesRepeats ids s.repeated) (id : String) :
    NamesRepeats (ids ++ [id]) (s.note id).repeated := by
  have hseen := hcounts.seen id
  have hreported := hcounts.reported id
  unfold note
  split
  · rename_i hfirst
    rw [hseen] at hfirst
    exact h.concat (by omega)
  rename_i hagain
  rw [hseen] at hagain
  split
  · rename_i hsecond
    rw [hreported] at hsecond
    exact h.concat_second (by omega)
  · rename_i hlater
    rw [hreported] at hlater
    exact h.concat (by omega)

theorem namesRepeats_ofIds (ids : List String) : NamesRepeats ids (ofIds ids).repeated := by
  induction ids using List.reverseRecOn with
  | nil => exact ⟨fun id => rfl, .nil⟩
  | append_singleton ids id ih =>
    rw [ofIds_concat]
    exact namesRepeats_note (counts_ofIds ids) ih id

end Sightings

namespace ReferenceFault

/-- The faults of one edge. -/
def danglingEnds (ids : List String) (e : Edge) (index : Nat) : List ReferenceFault :=
  (if e.source ∈ ids then [] else [danglingSource index e]) ++
    if e.target ∈ ids then [] else [danglingTarget index e]

theorem danglingEdges_eq {seen : NameSet} {ids : List String} (h : ∀ id, id ∈ seen ↔ id ∈ ids)
    (index : Nat) (edges : List Edge) :
    danglingEdges seen index edges =
      (edges.zipIdx index).flatMap fun (e, i) => danglingEnds ids e i := by
  induction edges generalizing index with
  | nil => rfl
  | cons e es ih =>
    rw [danglingEdges, ih, List.zipIdx_cons, List.flatMap_cons]
    simp only [danglingEnds, h]

theorem check_eq (nodes : List Node) (edges : List Edge) :
    check nodes edges =
      (Sightings.ofIds (nodes.map (·.id))).repeated.map duplicateId ++
        edges.zipIdx.flatMap fun (e, i) => danglingEnds (nodes.map (·.id)) e i := by
  rw [check, danglingEdges_eq fun id => Sightings.mem_seen_ofIds]

/-- The texts of the faults of one edge name its place and its id. -/
theorem texts_danglingEnds (ids : List String) (e : Edge) (index : Nat) :
    let label := "edges[" ++ toString index ++ "] (`" ++ e.id ++ "`)"
    (danglingEnds ids e index).map message =
      (if e.source ∈ ids then [] else
        [label ++ ": source `" ++ e.source ++ "` does not reference an existing node"]) ++
      if e.target ∈ ids then [] else
        [label ++ ": target `" ++ e.target ++ "` does not reference an existing node"] := by
  unfold danglingEnds
  rw [List.map_append, apply_ite (List.map message), apply_ite (List.map message)]
  rfl

end ReferenceFault

namespace Graph

theorem exists_ofParts_iff {nodes : List Node} {edges : List Edge} :
    (∃ g, ofParts nodes edges = .ok g) ↔ (nodes.map (·.id)).Nodup ∧
      ∀ e ∈ edges, e.source ∈ nodes.map (·.id) ∧ e.target ∈ nodes.map (·.id) := by
  constructor
  · rintro ⟨g, hg⟩
    obtain ⟨rfl, rfl⟩ := ofParts_eq_ok_iff.1 hg
    exact ⟨g.distinct, g.closed⟩
  · rintro ⟨hdistinct, hclosed⟩
    exact ⟨⟨nodes, edges, hdistinct, hclosed⟩, ofParts_eq_ok_iff.2 ⟨rfl, rfl⟩⟩

theorem check_of_ofParts {nodes : List Node} {edges : List Edge} {faults : List ReferenceFault}
    (h : ofParts nodes edges = .error faults) : faults = ReferenceFault.check nodes edges := by
  unfold ofParts at h
  split at h
  · cases h
  · rename_i hcheck
    rw [← Except.error.inj h, hcheck]

/-- **References.**  Every id that occurs more than once is reported once, in the order of the second
occurrences, and then every end of an edge that is no node, edge by edge under its place, the source
before the target.  Nodes and edges make a graph, and make it as they are, exactly if there is nothing
to report; otherwise that is the answer. -/
theorem joined_or_reported (nodes : List Node) (edges : List Edge) :
    let ids := nodes.map (·.id)
    (∃ repeated, NamesRepeats ids repeated ∧
      (ReferenceFault.check nodes edges).map ReferenceFault.message =
        repeated.map (fun id => "duplicate node id `" ++ id ++ "`") ++
        edges.zipIdx.flatMap fun (e, i) =>
          let label := "edges[" ++ toString i ++ "] (`" ++ e.id ++ "`)"
          (if e.source ∈ ids then [] else
            [label ++ ": source `" ++ e.source ++ "` does not reference an existing node"]) ++
          if e.target ∈ ids then [] else
            [label ++ ": target `" ++ e.target ++ "` does not reference an existing node"]) ∧
    ((∃ g, ofParts nodes edges = .ok g) ↔
      ids.Nodup ∧ ∀ e ∈ edges, e.source ∈ ids ∧ e.target ∈ ids) ∧
    (∀ g, ofParts nodes edges = .ok g → g.nodes = nodes ∧ g.edges = edges) ∧
    ∀ faults, ofParts nodes edges = .error faults → faults = ReferenceFault.check nodes edges := by
  intro ids
  refine ⟨⟨_, Sightings.namesRepeats_ofIds ids, ?_⟩, exists_ofParts_iff,
    fun g => ofParts_eq_ok_iff.1, fun faults => check_of_ofParts⟩
  rw [ReferenceFault.check_eq, List.map_append, List.map_map, List.map_flatMap]
  simp only [ReferenceFault.texts_danglingEnds]
  rfl

/-! ## Two ids that cross -/

/-- The second node with the id `y` comes before that with the id `x`, and both occur more often. -/
def crossed : List Node :=
  ["x", "y", "y", "x", "y", "x"].map fun id => { id, type := .step "set" }

theorem joined_or_reported_crossed :
    let edges := [Edge.between "x" "y", Edge.between "p" "q"]
    let faults : List ReferenceFault := [.duplicateId "y", .duplicateId "x",
      .danglingSource 1 (.between "p" "q"), .danglingTarget 1 (.between "p" "q")]
    ofParts crossed edges = .error faults ∧ faults = ReferenceFault.check crossed edges ∧
      (∃ g, ofParts (crossed.take 2) (edges.take 1) = .ok g ∧ g.nodes = crossed.take 2 ∧
        g.edges = edges.take 1) := by
  intro edges faults
  have hfaults : ofParts crossed edges = .error faults := by decide +kernel
  obtain ⟨-, -, -, herror⟩ := joined_or_reported crossed edges
  obtain ⟨-, hjoined, hparts, -⟩ := joined_or_reported (crossed.take 2) (edges.take 1)
  obtain ⟨g, hg⟩ := hjoined.2 ⟨by decide, by decide⟩
  exact ⟨hfaults, herror faults hfaults, g, hg, hparts g hg⟩

end Graph

end Flowgraph
