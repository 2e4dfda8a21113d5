import Flowgraph.Proofs.Description.Acceptance

/-!
# Writing a graph and reading it again

A graph is written as a description of itself.  Of what it has, only the ids of its nodes
and their types can stand in the way of reading it back: an id must not be empty, and a
type must be the one that its name denotes (`Graph.Legible`).

    Graph.ofJson g.toJson = .ok g ↔ g.Legible                    (ofJson_toJson_iff)

A graph that was read from a description is legible, whatever spellings, nulls and missing
fields the description had, so it is read back as it is (`ofJson_toJson`).
-/

namespace Flowgraph

/-! ## Names of types -/

/-- The type that a name denotes is denoted by its own name, which is a name if the first was. -/
theorem NodeType.decode_encode_decode (name : String) :
    decode (decode name).encode = decode name ∧ (name ≠ "" → (decode name).encode ≠ "") := by
  rcases hname : decode name with _ | _ | _ | _ | kind
  · exact ⟨by decide +kernel, fun _ => by decide⟩
  · exact ⟨by decide +kernel, fun _ => by decide⟩
  · exact ⟨by decide +kernel, fun _ => by decide⟩
  · exact ⟨by decide +kernel, fun _ => by decide⟩
  · have hkind : kind = name := by
      unfold decode at hname
      dsimp only at hname
      split at hname
      · cases hname
      split at hname
      · cases hname
      split at hname
      · cases hname
      split at hname
      · cases hname
      · exact (NodeType.step.inj hname).symm
    rw [encode, hkind]
    exact ⟨hname.trans (congrArg _ hkind), id⟩

/-- A graph whose nodes have ids and types that a description can give. -/
structure Graph.Legible (g : Graph) : Prop where
  ids : ∀ n ∈ g.nodes, n.id ≠ ""
  types : ∀ n ∈ g.nodes, n.type.encode ≠ "" ∧ .decode n.type.encode = n.type

namespace Description

/-! ## Fields of what is written -/

/-- The fields of an object that is made are looked up from the last one on. -/
theorem field?_object (fields : Fields) (key : String) :
    (Json.object fields).field? key = fields.reverse.lookup key :=
  NameMap.find?_ofList fields key

theorem field?_toJson_node (n : Node) :
    n.toJson.field? "id" = some (.str n.id) ∧
      n.toJson.field? "type" = some (.str n.type.encode) ∧
      n.toJson.field? "config" = some (.obj n.config) ∧
      n.toJson.field? "position" = n.position := by
  simp only [Node.toJson, field?_object]
  cases n.position with
  | none => exact ⟨rfl, rfl, rfl, rfl⟩
  | some position => exact ⟨rfl, rfl, rfl, rfl⟩

theorem field?_toJson_edge (e : Edge) :
    e.toJson.field? "id" = some (.str e.id) ∧
      e.toJson.field? "source" = some (.str e.source) ∧
      e.toJson.field? "target" = some (.str e.target) ∧
      firstField? e.toJson ["source_handle", "sourceHandle"] =
        some (Edge.handleJson e.sourceHandle) ∧
      firstField? e.toJson ["target_handle", "targetHandle"] =
        some (Edge.handleJson e.targetHandle) := by
  simp only [firstField?_cons, Edge.toJson, field?_object]
  exact ⟨rfl, rfl, rfl, rfl, rfl⟩

theorem note_handleJson (handle : Option String) :
    IsNote (some (Edge.handleJson handle)) ∧ noteOf (some (Edge.handleJson handle)) = handle := by
  cases handle with
  | none => exact ⟨.inr (.inl rfl), rfl⟩
  | some h => exact ⟨.inr (.inr ⟨h, rfl⟩), rfl⟩

/-! ## Records of what is written -/

/-- A node is written as a record exactly if it has an id and its type has a name. -/
theorem nodeRecord_toJson_iff (n : Node) :
    NodeRecord n.toJson ↔ n.id ≠ "" ∧ n.type.encode ≠ "" := by
  obtain ⟨hid, htype, hconfig, -⟩ := field?_toJson_node n
  constructor
  · rintro ⟨⟨s, hs, hs'⟩, ⟨t, ht, ht'⟩, -⟩
    rw [hid] at hs
    rw [htype] at ht
    cases hs
    cases ht
    exact ⟨hs', ht'⟩
  · rintro ⟨hid', htype'⟩
    exact ⟨⟨_, hid, hid'⟩, ⟨_, htype, htype'⟩, .inr (.inr ⟨_, hconfig⟩)⟩

/-- The record of a node denotes the node, but for a type that its name does not denote. -/
theorem nodeOf_toJson (n : Node) : nodeOf n.toJson = { n with type := .decode n.type.encode } := by
  obtain ⟨hid, htype, hconfig, hposition⟩ := field?_toJson_node n
  rw [nodeOf, hid, htype, hconfig, hposition]
  rfl

theorem edgeRecord_toJson {e : Edge} (hsource : e.source ≠ "") (htarget : e.target ≠ "") :
    EdgeRecord e.toJson := by
  obtain ⟨hid, hs, ht, hsh, hth⟩ := field?_toJson_edge e
  refine ⟨⟨_, hs, hsource⟩, ⟨_, ht, htarget⟩, .inr (.inr ⟨_, hid⟩), ?_, ?_⟩
  · rw [hsh]
    exact (note_handleJson _).1
  · rw [hth]
    exact (note_handleJson _).1

/-- The record of an edge denotes the edge. -/
theorem edgeOf_toJson (e : Edge) : edgeOf e.toJson = e := by
  obtain ⟨hid, hs, ht, hsh, hth⟩ := field?_toJson_edge e
  rw [edgeOf, hid, hs, ht, hsh, hth, (note_handleJson _).2, (note_handleJson _).2]
  rfl

theorem records_toJson (g : Graph) :
    nodeRecords g.toJson = g.nodes.map Node.toJson ∧
      edgeRecords g.toJson = g.edges.map Edge.toJson := by
  rw [nodeRecords, edgeRecords, Graph.toJson, field?_object, field?_object]
  exact ⟨rfl, rfl⟩

theorem idsOf_toJson (g : Graph) : idsOf g.toJson = g.nodes.map (·.id) := by
  rw [idsOf, (records_toJson g).1, List.map_map]
  refine List.map_congr_left fun n _ => ?_
  rw [Function.comp_apply, (field?_toJson_node n).1]
  rfl

/-! ## Graphs that are written -/

/-- What a legible graph is written as is well-formed. -/
theorem wellFormed_toJson {g : Graph} (h : g.Legible) : WellFormed g.toJson := by
  obtain ⟨hnodes, hedges⟩ := records_toJson g
  have hnamed : ∀ id ∈ g.nodes.map (·.id), id ≠ "" := by
    intro id hid
    obtain ⟨n, hn, rfl⟩ := List.mem_map.1 hid
    exact h.ids n hn
  refine ⟨⟨_, field?_object _ _⟩, ⟨_, field?_object _ _⟩, ?_, ?_, ?_, ?_⟩
  · intro r hr
    rw [hnodes] at hr
    obtain ⟨n, hn, rfl⟩ := List.mem_map.1 hr
    exact (nodeRecord_toJson_iff n).2 ⟨h.ids n hn, (h.types n hn).1⟩
  · intro r hr
    rw [hedges] at hr
    obtain ⟨e, he, rfl⟩ := List.mem_map.1 hr
    obtain ⟨hs, ht⟩ := g.closed e he
    exact edgeRecord_toJson (hnamed _ hs) (hnamed _ ht)
  · rw [idsOf_toJson]
    exact g.distinct
  · intro r hr
    rw [hedges] at hr
    obtain ⟨e, he, rfl⟩ := List.mem_map.1 hr
    obtain ⟨-, hs, ht, -, -⟩ := field?_toJson_edge e
    rw [idsOf_toJson, hs, ht]
    exact g.closed e he

/-- A graph is read back as it is exactly if it is legible. -/
theorem ofJson_toJson_iff (g : Graph) : Graph.ofJson g.toJson = .ok g ↔ g.Legible := by
  obtain ⟨hnodes, hedges⟩ := records_toJson g
  constructor
  · intro h
    obtain ⟨hwf, hread, -⟩ := wellFormed_of_ofJson h
    have hrecord : ∀ n ∈ g.nodes, NodeRecord n.toJson := by
      intro n hn
      refine hwf.nodes _ ?_
      rw [hnodes]
      exact List.mem_map_of_mem hn
    refine ⟨fun n hn => ?_, fun n hn => ?_⟩
    · exact ((nodeRecord_toJson_iff n).1 (hrecord n hn)).1
    · refine ⟨((nodeRecord_toJson_iff n).1 (hrecord n hn)).2, ?_⟩
      rw [hnodes, List.map_map] at hread
      have hself := List.map_inj_left.1 ((List.map_id _).trans hread) n hn
      rw [Function.comp_apply, nodeOf_toJson] at hself
      exact (congrArg Node.type hself).symm
  · intro h
    obtain ⟨g', hg'⟩ := (wellFormed_toJson h).exists_ofJson
    obtain ⟨-, hn, he⟩ := wellFormed_of_ofJson hg'
    rw [hnodes, List.map_map] at hn
    rw [hedges, List.map_map] at he
    have hsameNodes : g'.nodes = g.nodes := by
      rw [hn]
      refine (List.map_congr_left fun n hmem => ?_).trans (List.map_id _)
      rw [Function.comp_apply, nodeOf_toJson, (h.types n hmem).2]
      rfl
    have hsameEdges : g'.edges = g.edges := by
      rw [he]
      exact (List.map_congr_left fun e _ => edgeOf_toJson e).trans (List.map_id _)
    rw [hg']
    cases g
    cases g'
    cases hsameNodes
    cases hsameEdges
    rfl

/-- A graph that was read is legible. -/
theorem legible_of_ofJson {v : Json} {g : Graph} (h : Graph.ofJson v = .ok g) : g.Legible := by
  obtain ⟨hwf, hnodes, -⟩ := wellFormed_of_ofJson h
  constructor
  · intro n hn
    rw [hnodes] at hn
    obtain ⟨r, hr, rfl⟩ := List.mem_map.1 hn
    obtain ⟨s, hs, hne⟩ := (hwf.nodes r hr).id
    rw [nodeOf, hs]
    exact hne
  · intro n hn
    rw [hnodes] at hn
    obtain ⟨r, hr, rfl⟩ := List.mem_map.1 hn
    obtain ⟨s, hs, hne⟩ := (hwf.nodes r hr).type
    rw [nodeOf, hs]
    exact ⟨(NodeType.decode_encode_decode s).2 hne, (NodeType.decode_encode_decode s).1⟩

/-- A graph that was read from a description is read back as it is from what it is written as. -/
theorem ofJson_toJson {v : Json} {g : Graph} (h : Graph.ofJson v = .ok g) :
    Graph.ofJson g.toJson = .ok g :=
  (ofJson_toJson_iff g).2 (legible_of_ofJson h)

/-! ## A description in unusual spellings -/

/-- Types in capitals and under an old name, null and missing fields, an empty edge id and an empty
handle, and both spellings of a handle. -/
def unusual : Json :=
  .obj [("edges", .arr [
      .obj [("id", .str ""), ("source", .str "a"), ("sourceHandle", .str ""), ("target", .str "b")],
      .obj [("id", .null), ("source", .str "b"), ("sourceHandle", .str "go"),
        ("source_handle", .null), ("target", .str "c"), ("targetHandle", .str "in")]]),
    ("nodes", .arr [
      .obj [("config", .null), ("id", .str "a"), ("position", .null), ("type", .str "START")],
      .obj [("config", .obj [("x", .null)]), ("id", .str "b"), ("type", .str "Human_In_Loop")],
      .obj [("id", .str "c"), ("position", .arr []), ("type", .str "Agent")]])]

def unusualGraph : Graph where
  nodes := [{ id := "a", type := .start, position := some .null },
    { id := "b", type := .approval, config := [("x", .null)] },
    { id := "c", type := .step "Agent", position := some (.arr []) }]
  edges := [{ id := "", source := "a", target := "b", sourceHandle := some "" },
    { id := "b->c", source := "b", target := "c", targetHandle := some "in" }]
  distinct := by decide
  closed := by decide

theorem ofJson_toJson_unusual :
    Graph.ofJson unusual = .ok unusualGraph ∧ unusualGraph.toJson ≠ unusual ∧
      Graph.ofJson unusualGraph.toJson = .ok unusualGraph := by
  have hread : Graph.ofJson unusual = .ok unusualGraph := by decide +kernel
  exact ⟨hread, by decide +kernel, ofJson_toJson hread⟩

end Description

end Flowgraph
