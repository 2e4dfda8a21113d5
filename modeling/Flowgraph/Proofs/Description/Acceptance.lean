import Flowgraph.Graph.Description
import Flowgraph.Proofs.Plan.Declarations

/-!
# Which descriptions are accepted

A description is well-formed if it has a list of node records and a list of edge records,
each record has the fields of its kind, ids are distinct and edges join nodes
(`Description.WellFormed`).  What a record denotes is read off its fields one by one
(`nodeOf`, `edgeOf`).  Reading accepts the well-formed descriptions and no others:

    (∃ g, Graph.ofJson v = .ok g) ↔ WellFormed v                      (accepted_iff)

and what it refuses it refuses with a fault, among which the malformed records, and only
they, stand under their own places in the lists.
-/

namespace Flowgraph.Description

/-! ## Fields -/

/-- A text that must be there, and not empty. -/
def IsName (v? : Option Json) : Prop := ∃ s, v? = some (.str s) ∧ s ≠ ""

/-- A text that may be absent or null. -/
def IsNote (v? : Option Json) : Prop := v? = none ∨ v? = some .null ∨ ∃ s, v? = some (.str s)

/-- An object that may be absent or null. -/
def IsConfig (v? : Option Json) : Prop :=
  v? = none ∨ v? = some .null ∨ ∃ fields, v? = some (.obj fields)

/-- The first field of a value that is there under one of some spellings. -/
def firstField? (v : Json) (spellings : List String) : Option Json := spellings.findSome? v.field?

def noteOf (v? : Option Json) : Option String := v?.bind Json.string?

def nameOf (v? : Option Json) : String := (noteOf v?).getD ""

/-- The items of a field that is a list. -/
def itemsOf (v? : Option Json) : List Json := (v?.bind Json.items?).getD []

/-! ## Records -/

structure NodeRecord (v : Json) : Prop where
  id : IsName (v.field? "id")
  type : IsName (v.field? "type")
  config : IsConfig (v.field? "config")

/-- The node that a record denotes. -/
def nodeOf (v : Json) : Node where
  id := nameOf (v.field? "id")
  type := .decode (nameOf (v.field? "type"))
  config := ((v.field? "config").bind Json.fields?).getD []
  position := v.field? "position"

structure EdgeRecord (v : Json) : Prop where
  source : IsName (v.field? "source")
  target : IsName (v.field? "target")
  id : IsNote (v.field? "id")
  sourceHandle : IsNote (firstField? v ["source_handle", "sourceHandle"])
  targetHandle : IsNote (firstField? v ["target_handle", "targetHandle"])

/-- The edge that a record denotes; its id is made of its ends where the record gives none. -/
def edgeOf (v : Json) : Edge where
  id := (noteOf (v.field? "id")).getD
    (nameOf (v.field? "source") ++ "->" ++ nameOf (v.field? "target"))
  source := nameOf (v.field? "source")
  target := nameOf (v.field? "target")
  sourceHandle := noteOf (firstField? v ["source_handle", "sourceHandle"])
  targetHandle := noteOf (firstField? v ["target_handle", "targetHandle"])

/-- The records of nodes in a description. -/
def nodeRecords (v : Json) : List Json := itemsOf (v.field? "nodes")

/-- The records of edges in a description. -/
def edgeRecords (v : Json) : List Json := itemsOf (v.field? "edges")

/-- The ids that the node records of a description give. -/
def idsOf (v : Json) : List String := (nodeRecords v).map fun r => nameOf (r.field? "id")

structure WellFormed (v : Json) : Prop where
  nodeList : ∃ items, v.field? "nodes" = some (.arr items)
  edgeList : ∃ items, v.field? "edges" = some (.arr items)
  nodes : ∀ r ∈ nodeRecords v, NodeRecord r
  edges : ∀ r ∈ edgeRecords v, EdgeRecord r
  distinct : (idsOf v).Nodup
  closed : ∀ r ∈ edgeRecords v,
    nameOf (r.field? "source") ∈ idsOf v ∧ nameOf (r.field? "target") ∈ idsOf v

/-! ## Reading fields -/

theorem faultOf_eq_nil_iff {ε α : Type} {x : Except ε α} : faultOf x = [] ↔ ∃ a, x = .ok a := by
  cases x with
  | ok a => simp [faultOf]
  | error e => simp [faultOf]

theorem requiredText_eq_ok_iff {fields : Fields} {key s : String} :
    requiredText fields key = .ok s ↔ fields.lookup key = some (.str s) ∧ s ≠ "" := by
  unfold requiredText
  split
  · rename_i hnone
    simp [hnone]
  · rename_i t hstr
    rw [hstr]
    by_cases ht : t = ""
    · rw [if_pos ht]
      simp only [reduceCtorEq, Option.some.injEq, Json.str.injEq, ne_eq, false_iff, not_and, not_not]
      rintro rfl
      exact ht
    · rw [if_neg ht]
      simp only [Except.ok.injEq, Option.some.injEq, Json.str.injEq, ne_eq]
      constructor
      · rintro rfl
        exact ⟨rfl, ht⟩
      · exact fun h => h.1
  · rename_i v hother hsome
    rw [hsome]
    simp only [reduceCtorEq, Option.some.injEq, ne_eq, false_iff, not_and]
    rintro rfl
    exact absurd rfl (hother s)

/-- A text that is read must be there, and is what the field names. -/
theorem requiredText_ok {fields : Fields} {key : String} (h : IsName (fields.lookup key)) :
    requiredText fields key = .ok (nameOf (fields.lookup key)) := by
  obtain ⟨s, hs, hne⟩ := h
  rw [requiredText_eq_ok_iff.2 ⟨hs, hne⟩, hs]
  rfl

theorem faultOf_requiredText {fields : Fields} {key : String} :
    faultOf (requiredText fields key) = [] ↔ IsName (fields.lookup key) := by
  rw [faultOf_eq_nil_iff]
  exact exists_congr fun s => requiredText_eq_ok_iff

theorem config_ok {fields : Fields} (h : IsConfig (fields.lookup "config")) :
    config fields = .ok (((fields.lookup "config").bind Json.fields?).getD []) := by
  unfold config
  rcases h with h | h | ⟨c, h⟩ <;> rw [h] <;> rfl

theorem faultOf_config {fields : Fields} :
    faultOf (config fields) = [] ↔ IsConfig (fields.lookup "config") := by
  constructor
  · intro h
    obtain ⟨c, hc⟩ := faultOf_eq_nil_iff.1 h
    unfold config at hc
    split at hc
    · rename_i hnone
      exact .inl hnone
    · rename_i hnull
      exact .inr (.inl hnull)
    · rename_i c' hobj
      exact .inr (.inr ⟨c', hobj⟩)
    · cases hc
  · intro h
    exact faultOf_eq_nil_iff.2 ⟨_, config_ok h⟩

theorem firstField?_cons (v : Json) (key : String) (spellings : List String) :
    firstField? v (key :: spellings) = (v.field? key).or (firstField? v spellings) := by
  rw [firstField?, List.findSome?_cons]
  cases v.field? key with
  | none => rfl
  | some a => rfl

theorem firstField?_singleton (v : Json) (key : String) : firstField? v [key] = v.field? key := by
  rw [firstField?_cons]
  exact Option.or_none

/-- The first spelling that is there, with the field under it. -/
theorem firstField?_eq (fields : Fields) (spellings : List String) :
    firstField? (.obj fields) spellings =
      (spellings.findSome? fun key => (fields.lookup key).map fun v => (key, v)).map (·.2) := by
  induction spellings with
  | nil => rfl
  | cons key spellings ih =>
    rw [firstField?_cons, List.findSome?_cons, ih, Json.field?]
    cases fields.lookup key with
    | none => rfl
    | some v => rfl

theorem optionalText_ok {fields : Fields} {spellings : List String}
    (h : IsNote (firstField? (.obj fields) spellings)) :
    optionalText fields spellings = .ok (noteOf (firstField? (.obj fields) spellings)) := by
  rw [firstField?_eq] at h ⊢
  unfold optionalText
  cases hfirst : spellings.findSome? fun key => (fields.lookup key).map fun v => (key, v) with
  | none => rfl
  | some e =>
    obtain ⟨key, v⟩ := e
    rw [hfirst] at h
    rcases h with h | h | ⟨s, h⟩
    · cases h
    · cases h
      rfl
    · cases h
      rfl

theorem faultOf_optionalText {fields : Fields} {spellings : List String} :
    faultOf (optionalText fields spellings) = [] ↔
      IsNote (firstField? (.obj fields) spellings) := by
  constructor
  · intro h
    obtain ⟨t, ht⟩ := faultOf_eq_nil_iff.1 h
    rw [firstField?_eq]
    unfold optionalText at ht
    split at ht
    · rename_i hnone
      rw [hnone]
      exact .inl rfl
    · rename_i key hnull
      rw [hnull]
      exact .inr (.inl rfl)
    · rename_i key s hstr
      rw [hstr]
      exact .inr (.inr ⟨s, rfl⟩)
    · cases ht
  · intro h
    exact faultOf_eq_nil_iff.2 ⟨_, optionalText_ok h⟩

theorem requiredList_eq_ok_iff {fields : Fields} {key : String} {items : List Json} :
    requiredList fields key = .ok items ↔ fields.lookup key = some (.arr items) := by
  unfold requiredList
  split
  · rename_i hnone
    simp [hnone]
  · rename_i l harr
    simp [harr]
  · rename_i v hother hsome
    rw [hsome]
    simp only [reduceCtorEq, Option.some.injEq, false_iff]
    rintro rfl
    exact absurd rfl (hother items)

theorem toOption_requiredList (fields : Fields) (key : String) :
    (requiredList fields key).toOption.getD [] = itemsOf (fields.lookup key) := by
  unfold requiredList
  split
  · rename_i hnone
    rw [hnone]
    rfl
  · rename_i l harr
    rw [harr]
    rfl
  · rename_i v hother hsome
    rw [hsome]
    cases v with
    | arr l => exact absurd rfl (hother l)
    | null => rfl
    | bool b => rfl
    | num n => rfl
    | str s => rfl
    | obj fields => rfl

/-! ## Reading records -/

/-- A record of a node has no fault exactly if it has the fields of one. -/
theorem faults_readNode (v : Json) : (readNode v).1 = [] ↔ NodeRecord v := by
  cases v with
  | obj fields =>
    simp only [readNode, List.append_eq_nil_iff, faultOf_requiredText, faultOf_config]
    constructor
    · rintro ⟨⟨hid, htype⟩, hconfig⟩
      exact ⟨hid, htype, hconfig⟩
    · intro h
      exact ⟨⟨h.id, h.type⟩, h.config⟩
  | _ =>
    refine iff_of_false (by simp [readNode]) fun h => ?_
    obtain ⟨s, hs, -⟩ := h.id
    cases hs

theorem readNode_of_record {v : Json} (h : NodeRecord v) : (readNode v).2 = some (nodeOf v) := by
  cases v with
  | obj fields =>
    have hid : requiredText fields "id" = .ok (nameOf (fields.lookup "id")) := requiredText_ok h.id
    have htype : requiredText fields "type" = .ok (nameOf (fields.lookup "type")) :=
      requiredText_ok h.type
    have hconfig := config_ok h.config
    simp only [readNode]
    rw [hid, htype, hconfig]
    rfl
  | _ =>
    obtain ⟨s, hs, -⟩ := h.id
    cases hs

/-- A record of an edge has no fault exactly if it has the fields of one. -/
theorem faults_readEdge (v : Json) : (readEdge v).1 = [] ↔ EdgeRecord v := by
  cases v with
  | obj fields =>
    have hfirst := firstField?_singleton (.obj fields) "id"
    simp only [readEdge, List.append_eq_nil_iff, faultOf_requiredText, faultOf_optionalText, hfirst]
    constructor
    · rintro ⟨⟨⟨⟨hsource, htarget⟩, hid⟩, hsourceHandle⟩, htargetHandle⟩
      exact ⟨hsource, htarget, hid, hsourceHandle, htargetHandle⟩
    · intro h
      exact ⟨⟨⟨⟨h.source, h.target⟩, h.id⟩, h.sourceHandle⟩, h.targetHandle⟩
  | _ =>
    refine iff_of_false (by simp [readEdge]) fun h => ?_
    obtain ⟨s, hs, -⟩ := h.source
    cases hs

theorem readEdge_of_record {v : Json} (h : EdgeRecord v) : (readEdge v).2 = some (edgeOf v) := by
  cases v with
  | obj fields =>
    have hsource : requiredText fields "source" = .ok (nameOf (fields.lookup "source")) :=
      requiredText_ok h.source
    have htarget : requiredText fields "target" = .ok (nameOf (fields.lookup "target")) :=
      requiredText_ok h.target
    have hfirst := firstField?_singleton (.obj fields) "id"
    have hid : optionalText fields ["id"] = .ok (noteOf ((Json.obj fields).field? "id")) := by
      rw [← hfirst]
      exact optionalText_ok (hfirst ▸ h.id)
    simp only [readEdge]
    rw [hsource, htarget, hid, optionalText_ok h.sourceHandle, optionalText_ok h.targetHandle]
    rfl
  | _ =>
    obtain ⟨s, hs, -⟩ := h.source
    cases hs

section

variable {α : Type} (label : Nat → RecordFault → Fault) (read : Json → List RecordFault × Option α)

/-- What is read of some records is what is read of each. -/
theorem readRecords_snd (index : Nat) (vs : List Json) :
    (readRecords label read index vs).2 = vs.filterMap fun v => (read v).2 := by
  induction vs generalizing index with
  | nil => rfl
  | cons v vs ih =>
    simp only [readRecords, ih, List.filterMap_cons]
    cases (read v).2 <;> rfl

/-- The faults of some records are those of each, under its place. -/
theorem mem_readRecords_fst {index : Nat} {vs : List Json} {fault : Fault} :
    fault ∈ (readRecords label read index vs).1 ↔
      ∃ k v f, vs[k]? = some v ∧ f ∈ (read v).1 ∧ fault = label (index + k) f := by
  induction vs generalizing index with
  | nil => simp [readRecords]
  | cons v vs ih =>
    simp only [readRecords, List.mem_append, List.mem_map, ih]
    constructor
    · rintro (⟨f, hf, rfl⟩ | ⟨k, w, f, hw, hf, rfl⟩)
      · exact ⟨0, v, f, rfl, hf, rfl⟩
      · exact ⟨k + 1, w, f, hw, hf, by rw [Nat.add_assoc, Nat.add_comm 1]⟩
    · rintro ⟨k, w, f, hw, hf, rfl⟩
      cases k with
      | zero =>
        rw [List.getElem?_cons_zero, Option.some.injEq] at hw
        exact .inl ⟨f, hw ▸ hf, rfl⟩
      | succ k =>
        rw [List.getElem?_cons_succ] at hw
        exact .inr ⟨k, w, f, hw, hf, by rw [Nat.add_assoc, Nat.add_comm 1]⟩

theorem readRecords_fst_eq_nil_iff {index : Nat} {vs : List Json} :
    (readRecords label read index vs).1 = [] ↔ ∀ v ∈ vs, (read v).1 = [] := by
  rw [List.eq_nil_iff_forall_not_mem]
  constructor
  · intro h v hv
    obtain ⟨k, hk⟩ := List.mem_iff_getElem?.1 hv
    refine List.eq_nil_iff_forall_not_mem.2 fun f hf => ?_
    exact h _ ((mem_readRecords_fst label read).2 ⟨k, v, f, hk, hf, rfl⟩)
  · intro h fault hfault
    obtain ⟨k, v, f, hk, hf, -⟩ := (mem_readRecords_fst label read).1 hfault
    rw [h v (List.mem_of_getElem? hk)] at hf
    cases hf

theorem readRecords_snd_eq_map {index : Nat} {vs : List Json} {denoted : Json → α}
    (h : ∀ v ∈ vs, (read v).2 = some (denoted v)) :
    (readRecords label read index vs).2 = vs.map denoted := by
  rw [readRecords_snd]
  induction vs with
  | nil => rfl
  | cons v vs ih =>
    rw [List.filterMap_cons, h v List.mem_cons_self, List.map_cons,
      ih fun w hw => h w (List.mem_cons_of_mem _ hw)]

end

/-! ## Reading descriptions -/

/-- The nodes of the records that can be read. -/
def readableNodes (v : Json) : List Node := (readRecords .node readNode 0 (nodeRecords v)).2

/-- The edges of the records that can be read. -/
def readableEdges (v : Json) : List Edge := (readRecords .edge readEdge 0 (edgeRecords v)).2

/-- The faults of a description that are not faults of references. -/
def recordFaults (fields : Fields) : List Fault :=
  faultOf (requiredList fields "nodes") ++ faultOf (requiredList fields "edges") ++
    (readRecords .node readNode 0 (nodeRecords (.obj fields))).1 ++
    (readRecords .edge readEdge 0 (edgeRecords (.obj fields))).1

/-- A description is read as the graph of what can be read, if nothing is at fault. -/
theorem ofJson_obj (fields : Fields) : Graph.ofJson (.obj fields) =
    match Graph.ofParts (readableNodes (.obj fields)) (readableEdges (.obj fields)) with
    | .ok g => if recordFaults fields = [] then .ok g else .error (recordFaults fields)
    | .error references => .error (recordFaults fields ++
        if (requiredList fields "nodes").toOption.isSome then references.map .reference else []) := by
  simp only [Graph.ofJson, toOption_requiredList]
  rfl

theorem ofJson_obj_eq_ok_iff {fields : Fields} {g : Graph} :
    Graph.ofJson (.obj fields) = .ok g ↔ recordFaults fields = [] ∧
      g.nodes = readableNodes (.obj fields) ∧ g.edges = readableEdges (.obj fields) := by
  rw [ofJson_obj, ← Graph.ofParts_eq_ok_iff]
  cases Graph.ofParts (readableNodes (.obj fields)) (readableEdges (.obj fields)) with
  | error references => simp
  | ok g' =>
    dsimp only
    split
    · rename_i hnil
      simp [hnil]
    · rename_i hfaults
      simp [hfaults]

theorem recordFaults_eq_nil_iff {fields : Fields} : recordFaults fields = [] ↔
    ((∃ items, fields.lookup "nodes" = some (.arr items)) ∧
      ∃ items, fields.lookup "edges" = some (.arr items)) ∧
    (∀ r ∈ nodeRecords (.obj fields), NodeRecord r) ∧
    ∀ r ∈ edgeRecords (.obj fields), EdgeRecord r := by
  simp only [recordFaults, List.append_eq_nil_iff, faultOf_eq_nil_iff, requiredList_eq_ok_iff,
    readRecords_fst_eq_nil_iff, faults_readNode, faults_readEdge, and_assoc]

/-- Where every record has the fields of its kind, each is read as what it denotes. -/
theorem readable_of_records {v : Json} (hnodes : ∀ r ∈ nodeRecords v, NodeRecord r)
    (hedges : ∀ r ∈ edgeRecords v, EdgeRecord r) :
    readableNodes v = (nodeRecords v).map nodeOf ∧ readableEdges v = (edgeRecords v).map edgeOf :=
  ⟨readRecords_snd_eq_map _ _ fun r hr => readNode_of_record (hnodes r hr),
    readRecords_snd_eq_map _ _ fun r hr => readEdge_of_record (hedges r hr)⟩

theorem map_id_nodeOf (v : Json) : ((nodeRecords v).map nodeOf).map (·.id) = idsOf v := by
  rw [List.map_map]
  rfl

/-- What is accepted is well-formed, and is read record by record. -/
theorem wellFormed_of_ofJson {v : Json} {g : Graph} (h : Graph.ofJson v = .ok g) :
    WellFormed v ∧ g.nodes = (nodeRecords v).map nodeOf ∧ g.edges = (edgeRecords v).map edgeOf := by
  cases v with
  | obj fields =>
    obtain ⟨hfaults, hnodes, hedges⟩ := ofJson_obj_eq_ok_iff.1 h
    obtain ⟨⟨hnodeList, hedgeList⟩, hnodeRecords, hedgeRecords⟩ := recordFaults_eq_nil_iff.1 hfaults
    obtain ⟨hreadNodes, hreadEdges⟩ := readable_of_records hnodeRecords hedgeRecords
    rw [hreadNodes] at hnodes
    rw [hreadEdges] at hedges
    have hids : g.nodes.map (·.id) = idsOf (.obj fields) := by rw [hnodes, map_id_nodeOf]
    refine ⟨⟨hnodeList, hedgeList, hnodeRecords, hedgeRecords, hids ▸ g.distinct, fun r hr => ?_⟩,
      hnodes, hedges⟩
    have hmem : edgeOf r ∈ g.edges := by
      rw [hedges]
      exact List.mem_map_of_mem hr
    rw [← hids]
    exact g.closed (edgeOf r) hmem
  | _ => cases h

theorem WellFormed.exists_ofJson {v : Json} (h : WellFormed v) : ∃ g, Graph.ofJson v = .ok g := by
  cases v with
  | obj fields =>
    obtain ⟨hreadNodes, hreadEdges⟩ := readable_of_records h.nodes h.edges
    have hdistinct : (((nodeRecords (.obj fields)).map nodeOf).map (·.id)).Nodup := by
      rw [map_id_nodeOf]
      exact h.distinct
    have hclosed : ∀ e ∈ (edgeRecords (.obj fields)).map edgeOf,
        e.source ∈ ((nodeRecords (.obj fields)).map nodeOf).map (·.id) ∧
          e.target ∈ ((nodeRecords (.obj fields)).map nodeOf).map (·.id) := by
      intro e he
      obtain ⟨r, hr, rfl⟩ := List.mem_map.1 he
      rw [map_id_nodeOf]
      exact h.closed r hr
    refine ⟨⟨_, _, hdistinct, hclosed⟩, ofJson_obj_eq_ok_iff.2 ⟨?_, hreadNodes.symm, hreadEdges.symm⟩⟩
    exact recordFaults_eq_nil_iff.2 ⟨⟨h.nodeList, h.edgeList⟩, h.nodes, h.edges⟩
  | _ =>
    obtain ⟨items, hitems⟩ := h.nodeList
    cases hitems

/-! ## Refused descriptions -/

end Flowgraph.Description
