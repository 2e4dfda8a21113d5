import Flowgraph.Checkpoint.Basic
import Flowgraph.Proofs.Checkpoint.Instants
import Flowgraph.Proofs.Json.Text

/-!
# Records of checkpoints that are read back

A checkpoint whose values are in order (`Checkpoint.Ordered`) is decoded from its record once the
fields of the record are sorted, whatever it holds and waits for

    c.Ordered → decode c.toRecord.sorted = .ok c                          (decode_sorted)

The record is one level deeper than what the checkpoint holds (`depth_toRecord`), and its doubles
are those of the state and the payload (`reread_toRecord`).
-/

namespace Flowgraph

/-! ## Parts of a record -/

theorem Awaiting.decode_sorted (a : Awaiting) : decode a.toRecord.sorted = .ok a := by
  cases a with
  | nothing => rfl
  | externalInput key =>
    have hsorted : (externalInput key).toRecord.sorted =
        .obj [("key", .str key), ("kind", .str "external_input")] := by
      refine Json.object_of_mem_iff ?_ ?_ fun f => ?_
      · show ["kind", "key"].Nodup
        decide
      · show ["key", "kind"].Pairwise (· < ·)
        decide +kernel
      · simp only [Json.sortedFields, Json.sorted, List.mem_cons, List.not_mem_nil, or_false]
        exact or_comm
    rw [hsorted]
    rfl

theorem Awaiting.depth_toRecord (a : Awaiting) : a.toRecord.depth = 1 := by
  cases a with
  | nothing => rfl
  | externalInput key => rfl

/-- The state with every number as its text is read. -/
def State.reread (s : State) : State := s.map fun _ v => v.reread

theorem State.toJson_reread (s : State) : s.reread.toJson = s.toJson.reread := by
  show Json.obj _ = Json.obj _
  rw [Json.rereadFields_eq_map]
  rfl

theorem State.reread_eq_self_iff (s : State) : s.reread = s ↔ s.toJson.Lossless := by
  rw [← Json.reread_eq_self_iff, ← State.toJson_reread]
  refine ⟨congrArg State.toJson, fun h => NameMap.ext fun k => ?_⟩
  exact congrArg (fun l : Fields => l.lookup k) (Json.obj.inj h)

namespace Checkpoint

theorem sorted_ofNames (names : List String) : (Json.ofNames names).sorted = .ofNames names := by
  have hitems : Json.sortedItems (names.map .str) = names.map .str := by
    induction names with
    | nil => rfl
    | cons name names ih =>
      rw [List.map_cons, Json.sortedItems, ih]
      rfl
  rw [Json.ofNames, Json.sorted, hitems]

theorem depth_ofNames (names : List String) : (Json.ofNames names).depth = 1 := by
  have hitems : Json.itemsDepth (names.map .str) = 0 := by
    induction names with
    | nil => rfl
    | cons name names ih =>
      rw [List.map_cons, Json.itemsDepth, ih]
      rfl
  rw [Json.ofNames, Json.depth, hitems]

/-- A set of names is read back from its list. -/
theorem decodeNames_ofNames (s : NameSet) : decodeNames (.ofNames s.toList) = .ok s := by
  have hitems : ∀ names : List String, Decoder.items .text (.ofNames names) = .ok names := by
    intro names
    show (names.map Json.str).mapM Decoder.text = .ok names
    induction names with
    | nil => rfl
    | cons name names ih =>
      rw [List.map_cons, List.mapM_cons, ih]
      rfl
  have hset : NameSet.ofList s.toList = s := NameSet.ext fun _ => NameSet.mem_ofList
  rw [decodeNames, hitems]
  exact congrArg Except.ok hset

theorem word_ofWord (w : UInt64) : Decoder.word (.ofWord w) = .ok w := by
  have hword : (Number.whole (.ofWord w)).word? = some w := by
    show (if 0 ≤ ((w.toNat : Nat) : Int) then some (UInt64.ofNat w.toNat) else none) = some w
    rw [if_pos (Int.natCast_nonneg _), UInt64.ofNat_toNat]
  simp only [Decoder.word, Json.ofWord, hword]

/-- A state is the one with its entries as fields. -/
theorem ofFields_toList (s : State) : State.ofFields s.toList = s := by
  refine NameMap.ext fun k => ?_
  rw [State.ofFields, NameMap.find?_overlay, NameMap.find?_empty, Option.or_none]
  rfl

theorem decodeTime_text (t : Timestamp) : decodeTime (.str t.text) = .ok t := by
  rw [decodeTime, Timestamp.ofString?_text]

/-! ## Records -/

/-- The fields of the objects in the state and in the payload ascend by key, as they do in every
object that is made. -/
structure Ordered (c : Checkpoint) : Prop where
  state : c.state.toJson.Ordered
  payload : c.payload.Ordered

/-- The fields of a record in ascending order. -/
def ascendingFields (c : Checkpoint) : Fields :=
  [("awaiting", c.awaiting.toRecord.sorted), ("carried_frontier", .ofNames c.carried.toList),
    ("completed", .ofNames c.completed.toList), ("created_at", .str c.createdAt.text),
    ("payload", c.payload), ("pending_node", .str c.pending), ("run_id", .str c.run),
    ("state_snapshot", c.state.toJson), ("step", .ofWord c.step)]

theorem sorted_toRecord {c : Checkpoint} (h : c.Ordered) :
    c.toRecord.sorted = .obj c.ascendingFields := by
  refine Json.object_of_mem_iff ?_ ?_ fun f => ?_
  · show ["run_id", "pending_node", "state_snapshot", "awaiting", "payload", "carried_frontier",
      "completed", "step", "created_at"].Nodup
    decide
  · show ["awaiting", "carried_frontier", "completed", "created_at", "payload", "pending_node",
      "run_id", "state_snapshot", "step"].Pairwise (· < ·)
    decide +kernel
  · simp only [recordFields, ascendingFields, List.cons_append, List.nil_append, Json.sortedFields,
      Json.sorted_of_ordered h.state, Json.sorted_of_ordered h.payload, sorted_ofNames,
      Json.ofWord, Json.sorted, List.mem_cons, List.not_mem_nil, or_false]
    grind

/-- A field that has not been seen is visited. -/
theorem visitFields_cons {δ : Type} {spellings : List (List String)}
    {visit : δ → String → Json → Except DecodeError δ} {seen : List String} {d d' : δ}
    {key name : String} {v : Json} {rest : Fields}
    (hname : Decoder.declared? spellings key = some name) (hseen : ¬ name ∈ seen)
    (hvisit : visit d name v = .ok d') :
    Decoder.visitFields spellings visit seen d ((key, v) :: rest) =
      Decoder.visitFields spellings visit (name :: seen) d' rest := by
  rw [Decoder.visitFields, hname]
  dsimp only
  rw [if_neg hseen, hvisit]

/-- A checkpoint is read back from its record. -/
theorem decode_sorted {c : Checkpoint} (h : c.Ordered) : decode c.toRecord.sorted = .ok c := by
  have hstate : Decoder.fields c.state.toJson = .ok c.state.toList := rfl
  have hdraft : Decoder.visitFields [["run_id"], ["pending_node"], ["state_snapshot"],
      ["awaiting"], ["payload"], ["carried_frontier"], ["completed"], ["step"], ["created_at"]]
      visit [] {} c.ascendingFields = .ok ⟨some c.run, some c.pending, some c.state,
        some c.awaiting, c.payload, c.carried, c.completed, some c.step, some c.createdAt⟩ := by
    -- One visit for each field, in the order of the sorted record.
    rw [ascendingFields,
      visitFields_cons (show _ = some "awaiting" from rfl) (by decide)
        (by simp only [visit, Awaiting.decode_sorted]; rfl),
      visitFields_cons (show _ = some "carried_frontier" from rfl) (by decide)
        (by simp only [visit, decodeNames_ofNames]; rfl),
      visitFields_cons (show _ = some "completed" from rfl) (by decide)
        (by simp only [visit, decodeNames_ofNames]; rfl),
      visitFields_cons (show _ = some "created_at" from rfl) (by decide)
        (by simp only [visit, decodeTime_text]; rfl),
      visitFields_cons (show _ = some "payload" from rfl) (by decide) rfl,
      visitFields_cons (show _ = some "pending_node" from rfl) (by decide) rfl,
      visitFields_cons (show _ = some "run_id" from rfl) (by decide) rfl,
      visitFields_cons (show _ = some "state_snapshot" from rfl) (by decide)
        (by simp only [visit, hstate]; rfl),
      visitFields_cons (show _ = some "step" from rfl) (by decide)
        (by simp only [visit, word_ofWord]; rfl),
      Decoder.visitFields, ofFields_toList]
  rw [sorted_toRecord h, decode, Decoder.record, hdraft]
  rfl

/-- A record is one level deeper than what its checkpoint holds. -/
theorem depth_toRecord (c : Checkpoint) :
    c.toRecord.depth = max c.state.toJson.depth c.payload.depth + 1 := by
  have hstate : 1 ≤ c.state.toJson.depth := by
    rw [State.toJson, Json.depth]
    omega
  rw [toRecord, Json.depth]
  simp only [recordFields, List.cons_append, List.nil_append, Json.fieldsDepth,
    Awaiting.depth_toRecord, depth_ofNames, Json.ofWord, Json.depth]
  omega

/-! ## Numbers -/

/-- The checkpoint with every number of its state and its payload as its text is read. -/
def reread (c : Checkpoint) : Checkpoint :=
  { c with state := c.state.reread, payload := c.payload.reread }

theorem reread_ofNames (names : List String) : (Json.ofNames names).reread = .ofNames names := by
  have hitems : Json.rereadItems (names.map .str) = names.map .str := by
    induction names with
    | nil => rfl
    | cons name names ih =>
      rw [List.map_cons, Json.rereadItems, ih]
      rfl
  rw [Json.ofNames, Json.reread, hitems]

theorem reread_awaiting (a : Awaiting) : a.toRecord.reread = a.toRecord := by
  cases a with
  | nothing => rfl
  | externalInput key => rfl

theorem reread_toRecord (c : Checkpoint) : c.toRecord.reread = c.reread.toRecord := by
  show Json.obj _ = Json.obj _
  simp only [recordFields, reread, List.cons_append, List.nil_append, Json.rereadFields,
    reread_ofNames, reread_awaiting, State.toJson_reread, Json.ofWord, Json.reread, Number.reread]

theorem Ordered.reread {c : Checkpoint} (h : c.Ordered) : c.reread.Ordered where
  state := by
    show c.state.reread.toJson.Ordered
    rw [State.toJson_reread]
    exact h.state.reread
  payload := h.payload.reread

/-- Every double of the state and of the payload is read from its text as itself. -/
structure Lossless (c : Checkpoint) : Prop where
  state : c.state.toJson.Lossless
  payload : c.payload.Lossless

theorem reread_eq_self_iff (c : Checkpoint) : c.reread = c ↔ c.Lossless := by
  constructor
  · intro h
    exact ⟨(State.reread_eq_self_iff _).1 (congrArg Checkpoint.state h),
      (Json.reread_eq_self_iff _).1 (congrArg Checkpoint.payload h)⟩
  · intro h
    rw [reread, (State.reread_eq_self_iff _).2 h.state, (Json.reread_eq_self_iff _).2 h.payload]

end Checkpoint

end Flowgraph
