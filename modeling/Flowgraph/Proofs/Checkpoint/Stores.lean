import Flowgraph.Checkpoint.Store
import Flowgraph.Proofs.Checkpoint.Record

/-!
# A store of texts against a store of checkpoints

Stores are compared by what they answer to a sequence of operations (`CheckpointStore.answers`).
A store that keeps texts answers as one that keeps the checkpoints, but for loads: a checkpoint
whose record nests no deeper than the reader allows is read back with its numbers as their texts
are read (`Checkpoint.reread`), and otherwise the load is refused, although the save was not

    text.answers ops ∅ = (memory.answers ops ∅).map readBack              (answers_text)

So the two stores answer alike exactly if no checkpoint that is loaded is too deep or holds a
double that is read from its text as another one (`answers_text_iff`).
-/

namespace Flowgraph

/-! ## Maps of images -/

namespace NameMap

variable {α β : Type} {f : String → α → β} {m : NameMap α} {key : String}

theorem find?_map (k : String) : (m.map f).find? k = (m.find? k).map (f k) := by
  refine Option.ext fun v => ?_
  rw [find?_eq_some_iff, map, List.mem_map, Option.map_eq_some_iff]
  constructor
  · rintro ⟨e, he, heq⟩
    obtain ⟨rfl, rfl⟩ := Prod.mk.inj heq
    exact ⟨e.2, find?_eq_some_iff.2 he, rfl⟩
  · rintro ⟨a, ha, rfl⟩
    exact ⟨(k, a), find?_eq_some_iff.1 ha, rfl⟩

theorem map_insert (value : α) :
    (m.insert key value).map f = (m.map f).insert key (f key value) := by
  refine ext fun k => ?_
  rw [find?_map, find?_insert, find?_insert, find?_map]
  by_cases hk : k = key
  · rw [if_pos hk, if_pos hk, hk]
    rfl
  · rw [if_neg hk, if_neg hk]

theorem map_erase : (m.erase key).map f = (m.map f).erase key := by
  refine ext fun k => ?_
  rw [find?_map, find?_erase, find?_erase, find?_map]
  by_cases hk : k = key
  · rw [if_pos hk, if_pos hk]
    rfl
  · rw [if_neg hk, if_neg hk]

theorem contains_map : (m.map f).contains key = m.contains key := by
  rw [contains, find?_map, Option.isSome_map]
  rfl

theorem keys_map : (m.map f).keys = m.keys := by
  refine NameSet.ext fun k => ?_
  simp only [mem_keys, find?_map, Option.map_eq_some_iff]
  constructor
  · rintro ⟨-, a, ha, -⟩
    exact ⟨a, ha⟩
  · rintro ⟨a, ha⟩
    exact ⟨_, a, ha, rfl⟩

end NameMap

namespace CheckpointStore

/-! ## Operations and answers -/

/-- What a store can be asked. -/
inductive Operation where
  | save (c : Checkpoint)
  | load (run : String)
  | delete (run : String)
  | list

/-- What a store answers to an operation. -/
inductive Answer where
  | saved (result : Except StoreError Unit)
  | loaded (result : Except StoreError (Option Checkpoint))
  | deleted (result : Except StoreError Bool)
  | listed (result : Except StoreError (List String))

variable {τ : Type}

def perform (st : CheckpointStore τ) : Operation → τ → Answer × τ
  | .save c, t => (st.save c t).map .saved id
  | .load run, t => (st.load run t).map .loaded id
  | .delete run, t => (st.delete run t).map .deleted id
  | .list, t => (st.list t).map .listed id

/-- What a store answers to operations in turn. -/
def answers (st : CheckpointStore τ) : List Operation → τ → List Answer
  | [], _ => []
  | op :: ops, t => (st.perform op t).1 :: st.answers ops (st.perform op t).2

/-! ## Texts -/

/-- What becomes of a checkpoint that is kept as a text. -/
def readBackAs (c : Checkpoint) : Except StoreError Checkpoint :=
  if c.toRecord.depth ≤ Json.depthLimit then .ok c.reread
  else .error (.malformed (Json.overflowMessage c.toRecord.text))

/-- The answer of a store that keeps texts, given that of one that keeps the checkpoints. -/
def readBack : Answer → Answer
  | .loaded (.ok (some c)) => .loaded ((readBackAs c).map some)
  | a => a

theorem ofText_compact {c : Checkpoint} (h : c.Ordered) :
    ofText c.toRecord.compact = readBackAs c := by
  rw [ofText, Json.ofString?_compact, readBackAs]
  split
  · rename_i hnone
    split at hnone
    · cases hnone
    · rename_i hdeep
      rw [if_neg hdeep, Json.compact, String.toList_ofList]
  · rename_i v hsome
    split at hsome
    · rename_i hshallow
      cases hsome
      rw [if_pos hshallow, Checkpoint.reread_toRecord, Checkpoint.decode_sorted h.reread]
    · cases hsome

theorem load_text_of_none {m : NameMap String} {run : String} (h : m.find? run = none) :
    text.load run m = (.ok none, m) := by
  simp only [text, h]

theorem load_text_of_some {m : NameMap String} {run t : String} (h : m.find? run = some t) :
    text.load run m = ((ofText t).map some, m) := by
  simp only [text, h]

/-- The texts of the checkpoints of a map. -/
def texts (m : NameMap Checkpoint) : NameMap String := m.map fun _ c => c.toRecord.compact

/-- All checkpoints of a map are in order. -/
def AllOrdered (m : NameMap Checkpoint) : Prop := ∀ run c, m.find? run = some c → c.Ordered

/-- Whether an operation saves only checkpoints in order. -/
def Operation.Ordered : Operation → Prop
  | .save c => c.Ordered
  | _ => True

theorem AllOrdered.perform {m : NameMap Checkpoint} (h : AllOrdered m) {op : Operation}
    (hop : op.Ordered) : AllOrdered (memory.perform op m).2 := by
  cases op with
  | save c =>
    intro run c' hfind
    have hfind' : (m.insert c.run c).find? run = some c' := hfind
    rw [NameMap.find?_insert] at hfind'
    split at hfind'
    · cases hfind'
      exact hop
    · exact h run c' hfind'
  | load run => exact h
  | delete run =>
    intro run' c' hfind
    have hfind' : (m.erase run).find? run' = some c' := hfind
    rw [NameMap.find?_erase] at hfind'
    split at hfind'
    · cases hfind'
    · exact h run' c' hfind'
  | list => exact h

/-- One operation on texts answers as the one on checkpoints does, read back, and leaves the texts
of the checkpoints. -/
theorem perform_text {m : NameMap Checkpoint} (h : AllOrdered m) (op : Operation) :
    text.perform op (texts m) =
      (readBack (memory.perform op m).1, texts (memory.perform op m).2) := by
  cases op with
  | save c =>
    show (Answer.saved (.ok ()), (texts m).insert c.run c.toRecord.compact) =
      (Answer.saved (.ok ()), texts (m.insert c.run c))
    rw [texts, texts, NameMap.map_insert]
  | load run =>
    show ((text.load run (texts m)).map Answer.loaded id) =
      (readBack (.loaded (.ok (m.find? run))), texts m)
    have hfind : (texts m).find? run = (m.find? run).map fun c => c.toRecord.compact :=
      NameMap.find?_map run
    cases hc : m.find? run with
    | none =>
      rw [hc, Option.map_none] at hfind
      rw [load_text_of_none hfind]
      rfl
    | some c =>
      rw [hc, Option.map_some] at hfind
      rw [load_text_of_some hfind, readBack, ← ofText_compact (h run c hc)]
      rfl
  | delete run =>
    show (Answer.deleted (.ok ((texts m).contains run)), (texts m).erase run) =
      (Answer.deleted (.ok (m.contains run)), texts (m.erase run))
    rw [texts, texts, NameMap.map_erase, NameMap.contains_map]
  | list =>
    show (Answer.listed (.ok (texts m).keys.toList), texts m) =
      (Answer.listed (.ok m.keys.toList), texts m)
    rw [texts, NameMap.keys_map]

/-- Operations on texts answer as those on checkpoints do, read back. -/
theorem answers_texts {ops : List Operation} (hops : ∀ op ∈ ops, op.Ordered)
    {m : NameMap Checkpoint} (h : AllOrdered m) :
    text.answers ops (texts m) = (memory.answers ops m).map readBack := by
  induction ops generalizing m with
  | nil => rfl
  | cons op ops ih =>
    obtain ⟨hop, hrest⟩ := List.forall_mem_cons.1 hops
    rw [answers, answers, perform_text h, List.map_cons]
    dsimp only
    rw [ih hrest (h.perform hop)]

theorem readBack_eq_self_iff (a : Answer) :
    readBack a = a ↔ ∀ c, a = .loaded (.ok (some c)) →
      c.toRecord.depth ≤ Json.depthLimit ∧ c.Lossless := by
  have hload : ∀ c, readBack (.loaded (.ok (some c))) = .loaded (.ok (some c)) ↔
      c.toRecord.depth ≤ Json.depthLimit ∧ c.Lossless := by
    intro c
    rw [readBack, readBackAs, ← c.reread_eq_self_iff]
    split
    · rename_i hshallow
      constructor
      · intro heq
        exact ⟨hshallow, Option.some.inj (Except.ok.inj (Answer.loaded.inj heq))⟩
      · rintro ⟨-, hlossless⟩
        rw [hlossless]
        rfl
    · rename_i hdeep
      exact iff_of_false (fun heq => nomatch Answer.loaded.inj heq) fun h => hdeep h.1
  constructor
  · rintro hself c rfl
    exact (hload c).1 hself
  · intro h
    unfold readBack
    split
    · rename_i c
      exact (hload c).2 (h c rfl)
    · rfl

/-- A checkpoint that was just saved is loaded as it is read back. -/
theorem load_save_text {c : Checkpoint} (h : c.Ordered) (t : NameMap String) :
    (text.load c.run (text.save c t).2).1 = (readBackAs c).map some := by
  have hfind : (t.insert c.run c.toRecord.compact).find? c.run = some c.toRecord.compact := by
    rw [NameMap.find?_insert, if_pos rfl]
  show (text.load c.run (t.insert c.run c.toRecord.compact)).1 = _
  rw [load_text_of_some hfind, ofText_compact h]

theorem answers_text {ops : List Operation} (h : ∀ c, .save c ∈ ops → c.Ordered) :
    text.answers ops ∅ = (memory.answers ops ∅).map readBack := by
  have hops : ∀ op ∈ ops, op.Ordered := by
    intro op hop
    cases op with
    | save c => exact h c hop
    | load run => trivial
    | delete run => trivial
    | list => trivial
  have hempty : AllOrdered ∅ := fun run c hfind => nomatch hfind
  exact answers_texts hops hempty

/-- Between a store of texts and a store of checkpoints only loads make a difference: of checkpoints
that are too deep, and of those with a double that is not read as itself. -/
theorem answers_text_iff {ops : List Operation} (h : ∀ c, .save c ∈ ops → c.Ordered) :
    text.answers ops ∅ = (memory.answers ops ∅).map readBack ∧
      (text.answers ops ∅ = memory.answers ops ∅ ↔
        ∀ c, Answer.loaded (.ok (some c)) ∈ memory.answers ops ∅ →
          c.toRecord.depth ≤ Json.depthLimit ∧ c.Lossless) := by
  refine ⟨answers_text h, ?_⟩
  rw [answers_text h]
  constructor
  · intro hsame c hc
    have hfixed := List.map_inj_left.1 (hsame.trans (List.map_id _).symm) _ hc
    exact (readBack_eq_self_iff _).1 hfixed c rfl
  · intro hloaded
    refine (List.map_congr_left fun a ha => ?_).trans (List.map_id _)
    exact (readBack_eq_self_iff a).2 fun c hc => hloaded c (hc ▸ ha)

/-! ## Deep and shallow checkpoints -/

/-- So many lists inside one another. -/
def nested : Nat → Json
  | 0 => .null
  | n + 1 => .arr [nested n]

theorem depth_nested (n : Nat) : (nested n).depth = n := by
  induction n with
  | zero => rfl
  | succ n ih => rw [nested, Json.depth, Json.itemsDepth, Json.itemsDepth, ih, Nat.max_zero]

theorem ordered_nested (n : Nat) : (nested n).Ordered := by
  induction n with
  | zero => trivial
  | succ n ih => exact ⟨ih, trivial⟩

theorem reread_nested (n : Nat) : (nested n).reread = nested n := by
  induction n with
  | zero => rfl
  | succ n ih => rw [nested, Json.reread, Json.rereadItems, Json.rereadItems, ih]

/-- A tenth. -/
def tenth : Double := ⟨false, 4591870180066957722, by decide⟩

theorem reread_tenth : tenth.reread = tenth :=
  Double.reread_of_short (by decide) (by decide +kernel) (by decide +kernel)

/-- A question that waits with a payload, in a state with a tenth, a negative zero and a text that
needs escapes. -/
def asking (payload : Json) : Checkpoint where
  run := "run"
  pending := "ask"
  state := ⟨[("note", .str "a\"\x01"), ("tenth", .num (.real tenth rfl)),
    ("zero", .num (.real (.zero true) rfl))], by decide +kernel⟩
  awaiting := .externalInput "answer"
  payload := payload
  carried := .ofList ["join"]
  completed := .ofList ["start", "plan"]
  step := 2
  createdAt := .epoch

theorem ordered_asking {payload : Json} (h : payload.Ordered) : (asking payload).Ordered where
  state := ⟨(asking payload).state.ascending, trivial, trivial, trivial, trivial⟩
  payload := h

theorem depth_asking (payload : Json) :
    (asking payload).toRecord.depth = max 1 payload.depth + 1 := Checkpoint.depth_toRecord _

theorem reread_asking (payload : Json) : (asking payload).reread = asking payload.reread := by
  have hlossless : (asking payload).state.toJson.Lossless :=
    ⟨trivial, reread_tenth, show (Double.zero true).reread = .zero true by decide +kernel, trivial⟩
  rw [Checkpoint.reread, (State.reread_eq_self_iff _).2 hlossless]
  rfl

/-- The doubles next to 0.9452706955539223 and 0.9452706955539224; the text of the first is read as
the second. -/
def measured : Number := .real ⟨false, 4606689461049798204, by decide⟩ rfl

def drifted : Number := .real ⟨false, 4606689461049798205, by decide⟩ rfl

theorem reread_measured : measured.reread = drifted := by decide +kernel

def savedAndLoaded : List Operation :=
  [.save (asking (nested 126)), .load "run", .save (asking (.num measured)), .load "run",
    .save (asking (nested 127)), .load "run"]

theorem ordered_savedAndLoaded : ∀ c, .save c ∈ savedAndLoaded → c.Ordered := by
  intro c hc
  simp only [savedAndLoaded, List.mem_cons, List.not_mem_nil, or_false, reduceCtorEq, false_or,
    Operation.save.injEq] at hc
  rcases hc with rfl | rfl | rfl
  · exact ordered_asking (ordered_nested 126)
  · exact ordered_asking trivial
  · exact ordered_asking (ordered_nested 127)

theorem answers_memory_savedAndLoaded : memory.answers savedAndLoaded ∅ =
    [.saved (.ok ()), .loaded (.ok (some (asking (nested 126)))),
      .saved (.ok ()), .loaded (.ok (some (asking (.num measured)))),
      .saved (.ok ()), .loaded (.ok (some (asking (nested 127))))] := by
  have hfind : ∀ (m : NameMap Checkpoint) (payload : Json),
      (m.insert "run" (asking payload)).find? "run" = some (asking payload) := by
    intro m payload
    rw [NameMap.find?_insert, if_pos rfl]
  let m : NameMap Checkpoint := (∅ : NameMap Checkpoint).insert "run" (asking (nested 126))
  let m' : NameMap Checkpoint := m.insert "run" (asking (.num measured))
  show [Answer.saved (.ok ()), .loaded (.ok (m.find? "run")),
    .saved (.ok ()), .loaded (.ok (m'.find? "run")),
    .saved (.ok ()), .loaded (.ok ((m'.insert "run" (asking (nested 127))).find? "run"))] = _
  rw [hfind, hfind, hfind]

/-- A tenth is kept and a longer double is not, and with one list more than the reader allows the
load is refused. -/
theorem answers_text_savedAndLoaded :
    (∀ c, .save c ∈ savedAndLoaded → c.Ordered) ∧
      text.answers savedAndLoaded ∅ =
        [.saved (.ok ()), .loaded (.ok (some (asking (nested 126)))),
          .saved (.ok ()), .loaded (.ok (some (asking (.num drifted)))),
          .saved (.ok ()), .loaded (.error (.malformed (Json.overflowMessage
            (asking (nested 127)).toRecord.text)))] ∧
      text.answers savedAndLoaded ∅ ≠ memory.answers savedAndLoaded ∅ := by
  obtain ⟨hread, hsame⟩ := answers_text_iff ordered_savedAndLoaded
  rw [answers_memory_savedAndLoaded] at hread hsame ⊢
  refine ⟨ordered_savedAndLoaded, ?_, fun heq => ?_⟩
  · rw [hread]
    simp only [List.map_cons, List.map_nil, readBack, readBackAs, depth_asking, depth_nested,
      reread_asking, reread_nested, Json.reread, reread_measured]
    rfl
  · obtain ⟨hdepth, -⟩ := hsame.1 heq (asking (nested 127)) (by simp)
    rw [depth_asking, depth_nested] at hdepth
    exact absurd hdepth (by decide)

/-- A store of texts does not answer all operations as a store of checkpoints does. -/
theorem not_answers_text_nested :
    ¬ ∀ ops : List Operation, (∀ c, .save c ∈ ops → c.Ordered) →
      text.answers ops ∅ = memory.answers ops ∅ := by
  intro hall
  have hsame := hall savedAndLoaded ordered_savedAndLoaded
  rw [answers_text ordered_savedAndLoaded, answers_memory_savedAndLoaded] at hsame
  have hdeep : readBack (.loaded (.ok (some (asking (nested 127))))) =
      .loaded (.ok (some (asking (nested 127)))) := by
    have hlast := congrArg (fun l => l[5]?) hsame
    exact Option.some.inj hlast
  obtain ⟨hdepth, -⟩ := (readBack_eq_self_iff _).1 hdeep _ rfl
  rw [depth_asking, depth_nested] at hdepth
  exact absurd hdepth (by decide)

end CheckpointStore

end Flowgraph
