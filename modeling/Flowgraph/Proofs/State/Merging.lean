import Flowgraph.State.Reduce
import Mathlib.Data.List.Basic

/-!
# What merging a batch comes to

Under each key a merged state has what the last object of the batch with that key has there, and
what was there before if no object of the batch has it

    (s.reduce batch).1.find? key = (lastWritten? batch key).or (s.find? key)    (find?_reduce)

The report names the keys of the batch's objects in ascending order and counts what is no object
(`mem_updatedKeys`, `skipped_reduce`).  Neither depends on the order of a batch in which no key is
written twice (`reduce_perm`).
-/

namespace Flowgraph

/-- A key of an object is one under which it has a value. -/
theorem mem_keys_iff {fields : Fields} {key : String} :
    key ∈ fields.map (·.1) ↔ ∃ v, fields.lookup key = some v := by
  constructor
  · intro h
    obtain ⟨f, hf, rfl⟩ := List.mem_map.1 h
    cases hl : fields.lookup f.1 with
    | none =>
      have := List.lookup_eq_none_iff.1 hl f hf
      simp at this
    | some v => exact ⟨v, rfl⟩
  · rintro ⟨v, hv⟩
    exact List.mem_map.2 ⟨(key, v), NameMap.mem_of_lookup hv, rfl⟩

namespace State

/-! ## The state -/

/-- What the last object of a batch that has a key has under it. -/
def lastWritten? (batch : List Json) (key : String) : Option Json :=
  batch.reverse.findSome? (·.field? key)

theorem lastWritten?_cons (u : Json) (batch : List Json) (key : String) :
    lastWritten? (u :: batch) key = (lastWritten? batch key).or (u.field? key) := by
  unfold lastWritten?
  rw [List.reverse_cons, List.findSome?_append, List.findSome?_singleton]

theorem find?_reduce_singleton (s : State) (u : Json) (key : String) :
    (s.reduce [u]).1.find? key = (u.field? key).or (s.find? key) := by
  rw [reduce_singleton]
  cases u with
  | obj fields => exact NameMap.find?_overlay
  | _ => rfl

theorem find?_reduce (s : State) (batch : List Json) (key : String) :
    (s.reduce batch).1.find? key = (lastWritten? batch key).or (s.find? key) := by
  induction batch generalizing s with
  | nil => rfl
  | cons u batch ih =>
    rw [reduce_cons, ih, find?_reduce_singleton, lastWritten?_cons, Option.or_assoc]

/-! ## The report -/

/-- What a batch adds to a report. -/
theorem report_foldl (batch : List Json) (s : State) (r : ReduceReport) :
    (∀ key, key ∈ (batch.foldl reduceStep (s, r)).2.updatedKeys ↔
      key ∈ r.updatedKeys ∨ ∃ u ∈ batch, ∃ v, u.field? key = some v) ∧
    (batch.foldl reduceStep (s, r)).2.skipped = r.skipped + batch.countP (!·.isObject) := by
  induction batch generalizing s r with
  | nil => simp
  | cons u batch ih =>
    rw [List.foldl_cons, List.countP_cons]
    cases u with
    | obj fields =>
      obtain ⟨hkeys, hskipped⟩ := ih (s.overlay fields)
        { r with updatedKeys := r.updatedKeys ∪ NameSet.ofList (fields.map (·.1)) }
      refine ⟨fun key => (hkeys key).trans ?_, hskipped⟩
      rw [NameSet.mem_union, NameSet.mem_ofList, mem_keys_iff, List.exists_mem_cons_iff, or_assoc]
      rfl
    | _ =>
      obtain ⟨hkeys, hskipped⟩ := ih s { r with skipped := r.skipped + 1 }
      constructor
      · intro key
        apply (hkeys key).trans
        simp [Json.field?]
      · apply hskipped.trans
        simp only [Json.isObject, Bool.not_false, if_true]
        omega

theorem mem_updatedKeys {s : State} {batch : List Json} {key : String} :
    key ∈ (s.reduce batch).2.updatedKeys ↔ ∃ u ∈ batch, ∃ v, u.field? key = some v := by
  apply ((report_foldl batch s ⟨∅, 0⟩).1 key).trans
  simp

theorem skipped_reduce (s : State) (batch : List Json) :
    (s.reduce batch).2.skipped = batch.countP (!·.isObject) := by
  apply (report_foldl batch s ⟨∅, 0⟩).2.trans
  rw [Nat.zero_add]

/-! ## Batches together, and in another order -/

/-- The report on two batches together says what the reports on each of them say. -/
theorem report_append (s t : State) (l m : List Json) :
    (s.reduce (l ++ m)).2 =
      ⟨(s.reduce l).2.updatedKeys ∪ (t.reduce m).2.updatedKeys,
        (s.reduce l).2.skipped + (t.reduce m).2.skipped⟩ := by
  have hkeys : (s.reduce (l ++ m)).2.updatedKeys =
      (s.reduce l).2.updatedKeys ∪ (t.reduce m).2.updatedKeys := by
    ext key
    simp only [NameSet.mem_union, mem_updatedKeys, List.mem_append, or_and_right, exists_or]
  have hskipped : (s.reduce (l ++ m)).2.skipped =
      (s.reduce l).2.skipped + (t.reduce m).2.skipped := by
    simp only [skipped_reduce, List.countP_append]
  rw [← hkeys, ← hskipped]

/-- No key is in both of two updates. -/
def Apart (u v : Json) : Prop := ∀ key, u.field? key = none ∨ v.field? key = none

theorem Apart.symm {u v : Json} (h : Apart u v) : Apart v u := fun key => (h key).symm

/-- Where no two updates have a key in common, whichever has it is the last one. -/
theorem lastWritten?_eq_some_iff {batch : List Json} (h : batch.Pairwise Apart) {key : String}
    {v : Json} : lastWritten? batch key = some v ↔ ∃ u ∈ batch, u.field? key = some v := by
  induction batch generalizing v with
  | nil => simp [lastWritten?]
  | cons u batch ih =>
    obtain ⟨hu, hrest⟩ := List.pairwise_cons.1 h
    rw [lastWritten?_cons, List.exists_mem_cons_iff, ← ih hrest]
    cases hl : lastWritten? batch key with
    | none => simp
    | some w =>
      obtain ⟨u', hu', hw⟩ := (ih hrest).1 hl
      have hnone : u.field? key = none := by
        rcases hu u' hu' key with hnone | hnone
        · exact hnone
        · rw [hw] at hnone
          cases hnone
      simp [hnone]

theorem reduce_perm (s : State) {l m : List Json} (hperm : l.Perm m) (hl : l.Pairwise Apart) :
    s.reduce m = s.reduce l := by
  have hm : m.Pairwise Apart := hperm.pairwise hl Apart.symm
  have hstate : (s.reduce m).1 = (s.reduce l).1 := by
    ext key : 1
    have hlast : lastWritten? m key = lastWritten? l key := by
      ext v
      rw [lastWritten?_eq_some_iff hm, lastWritten?_eq_some_iff hl]
      simp only [hperm.mem_iff]
    rw [find?_reduce, find?_reduce, hlast]
  have hkeys : (s.reduce m).2.updatedKeys = (s.reduce l).2.updatedKeys := by
    ext key
    simp only [mem_updatedKeys, hperm.mem_iff]
  have hskipped : (s.reduce m).2.skipped = (s.reduce l).2.skipped := by
    rw [skipped_reduce, skipped_reduce, hperm.countP_eq]
  have hreport : (s.reduce m).2 = (s.reduce l).2 := by
    show ReduceReport.mk _ _ = ReduceReport.mk _ _
    rw [hkeys, hskipped]
  exact Prod.ext hstate hreport

/-- Merging a batch: under each key the value of the last object that has it, or else the old one; a
report of the keys that were written and of what was skipped; two batches together as one after the
other; and batches without a common key in whatever order. -/
theorem reduce_lastWriter (s : State) (batch : List Json) :
    (∀ key, (s.reduce batch).1.find? key = (lastWritten? batch key).or (s.find? key)) ∧
    (s.reduce batch).2.updatedKeys.toList.Pairwise (· < ·) ∧
    (∀ key, key ∈ (s.reduce batch).2.updatedKeys.toList ↔
      ∃ u ∈ batch, ∃ v, u.field? key = some v) ∧
    (s.reduce batch).2.skipped = batch.countP (!·.isObject) ∧
    (∀ more, s.reduce (batch ++ more) =
      (((s.reduce batch).1.reduce more).1,
        ⟨(s.reduce batch).2.updatedKeys ∪ ((s.reduce batch).1.reduce more).2.updatedKeys,
          (s.reduce batch).2.skipped + ((s.reduce batch).1.reduce more).2.skipped⟩)) ∧
    ∀ arranged, batch.Perm arranged → batch.Pairwise Apart → s.reduce arranged = s.reduce batch := by
  refine ⟨s.find?_reduce batch, NameSet.ascending _, fun key => mem_updatedKeys,
    s.skipped_reduce batch, fun more => ?_, fun arranged hperm => s.reduce_perm hperm⟩
  apply Prod.ext
  · exact s.reduce_append batch more
  · exact s.report_append _ batch more

/-- Two objects and a number, in either order. -/
theorem reduce_lastWriter_turned :
    [Json.obj [("a", .null)], .bool true, .obj [("b", .null)]].Pairwise Apart ∧
    reduce ∅ [.obj [("b", .null)], .bool true, .obj [("a", .null)]] =
      reduce ∅ [.obj [("a", .null)], .bool true, .obj [("b", .null)]] ∧
    (reduce ∅ [.obj [("a", .null)], .bool true, .obj [("b", .null)]]).2.updatedKeys.toList =
      ["a", "b"] := by
  have hapart : [Json.obj [("a", .null)], .bool true, .obj [("b", .null)]].Pairwise Apart := by
    have hab : Apart (.obj [("a", .null)]) (.obj [("b", .null)]) := by
      intro key
      by_cases h : key = "a"
      · right
        subst h
        rfl
      · left
        simp [Json.field?, NameMap.lookup_cons, h]
    have hab' : ∀ u ∈ [Json.bool true, .obj [("b", .null)]], Apart (.obj [("a", .null)]) u := by
      intro u hu
      rcases List.mem_cons.1 hu with rfl | hu
      · exact fun _ => .inr rfl
      · rw [List.mem_singleton.1 hu]
        exact hab
    apply List.Pairwise.cons hab'
    exact List.pairwise_pair.2 fun _ => .inl rfl
  refine ⟨hapart, ?_, by decide +kernel⟩
  apply (reduce_lastWriter ∅ _).2.2.2.2.2 _ _ hapart
  exact (List.reverse_perm _).symm

end State

end Flowgraph
