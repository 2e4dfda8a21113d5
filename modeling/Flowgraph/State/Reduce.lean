import Flowgraph.State.Basic

/-!
# Merging updates into a state

An update is an object whose fields replace the state's, the last writer of a key
winning.  A batch of updates is merged in its order; values that are no objects
are skipped and counted.  `reduce_append` says that merging a batch is merging its
parts one after the other.
-/

namespace Flowgraph

/-- Why a value is no update. -/
inductive ReduceError where
  | notAMapping (found : String)
deriving DecidableEq

namespace ReduceError

def message : ReduceError → String
  | notAMapping found => "state update must be a mapping, got " ++ found

end ReduceError

/-- What merging a batch did. -/
structure ReduceReport where
  updatedKeys : NameSet
  skipped : Nat
deriving DecidableEq

namespace State

/-- Merges one update; answers the new state and the keys written. -/
def apply (s : State) : Json → Except ReduceError (State × List String)
  | .obj fields => .ok (s.overlay fields, fields.map (·.1))
  | v => .error (.notAMapping v.typeName)

/-- Merges one value of a batch. -/
def reduceStep (acc : State × ReduceReport) (v : Json) : State × ReduceReport :=
  match acc.1.apply v with
  | .ok (s, keys) => (s, { acc.2 with updatedKeys := acc.2.updatedKeys ∪ NameSet.ofList keys })
  | .error _ => (acc.1, { acc.2 with skipped := acc.2.skipped + 1 })

/-- Merges a batch and reports what it did. -/
def reduce (s : State) (batch : List Json) : State × ReduceReport :=
  batch.foldl reduceStep (s, ⟨∅, 0⟩)

/-- The state after merging a batch does not depend on what was reported before. -/
theorem foldl_reduceStep_fst (batch : List Json) (s : State) (r r' : ReduceReport) :
    (batch.foldl reduceStep (s, r)).1 = (batch.foldl reduceStep (s, r')).1 := by
  induction batch generalizing s r r' with
  | nil => rfl
  | cons v batch ih =>
    simp only [List.foldl_cons, reduceStep]
    cases s.apply v <;> exact ih _ _ _

theorem reduce_append (s : State) (l m : List Json) :
    (s.reduce (l ++ m)).1 = ((s.reduce l).1.reduce m).1 := by
  simp only [reduce, List.foldl_append]
  exact foldl_reduceStep_fst _ _ _ _

/-- Merging one value: an object's fields are laid over the state, all else changes nothing. -/
theorem reduce_singleton (s : State) (v : Json) :
    (s.reduce [v]).1 = match v with
      | .obj fields => s.overlay fields
      | _ => s := by
  cases v <;> rfl

theorem reduce_cons (s : State) (v : Json) (batch : List Json) :
    (s.reduce (v :: batch)).1 = ((s.reduce [v]).1.reduce batch).1 := reduce_append s [v] batch

/-- What a merged state has under a key was there before, or was written by an update. -/
theorem find?_reduce_cases {s : State} {batch : List Json} {key : String} {v : Json}
    (h : (s.reduce batch).1.find? key = some v) :
    s.find? key = some v ∨ ∃ fields, Json.obj fields ∈ batch ∧ (key, v) ∈ fields := by
  induction batch generalizing s with
  | nil => exact .inl h
  | cons u batch ih =>
    rw [reduce_cons] at h
    rcases ih h with hfirst | ⟨fields, hmem, hkey⟩
    · rw [reduce_singleton] at hfirst
      cases u with
      | obj fields =>
        rw [NameMap.find?_overlay] at hfirst
        cases hl : fields.lookup key with
        | none =>
          rw [hl] at hfirst
          exact .inl hfirst
        | some u =>
          rw [hl] at hfirst
          cases hfirst
          exact .inr ⟨fields, List.mem_cons_self, NameMap.mem_of_lookup hl⟩
      | _ => exact .inl hfirst
    · exact .inr ⟨fields, List.mem_cons_of_mem _ hmem, hkey⟩

/-- No key is ever lost by merging. -/
theorem contains_reduce {s : State} {key : String} (h : s.contains key = true) (batch : List Json) :
    (s.reduce batch).1.contains key = true := by
  induction batch generalizing s with
  | nil => exact h
  | cons u batch ih =>
    rw [reduce_cons]
    refine ih ?_
    rw [reduce_singleton]
    cases u with
    | obj fields =>
      obtain ⟨v, hv⟩ := NameMap.contains_eq_true_iff.1 h
      rw [NameMap.contains_eq_true_iff]
      simp only [NameMap.find?_overlay, hv]
      cases fields.lookup key <;> simp
    | _ => exact h

/-- Every key that an update of the batch writes is in the merged state. -/
theorem contains_reduce_of_mem (s : State) {batch : List Json} {fields : Fields} {f : String × Json}
    (hbatch : Json.obj fields ∈ batch) (hf : f ∈ fields) :
    (s.reduce batch).1.contains f.1 = true := by
  obtain ⟨before, after, rfl⟩ := List.append_of_mem hbatch
  rw [reduce_append, reduce_cons]
  refine contains_reduce ?_ after
  rw [reduce_singleton, NameMap.contains_eq_true_iff]
  simp only [NameMap.find?_overlay]
  cases hl : fields.lookup f.1 with
  | none =>
    have := List.lookup_eq_none_iff.1 hl f hf
    simp at this
  | some v => simp

end State

end Flowgraph
