import Flowgraph.Names.Set

/-!
# Names met again

A walk over names that reports every name it meets again, and reports it once.  Of the
two sets that it keeps one holds the names that occur at all and the other those that
occur more than once (`Sightings.counts_ofIds`).
-/

namespace Flowgraph

/-- What a walk over names has met: every name, and those that it met again. -/
structure Sightings where
  seen : NameSet := ∅
  reported : NameSet := ∅
  /-- What is reported, in the order in which it was met again. -/
  repeated : List String := []
deriving DecidableEq

namespace Sightings

def note (s : Sightings) (id : String) : Sightings :=
  if id ∉ s.seen then { s with seen := s.seen.insert id }
  else if id ∉ s.reported then
    { s with reported := s.reported.insert id, repeated := s.repeated ++ [id] }
  else s

def ofIds (ids : List String) : Sightings := ids.foldl note {}

section

variable {s : Sightings} {id a : String}

@[simp] theorem mem_seen_note : a ∈ (s.note id).seen ↔ id = a ∨ a ∈ s.seen := by
  unfold note
  split
  · rw [NameSet.mem_insert, eq_comm]
  · rename_i hseen
    have hin : id = a → a ∈ s.seen := fun heq => heq ▸ Decidable.not_not.1 hseen
    split
    · exact (or_iff_right_of_imp hin).symm
    · exact (or_iff_right_of_imp hin).symm

@[simp] theorem mem_reported_note :
    a ∈ (s.note id).reported ↔ id = a ∧ id ∈ s.seen ∨ a ∈ s.reported := by
  unfold note
  split
  · rename_i hseen
    exact (or_iff_right fun h => hseen h.2).symm
  rename_i hseen
  rw [and_iff_left (Decidable.not_not.1 hseen)]
  split
  · rw [NameSet.mem_insert, eq_comm]
  · rename_i hreported
    exact (or_iff_right_of_imp fun heq => heq ▸ Decidable.not_not.1 hreported).symm

/-- What is reported is written down. -/
theorem mem_repeated_note (h : ∀ b, b ∈ s.repeated ↔ b ∈ s.reported) :
    a ∈ (s.note id).repeated ↔ a ∈ (s.note id).reported := by
  unfold note
  split
  · exact h a
  split
  · rw [NameSet.mem_insert, List.mem_append, List.mem_singleton, h, or_comm]
  · exact h a

end

/-- The two sets tell how often a name has been met: not at all, once, or more often. -/
structure Counts (s : Sightings) (ids : List String) : Prop where
  seen : ∀ id, id ∈ s.seen ↔ 1 ≤ ids.count id
  reported : ∀ id, id ∈ s.reported ↔ 2 ≤ ids.count id
  repeated : ∀ id, id ∈ s.repeated ↔ id ∈ s.reported

theorem count_concat (ids : List String) (id a : String) :
    (ids ++ [id]).count a = ids.count a + if id = a then 1 else 0 := by
  rw [List.count_append, List.count_singleton]
  simp

/-- One step keeps count. -/
theorem Counts.note {s : Sightings} {ids : List String} (h : s.Counts ids) (id : String) :
    (s.note id).Counts (ids ++ [id]) := by
  refine ⟨fun a => ?_, fun a => ?_, fun a => mem_repeated_note h.repeated⟩
  · rw [mem_seen_note, h.seen, count_concat]
    by_cases heq : id = a
    · simp [heq]
    · simp [heq]
  · rw [mem_reported_note, h.seen, h.reported, count_concat]
    by_cases heq : id = a
    · subst heq
      rw [and_iff_right rfl, if_pos rfl]
      omega
    · simp [heq]

theorem Counts.foldl {s : Sightings} {before : List String} (h : s.Counts before)
    (ids : List String) : (ids.foldl Sightings.note s).Counts (before ++ ids) := by
  induction ids generalizing s before with
  | nil =>
    rw [List.append_nil]
    exact h
  | cons id ids ih =>
    have hrest := ih (h.note id)
    rw [List.append_assoc] at hrest
    exact hrest

theorem counts_ofIds (ids : List String) : (ofIds ids).Counts ids := by
  have hnone : ({} : Sightings).Counts [] := ⟨by simp, by simp, by simp⟩
  exact hnone.foldl ids

theorem mem_seen_ofIds {ids : List String} {id : String} : id ∈ (ofIds ids).seen ↔ id ∈ ids :=
  ((counts_ofIds ids).seen id).trans List.one_le_count_iff

end Sightings

end Flowgraph
