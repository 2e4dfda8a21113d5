import Flowgraph.Proofs.Predicate.Operands
import Flowgraph.Template

/-!
# Dotted paths

The paths that placeholders are written with, as their segments: an identifier and words behind it.
The head is a key of the state and the rest leads into the value there; a leading `state` may stand
for the state itself, and then the path behind it is meant.

    Template.lookup s p.text = p.value? s        (lookup_text)
    Template.root p.text = p.root                (root_text)
-/

namespace Flowgraph

open Text (isWordChar isWordStart)

/-- A path, segment by segment. -/
structure DottedPath where
  head : List Char
  tail : List (List Char) := []

namespace DottedPath

def text (p : DottedPath) : List Char := p.head ++ p.tail.flatMap ('.' :: ·)

/-- Every segment is a word. -/
def Wordy (p : DottedPath) : Prop :=
  ∀ piece ∈ p.head :: p.tail, piece ≠ [] ∧ ∀ c ∈ piece, isWordChar c = true

instance (p : DottedPath) : Decidable p.Wordy :=
  decidable_of_iff
    (((p.head :: p.tail).all fun piece => !piece.isEmpty && piece.all isWordChar) = true)
    (by simp [Wordy])

/-- A path opens with an identifier and goes on with words. -/
structure WellFormed (p : DottedPath) : Prop where
  opens : ∃ c cs, p.head = c :: cs ∧ isWordStart c = true
  wordy : p.Wordy

/-- The value that a path leads to. -/
def follow? (p : DottedPath) (s : State) : Option Json :=
  (s.find? (String.ofList p.head)).bind fun v => v.follow? (p.tail.map String.ofList)

/-- The path behind a leading `state`. -/
def behindState? (p : DottedPath) : Option DottedPath :=
  match p.tail with
  | [] => none
  | next :: tail => if p.head = "state".toList then some ⟨next, tail⟩ else none

/-- The value that a path denotes: the one that it leads to, or else the one that the path behind a
leading `state` leads to. -/
def value? (p : DottedPath) (s : State) : Option Json :=
  (p.follow? s).or (p.behindState?.bind fun q => q.follow? s)

/-- The name that stands first in a path, after an optional leading `state`. -/
def root (p : DottedPath) : String := String.ofList (p.behindState?.getD p).head

variable {p q : DottedPath}

theorem WellFormed.isDottedPath_text (h : p.WellFormed) : Text.isDottedPath p.text = true :=
  Predicate.isDottedPath_pieces h.opens h.wordy

theorem text_eq_intercalate (p : DottedPath) : p.text = ['.'].intercalate (p.head :: p.tail) := by
  obtain ⟨head, tail⟩ := p
  induction tail generalizing head with
  | nil => simp [text, List.intercalate]
  | cons piece tail ih =>
    have hrest := ih piece
    unfold text at hrest ⊢
    dsimp only at hrest ⊢
    rw [List.flatMap_cons, List.cons_append, hrest]
    simp [List.intercalate]

/-- Every dotted path is the text of its segments. -/
theorem exists_text {cs : List Char} (h : Text.isDottedPath cs = true) :
    ∃ p : DottedPath, p.WellFormed ∧ p.text = cs := by
  unfold Text.isDottedPath at h
  split at h
  · rename_i c head tail hpieces
    simp only [Bool.and_eq_true, List.all_eq_true, Bool.not_eq_true', List.isEmpty_eq_false_iff] at h
    obtain ⟨⟨hc, hhead⟩, htail⟩ := h
    have hword := Predicate.isWordChar_of_isWordStart hc
    have hwordy : Wordy ⟨c :: head, tail⟩ := by
      refine List.forall_mem_cons.2 ⟨⟨List.cons_ne_nil c head, ?_⟩, htail⟩
      exact List.forall_mem_cons.2 ⟨hword, hhead⟩
    refine ⟨⟨c :: head, tail⟩, ⟨⟨c, head, rfl, hc⟩, hwordy⟩, ?_⟩
    rw [text_eq_intercalate, ← Text.intercalate_splitAt '.' cs, hpieces]
  · cases h

theorem behindState?_of_ne (h : p.head ≠ "state".toList) : p.behindState? = none := by
  unfold behindState?
  split
  · rfl
  · exact if_neg h

theorem Wordy.behindState? (h : p.Wordy) (hq : p.behindState? = some q) : q.Wordy := by
  obtain ⟨head, tail⟩ := p
  cases tail with
  | nil => cases hq
  | cons next tail =>
    unfold DottedPath.behindState? at hq
    dsimp only at hq
    split at hq
    · cases hq
      exact fun piece hpiece => h piece (List.mem_cons_of_mem head hpiece)
    · cases hq

/-- No segment holds the separator. -/
theorem Wordy.dot_not_mem (h : p.Wordy) {piece : List Char} (hpiece : piece ∈ p.head :: p.tail) :
    '.' ∉ piece := by
  intro hdot
  have hword := (h piece hpiece).2 '.' hdot
  cases hword

/-- The head of a path is what stands before its first dot. -/
theorem Wordy.takeWhile_text (h : p.Wordy) : p.text.takeWhile (· != '.') = p.head := by
  refine (Predicate.takeWhile_append_stop ?_ ?_).1
  · intro c hc
    rw [bne_iff_ne]
    rintro rfl
    exact h.dot_not_mem List.mem_cons_self hc
  · intro d ds hd
    cases htail : p.tail with
    | nil =>
      rw [htail] at hd
      cases hd
    | cons piece tail =>
      rw [htail] at hd
      cases hd
      rfl

/-! ## What is looked up -/

theorem atPath?_text (h : p.Wordy) (s : State) :
    s.atPath? (String.ofList p.text) = p.follow? s := by
  have hpieces : Text.splitAt '.' p.text = p.head :: p.tail :=
    Predicate.splitAt_words fun piece hpiece => (h piece hpiece).2
  -- a path that ends in a dot leads to the value before the dot, but no segment is empty here
  have hends : p.tail.map String.ofList ≠ [""] := by
    intro hempty
    obtain ⟨piece, hmem, hpiece⟩ : ∃ piece ∈ p.tail, String.ofList piece = "" := by
      rw [← List.mem_map, hempty]
      exact List.mem_singleton.2 rfl
    exact (h piece (List.mem_cons_of_mem _ hmem)).1 (String.ofList_inj.1 hpiece)
  unfold State.atPath? Text.segments
  rw [String.toList_ofList, hpieces, List.map_cons]
  dsimp only
  rw [if_neg hends]
  rfl

/-- The leading `state.` that is taken off is the segment `state` with another behind it. -/
theorem afterState?_text (h : p.Wordy) :
    Template.afterState? p.text = p.behindState?.map text := by
  have hhead := h.takeWhile_text
  obtain ⟨head, tail⟩ := p
  by_cases hstate : head = "state".toList
  · subst hstate
    cases tail with
    | nil => rfl
    | cons next tail => rfl
  · rw [behindState?_of_ne hstate]
    unfold Template.afterState?
    split
    · rename_i path heq
      refine absurd ?_ hstate
      rw [heq] at hhead
      exact hhead.symm
    · rfl

/-- What a placeholder looks up is the value that its path denotes. -/
theorem lookup_text (h : p.Wordy) (s : State) : Template.lookup s p.text = p.value? s := by
  unfold Template.lookup value?
  rw [atPath?_text h, afterState?_text h]
  cases hq : p.behindState? with
  | none => rfl
  | some q =>
    rw [Option.map_some, Option.bind_some, Option.bind_some, atPath?_text (h.behindState? hq)]

/-- The value put under a name is found at the path of the name alone. -/
theorem value?_insert (s : State) (name : String) (v : Json) :
    (⟨name.toList, []⟩ : DottedPath).value? (s.insert name v) = some v := by
  have hfound : (⟨name.toList, []⟩ : DottedPath).follow? (s.insert name v) = some v := by
    unfold follow?
    rw [String.ofList_toList, NameMap.find?_insert, if_pos rfl]
    rfl
  rw [value?, hfound, Option.some_or]

theorem root_text (h : p.Wordy) : Template.root p.text = p.root := by
  unfold Template.root root
  rw [afterState?_text h]
  cases hq : p.behindState? with
  | none => exact congrArg String.ofList h.takeWhile_text
  | some q => exact congrArg String.ofList (h.behindState? hq).takeWhile_text

end DottedPath

end Flowgraph
