/-!
# Words and dotted paths

Word characters are the ASCII letters, digits and the underscore.  Splitting a
text at a separator loses nothing: joining the pieces again gives the text.
-/

namespace Flowgraph.Text

def isWordChar (c : Char) : Bool := c.isAlphanum || c == '_'

/-- A character that may open an identifier. -/
def isWordStart (c : Char) : Bool := c.isAlpha || c == '_'

/-- The pieces between the separators; there is always at least one. -/
def splitAt (sep : Char) : List Char → List (List Char)
  | [] => [[]]
  | c :: cs =>
    if c = sep then [] :: splitAt sep cs
    else match splitAt sep cs with
      | [] => [[c]]
      | piece :: pieces => (c :: piece) :: pieces

theorem splitAt_ne_nil (sep : Char) (cs : List Char) : splitAt sep cs ≠ [] := by
  cases cs with
  | nil => simp [splitAt]
  | cons c cs =>
    simp only [splitAt]
    split
    · simp
    · split <;> simp

theorem intercalate_splitAt (sep : Char) (cs : List Char) :
    [sep].intercalate (splitAt sep cs) = cs := by
  induction cs with
  | nil => simp [splitAt, List.intercalate]
  | cons c cs ih =>
    simp only [splitAt]
    split
    · rename_i h
      cases hp : splitAt sep cs with
      | nil => exact absurd hp (splitAt_ne_nil sep cs)
      | cons p ps => rw [hp] at ih; simp [List.intercalate, List.intersperse] at ih ⊢; exact ⟨h.symm, ih⟩
    · split
      · rename_i hp; exact absurd hp (splitAt_ne_nil sep cs)
      · rename_i p ps hp
        rw [hp] at ih
        cases ps <;> simp [List.intercalate, List.intersperse] at ih ⊢ <;> exact ih

/-- The dot-separated segments of a path. -/
def segments (path : String) : List String := (splitAt '.' path.toList).map String.ofList

end Flowgraph.Text
