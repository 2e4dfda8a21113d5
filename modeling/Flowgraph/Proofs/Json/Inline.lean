import Flowgraph.Proofs.Json.Numbers
import Flowgraph.Json.Compact
import Mathlib.Tactic.SplitIfs

/-!
# Text that stays on its line

The compact text of a value holds no control below U+0020: numbers have none, and in strings and keys
each is escaped.  So there is no line break in it, whatever the value holds.

    Inline v.text                                                                   (Json.inline_text)
-/

namespace Flowgraph

/-! ## Texts -/

namespace Text

/-- No control below U+0020 stands in the text. -/
def Inline (cs : List Char) : Prop := ∀ c ∈ cs, 0x20 ≤ c.toNat

-- by the list: an instance found for this may go through all characters there are
instance (cs : List Char) : Decidable (Inline cs) := List.decidableBAll _ cs

theorem inline_append_iff {cs ds : List Char} : Inline (cs ++ ds) ↔ Inline cs ∧ Inline ds :=
  List.forall_mem_append

theorem inline_cons_iff {c : Char} {cs : List Char} :
    Inline (c :: cs) ↔ 0x20 ≤ c.toNat ∧ Inline cs := List.forall_mem_cons

/-- It holds no line break. -/
theorem Inline.break_not_mem {cs : List Char} (h : Inline cs) : '\n' ∉ cs ∧ '\r' ∉ cs := by
  constructor
  · intro hmem
    exact absurd (h _ hmem) (by decide)
  · intro hmem
    exact absurd (h _ hmem) (by decide)

end Text

open Text (Inline inline_append_iff inline_cons_iff)

/-! ## Numbers -/

theorem Decimal.AllDigits.inline {ds : List Char} (h : AllDigits ds) : Inline ds := by
  intro c hc
  have hzero : 48 ≤ c.toNat := of_decide_eq_true (Bool.and_eq_true_iff.1 (h c hc)).1
  omega

namespace Double

theorem inline_layout {ds : List Char} (h : Inline ds) (e : Int) : Inline (layout ds e) := by
  have hexponent := (Decimal.allDigits_digitsOf e.natAbs).inline
  have htake : ∀ k, Inline (ds.take k) := fun k c hc => h c (List.mem_of_mem_take hc)
  have hdrop : ∀ k, Inline (ds.drop k) := fun k c hc => h c (List.mem_of_mem_drop hc)
  unfold layout
  dsimp only
  split
  · have hfraction : Inline (if ds.drop 1 = [] then [] else '.' :: ds.drop 1) := by
      split
      · decide
      · exact inline_cons_iff.2 ⟨by decide, hdrop 1⟩
    have hmark : Inline (if e < 0 then ['e', '-'] else ['e', '+']) := by
      split <;> decide
    simp only [inline_append_iff]
    exact ⟨⟨⟨htake 1, hfraction⟩, hmark⟩, hexponent⟩
  · split
    · refine inline_cons_iff.2 ⟨by decide, inline_cons_iff.2 ⟨by decide, ?_⟩⟩
      exact inline_append_iff.2 ⟨(Decimal.allDigits_zeros _).inline, h⟩
    · split
      · simp only [inline_append_iff]
        exact ⟨⟨h, (Decimal.allDigits_zeros _).inline⟩, by decide⟩
      · exact inline_append_iff.2 ⟨htake _, inline_cons_iff.2 ⟨by decide, hdrop _⟩⟩

theorem inline_dropTrailingZeros {ds : List Char} (h : Inline ds) : Inline (dropTrailingZeros ds) := by
  obtain ⟨k, hzeros⟩ := dropTrailingZeros_append ds
  rw [hzeros] at h
  exact (inline_append_iff.1 h).1

theorem inline_text (x : Double) : Inline x.text := by
  have hsign : Inline (if x.neg then ['-'] else []) := by
    split <;> decide
  have hdigits := (Decimal.allDigits_digitsOf x.shortest.digits).inline
  unfold text
  dsimp only
  split
  · exact inline_append_iff.2 ⟨hsign, by decide⟩
  · exact inline_append_iff.2 ⟨hsign, inline_layout (inline_dropTrailingZeros hdigits) _⟩

end Double

theorem Number.inline_text (n : Number) : Inline n.text := by
  cases n with
  | whole n =>
    refine inline_append_iff.2 ⟨?_, (Decimal.allDigits_digitsOf _).inline⟩
    split <;> decide
  | real x _ => exact x.inline_text

/-! ## Values -/

namespace Json

theorem inline_escapeChar (c : Char) : Inline (escapeChar c) := by
  have hcontrols : ∀ n < 0x20, Inline ('\\' :: 'u' ::
      (List.replicate (4 - (Nat.toDigits 16 n).length) '0' ++ Nat.toDigits 16 n)) := by
    decide
  unfold escapeChar
  split_ifs with _ _ _ _ _ _ _ hcontrol
  iterate 7 · decide
  · exact hcontrols c.toNat hcontrol
  · exact inline_cons_iff.2 ⟨Nat.le_of_not_lt hcontrol, List.forall_mem_nil _⟩

theorem inline_stringText (s : List Char) : Inline (stringText s) := by
  refine inline_cons_iff.2 ⟨by decide, inline_append_iff.2 ⟨?_, by decide⟩⟩
  intro c hc
  obtain ⟨d, -, hd⟩ := List.mem_flatMap.1 hc
  exact inline_escapeChar d c hd

mutual

/-- The compact text of a value stays on its line. -/
theorem inline_text : ∀ v : Json, Inline v.text
  | .null => by rw [text]; decide
  | .bool true => by rw [text]; decide
  | .bool false => by rw [text]; decide
  | .num n => by rw [text]; exact n.inline_text
  | .str s => by rw [text]; exact inline_stringText _
  | .arr items => by
    rw [text]
    exact inline_cons_iff.2 ⟨by decide, inline_itemsText items⟩
  | .obj fields => by
    rw [text]
    exact inline_cons_iff.2 ⟨by decide, inline_fieldsText fields⟩

theorem inline_itemsText : ∀ l : List Json, Inline (itemsText l)
  | [] => by rw [itemsText]; decide
  | v :: l => by
    rw [itemsText]
    exact inline_append_iff.2 ⟨inline_text v, inline_moreItemsText l⟩

theorem inline_moreItemsText : ∀ l : List Json, Inline (moreItemsText l)
  | [] => by rw [moreItemsText]; decide
  | v :: l => by
    rw [moreItemsText]
    exact inline_cons_iff.2 ⟨by decide, inline_append_iff.2 ⟨inline_text v, inline_moreItemsText l⟩⟩

theorem inline_fieldsText : ∀ l : Fields, Inline (fieldsText l)
  | [] => by rw [fieldsText]; decide
  | (k, v) :: l => by
    rw [fieldsText]
    refine inline_append_iff.2 ⟨inline_stringText _, inline_cons_iff.2 ⟨by decide, ?_⟩⟩
    exact inline_append_iff.2 ⟨inline_text v, inline_moreFieldsText l⟩

theorem inline_moreFieldsText : ∀ l : Fields, Inline (moreFieldsText l)
  | [] => by rw [moreFieldsText]; decide
  | (k, v) :: l => by
    rw [moreFieldsText]
    refine inline_cons_iff.2 ⟨by decide, inline_append_iff.2 ⟨inline_stringText _, ?_⟩⟩
    refine inline_cons_iff.2 ⟨by decide, ?_⟩
    exact inline_append_iff.2 ⟨inline_text v, inline_moreFieldsText l⟩

end

theorem toList_compact (v : Json) : v.compact.toList = v.text := String.toList_ofList

end Json

end Flowgraph
