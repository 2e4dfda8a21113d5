import Flowgraph.Names.Set
import Mathlib.Data.List.Lex
import Mathlib.Tactic.SplitIfs

/-!
# Names by their bytes

The order of names is that of their UTF-8 bytes, compared position by position:

    a < b ↔ nameBytes a < nameBytes b                          (lt_iff_nameBytes_lt)

Of two characters the smaller one has a smaller byte where their encodings first
differ, whatever follows (`utf8EncodeChar_append_lt`): a longer encoding has a greater
first byte, and those of one length hold the digits of the code point, highest first.
-/

namespace Flowgraph

/-- The bytes of a name in UTF-8. -/
def nameBytes (name : String) : List UInt8 := name.toUTF8.data.toList

theorem nameBytes_eq (name : String) :
    nameBytes name = name.toList.flatMap String.utf8EncodeChar := by
  have h : name.toByteArray = name.toList.utf8Encode := by
    rw [← String.toByteArray_ofList, String.ofList_toList]
  unfold nameBytes
  rw [String.toUTF8_eq_toByteArray, h]
  exact List.toList_data_toByteArray

/-! ## Characters -/

/-- Of two numbers the smaller has the smaller digit to the base 64 where they first differ. -/
theorem digits_lt {v w : Nat} (h : v < w) :
    v / 262144 < w / 262144 ∨ v / 262144 = w / 262144 ∧
      (v / 4096 % 64 < w / 4096 % 64 ∨ v / 4096 % 64 = w / 4096 % 64 ∧
        (v / 64 % 64 < w / 64 % 64 ∨ v / 64 % 64 = w / 64 % 64 ∧ v % 64 < w % 64)) := by
  omega

theorem utf8EncodeChar_append_lt {c d : Char} (h : c < d) (l m : List UInt8) :
    String.utf8EncodeChar c ++ l < String.utf8EncodeChar d ++ m := by
  have hlt : c.val.toNat < d.val.toNat := UInt32.lt_iff_toNat_lt.1 h
  have hd : d.val.toNat < 1114112 := by
    have hvalid := d.valid
    unfold UInt32.isValidChar Nat.isValidChar at hvalid
    omega
  unfold String.utf8EncodeChar
  generalize c.val.toNat = v at hlt
  generalize d.val.toNat = w at hlt hd
  have hdigits := digits_lt hlt
  dsimp only
  -- one case for each pair of lengths
  split_ifs
  all_goals
    simp (disch := omega) only [List.cons_append, List.nil_append, List.cons_lt_cons_iff,
      UInt8.lt_iff_toNat_lt, ← UInt8.toNat_inj, UInt8.toNat_ofNat', Nat.reducePow,
      Nat.mod_eq_of_lt]
    omega

/-! ## Names -/

theorem flatMap_utf8EncodeChar_lt {l m : List Char} (h : l < m) :
    l.flatMap String.utf8EncodeChar < m.flatMap String.utf8EncodeChar := by
  induction l generalizing m with
  | nil =>
    cases m with
    | nil => exact absurd h (List.lt_irrefl _)
    | cons d m =>
      obtain ⟨b, bs, hb⟩ := List.exists_cons_of_ne_nil (String.utf8EncodeChar_ne_nil (c := d))
      rw [List.flatMap_cons, hb]
      exact List.nil_lt_cons b _
  | cons c l ih =>
    cases m with
    | nil => exact absurd h (List.not_lt_nil _)
    | cons d m =>
      rw [List.flatMap_cons, List.flatMap_cons]
      rcases List.cons_lt_cons_iff.1 h with hlt | ⟨rfl, htail⟩
      · exact utf8EncodeChar_append_lt hlt _ _
      · exact List.append_left_lt (ih htail)

/-- The order of names is that of their bytes. -/
theorem lt_iff_nameBytes_lt {a b : String} : a < b ↔ nameBytes a < nameBytes b := by
  have hmono : ∀ {a b : String}, a < b → nameBytes a < nameBytes b := by
    intro a b h
    rw [nameBytes_eq, nameBytes_eq]
    exact flatMap_utf8EncodeChar_lt h
  refine ⟨hmono, fun h => ?_⟩
  by_contra hn
  by_cases he : a = b
  · rw [he] at h
    exact List.lt_irrefl _ h
  · exact List.lt_asymm h (hmono (name_lt_of_not_lt hn he))

end Flowgraph
