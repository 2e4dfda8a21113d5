import Flowgraph.Proofs.Number.Digits
import Flowgraph.Proofs.Text.Trimming
import Flowgraph.Time

/-!
# Instants that are written and read

The text of an instant is read back as the instant: every year, leap seconds, and the fewest
fraction digits that are exact

    ofString? t.text = some t                                            (ofString?_text)

All parts but the year and the fraction have a fixed width (`readNumber_padded`).
-/

namespace Flowgraph.Timestamp

open Decimal (AllDigits NoDigitNext valueOf digitsOf)
open Text (isBlank_of_isDigit trimStart_cons)

/-! ## Blanks -/

theorem readMark_cons {mark : Char} (h : Text.isBlank mark = false) (cs : List Char) :
    readMark mark (mark :: cs) = some cs := by
  rw [readMark, trimStart_cons h]
  exact if_pos rfl

/-! ## Numbers of a fixed width -/

theorem allDigits_padded (width n : Nat) : AllDigits (padded width n) :=
  (Decimal.allDigits_zeros _).append (Decimal.allDigits_digitsOf n)

theorem valueOf_padded (width n : Nat) : valueOf (padded width n) = n :=
  (Decimal.valueOf_zeros_append _ _).trans (Decimal.valueOf_digitsOf n)

theorem padded_cons (width n : Nat) :
    ∃ d ds, padded width n = d :: ds ∧ d.isDigit = true := by
  have hne : padded width n ≠ [] := by
    rw [padded]
    simp [Decimal.digitsOf_ne_nil]
  obtain ⟨d, ds, hcons⟩ := List.exists_cons_of_ne_nil hne
  refine ⟨d, ds, hcons, allDigits_padded width n d ?_⟩
  rw [hcons]
  exact List.mem_cons_self

theorem length_padded {width n : Nat} (hwidth : 0 < width) (h : n < 10 ^ width) :
    (padded width n).length = width := by
  have hlength : (digitsOf n).length ≤ width :=
    (Nat.length_toDigits_le_iff (by decide) hwidth).2 h
  rw [padded, List.length_append, List.length_replicate]
  omega

/-- A number of a fixed width is read whatever follows it. -/
theorem readNumber_padded {width n : Nat} (hwidth : 0 < width) (h : n < 10 ^ width)
    (rest : List Char) : readNumber width (padded width n ++ rest) = some (n, rest) := by
  have hlength := length_padded hwidth h
  have htake : (padded width n ++ rest).take width = padded width n := List.take_left' hlength
  have hdrop : (padded width n ++ rest).drop width = rest := List.drop_left' hlength
  have hdigits := Decimal.takeWhile_digits (allDigits_padded width n)
  obtain ⟨d, ds, hcons, hd⟩ := padded_cons width n
  have htrim : Text.trimStart (padded width n ++ rest) = padded width n ++ rest := by
    rw [hcons, List.cons_append, trimStart_cons (isBlank_of_isDigit hd)]
  rw [readNumber, htrim, htake, hdigits, hcons]
  dsimp only
  rw [← hcons, hlength, hdrop, valueOf_padded]

/-! ## Parts -/

theorem readYear_yearText (y : Int) (rest : List Char) :
    readYear (yearText y ++ '-' :: rest) = some (y, '-' :: rest) := by
  have hstop : NoDigitNext ('-' :: rest) := Decimal.noDigitNext_cons rfl rest
  obtain ⟨d, ds, hcons, hd⟩ := padded_cons 4 y.natAbs
  have hspan := Decimal.spanDigits_digits (allDigits_padded 4 y.natAbs) hstop
  have hvalue := valueOf_padded 4 y.natAbs
  rw [yearText]
  split
  · rename_i hshort
    have htoNat : y.toNat = y.natAbs := by omega
    have hread := readNumber_padded (by decide) (show y.natAbs < 10 ^ 4 by omega) ('-' :: rest)
    have hminus : d ≠ '-' := by
      rintro rfl
      cases hd
    have hplus : d ≠ '+' := by
      rintro rfl
      cases hd
    rw [htoNat]
    rw [hcons] at hread ⊢
    rw [readYear, List.cons_append, trimStart_cons (isBlank_of_isDigit hd)]
    split
    · rename_i heq
      exact absurd (List.cons.inj heq).1 hminus
    · rename_i heq
      exact absurd (List.cons.inj heq).1 hplus
    · rw [← List.cons_append, hread]
      show some (((y.natAbs : Nat) : Int), '-' :: rest) = some (y, '-' :: rest)
      rw [show ((y.natAbs : Nat) : Int) = y by omega]
  · have hminus : Text.isBlank '-' = false := by decide
    have hplus : Text.isBlank '+' = false := by decide
    rw [hcons] at hspan hvalue
    by_cases hneg : y < 0
    · rw [if_pos hneg, hcons]
      simp only [List.cons_append, readYear, trimStart_cons hminus]
      rw [← List.cons_append, hspan]
      dsimp only
      rw [hvalue, show -((y.natAbs : Nat) : Int) = y by omega]
    · rw [if_neg hneg, hcons]
      simp only [List.cons_append, readYear, trimStart_cons hplus]
      rw [← List.cons_append, hspan]
      dsimp only
      rw [hvalue, show ((y.natAbs : Nat) : Int) = y by omega]

/-- Digits behind a point are read as what they are worth. -/
theorem readNanos_padded {width n : Nat} (hwidth : 0 < width) (hnine : width ≤ 9)
    (h : n < 10 ^ width) :
    readNanos ('.' :: (padded width n ++ ['Z'])) = some (n * 10 ^ (9 - width), ['Z']) := by
  have hstop : NoDigitNext ['Z'] := Decimal.noDigitNext_cons rfl []
  have hlength := length_padded hwidth h
  have htake : (padded width n).take 9 = padded width n :=
    List.take_of_length_le (by rw [hlength]; exact hnine)
  have hspan := Decimal.spanDigits_digits (allDigits_padded width n) hstop
  obtain ⟨d, ds, hcons, -⟩ := padded_cons width n
  have hvalue := valueOf_padded width n
  rw [hcons] at hspan htake hlength hvalue
  rw [readNanos, hcons, hspan]
  dsimp only
  rw [htake, hlength, hvalue]
  rfl

theorem readNanos_fractionText {nano : Nat} (h : nano < 1000000000) :
    readNanos (fractionText nano ++ ['Z']) = some (nano, ['Z']) := by
  rw [fractionText]
  split
  · rename_i hzero
    rw [hzero]
    rfl
  split
  · rename_i hmillis
    rw [List.cons_append, readNanos_padded (by decide) (by decide) (by omega)]
    rw [show nano / 1000000 * 10 ^ (9 - 3) = nano by omega]
  split
  · rename_i hmicros
    rw [List.cons_append, readNanos_padded (by decide) (by decide) (by omega)]
    rw [show nano / 1000 * 10 ^ (9 - 6) = nano by omega]
  · rw [List.cons_append, readNanos_padded (by decide) (by decide) (by omega)]
    rw [show nano * 10 ^ (9 - 9) = nano by omega]

theorem ofParts?_self (t : Timestamp) :
    ofParts? t.year t.month t.day t.hour t.minute t.second t.nano = some t := dif_pos t.valid

/-- An instant is the one that is no minutes earlier. -/
theorem earlier?_zero (t : Timestamp) : t.earlier? 0 = some t := by
  obtain ⟨-, -, -, hhour, hminute, -, -⟩ := t.valid
  have hlow : ¬ ((t.hour : Int) * 60 + t.minute - 0 < 0) := by omega
  have hhigh : ¬ (1440 ≤ (t.hour : Int) * 60 + t.minute - 0) := by omega
  have hmod : (((t.hour : Int) * 60 + t.minute - 0) % 1440).toNat = t.hour * 60 + t.minute := by
    omega
  have hquotient : (t.hour * 60 + t.minute) / 60 = t.hour := by omega
  have hrest : (t.hour * 60 + t.minute) % 60 = t.minute := by omega
  unfold earlier?
  dsimp only
  rw [if_neg hlow, if_neg hhigh]
  dsimp only
  rw [hmod, hquotient, hrest, ofParts?_self]

/-! ## Instants -/

theorem bind_of_eq_some {α β : Type} {x : Option α} {a : α} {f : α → Option β} {r : Option β}
    (hx : x = some a) (hf : f a = r) : x >>= f = r := by
  rw [hx]
  exact hf

theorem localText_append (t : Timestamp) (rest : List Char) :
    t.localText ++ rest = yearText t.year ++ '-' :: (padded 2 t.month ++ '-' :: (padded 2 t.day ++
      'T' :: (padded 2 t.hour ++ ':' :: (padded 2 t.minute ++ ':' :: (padded 2 t.second ++
        (fractionText t.nano ++ rest)))))) := by
  simp only [localText, List.append_assoc, List.cons_append]

/-- The text of an instant is read back as the instant. -/
theorem ofString?_text (t : Timestamp) : ofString? t.text = some t := by
  obtain ⟨-, hmonth, hday, hhour, hminute, hsecond, hnano⟩ := t.valid
  have hdays : t.day < 100 := by
    have hmax : daysInMonth t.year t.month ≤ 31 := by
      unfold daysInMonth
      split
      · split <;> decide
      split
      · decide
      · decide
    omega
  have hdash : Text.isBlank '-' = false := by decide
  have hcolon : Text.isBlank ':' = false := by decide
  have hoffset : readOffset (Text.trimStart ['Z']) = some (0, []) := by decide
  rw [ofString?, text, String.toList_ofList, localText_append, ofText?]
  refine bind_of_eq_some (readYear_yearText _ _) ?_
  refine bind_of_eq_some (readMark_cons hdash _) ?_
  refine bind_of_eq_some (readNumber_padded (by decide) (by omega) _) ?_
  refine bind_of_eq_some (readMark_cons hdash _) ?_
  refine bind_of_eq_some (readNumber_padded (by decide) (by omega) _) ?_
  refine (if_pos (Or.inl rfl)).trans ?_
  refine bind_of_eq_some rfl ?_
  refine bind_of_eq_some (readNumber_padded (by decide) (by omega) _) ?_
  refine bind_of_eq_some (readMark_cons hcolon _) ?_
  refine bind_of_eq_some (readNumber_padded (by decide) (by omega) _) ?_
  refine bind_of_eq_some (readMark_cons hcolon _) ?_
  refine bind_of_eq_some (readNumber_padded (by decide) (by omega) _) ?_
  refine bind_of_eq_some (readNanos_fractionText hnano) ?_
  refine bind_of_eq_some hoffset ?_
  refine (if_pos rfl).trans ?_
  refine bind_of_eq_some (ofParts?_self t) ?_
  exact earlier?_zero t

end Flowgraph.Timestamp
