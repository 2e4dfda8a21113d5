import Flowgraph.Number.Decimal
import Mathlib.Algebra.Group.Nat.Defs

/-!
# Digits that are written and read

A number in decimal digits has the number as its value, and its digits open with no zero
unless it is zero

    valueOf (digitsOf n) = n                                            (valueOf_digitsOf)
    0 < n → (digitsOf n).head? ≠ some '0'                               (head?_digitsOf)

A row of digits ends before the first character that is no digit (`spanDigits_digits`).
-/

namespace Flowgraph.Decimal

/-- A row of digits. -/
def AllDigits (ds : List Char) : Prop := ∀ c ∈ ds, c.isDigit = true

/-- Text that no row of digits runs on into. -/
def NoDigitNext (rest : List Char) : Prop := ∀ c ∈ rest.head?, c.isDigit = false

/-! ## Values -/

theorem valueOf_eq (ds : List Char) : valueOf ds = Nat.ofDigitChars 10 ds 0 := rfl

theorem valueOf_digitsOf (n : Nat) : valueOf (digitsOf n) = n := Nat.ofDigitChars_ten_toDigits

theorem valueOf_append (ds es : List Char) :
    valueOf (ds ++ es) = 10 ^ es.length * valueOf ds + valueOf es := by
  rw [valueOf_eq, Nat.ofDigitChars_append, Nat.ofDigitChars_eq_ofDigitChars_zero]
  rfl

theorem valueOf_zeros (k : Nat) : valueOf (List.replicate k '0') = 0 := by
  rw [valueOf_eq, Nat.ofDigitChars_replicate_zero, Nat.mul_zero]

theorem valueOf_zeros_append (k : Nat) (ds : List Char) :
    valueOf (List.replicate k '0' ++ ds) = valueOf ds := by
  rw [valueOf_append, valueOf_zeros, Nat.mul_zero, Nat.zero_add]

theorem valueOf_append_zeros (ds : List Char) (k : Nat) :
    valueOf (ds ++ List.replicate k '0') = 10 ^ k * valueOf ds := by
  rw [valueOf_append, valueOf_zeros, List.length_replicate, Nat.add_zero]

/-! ## Rows of digits -/

theorem allDigits_digitsOf (n : Nat) : AllDigits (digitsOf n) :=
  fun _ hc => Nat.isDigit_of_mem_toDigits (by decide) (by decide) hc

theorem allDigits_zeros (k : Nat) : AllDigits (List.replicate k '0') := by
  intro c hc
  rw [List.eq_of_mem_replicate hc]
  rfl

theorem AllDigits.append {ds es : List Char} (hds : AllDigits ds) (hes : AllDigits es) :
    AllDigits (ds ++ es) := by
  intro c hc
  exact (List.mem_append.1 hc).elim (hds c) (hes c)

theorem digitsOf_ne_nil (n : Nat) : digitsOf n ≠ [] := Nat.toDigits_ne_nil

/-- The digits of a number other than zero open with no zero. -/
theorem head?_digitsOf {n : Nat} (h : 0 < n) : (digitsOf n).head? ≠ some '0' := by
  induction n using Nat.strongRecOn with
  | ind n ih =>
    by_cases hsmall : n < 10
    · rw [digitsOf, Nat.toDigits_of_lt_base hsmall]
      have hdigits : ∀ m < 10, 0 < m → m.digitChar ≠ '0' := by decide
      intro hzero
      exact hdigits n hsmall h (Option.some.inj hzero)
    · have htens : 0 < n / 10 := Nat.div_pos (by omega) (by decide)
      have hhead : (digitsOf n).head? = (digitsOf (n / 10)).head? := by
        rw [digitsOf, Nat.toDigits_of_base_le (by decide) (by omega), List.head?_append,
          Option.or_of_isSome (List.isSome_head?.2 Nat.toDigits_ne_nil)]
        rfl
      rw [hhead]
      exact ih (n / 10) (by omega) htens

/-! ## Where digits end -/

theorem noDigitNext_cons {c : Char} (h : c.isDigit = false) (cs : List Char) :
    NoDigitNext (c :: cs) := by
  intro c' hc'
  cases hc'
  exact h

theorem takeWhile_digits {ds : List Char} (hds : AllDigits ds) : ds.takeWhile Char.isDigit = ds := by
  rw [← List.append_nil ds, List.takeWhile_append_of_pos hds]
  rfl

/-- A row of digits is read up to what follows it. -/
theorem spanDigits_digits {ds rest : List Char} (hds : AllDigits ds) (hrest : NoDigitNext rest) :
    spanDigits (ds ++ rest) = (ds, rest) := by
  have hstop : rest.takeWhile Char.isDigit = [] ∧ rest.dropWhile Char.isDigit = rest := by
    cases rest with
    | nil => exact ⟨rfl, rfl⟩
    | cons c cs =>
      have hc : c.isDigit = false := hrest c rfl
      exact ⟨List.takeWhile_cons_of_neg (by simp [hc]), List.dropWhile_cons_of_neg (by simp [hc])⟩
  rw [spanDigits, List.takeWhile_append_of_pos hds, List.dropWhile_append_of_pos hds, hstop.1,
    hstop.2, List.append_nil]

end Flowgraph.Decimal
