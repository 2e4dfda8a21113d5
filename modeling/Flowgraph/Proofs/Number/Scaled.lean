import Flowgraph.Proofs.Number.Digits
import Flowgraph.Proofs.Number.Shortest
import Mathlib.Data.List.TakeWhile

/-!
# Doubles that are printed and worked out again

The text of a double spells its shortest numeral (`Double.spelled`), and what that comes to when it
is worked out in doubles is `Double.reread`.  It is always finite, but need not be the double that
was printed: the digits, the power of ten and their product or quotient are each rounded.  Where
digits and power are doubles themselves, nothing is rounded twice and the double comes back

    x.isFinite → x.reread.isFinite                                       (isFinite_reread)
    x.spelled.digits < 2 ^ 53 → x.spelled.exponent.natAbs ≤ 22 → x.reread = x    (reread_of_short)
-/

namespace Flowgraph

/-! ## Numerals of a row of digits -/

namespace Decimal

/-- As long as the number fits a word, all digits go into it. -/
theorem takeDigits_eq {n : Nat} {ds : List Char} (h : Nat.ofDigitChars 10 ds n < UInt64.size) :
    takeDigits n ds = (Nat.ofDigitChars 10 ds n, []) := by
  induction ds generalizing n with
  | nil => rfl
  | cons c cs ih =>
    have hstep : Nat.ofDigitChars 10 (c :: cs) n =
        Nat.ofDigitChars 10 cs (10 * n + (c.toNat - '0'.toNat)) := rfl
    rw [hstep] at h ⊢
    have hle : 10 * n + (c.toNat - '0'.toNat) ≤
        Nat.ofDigitChars 10 cs (10 * n + (c.toNat - '0'.toNat)) := by
      rw [Nat.ofDigitChars_eq_ofDigitChars_zero]
      exact (Nat.le_mul_of_pos_left _ (Nat.pow_pos (by decide))).trans (Nat.le_add_right _ _)
    rw [takeDigits, if_pos (hle.trans_lt h)]
    exact ih h

/-- A numeral whose digits fit a word keeps them all. -/
theorem ofLeading_eq {neg : Bool} {before after : List Char} {exponent : Int}
    (h : (ofParts neg before after exponent).digits < UInt64.size) :
    ofLeading neg before after exponent = ofParts neg before after exponent := by
  have hdigits : valueOf (before ++ after) = Nat.ofDigitChars 10 after (valueOf before) :=
    Nat.ofDigitChars_append _
  have hall : Nat.ofDigitChars 10 after (valueOf before) < UInt64.size := hdigits ▸ h
  have hbefore : valueOf before < UInt64.size := by
    refine lt_of_le_of_lt ?_ hall
    rw [Nat.ofDigitChars_eq_ofDigitChars_zero]
    exact (Nat.le_mul_of_pos_left _ (Nat.pow_pos (by decide))).trans (Nat.le_add_right _ _)
  have hfirst : takeDigits 0 before = (valueOf before, []) := takeDigits_eq hbefore
  have hsecond := takeDigits_eq hall
  rw [ofLeading, ofParts, hfirst]
  dsimp only
  rw [hsecond, hdigits]
  simp

/-- The numeral of a row of digits whose first stands for `10 ^ e`. -/
def ofDigits (neg : Bool) (ds : List Char) (e : Int) : Decimal :=
  ⟨neg, valueOf ds, e + 1 - ds.length⟩

/-- Zeros at the end of a row of digits do not count. -/
theorem magnitude_ofDigits_append_zeros (neg : Bool) (ds : List Char) (k : Nat) (e : Int) :
    (ofDigits neg (ds ++ List.replicate k '0') e).magnitude = (ofDigits neg ds e).magnitude := by
  have hten : (10 : ℚ) ≠ 0 := by norm_num
  have hexp : e + 1 - (ds ++ List.replicate k '0').length = -(k : Int) + (e + 1 - ds.length) := by
    rw [List.length_append, List.length_replicate]
    omega
  show (valueOf (ds ++ List.replicate k '0') : ℚ) * 10 ^ (e + 1 -
    ((ds ++ List.replicate k '0').length : Int)) = valueOf ds * 10 ^ (e + 1 - (ds.length : Int))
  rw [hexp, valueOf_append_zeros, zpow_add₀ hten, zpow_neg, zpow_natCast, Nat.cast_mul,
    Nat.cast_pow, Nat.cast_ofNat]
  field_simp

/-- The numeral that a layout of a row of digits spells: a whole number below `10 ^ 16` is written
out to the tenths. -/
def laidOut (neg : Bool) (ds : List Char) (e : Int) : Decimal :=
  if 0 ≤ e ∧ e < 16 ∧ ds.length ≤ e.natAbs + 1 then
    ofDigits neg (ds ++ List.replicate (e.natAbs + 2 - ds.length) '0') e
  else ofDigits neg ds e

theorem laidOut_neg (neg : Bool) (ds : List Char) (e : Int) : (laidOut neg ds e).neg = neg := by
  unfold laidOut
  split
  · rfl
  · rfl

theorem magnitude_laidOut (neg : Bool) (ds : List Char) (e : Int) :
    (laidOut neg ds e).magnitude = (ofDigits neg ds e).magnitude := by
  unfold laidOut
  split
  · exact magnitude_ofDigits_append_zeros neg ds _ e
  · rfl

end Decimal

namespace Double

open Decimal (valueOf digitsOf)

theorem dropTrailingZeros_append (ds : List Char) :
    ∃ k, ds = dropTrailingZeros ds ++ List.replicate k '0' := by
  have hzeros : ∀ c ∈ ds.reverse.takeWhile (· = '0'), c = '0' := by
    intro c hc
    have hzero := List.mem_takeWhile_imp hc
    exact of_decide_eq_true hzero
  refine ⟨(ds.reverse.takeWhile (· = '0')).length, ?_⟩
  rw [← List.reverse_replicate, ← List.eq_replicate_of_mem hzeros, dropTrailingZeros,
    ← List.reverse_append, List.takeWhile_append_dropWhile, List.reverse_reverse]

/-- A row of digits keeps its first digit when the zeros at its end are dropped, unless that is a
zero itself. -/
theorem head?_dropTrailingZeros {ds : List Char} (hne : ds ≠ []) (hhead : ds.head? ≠ some '0') :
    dropTrailingZeros ds ≠ [] ∧ (dropTrailingZeros ds).head? = ds.head? := by
  obtain ⟨k, hk⟩ := dropTrailingZeros_append ds
  cases hdrop : dropTrailingZeros ds with
  | nil =>
    rw [hdrop, List.nil_append] at hk
    cases k with
    | zero => exact absurd hk hne
    | succ k =>
      rw [hk] at hhead
      exact absurd rfl hhead
  | cons c cs =>
    refine ⟨List.cons_ne_nil _ _, ?_⟩
    rw [hk, hdrop]
    rfl

/-! ## What is spelled -/

/-- The digits of the text of a double other than zero. -/
def shortestDigits (x : Double) : List Char := dropTrailingZeros (digitsOf x.shortest.digits)

/-- The exponent of the first of them. -/
def shortestExponent (x : Double) : Int :=
  x.shortest.exponent + (digitsOf x.shortest.digits).length - 1

/-- The numeral that the text of a double spells. -/
def spelled (x : Double) : Decimal :=
  if x.isZero then ⟨x.neg, 0, -1⟩ else .laidOut x.neg x.shortestDigits x.shortestExponent

/-- What the text of a double comes to when it is worked out in doubles. -/
def reread (x : Double) : Double := scaled x.spelled

theorem spelled_neg (x : Double) : x.spelled.neg = x.neg := by
  unfold spelled
  split
  · rfl
  · exact Decimal.laidOut_neg _ _ _

/-- The numeral that is laid out is the shortest numeral. -/
theorem magnitude_ofDigits_shortest (x : Double) :
    (Decimal.ofDigits x.neg x.shortestDigits x.shortestExponent).magnitude =
      x.shortest.magnitude := by
  obtain ⟨k, hk⟩ := dropTrailingZeros_append (digitsOf x.shortest.digits)
  unfold shortestDigits shortestExponent
  rw [← Decimal.magnitude_ofDigits_append_zeros _ _ k, ← hk, Decimal.ofDigits,
    Decimal.valueOf_digitsOf, Decimal.magnitude, Decimal.magnitude]
  dsimp only
  congr 2
  omega

/-- The text of a double spells a numeral that is nearest to the double. -/
theorem ofDecimal_spelled {x : Double} (hx : x.isFinite = true) : ofDecimal x.spelled = x := by
  unfold spelled
  split
  · rename_i hzero
    exact ext_bits rfl (beq_iff_eq.1 hzero).symm
  · have hneg : x.neg = x.shortest.neg := by
      rw [← ofDecimal_neg x.shortest, ofDecimal_shortest hx]
    refine Eq.trans (ofDecimal_congr ?_ ?_) (ofDecimal_shortest hx)
    · exact (Decimal.laidOut_neg _ _ _).trans hneg
    · exact (Decimal.magnitude_laidOut _ _ _).trans (magnitude_ofDigits_shortest x)

/-! ### Its size -/

/-- The digits of the text, and the zeros that were dropped behind them. -/
theorem shortest_digits_eq (x : Double) :
    ∃ k, x.shortest.digits = 10 ^ k * valueOf x.shortestDigits ∧
      (digitsOf x.shortest.digits).length = x.shortestDigits.length + k := by
  obtain ⟨k, hk⟩ := dropTrailingZeros_append (digitsOf x.shortest.digits)
  refine ⟨k, ?_, ?_⟩
  · conv_lhs => rw [← Decimal.valueOf_digitsOf x.shortest.digits, hk]
    exact Decimal.valueOf_append_zeros _ _
  · conv_lhs => rw [hk, List.length_append, List.length_replicate]
    rfl

theorem spelled_digits_le {x : Double} (hx : x.isFinite = true) : x.spelled.digits ≤ 10 ^ 17 := by
  unfold spelled
  split
  · exact Nat.zero_le _
  rename_i hzero
  have hpos : x.bits ≠ 0 := fun h => hzero (beq_iff_eq.2 h)
  have hshortest := (shortest_offered hx hpos).2
  have hdigits : x.shortest.digits ≠ 0 := by
    intro hdigits
    have hself := ofDecimal_shortest hx
    rw [ofDecimal, if_pos hdigits] at hself
    exact hpos (congrArg bits hself).symm
  obtain ⟨k, hvalue, hlength⟩ := shortest_digits_eq x
  have hlt := (pow_length_digitsOf hdigits).2
  rw [hlength, hvalue, Nat.pow_add, Nat.mul_comm] at hlt
  have hrow := Nat.lt_of_mul_lt_mul_right hlt
  unfold Decimal.laidOut
  split
  -- a whole number below `10 ^ 16` and its tenths
  · rename_i hwhole
    obtain ⟨he, hsmall, hfits⟩ := hwhole
    show valueOf _ ≤ 10 ^ 17
    rw [Decimal.valueOf_append_zeros]
    have hpow : 10 ^ (x.shortestExponent.natAbs + 2 - x.shortestDigits.length) *
        10 ^ x.shortestDigits.length ≤ 10 ^ 17 := by
      rw [← Nat.pow_add]
      exact Nat.pow_le_pow_right (by decide) (by omega)
    exact (Nat.mul_le_mul_left _ hrow.le).trans hpow
  · show valueOf _ ≤ 10 ^ 17
    rw [hvalue] at hshortest
    exact (Nat.le_mul_of_pos_left _ (Nat.pow_pos (by decide))).trans hshortest

/-! ## What is worked out is finite -/

/-- The finite double next to an infinity. -/
def last (neg : Bool) : Double := ⟨neg, infinityBits - 1, by decide⟩

def largest : Double := last false

theorem magnitude_largest : largest.magnitude = largest.ratio.1 := by
  have hwhole : largest.ratio.2 = 1 := by decide +kernel
  rw [← ratio_eq_magnitude, hwhole, Nat.cast_one, div_one]

theorem shortest_last : ∀ neg, (last neg).shortest.exponent = .ofNat 292 ∧
    (last neg).shortest.digits * 10 ^ 292 ≤ largest.ratio.1 := by
  decide +kernel

/-- No shortest numeral lies above all doubles. -/
theorem magnitude_shortest_le {x : Double} (hx : x.isFinite = true) :
    x.shortest.magnitude ≤ largest.magnitude := by
  by_contra hlt
  obtain ⟨n, d, hd, hmagnitude⟩ := exists_magnitude_eq x.shortest
  have hself : ofRatio x.shortest.neg n d = x :=
    (ofDecimal_eq_ofRatio hd hmagnitude).symm.trans (ofDecimal_shortest hx)
  have hbits : largest.bits ≤ x.bits := by
    have hmono := bits_ofRatio_mono largest.ratio_pos hd (by
      rw [ratio_eq_magnitude, ← hmagnitude]
      exact (not_le.1 hlt).le) largest.neg x.shortest.neg
    rwa [hself, ofRatio_ratio (by decide)] at hmono
  have hlast : x.bits = infinityBits - 1 := by
    have hfinite : x.bits < infinityBits := of_decide_eq_true hx
    have hlargest : largest.bits = infinityBits - 1 := rfl
    omega
  have heq : x = last x.neg := ext_bits rfl hlast
  obtain ⟨hexponent, hle⟩ := shortest_last x.neg
  rw [heq, magnitude_ofNat hexponent, magnitude_largest, Nat.cast_one, div_one, Nat.cast_le] at hlt
  exact hlt hle

/-- The largest products that can come up, one for each power of ten. -/
theorem isFinite_largest_products {k : Nat} (h : k ≤ lastTen) :
    ((ofRatio false (min (10 ^ 17) (largest.ratio.1 / 10 ^ k)) 1).mul
      (tenPower k)).isFinite = true := by
  rcases Nat.lt_or_ge k 292 with hsmall | hlarge
  -- seventeen digits leave room up to here
  · refine isFinite_of_bits_le (y := (ofRatio false (10 ^ 17) 1).mul (tenPower 291))
      (by decide +kernel) ?_
    exact bits_mul_mono (bits_ofNatural_mono (Nat.min_le_left _ _) _ _)
      (bits_tenPower_mono (Nat.le_of_lt_succ hsmall))
  · have hedge : ∀ i < 17, ((ofRatio false (min (10 ^ 17) (largest.ratio.1 / 10 ^ (292 + i))) 1).mul
        (tenPower (292 + i))).isFinite = true := by decide +kernel
    obtain ⟨i, rfl⟩ := Nat.exists_eq_add_of_le hlarge
    unfold lastTen at h
    exact hedge i (by omega)

/-- A numeral of at most seventeen digits that does not lie above all doubles stays finite. -/
theorem isFinite_scaled {y : Decimal} (hdigits : y.digits ≤ 10 ^ 17)
    (hle : y.magnitude ≤ largest.magnitude) : (scaled y).isFinite = true := by
  have hfinite : (ofRatio y.neg y.digits 1).isFinite = true :=
    isFinite_of_bits_le (y := ofRatio false (10 ^ 17) 1) (by decide +kernel)
      (bits_ofNatural_mono hdigits _ _)
  unfold scaled
  dsimp only
  split
  · rename_i k hk
    rw [magnitude_ofNat hk, magnitude_largest, Nat.cast_one, div_one, Nat.cast_le] at hle
    split
    · rename_i hlast
      refine isFinite_of_bits_le (isFinite_largest_products hlast) ?_
      refine bits_mul_mono (bits_ofNatural_mono (Nat.le_min.2 ⟨hdigits, ?_⟩) _ _) le_rfl
      exact (Nat.le_div_iff_mul_le (Nat.pow_pos (by decide))).2 hle
    · rename_i hlast
      -- only a zero has so large an exponent
      have hzero : y.digits = 0 := by
        by_contra hne
        have hlt : largest.ratio.1 < 10 ^ (lastTen + 1) := by decide +kernel
        have hpow : 10 ^ (lastTen + 1) ≤ 10 ^ k :=
          Nat.pow_le_pow_right (by decide) (Nat.lt_of_not_le hlast)
        have hone : 10 ^ k ≤ y.digits * 10 ^ k := Nat.le_mul_of_pos_left _ (Nat.pos_of_ne_zero hne)
        exact absurd ((hpow.trans hone).trans hle) (Nat.not_le.2 hlt)
      rw [if_pos (by rw [hzero, ofRatio_zero]; rfl)]
      exact hfinite
  · exact isFinite_divTen hfinite _ _

/-- The text of a finite double is never read as an infinity. -/
theorem isFinite_reread {x : Double} (hx : x.isFinite = true) : x.reread.isFinite = true := by
  refine isFinite_scaled (spelled_digits_le hx) ?_
  unfold spelled
  split
  · rw [Decimal.magnitude, Nat.cast_zero, zero_mul]
    exact largest.magnitude_nonneg
  · rw [Decimal.magnitude_laidOut, magnitude_ofDigits_shortest]
    exact magnitude_shortest_le hx

/-! ## Short numerals -/

/-- Digits below `2 ^ 53` are a double. -/
theorem magnitude_ofNatural_of_lt {k : Nat} (hk : k ≠ 0) (hlt : k < 2 ^ 53) (neg : Bool) :
    (ofRatio neg k 1).magnitude = k := by
  have hone : spacing k = 1 := by
    have hlog := (Nat.log2_lt hk).2 hlt
    rw [spacing, Int.natAbs_natCast, Nat.sub_eq_zero_of_le (by omega), Nat.pow_zero]
  rw [magnitude_ofNatural hk (by omega), hone, roundHalfEven_one, Nat.one_mul]

/-- The powers of ten that are doubles. -/
theorem magnitude_tenPower_of_le {k : Nat} (h : k ≤ 22) : (tenPower k).magnitude = 10 ^ k := by
  have hratio : ∀ k < 23, (tenPower k).ratio.1 = 10 ^ k * (tenPower k).ratio.2 := by decide +kernel
  have hpos : ((tenPower k).ratio.2 : ℚ) ≠ 0 := by exact_mod_cast (tenPower k).ratio_pos.ne'
  rw [← ratio_eq_magnitude, hratio k (by omega), Nat.cast_mul, mul_div_cancel_right₀ _ hpos]
  exact_mod_cast rfl

/-- Where the digits and the power of ten are doubles, only their product or quotient is rounded. -/
theorem scaled_eq_ofDecimal {y : Decimal} (hdigits : y.digits < 2 ^ 53)
    (hexponent : y.exponent.natAbs ≤ 22) : scaled y = ofDecimal y := by
  have hsmall : ∀ k ≤ 22, (k ≤ lastTen) := fun k hk => hk.trans (by decide)
  have hdouble : (ofRatio y.neg y.digits 1).magnitude = y.digits := by
    by_cases hzero : y.digits = 0
    · rw [hzero, ofRatio_zero, magnitude_zero, Nat.cast_zero]
    · exact magnitude_ofNatural_of_lt hzero hdigits _
  have hneg : ∀ k, ((ofRatio y.neg y.digits 1).neg != (tenPower k).neg) = y.neg := by
    intro k
    rw [ofRatio_neg, tenPower, ofRatio_neg, Bool.bne_false]
  obtain ⟨n, d, hd, hmagnitude⟩ := exists_magnitude_eq y
  rw [ofDecimal_eq_ofRatio hd hmagnitude]
  unfold scaled
  dsimp only
  split
  · rename_i k hk
    have hk22 : k ≤ 22 := by rwa [hk] at hexponent
    rw [if_pos (hsmall k hk22), mul, hneg]
    refine ofRatio_congr (Nat.mul_pos (ratio_pos _) (ratio_pos _)) hd ?_ _
    rw [mul_ratio, hdouble, magnitude_tenPower_of_le hk22, ← hmagnitude, Decimal.magnitude, hk]
    rfl
  · rename_i k hk
    have hk22 : k + 1 ≤ 22 := by rwa [hk] at hexponent
    rw [divTen, if_pos (hsmall _ hk22), div, hneg]
    have hten := magnitude_tenPower_of_le hk22
    have hpos := ratio_num_pos (zero_lt_one.trans_le (one_le_magnitude_tenPower (k + 1)))
    refine ofRatio_congr (Nat.mul_pos (ratio_pos _) hpos) hd ?_ _
    rw [div_ratio, hdouble, hten, ← hmagnitude, Decimal.magnitude, hk, zpow_negSucc,
      div_eq_mul_inv]

/-- A double whose text is short is read back as itself. -/
theorem reread_of_short {x : Double} (hx : x.isFinite = true) (hdigits : x.spelled.digits < 2 ^ 53)
    (hexponent : x.spelled.exponent.natAbs ≤ 22) : x.reread = x :=
  (scaled_eq_ofDecimal hdigits hexponent).trans (ofDecimal_spelled hx)

end Double

end Flowgraph
