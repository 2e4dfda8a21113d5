import Flowgraph.Number.Scaled
import Flowgraph.Proofs.Number.Nearest

/-!
# Rounding keeps the order of magnitudes

A larger ratio is never rounded to a smaller double, so neither is a larger product

    n / d ≤ n' / d' → (ofRatio neg n d).bits ≤ (ofRatio neg' n' d').bits   (bits_ofRatio_mono)
    x.bits ≤ x'.bits → y.bits ≤ y'.bits → (x.mul y).bits ≤ (x'.mul y').bits      (bits_mul_mono)

and what is divided by a power of ten stays finite (`isFinite_divTen`).
-/

namespace Flowgraph.Double

/-! ## Ratios -/

/-- A quotient is rounded to no more than a half away, and to the even one of two. -/
theorem roundHalfEven_within (a : Nat) {b : Nat} (hb : 0 < b) :
    (roundHalfEven a b : ℚ) - 1 / 2 ≤ a / b ∧ (a : ℚ) / b ≤ roundHalfEven a b + 1 / 2 ∧
      ((roundHalfEven a b : ℚ) - 1 / 2 = a / b ∨ (a : ℚ) / b = roundHalfEven a b + 1 / 2 →
        2 ∣ roundHalfEven a b) := by
  have hbq : (0 : ℚ) < b := by exact_mod_cast hb
  obtain ⟨hlow, hhigh, heven⟩ := roundHalfEven_near a hb
  generalize roundHalfEven a b = r at hlow hhigh heven
  refine ⟨?_, ?_, fun htie => heven ?_⟩
  · have hcast : (2 * (b * r) : ℚ) ≤ 2 * a + b := by exact_mod_cast hhigh
    rw [le_div_iff₀ hbq]
    linarith
  · have hcast : (2 * a : ℚ) ≤ 2 * (b * r) + b := by exact_mod_cast hlow
    rw [div_le_iff₀ hbq]
    linarith
  · rcases htie with htie | htie
    · rw [eq_div_iff hbq.ne'] at htie
      have hcast : (2 * (b * r) : ℚ) = 2 * a + b := by linarith
      exact .inr (by exact_mod_cast hcast)
    · rw [div_eq_iff hbq.ne'] at htie
      have hcast : (2 * a : ℚ) = 2 * (b * r) + b := by linarith
      exact .inl (by exact_mod_cast hcast)

/-- Two ratios that change places would both be ties, and of two neighbours one is odd. -/
theorem roundHalfEven_mono {a b a' b' : Nat} (hb : 0 < b) (hb' : 0 < b')
    (h : (a : ℚ) / b ≤ a' / b') : roundHalfEven a b ≤ roundHalfEven a' b' := by
  obtain ⟨hlow, -, heven⟩ := roundHalfEven_within a hb
  obtain ⟨-, hhigh, heven'⟩ := roundHalfEven_within a' hb'
  generalize roundHalfEven a b = r at hlow heven
  generalize roundHalfEven a' b' = r' at hhigh heven'
  by_contra hlt
  have hstep : (r' : ℚ) + 1 ≤ r := by exact_mod_cast not_le.1 hlt
  have htie : (r : ℚ) - 1 / 2 = a / b := by linarith
  have htie' : (a' : ℚ) / b' = r' + 1 / 2 := by linarith
  have hnext : r = r' + 1 := by
    have heq : (r : ℚ) = r' + 1 := by linarith
    exact_mod_cast heq
  have hdvd := heven (.inl htie)
  have hdvd' := heven' (.inr htie')
  omega

/-- A larger ratio has no smaller last bit. -/
theorem LastBit.mono {q q' : ℚ} {s s' : Int} (hs : LastBit q s) (hs' : LastBit q' s')
    (h : q ≤ q') : s ≤ s' := by
  rcases hs.above with hleast | habove
  · exact hleast ▸ hs'.least
  · have hlt : (2 : ℚ) ^ (s + 52) < 2 ^ (s' + 53) := (habove.trans h).trans_lt hs'.below
    have := (zpow_lt_zpow_iff_right₀ (by norm_num)).1 hlt
    omega

/-- What a ratio is rounded to within its binade. -/
theorem roundHalfEven_le {n d : Nat} (hd : 0 < d) {s : Int} (hs : LastBit ((n : ℚ) / d) s) :
    roundHalfEven (rescale n d s).1 (rescale n d s).2 ≤ 2 * binade := by
  have hbelow := (quotient_lt_iff hd s).2 hs.below
  have hround := roundHalfEven_cases (rescale n d s).1 (rescale n d s).2
  omega

theorem le_roundHalfEven {n d : Nat} (hd : 0 < d) {s : Int} (hs : LastBit ((n : ℚ) / d) s)
    (hlow : s ≠ -1074) : binade ≤ roundHalfEven (rescale n d s).1 (rescale n d s).2 := by
  have hfull := binade_le_quotient hd (hs.above.resolve_left hlow)
  have hround := roundHalfEven_cases (rescale n d s).1 (rescale n d s).2
  omega

theorem bits_ofRatio_mono {n d n' d' : Nat} (hd : 0 < d) (hd' : 0 < d')
    (h : (n : ℚ) / d ≤ n' / d') (neg neg' : Bool) :
    (ofRatio neg n d).bits ≤ (ofRatio neg' n' d').bits := by
  by_cases hn : n = 0
  · rw [hn, ofRatio_zero]
    exact Nat.zero_le _
  have hn' : n' ≠ 0 := by
    rintro rfl
    rw [Nat.cast_zero, zero_div] at h
    have hpos : (0 : ℚ) < n / d := by positivity
    linarith
  have hs := lastBit_unitExponent hn hd.ne'
  have hs' := lastBit_unitExponent hn' hd'.ne'
  generalize unitExponent n d = s at hs
  generalize unitExponent n' d' = s' at hs'
  rw [ofRatio_of_lastBit hn hd hs, ofRatio_of_lastBit hn' hd' hs']
  have hbits : (s + 1074).toNat * binade + roundHalfEven (rescale n d s).1 (rescale n d s).2 ≤
      (s' + 1074).toNat * binade + roundHalfEven (rescale n' d' s').1 (rescale n' d' s').2 := by
    have hleast := hs.least
    rcases Int.lt_or_eq_of_le (hs.mono hs' h) with hlt | rfl
    -- the next binade begins where this one ends
    · have hround := roundHalfEven_le hd hs
      have hround' := le_roundHalfEven hd' hs' (by omega)
      unfold binade at *
      omega
    · refine Nat.add_le_add_left (roundHalfEven_mono (rescale_pos hd _) (rescale_pos hd' _) ?_) _
      rw [rescale_ratio, rescale_ratio]
      exact div_le_div_of_nonneg_right h (by positivity)
  exact min_le_min_right _ hbits

theorem bits_ofNatural_mono {m n : Nat} (h : m ≤ n) (neg neg' : Bool) :
    (ofRatio neg m 1).bits ≤ (ofRatio neg' n 1).bits := by
  refine bits_ofRatio_mono Nat.one_pos Nat.one_pos ?_ _ _
  have hcast : (m : ℚ) ≤ n := by exact_mod_cast h
  exact div_le_div_of_nonneg_right hcast (by norm_num)

/-! ## Products and quotients -/

theorem ratio_pos (x : Double) : 0 < x.ratio.2 := by
  unfold ratio
  split
  · exact Nat.one_pos
  · exact Nat.pow_pos (by decide)

theorem ratio_eq_magnitude (x : Double) : (x.ratio.1 : ℚ) / x.ratio.2 = x.magnitude := by
  unfold ratio magnitude
  split
  · rename_i k hk
    rw [hk, Nat.cast_one, div_one, Int.ofNat_eq_natCast, zpow_natCast]
    exact_mod_cast rfl
  · rename_i k hk
    rw [hk, zpow_negSucc, div_eq_mul_inv]
    exact_mod_cast rfl

theorem ratio_num_pos {x : Double} (h : 0 < x.magnitude) : 0 < x.ratio.1 := by
  refine Nat.pos_of_ne_zero fun hzero => ?_
  rw [← ratio_eq_magnitude, hzero, Nat.cast_zero, zero_div] at h
  exact lt_irrefl _ h

theorem mul_ratio (x y : Double) :
    ((x.ratio.1 * y.ratio.1 : Nat) : ℚ) / (x.ratio.2 * y.ratio.2 : Nat) =
      x.magnitude * y.magnitude := by
  rw [Nat.cast_mul, Nat.cast_mul, mul_div_mul_comm, ratio_eq_magnitude, ratio_eq_magnitude]

theorem div_ratio (x y : Double) :
    ((x.ratio.1 * y.ratio.2 : Nat) : ℚ) / (x.ratio.2 * y.ratio.1 : Nat) =
      x.magnitude / y.magnitude := by
  rw [Nat.cast_mul, Nat.cast_mul, ← ratio_eq_magnitude, ← ratio_eq_magnitude, div_div_div_eq]

theorem bits_mul_mono {x x' y y' : Double} (hx : x.bits ≤ x'.bits) (hy : y.bits ≤ y'.bits) :
    (x.mul y).bits ≤ (x'.mul y').bits := by
  refine bits_ofRatio_mono (Nat.mul_pos x.ratio_pos y.ratio_pos)
    (Nat.mul_pos x'.ratio_pos y'.ratio_pos) ?_ _ _
  rw [mul_ratio, mul_ratio]
  exact mul_le_mul (magnitude_le_iff.2 hx) (magnitude_le_iff.2 hy) y.magnitude_nonneg
    x'.magnitude_nonneg

theorem isFinite_of_bits_le {x y : Double} (hy : y.isFinite = true) (h : x.bits ≤ y.bits) :
    x.isFinite = true := decide_eq_true (h.trans_lt (of_decide_eq_true hy))

/-- A double is the rounded ratio that it stands for. -/
theorem ofRatio_ratio {x : Double} (hx : x.isFinite = true) :
    ofRatio x.neg x.ratio.1 x.ratio.2 = x :=
  ofRatio_eq_self hx x.ratio_pos x.ratio_eq_magnitude

theorem isFinite_div {x y : Double} (hx : x.isFinite = true) (hy : 1 ≤ y.magnitude) :
    (x.div y).isFinite = true := by
  have hpos := ratio_num_pos (zero_lt_one.trans_le hy)
  refine isFinite_of_bits_le hx ?_
  conv_rhs => rw [← ofRatio_ratio hx]
  refine bits_ofRatio_mono (Nat.mul_pos x.ratio_pos hpos) x.ratio_pos ?_ _ _
  rw [div_ratio, ratio_eq_magnitude]
  exact div_le_self x.magnitude_nonneg hy

/-! ## Powers of ten -/

theorem bits_tenPower_mono {k k' : Nat} (h : k ≤ k') : (tenPower k).bits ≤ (tenPower k').bits :=
  bits_ofNatural_mono (Nat.pow_le_pow_right (by decide) h) _ _

theorem one_le_magnitude_tenPower (k : Nat) : 1 ≤ (tenPower k).magnitude := by
  have hone : (tenPower 0).magnitude = 1 := by
    have hsignificand : (tenPower 0).significand = 2 ^ 52 := by decide +kernel
    have hscale : (tenPower 0).scale = -52 := by decide +kernel
    rw [magnitude, hsignificand, hscale]
    norm_num
  rw [← hone, magnitude_le_iff]
  exact bits_tenPower_mono (Nat.zero_le k)

theorem isFinite_divTen {x : Double} (hx : x.isFinite = true) (n k : Nat) :
    (divTen n x k).isFinite = true := by
  induction n generalizing x k with
  | zero => exact isFinite_div hx (one_le_magnitude_tenPower k)
  | succ n ih =>
    unfold divTen
    split
    · exact isFinite_div hx (one_le_magnitude_tenPower k)
    split
    · exact hx
    · exact ih (isFinite_div hx (one_le_magnitude_tenPower lastTen)) _

end Flowgraph.Double
