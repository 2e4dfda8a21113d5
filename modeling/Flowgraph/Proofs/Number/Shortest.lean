import Flowgraph.Proofs.Number.Monotone
import Mathlib.Data.Nat.Cast.Order.Field

/-!
# Seventeen digits are enough

A ratio that differs from a finite double by no more than half a unit of its seventeenth digit is
rounded to the double (`ofRatio_of_close`), so of the numerals that are offered for a double one
with at most seventeen digits is rounded to it, and the exact expansion is never taken

    x.isFinite → x.bits ≠ 0 → x.shortest.neg = x.neg ∧ x.shortest.digits ≤ 10 ^ 17
                                                                         (shortest_offered)
-/

namespace Flowgraph.Double

/-! ## Ratios close to a double -/

theorem magnitude_pos {x : Double} (h : x.bits ≠ 0) : 0 < x.magnitude :=
  lt_of_le_of_ne x.magnitude_nonneg fun hzero => h (magnitude_eq_zero_iff.1 hzero.symm)

theorem roundHalfEven_eq {a b : Nat} (hb : 0 < b) {r : Nat} (hlow : (r : ℚ) - 1 / 2 < a / b)
    (hhigh : (a : ℚ) / b < r + 1 / 2) : roundHalfEven a b = r := by
  obtain ⟨hge, hle, -⟩ := roundHalfEven_within a hb
  generalize roundHalfEven a b = t at hge hle
  have hlt : (t : ℚ) < r + 1 := by linarith
  have hgt : (r : ℚ) < t + 1 := by linarith
  have hlt' : t < r + 1 := by exact_mod_cast hlt
  have hgt' : r < t + 1 := by exact_mod_cast hgt
  omega

theorem two_zpow_add (s k : Int) : (2 : ℚ) ^ (s + k) = 2 ^ k * 2 ^ s := by
  rw [zpow_add₀ (by norm_num), mul_comm]

/-- A ratio in the binade of a double and less than half a last bit from it is rounded to it. -/
theorem bits_ofRatio_of_lastBit {x : Double} (hx : x.isFinite = true) {n d : Nat} (hn : n ≠ 0)
    (hd : 0 < d) {s : Int} {r : Nat} (hs : LastBit ((n : ℚ) / d) s)
    (hlow : (r : ℚ) - 1 / 2 < n / d / 2 ^ s) (hhigh : (n : ℚ) / d / 2 ^ s < r + 1 / 2)
    (hbits : (s + 1074).toNat * binade + r = x.bits) (neg : Bool) :
    (ofRatio neg n d).bits = x.bits := by
  have hround : roundHalfEven (rescale n d s).1 (rescale n d s).2 = r := by
    rw [← rescale_ratio] at hlow hhigh
    exact roundHalfEven_eq (rescale_pos hd s) hlow hhigh
  rw [ofRatio_of_lastBit hn hd hs, hround, hbits]
  exact Nat.min_eq_left (of_decide_eq_true hx).le

/-- So is a ratio below its binade, of which the double is the edge: the last bit is worth half as
much there. -/
theorem bits_ofRatio_of_edge {x : Double} (hx : x.isFinite = true) {n d : Nat} (hn : n ≠ 0)
    (hd : 0 < d) (hedge : x.significand = 4503599627370496) (hlarge : -1074 < x.scale) {u : ℚ}
    (hu : (n : ℚ) / d = u * 2 ^ x.scale) (hlow : 4503599627370496 - 1 / 4 < u)
    (hhigh : u < 4503599627370496) (neg : Bool) : (ofRatio neg n d).bits = x.bits := by
  have hpow : (0 : ℚ) < 2 ^ x.scale := by positivity
  have hdouble : (n : ℚ) / d / 2 ^ (x.scale - 1) = 2 * u := by
    rw [hu, sub_eq_add_neg, two_zpow_add, zpow_neg, zpow_one, mul_div_mul_right _ _ hpow.ne',
      div_inv_eq_mul, mul_comm]
  have hlast : LastBit ((n : ℚ) / d) (x.scale - 1) := by
    refine ⟨by omega, ?_, .inr ?_⟩
    · rw [show x.scale - 1 + 53 = x.scale + 52 by omega, two_zpow_add, hu]
      exact mul_lt_mul_of_pos_right (hhigh.trans_eq (by norm_num)) hpow
    · rw [show x.scale - 1 + 52 = x.scale + 51 by omega, two_zpow_add, hu]
      have hle : (2 : ℚ) ^ (51 : Int) ≤ 4503599627370496 - 1 / 4 := by norm_num
      exact mul_le_mul_of_nonneg_right (hle.trans hlow.le) hpow.le
  refine bits_ofRatio_of_lastBit hx hn hd (r := 9007199254740992) hlast ?_ ?_ ?_ neg
  · rw [hdouble]
    push_cast
    linarith
  · rw [hdouble]
    push_cast
    linarith
  · have hnext : (x.scale + 1074).toNat = (x.scale - 1 + 1074).toNat + 1 := by omega
    rw [← x.bits_eq, hedge, hnext, Nat.succ_mul, Nat.add_assoc]
    rfl

/-- Half a unit of the seventeenth digit is less than half the last bit. -/
theorem ofRatio_of_close {x : Double} (hx : x.isFinite = true) (hpos : x.bits ≠ 0) {n d : Nat}
    (hd : 0 < d) (hlow : x.magnitude * (1 - 1 / (2 * 10 ^ 16)) ≤ n / d)
    (hhigh : (n : ℚ) / d ≤ x.magnitude * (1 + 1 / (2 * 10 ^ 16))) : ofRatio x.neg n d = x := by
  have hn : n ≠ 0 := by
    rintro rfl
    have hmagnitude := magnitude_pos hpos
    rw [Nat.cast_zero, zero_div] at hlow
    linarith
  have hlast := x.lastBit_scale
  have hdigits : (x.significand : ℚ) ≤ 9007199254740991 := by
    have hlt := x.significand_lt
    unfold binade at hlt
    exact_mod_cast Nat.le_of_lt_succ hlt
  have hpow : (0 : ℚ) < 2 ^ x.scale := by positivity
  -- the ratio in units of the last bit of the double
  obtain ⟨u, hu⟩ : ∃ u : ℚ, (n : ℚ) / d = u * 2 ^ x.scale := ⟨_, (div_mul_cancel₀ _ hpow.ne').symm⟩
  have hunits : (n : ℚ) / d / 2 ^ x.scale = u := by rw [hu, mul_div_cancel_right₀ _ hpow.ne']
  unfold magnitude at hlow hhigh
  rw [hu, mul_right_comm] at hlow hhigh
  replace hlow := le_of_mul_le_mul_right hlow hpow
  replace hhigh := le_of_mul_le_mul_right hhigh hpow
  refine ext_bits (ofRatio_neg _ _ _) ?_
  by_cases hedge : x.scale = -1074 ∨ 2 ^ (x.scale + 52) ≤ (n : ℚ) / d
  · have hbelow : (n : ℚ) / d < 2 ^ (x.scale + 53) := by
      rw [two_zpow_add, hu]
      refine mul_lt_mul_of_pos_right (b := u) ?_ hpow
      norm_num
      linarith
    refine bits_ofRatio_of_lastBit hx hn hd ⟨hlast.least, hbelow, hedge⟩ ?_ ?_ x.bits_eq _
    · rw [hunits]
      linarith
    · rw [hunits]
      linarith
  · obtain ⟨hlarge, hlt⟩ := not_or.1 hedge
    rw [two_zpow_add, not_le, hu] at hlt
    have hfull := hlast.above.resolve_left hlarge
    rw [two_zpow_add] at hfull
    have hpower : (2 : ℚ) ^ (52 : Int) = 4503599627370496 := by norm_num
    have hbelow : u < 4503599627370496 := hpower ▸ lt_of_mul_lt_mul_right hlt hpow.le
    have hsignificand : (4503599627370496 : ℚ) ≤ x.significand :=
      hpower ▸ le_of_mul_le_mul_right hfull hpow
    have heq : x.significand = 4503599627370496 := by
      have hle : (x.significand : ℚ) < 4503599627370497 := by linarith
      have hle' : x.significand < 4503599627370497 := by exact_mod_cast hle
      have hge' : 4503599627370496 ≤ x.significand := by exact_mod_cast hsignificand
      omega
    rw [heq] at hlow
    push_cast at hlow
    exact bits_ofRatio_of_edge hx hn hd heq (lt_of_le_of_ne hlast.least (Ne.symm hlarge)) hu
      (by linarith) hbelow _

/-! ## Powers of ten around a ratio -/

theorem pow_length_digitsOf {n : Nat} (hn : n ≠ 0) :
    10 ^ ((Decimal.digitsOf n).length - 1) ≤ n ∧ n < 10 ^ (Decimal.digitsOf n).length := by
  have hpos : 0 < (Decimal.digitsOf n).length := Nat.length_toDigits_pos
  refine ⟨?_, (Nat.length_toDigits_le_iff (by decide) hpos).1 (Nat.le_refl _)⟩
  by_contra hlt
  by_cases hone : (Decimal.digitsOf n).length = 1
  · rw [hone] at hlt
    omega
  · have hle := (Nat.length_toDigits_le_iff (by decide) (by omega)).2 (Nat.lt_of_not_le hlt)
    have : (Decimal.digitsOf n).length ≤ (Decimal.digitsOf n).length - 1 := hle
    omega

/-- Written with as many digits as the denominator, the numerator is less than ten times away. -/
theorem numerator_of_length {n d : Nat} (hn : n ≠ 0) (hd : d ≠ 0) (hlt : n < d) {k : Nat}
    (hk : (Decimal.digitsOf d).length - (Decimal.digitsOf n).length = k) :
    n * 10 ^ k < 10 * d ∧ d < 10 * (n * 10 ^ k) := by
  obtain ⟨hnlow, hnhigh⟩ := pow_length_digitsOf hn
  obtain ⟨hdlow, hdhigh⟩ := pow_length_digitsOf hd
  have hpos : 0 < (Decimal.digitsOf n).length := Nat.length_toDigits_pos
  have hlength : (Decimal.digitsOf d).length = (Decimal.digitsOf n).length + k := by
    have hpow : 10 ^ ((Decimal.digitsOf n).length - 1) < 10 ^ (Decimal.digitsOf d).length := by
      omega
    have := (Nat.pow_lt_pow_iff_right (by decide)).1 hpow
    omega
  rw [hlength] at hdlow hdhigh
  generalize (Decimal.digitsOf n).length = len at hnlow hnhigh hpos hdlow hdhigh
  have hpred : ∀ m, 0 < m → 10 ^ m = 10 * 10 ^ (m - 1) := by
    intro m hm
    rw [← Nat.pow_succ', Nat.succ_eq_add_one, Nat.sub_add_cancel hm]
  constructor
  · have hhigh : n * 10 ^ k < 10 ^ (len + k) := by
      rw [Nat.pow_add]
      exact Nat.mul_lt_mul_of_pos_right hnhigh (Nat.pow_pos (by decide))
    have := hpred (len + k) (by omega)
    omega
  · have hlow : 10 ^ (len - 1) * 10 ^ k ≤ n * 10 ^ k := Nat.mul_le_mul_right _ hnlow
    rw [Nat.pow_add, hpred len hpos, Nat.mul_assoc] at hdhigh
    omega

theorem leadingExponent_spec_of_le {n d : Nat} (hd : d ≠ 0) (hle : d ≤ n) :
    (10 : ℚ) ^ leadingExponent n d ≤ n / d ∧ (n : ℚ) / d < 10 ^ (leadingExponent n d + 1) := by
  have hdpos := Nat.pos_of_ne_zero hd
  have hdq : (0 : ℚ) < d := by exact_mod_cast hdpos
  obtain ⟨hlow, hhigh⟩ := pow_length_digitsOf (Nat.div_pos hle hdpos).ne'
  have hlength : 0 < (Decimal.digitsOf (n / d)).length := Nat.length_toDigits_pos
  rw [leadingExponent, if_pos hle]
  generalize (Decimal.digitsOf (n / d)).length = len at hlow hhigh hlength
  constructor
  · rw [show (len : Int) - 1 = ((len - 1 : Nat) : Int) by omega, zpow_natCast, le_div_iff₀ hdq]
    exact_mod_cast (Nat.le_div_iff_mul_le hdpos).1 hlow
  · rw [sub_add_cancel, zpow_natCast, div_lt_iff₀ hdq]
    exact_mod_cast (Nat.div_lt_iff_lt_mul hdpos).1 hhigh

theorem leadingExponent_spec_of_lt {n d : Nat} (hn : n ≠ 0) (hd : d ≠ 0) (hlt : n < d) :
    (10 : ℚ) ^ leadingExponent n d ≤ n / d ∧ (n : ℚ) / d < 10 ^ (leadingExponent n d + 1) := by
  have hdq : (0 : ℚ) < d := by exact_mod_cast Nat.pos_of_ne_zero hd
  rw [leadingExponent, if_neg (Nat.not_le.2 hlt)]
  dsimp only
  generalize hk : (Decimal.digitsOf d).length - (Decimal.digitsOf n).length = k
  obtain ⟨hnext, hreach⟩ := numerator_of_length hn hd hlt hk
  have hkpos : (0 : ℚ) < 10 ^ k := by positivity
  have hzpow : (10 : ℚ) ^ (-(k : Int)) = 1 / 10 ^ k := by
    rw [zpow_neg, zpow_natCast, one_div]
  have hnext' : (n : ℚ) * 10 ^ k < 10 * d := by exact_mod_cast hnext
  have hreach' : (d : ℚ) < 10 * (n * 10 ^ k) := by exact_mod_cast hreach
  split
  · rename_i hle
    have hle' : (d : ℚ) ≤ n * 10 ^ k := by exact_mod_cast hle
    constructor
    · rw [hzpow, div_le_div_iff₀ hkpos hdq]
      linarith
    · rw [zpow_add₀ (by norm_num), zpow_one, hzpow, div_mul_eq_mul_div, one_mul,
        div_lt_div_iff₀ hdq hkpos]
      linarith
  · rename_i hgt
    have hgt' : (n : ℚ) * 10 ^ k < d := by exact_mod_cast Nat.lt_of_not_le hgt
    constructor
    · rw [sub_eq_add_neg, zpow_add₀ (by norm_num), hzpow, zpow_neg, zpow_one,
        div_mul_eq_mul_div, one_mul, div_le_div_iff₀ hkpos hdq]
      linarith
    · rw [sub_add_cancel, hzpow, div_lt_div_iff₀ hdq hkpos]
      linarith

/-- The leading digit of a ratio stands for the power of ten that the ratio reaches. -/
theorem leadingExponent_spec {n d : Nat} (hn : n ≠ 0) (hd : d ≠ 0) :
    (10 : ℚ) ^ leadingExponent n d ≤ n / d ∧ (n : ℚ) / d < 10 ^ (leadingExponent n d + 1) := by
  rcases Nat.lt_or_ge n d with hlt | hle
  · exact leadingExponent_spec_of_lt hn hd hlt
  · exact leadingExponent_spec_of_le hd hle

/-! ## Numerals that are offered -/

theorem rescaleTen_pos {n d : Nat} (hd : 0 < d) (e : Int) : 0 < (rescaleTen n d e).2 := by
  cases e with
  | ofNat k => exact Nat.mul_pos hd (Nat.pow_pos (by decide))
  | negSucc k => exact hd

theorem rescaleTen_ratio (n d : Nat) (e : Int) :
    ((rescaleTen n d e).1 : ℚ) / (rescaleTen n d e).2 = n / d / 10 ^ e := by
  cases e with
  | ofNat k =>
    show (n : ℚ) / ((d * 10 ^ k : Nat) : ℚ) = n / d / 10 ^ (k : Int)
    rw [Nat.cast_mul, Nat.cast_pow, Nat.cast_ofNat, zpow_natCast, div_mul_eq_div_div]
  | negSucc k =>
    show ((n * 10 ^ (k + 1) : Nat) : ℚ) / d = n / d / 10 ^ (Int.negSucc k)
    rw [Nat.cast_mul, Nat.cast_pow, Nat.cast_ofNat, zpow_negSucc, div_inv_eq_mul,
      div_mul_eq_mul_div]

/-- The numerals offered on a grid are those on either side of the double, and the nearest is one of
them. -/
theorem neighbours_spec (x : Double) (e : Int) :
    (⟨x.neg, roundHalfEven (rescaleTen x.ratio.1 x.ratio.2 e).1
      (rescaleTen x.ratio.1 x.ratio.2 e).2, e⟩ ∈ x.neighbours e) ∧
    ∀ c ∈ x.neighbours e, c.neg = x.neg ∧ (c.digits : ℚ) ≤ x.magnitude / 10 ^ e + 1 := by
  have hratio := rescaleTen_ratio x.ratio.1 x.ratio.2 e
  rw [ratio_eq_magnitude] at hratio
  unfold neighbours
  dsimp only
  generalize rescaleTen x.ratio.1 x.ratio.2 e = ab at hratio
  have hfloor : ((ab.1 / ab.2 : Nat) : ℚ) ≤ x.magnitude / 10 ^ e :=
    Nat.cast_div_le.trans_eq hratio
  have hnext : ((ab.1 / ab.2 + 1 : Nat) : ℚ) ≤ x.magnitude / 10 ^ e + 1 := by
    rw [Nat.cast_add, Nat.cast_one]
    linarith
  have hfloor' : ((ab.1 / ab.2 : Nat) : ℚ) ≤ x.magnitude / 10 ^ e + 1 := by linarith
  have hboth : ∀ c : Decimal, c = ⟨x.neg, ab.1 / ab.2, e⟩ ∨ c = ⟨x.neg, ab.1 / ab.2 + 1, e⟩ →
      c.neg = x.neg ∧ (c.digits : ℚ) ≤ x.magnitude / 10 ^ e + 1 := by
    rintro c (rfl | rfl)
    · exact ⟨rfl, hfloor'⟩
    · exact ⟨rfl, hnext⟩
  split
  · refine ⟨?_, fun c hc => hboth c (by simpa using hc)⟩
    rcases roundHalfEven_cases ab.1 ab.2 with h | h
    · simp [h]
    · simp [h]
  · refine ⟨?_, fun c hc => hboth c ((by simpa using hc : _ ∨ _).symm)⟩
    rcases roundHalfEven_cases ab.1 ab.2 with h | h
    · simp [h]
    · simp [h]

/-- On the grid of seventeen digits the nearest numeral is rounded to the double. -/
theorem ofDecimal_nearest {x : Double} (hx : x.isFinite = true) (hpos : x.bits ≠ 0) {e : Int}
    (he : (10 : ℚ) ^ e ≤ x.magnitude) :
    ofDecimal ⟨x.neg, roundHalfEven (rescaleTen x.ratio.1 x.ratio.2 (e - 16)).1
      (rescaleTen x.ratio.1 x.ratio.2 (e - 16)).2, e - 16⟩ = x := by
  have hratio := rescaleTen_ratio x.ratio.1 x.ratio.2 (e - 16)
  have hbpos := rescaleTen_pos (n := x.ratio.1) x.ratio_pos (e - 16)
  rw [ratio_eq_magnitude] at hratio
  generalize rescaleTen x.ratio.1 x.ratio.2 (e - 16) = ab at hratio hbpos
  obtain ⟨hge, hle, -⟩ := roundHalfEven_within ab.1 hbpos
  generalize roundHalfEven ab.1 ab.2 = t at hge hle
  have hunit : (0 : ℚ) < 10 ^ (e - 16) := by positivity
  rw [hratio, le_div_iff₀ hunit] at hge
  rw [hratio, div_le_iff₀ hunit] at hle
  -- half a unit of the grid, by the size of the double
  have hgrid : (10 : ℚ) ^ (e - 16) ≤ x.magnitude / 10 ^ 16 := by
    rw [zpow_sub₀ (by norm_num)]
    exact div_le_div_of_nonneg_right he (by norm_num)
  obtain ⟨n, d, hd, hmagnitude⟩ := exists_magnitude_eq ⟨x.neg, t, e - 16⟩
  rw [ofDecimal_eq_ofRatio hd hmagnitude]
  have hvalue : (n : ℚ) / d = t * 10 ^ (e - 16) := hmagnitude.symm
  refine ofRatio_of_close hx hpos hd ?_ ?_
  · rw [hvalue]
    linarith
  · rw [hvalue]
    linarith

/-- The shortest numeral of a double has the sign of the double and at most seventeen digits. -/
theorem shortest_offered {x : Double} (hx : x.isFinite = true) (hpos : x.bits ≠ 0) :
    x.shortest.neg = x.neg ∧ x.shortest.digits ≤ 10 ^ 17 := by
  have hmagnitude := magnitude_pos hpos
  obtain ⟨hlow, hhigh⟩ := leadingExponent_spec (ratio_num_pos hmagnitude).ne' x.ratio_pos.ne'
  rw [ratio_eq_magnitude] at hlow hhigh
  unfold shortest
  dsimp only
  generalize leadingExponent x.ratio.1 x.ratio.2 = e at hlow hhigh
  generalize hoffer : List.find? _ _ = offer
  cases offer with
  | none =>
    have hlast := List.find?_eq_none.1 hoffer _
      (List.mem_flatMap.2 ⟨16, List.mem_range.2 (by decide), (x.neighbours_spec _).1⟩)
    exact absurd (decide_eq_true (ofDecimal_nearest hx hpos hlow)) hlast
  | some c =>
    obtain ⟨k, hk, hc⟩ := List.mem_flatMap.1 (List.mem_of_find?_eq_some hoffer)
    have hk' := List.mem_range.1 hk
    obtain ⟨hneg, hdigits⟩ := (x.neighbours_spec (e - k)).2 c hc
    refine ⟨hneg, ?_⟩
    have hquotient : x.magnitude / 10 ^ (e - k) < 10 ^ 17 := by
      rw [div_lt_iff₀ (by positivity), ← zpow_natCast, ← zpow_add₀ (by norm_num)]
      exact hhigh.trans_le (zpow_le_zpow_right₀ (by norm_num) (by omega))
    have hlt : (c.digits : ℚ) < 10 ^ 17 + 1 := by linarith
    have hlt' : c.digits < 10 ^ 17 + 1 := by exact_mod_cast hlt
    show c.digits ≤ 10 ^ 17
    omega

end Flowgraph.Double
