import Flowgraph.Number.Shortest
import Mathlib.Algebra.Order.Field.Power
import Mathlib.Algebra.Order.Field.Rat
import Mathlib.Tactic.FieldSimp
import Mathlib.Tactic.Linarith
import Mathlib.Tactic.NormNum
import Mathlib.Tactic.Positivity

/-!
# Reading numerals to the nearest double

What the last bit of the double next to a ratio is worth is fixed by the size of the ratio
(`LastBit`), so a ratio is rounded by its value alone (`ofRatio_congr`), and with it a numeral
(`Decimal.magnitude`)

    x.neg = y.neg → x.magnitude = y.magnitude → ofDecimal x = ofDecimal y    (ofDecimal_congr)

The exact expansion of a finite double is read back as the double, so its shortest numeral is too

    x.isFinite → ofDecimal x.shortest = x                                    (ofDecimal_shortest)
-/

namespace Flowgraph

/-- The size of a numeral. -/
def Decimal.magnitude (x : Decimal) : ℚ := x.digits * 10 ^ x.exponent

namespace Double

/-! ## The last bit -/

/-- The last bit of the doubles around `q` is worth `2 ^ s`: they have 53 bits, or fewer where
no bit is worth less. -/
structure LastBit (q : ℚ) (s : Int) : Prop where
  least : -1074 ≤ s
  below : q < 2 ^ (s + 53)
  above : s = -1074 ∨ 2 ^ (s + 52) ≤ q

theorem LastBit.unique {q : ℚ} {s t : Int} (hs : LastBit q s) (ht : LastBit q t) : s = t := by
  have hle : ∀ {s t : Int}, LastBit q s → LastBit q t → s ≤ t := by
    intro s t hs ht
    rcases hs.above with hleast | habove
    · have := ht.least
      omega
    · have hlt : (2 : ℚ) ^ (s + 52) < 2 ^ (t + 53) := lt_of_le_of_lt habove ht.below
      have := (zpow_lt_zpow_iff_right₀ (by norm_num)).1 hlt
      omega
  exact le_antisymm (hle hs ht) (hle ht hs)

theorem rescale_pos {n d : Nat} (hd : 0 < d) (s : Int) : 0 < (rescale n d s).2 := by
  cases s with
  | ofNat k => exact Nat.mul_pos hd (Nat.pow_pos (by decide))
  | negSucc k => exact hd

theorem rescale_ratio (n d : Nat) (s : Int) :
    ((rescale n d s).1 : ℚ) / (rescale n d s).2 = n / d / 2 ^ s := by
  cases s with
  | ofNat k =>
    show (n : ℚ) / ((d * 2 ^ k : Nat) : ℚ) = n / d / 2 ^ (k : Int)
    rw [Nat.cast_mul, Nat.cast_pow, Nat.cast_ofNat, zpow_natCast, div_mul_eq_div_div]
  | negSucc k =>
    show ((n * 2 ^ (k + 1) : Nat) : ℚ) / d = n / d / 2 ^ (Int.negSucc k)
    rw [Nat.cast_mul, Nat.cast_pow, Nat.cast_ofNat, zpow_negSucc, div_inv_eq_mul, div_mul_eq_mul_div]

/-- A ratio of naturals with leading bits `2 ^ m` and `2 ^ k` lies around `2 ^ (m - k)`. -/
theorem ratio_between {n d : Nat} (hn : n ≠ 0) (hd : d ≠ 0) :
    (2 : ℚ) ^ ((n.log2 : Int) - d.log2 - 1) ≤ n / d ∧
      (n : ℚ) / d < 2 ^ ((n.log2 : Int) - d.log2 + 1) := by
  have hn1 : (2 : ℚ) ^ (n.log2 : Int) ≤ n := by
    rw [zpow_natCast]
    exact_mod_cast Nat.log2_self_le hn
  have hn2 : (n : ℚ) < 2 ^ ((n.log2 : Int) + 1) := by
    rw [← Nat.cast_one (R := Int), ← Nat.cast_add, zpow_natCast]
    exact_mod_cast Nat.lt_log2_self
  have hd1 : (2 : ℚ) ^ (d.log2 : Int) ≤ d := by
    rw [zpow_natCast]
    exact_mod_cast Nat.log2_self_le hd
  have hd2 : (d : ℚ) < 2 ^ ((d.log2 : Int) + 1) := by
    rw [← Nat.cast_one (R := Int), ← Nat.cast_add, zpow_natCast]
    exact_mod_cast Nat.lt_log2_self
  have hdpos : (0 : ℚ) < d := by exact_mod_cast Nat.pos_of_ne_zero hd
  have htwo : (2 : ℚ) ≠ 0 := by norm_num
  constructor
  · rw [le_div_iff₀ hdpos]
    calc (2 : ℚ) ^ ((n.log2 : Int) - d.log2 - 1) * d
        ≤ 2 ^ ((n.log2 : Int) - d.log2 - 1) * 2 ^ ((d.log2 : Int) + 1) :=
          mul_le_mul_of_nonneg_left hd2.le (by positivity)
      _ = 2 ^ (n.log2 : Int) := by
          rw [← zpow_add₀ htwo]
          congr 1
          omega
      _ ≤ n := hn1
  · rw [div_lt_iff₀ hdpos]
    calc (n : ℚ) < 2 ^ ((n.log2 : Int) + 1) := hn2
      _ = 2 ^ ((n.log2 : Int) - d.log2 + 1) * 2 ^ (d.log2 : Int) := by
          rw [← zpow_add₀ htwo]
          congr 1
          omega
      _ ≤ 2 ^ ((n.log2 : Int) - d.log2 + 1) * d := mul_le_mul_of_nonneg_left hd1 (by positivity)

/-- Whether 53 bits are enough, as rounding tests it. -/
theorem quotient_lt_iff {n d : Nat} (hd : 0 < d) (s : Int) :
    (rescale n d s).1 / (rescale n d s).2 < 2 * binade ↔ (n : ℚ) / d < 2 ^ (s + 53) := by
  have hpos := rescale_pos (n := n) hd s
  have hposq : (0 : ℚ) < (rescale n d s).2 := by exact_mod_cast hpos
  have htwo : (2 : ℚ) ≠ 0 := by norm_num
  have hpow : (0 : ℚ) < 2 ^ s := by positivity
  calc (rescale n d s).1 / (rescale n d s).2 < 2 * binade
      ↔ (rescale n d s).1 < 2 * binade * (rescale n d s).2 := Nat.div_lt_iff_lt_mul hpos
    _ ↔ ((rescale n d s).1 : ℚ) < 2 ^ (53 : Int) * (rescale n d s).2 := by
        rw [← Nat.cast_lt (α := ℚ), Nat.cast_mul, show ((2 * binade : Nat) : ℚ) = 2 ^ (53 : Int) by
          norm_num [binade]]
    _ ↔ ((rescale n d s).1 : ℚ) / (rescale n d s).2 < 2 ^ (53 : Int) := (div_lt_iff₀ hposq).symm
    _ ↔ (n : ℚ) / d < 2 ^ (s + 53) := by
        rw [rescale_ratio, div_lt_iff₀ hpow, ← zpow_add₀ htwo, add_comm]

theorem lastBit_unitExponent {n d : Nat} (hn : n ≠ 0) (hd : d ≠ 0) :
    LastBit ((n : ℚ) / d) (unitExponent n d) := by
  obtain ⟨hlow, hhigh⟩ := ratio_between hn hd
  have hone : (1 : ℚ) ≤ 2 := by norm_num
  let s : Int := max (-1074) ((n.log2 : Int) - d.log2 - 53)
  have hs : unitExponent n d =
      if (rescale n d s).1 / (rescale n d s).2 < 2 * binade then s else s + 1 := rfl
  rw [hs]
  split
  · rename_i hfits
    refine ⟨by omega, (quotient_lt_iff (Nat.pos_of_ne_zero hd) s).1 hfits, ?_⟩
    rcases max_choice (-1074 : Int) ((n.log2 : Int) - d.log2 - 53) with hmax | hmax
    · exact .inl hmax
    · refine .inr ((zpow_le_zpow_right₀ hone ?_).trans hlow)
      omega
  · rename_i hfits
    refine ⟨by omega, hhigh.trans_le (zpow_le_zpow_right₀ hone (by omega)), .inr ?_⟩
    have hge := le_of_not_gt fun h => hfits ((quotient_lt_iff (Nat.pos_of_ne_zero hd) s).2 h)
    rwa [show s + 1 + 52 = s + 53 by omega]

/-! ## Rounding by value -/

theorem roundHalfEven_mul {k : Nat} (hk : 0 < k) (n d : Nat) :
    roundHalfEven (k * n) (k * d) = roundHalfEven n d := by
  have hlt : k * d < 2 * (k * (n % d)) ↔ d < 2 * (n % d) := by
    rw [Nat.mul_left_comm]
    exact Nat.mul_lt_mul_left hk
  have heq : 2 * (k * (n % d)) = k * d ↔ 2 * (n % d) = d := by
    rw [Nat.mul_left_comm]
    exact Nat.mul_right_inj hk.ne'
  simp only [roundHalfEven, Nat.mul_div_mul_left n d hk, Nat.mul_mod_mul_left, hlt, heq]

/-- Equal ratios are rounded to the same natural. -/
theorem roundHalfEven_congr {n d n' d' : Nat} (hd : 0 < d) (hd' : 0 < d')
    (h : (n : ℚ) / d = n' / d') : roundHalfEven n d = roundHalfEven n' d' := by
  have hcross : d' * n = d * n' := by
    have hq : (d : ℚ) ≠ 0 := by exact_mod_cast hd.ne'
    have hq' : (d' : ℚ) ≠ 0 := by exact_mod_cast hd'.ne'
    rw [div_eq_div_iff hq hq'] at h
    have hnat : n * d' = n' * d := by exact_mod_cast h
    rw [Nat.mul_comm d', Nat.mul_comm d, hnat]
  calc roundHalfEven n d = roundHalfEven (d' * n) (d' * d) := (roundHalfEven_mul hd' n d).symm
    _ = roundHalfEven (d * n') (d * d') := by rw [hcross, Nat.mul_comm d' d]
    _ = roundHalfEven n' d' := roundHalfEven_mul hd n' d'

/-- Rounding, given what the last bit is worth. -/
theorem ofRatio_of_lastBit {n d : Nat} (hn : n ≠ 0) (hd : 0 < d) {s : Int}
    (hs : LastBit ((n : ℚ) / d) s) (neg : Bool) :
    (ofRatio neg n d).bits =
      min ((s + 1074).toNat * binade + roundHalfEven (rescale n d s).1 (rescale n d s).2)
        infinityBits := by
  have hunit : unitExponent n d = s := (lastBit_unitExponent hn hd.ne').unique hs
  simp only [ofRatio, if_neg hn, hunit]

theorem ofRatio_neg (neg : Bool) (n d : Nat) : (ofRatio neg n d).neg = neg := by
  unfold ofRatio
  split
  · rfl
  · rfl

theorem ofRatio_zero (neg : Bool) (d : Nat) : ofRatio neg 0 d = zero neg := if_pos rfl

theorem ext_bits {x y : Double} (hneg : x.neg = y.neg) (hbits : x.bits = y.bits) : x = y := by
  cases x
  cases y
  cases hneg
  cases hbits
  rfl

/-- Equal ratios are rounded to the same double. -/
theorem ofRatio_congr {n d n' d' : Nat} (hd : 0 < d) (hd' : 0 < d')
    (h : (n : ℚ) / d = n' / d') (neg : Bool) : ofRatio neg n d = ofRatio neg n' d' := by
  have hzero : n = 0 ↔ n' = 0 := by
    have hquotient : (n : ℚ) / d = 0 ↔ (n' : ℚ) / d' = 0 := by rw [h]
    simpa [hd.ne', hd'.ne'] using hquotient
  by_cases hn : n = 0
  · rw [hn, hzero.1 hn, ofRatio_zero, ofRatio_zero]
  · have hlast := lastBit_unitExponent hn hd.ne'
    have hlast' : LastBit ((n' : ℚ) / d') (unitExponent n d) := h ▸ hlast
    refine ext_bits ((ofRatio_neg _ _ _).trans (ofRatio_neg _ _ _).symm) ?_
    rw [ofRatio_of_lastBit hn hd hlast, ofRatio_of_lastBit (mt hzero.2 hn) hd' hlast']
    congr 2
    refine roundHalfEven_congr (rescale_pos hd _) (rescale_pos hd' _) ?_
    rw [rescale_ratio, rescale_ratio, h]

/-- A ratio far above the doubles is rounded to an infinity. -/
theorem ofRatio_of_huge {n d : Nat} (hd : 0 < d) (h : (2 : ℚ) ^ (1026 : Int) ≤ n / d)
    (neg : Bool) : ofRatio neg n d = infinity neg := by
  have hn : n ≠ 0 := by
    rintro rfl
    rw [Nat.cast_zero, zero_div] at h
    exact absurd h (not_le.2 (by positivity))
  have hlast := lastBit_unitExponent hn hd.ne'
  have hexp : 1026 < unitExponent n d + 53 :=
    (zpow_lt_zpow_iff_right₀ (by norm_num)).1 (lt_of_le_of_lt h hlast.below)
  refine ext_bits (ofRatio_neg _ _ _) ?_
  rw [ofRatio_of_lastBit hn hd hlast]
  have hmany : 2047 * binade ≤ (unitExponent n d + 1074).toNat * binade :=
    Nat.mul_le_mul_right _ (by omega)
  exact Nat.min_eq_right (hmany.trans (Nat.le_add_right _ _))

/-- A ratio far below the doubles is rounded to a zero. -/
theorem ofRatio_of_tiny {n d : Nat} (hn : n ≠ 0) (hd : 0 < d)
    (h : (n : ℚ) / d < 2 ^ (-1076 : Int)) (neg : Bool) : ofRatio neg n d = zero neg := by
  have hlast : LastBit ((n : ℚ) / d) (-1074) := by
    refine ⟨le_refl _, h.trans_le (zpow_le_zpow_right₀ (by norm_num) (by norm_num)), .inl rfl⟩
  refine ext_bits (ofRatio_neg _ _ _) ?_
  rw [ofRatio_of_lastBit hn hd hlast]
  generalize hab : rescale n d (-1074) = ab
  have hpos : 0 < ab.2 := hab ▸ rescale_pos hd _
  have hquarter : 4 * ab.1 < ab.2 := by
    have hposq : (0 : ℚ) < ab.2 := by exact_mod_cast hpos
    have hratio : (ab.1 : ℚ) / ab.2 < 1 / 4 := by
      rw [← hab, rescale_ratio, div_lt_iff₀ (by positivity)]
      refine h.trans_le (le_of_eq ?_)
      rw [show (-1076 : Int) = -2 + -1074 from rfl, zpow_add₀ (by norm_num)]
      norm_num
    rw [div_lt_div_iff₀ hposq (by norm_num)] at hratio
    have hcast : ab.1 * 4 < 1 * ab.2 := by exact_mod_cast hratio
    omega
  have hround : roundHalfEven ab.1 ab.2 = 0 := by
    have hfloor : ab.1 / ab.2 = 0 := Nat.div_eq_of_lt (by omega)
    have hrest : ab.1 % ab.2 = ab.1 := Nat.mod_eq_of_lt (by omega)
    rw [roundHalfEven]
    simp only [hfloor, hrest]
    rw [if_neg (by omega)]
  rw [hround]
  exact Nat.zero_min _

/-! ## Numerals -/

theorem two_pow_le_ten_pow : (2 : ℚ) ^ 1076 ≤ 10 ^ 401 := by
  calc (2 : ℚ) ^ 1076 ≤ 2 ^ (3 * 401) := pow_le_pow_right₀ (by norm_num) (by norm_num)
    _ = (2 ^ 3) ^ 401 := pow_mul _ _ _
    _ ≤ 10 ^ 401 := pow_le_pow_left₀ (by norm_num) (by norm_num) _

theorem ofDecimal_neg (x : Decimal) : (ofDecimal x).neg = x.neg := by
  unfold ofDecimal
  split
  · rfl
  split
  · split
    · rfl
    · exact ofRatio_neg _ _ _
  · split
    · rfl
    · exact ofRatio_neg _ _ _

theorem magnitude_ofNat {x : Decimal} {k : Nat} (h : x.exponent = .ofNat k) :
    x.magnitude = ((x.digits * 10 ^ k : Nat) : ℚ) / (1 : Nat) := by
  rw [Decimal.magnitude, h, Nat.cast_one, div_one, Int.ofNat_eq_natCast, zpow_natCast]
  exact_mod_cast rfl

theorem magnitude_negSucc {x : Decimal} {k : Nat} (h : x.exponent = .negSucc k) :
    x.magnitude = (x.digits : ℚ) / (10 ^ (k + 1) : Nat) := by
  rw [Decimal.magnitude, h, zpow_negSucc, div_eq_mul_inv]
  exact_mod_cast rfl

/-- A magnitude is a ratio of naturals. -/
theorem exists_magnitude_eq (x : Decimal) : ∃ n d : Nat, 0 < d ∧ x.magnitude = n / d := by
  cases hexponent : x.exponent with
  | ofNat k => exact ⟨_, _, Nat.one_pos, magnitude_ofNat hexponent⟩
  | negSucc k => exact ⟨_, _, Nat.pow_pos (by decide), magnitude_negSucc hexponent⟩

/-- Above the bound of the exponents rounding overflows by itself. -/
theorem le_magnitude_of_large {x : Decimal} {k : Nat} (hdigits : x.digits ≠ 0)
    (h : x.exponent = .ofNat k) (hk : 400 < k) : (2 : ℚ) ^ (1026 : Int) ≤ x.magnitude := by
  have hone : (1 : ℚ) ≤ x.digits := by exact_mod_cast Nat.pos_of_ne_zero hdigits
  calc (2 : ℚ) ^ (1026 : Int) ≤ 2 ^ (1076 : Int) :=
        zpow_le_zpow_right₀ (by norm_num) (by norm_num)
    _ ≤ 1 * 10 ^ 401 := by
        rw [one_mul]
        exact two_pow_le_ten_pow
    _ ≤ x.digits * 10 ^ k :=
        mul_le_mul hone (pow_le_pow_right₀ (by norm_num) hk) (by positivity) (by positivity)
    _ = x.magnitude := by
        rw [magnitude_ofNat h, Nat.cast_one, div_one]
        exact_mod_cast rfl

/-- Below the bound the digits cannot make up for the exponent, and rounding vanishes by itself. -/
theorem magnitude_lt_of_small {x : Decimal} {k : Nat} (h : x.exponent = .negSucc k)
    (hk : (Decimal.digitsOf x.digits).length + 400 < k) : x.magnitude < 2 ^ (-1076 : Int) := by
  have hlength : x.digits < 10 ^ (Decimal.digitsOf x.digits).length :=
    (Nat.length_toDigits_le_iff (by decide) Nat.length_toDigits_pos).1 (Nat.le_refl _)
  rw [magnitude_negSucc h, Nat.cast_pow, Nat.cast_ofNat, div_lt_iff₀ (by positivity)]
  calc (x.digits : ℚ) < 10 ^ (Decimal.digitsOf x.digits).length := by exact_mod_cast hlength
    _ ≤ 2 ^ (-1076 : Int) * 10 ^ 401 * 10 ^ (Decimal.digitsOf x.digits).length := by
        refine le_mul_of_one_le_left (by positivity) ?_
        rw [zpow_neg, inv_mul_eq_div, one_le_div (by positivity)]
        exact two_pow_le_ten_pow
    _ ≤ 2 ^ (-1076 : Int) * 10 ^ (k + 1) := by
        rw [mul_assoc, ← pow_add]
        exact mul_le_mul_of_nonneg_left (pow_le_pow_right₀ (by norm_num) (by omega))
          (by positivity)

/-- The bounds beyond which numerals are not worked out do not show. -/
theorem ofDecimal_eq_ofRatio {x : Decimal} {n d : Nat} (hd : 0 < d)
    (h : x.magnitude = n / d) : ofDecimal x = ofRatio x.neg n d := by
  have hzero : x.digits = 0 ↔ n = 0 := by
    have hmagnitude : x.magnitude = 0 ↔ (n : ℚ) / d = 0 := by rw [h]
    have hpow : (10 : ℚ) ^ x.exponent ≠ 0 := by positivity
    simpa [Decimal.magnitude, hpow, hd.ne'] using hmagnitude
  unfold ofDecimal
  split
  · rename_i hdigits
    rw [hzero.1 hdigits, ofRatio_zero]
  rename_i hdigits
  split
  · rename_i k hk
    split
    · rename_i hlarge
      exact (ofRatio_of_huge hd (h ▸ le_magnitude_of_large hdigits hk hlarge) _).symm
    · exact ofRatio_congr Nat.one_pos hd ((magnitude_ofNat hk).symm.trans h) _
  · rename_i k hk
    split
    · rename_i hsmall
      have hn : n ≠ 0 := mt hzero.2 hdigits
      exact (ofRatio_of_tiny hn hd (h ▸ magnitude_lt_of_small hk hsmall) _).symm
    · exact ofRatio_congr (Nat.pow_pos (by decide)) hd ((magnitude_negSucc hk).symm.trans h) _

/-- Numerals of one sign and one magnitude denote one double. -/
theorem ofDecimal_congr {x y : Decimal} (hneg : x.neg = y.neg) (h : x.magnitude = y.magnitude) :
    ofDecimal x = ofDecimal y := by
  obtain ⟨n, d, hd, hy⟩ := exists_magnitude_eq y
  rw [ofDecimal_eq_ofRatio hd hy, ofDecimal_eq_ofRatio hd (h.trans hy), hneg]

/-! ## Reading back -/

theorem significand_lt (x : Double) : x.significand < 2 * binade := by
  have hpos : 0 < binade := by decide
  unfold significand
  split
  · omega
  · have := Nat.mod_lt x.bits hpos
    omega

theorem le_significand {x : Double} (h : binade ≤ x.bits) : binade ≤ x.significand := by
  rw [significand, if_neg (by omega)]
  exact Nat.le_add_right _ _

/-- The bits of a double, from the two parts of its value. -/
theorem bits_eq (x : Double) : (x.scale + 1074).toNat * binade + x.significand = x.bits := by
  have hpos : 0 < binade := by decide
  by_cases hsmall : x.bits < binade
  · have hquotient : x.bits / binade = 0 := Nat.div_eq_of_lt hsmall
    have hscale : (x.scale + 1074).toNat = 0 := by
      rw [scale, hquotient]
      rfl
    rw [hscale, significand, if_pos hsmall, Nat.zero_mul, Nat.zero_add]
  · have hquotient : 1 ≤ x.bits / binade := Nat.div_pos (by omega) hpos
    have hscale : (x.scale + 1074).toNat + 1 = x.bits / binade := by
      rw [scale]
      omega
    rw [significand, if_neg hsmall, ← Nat.add_assoc, ← Nat.succ_mul, Nat.succ_eq_add_one, hscale,
      Nat.mul_comm]
    exact Nat.div_add_mod x.bits binade

/-- The last bit of a double is worth `2 ^ scale`. -/
theorem lastBit_scale (x : Double) : LastBit (x.significand * 2 ^ x.scale) x.scale := by
  have htwo : (2 : ℚ) ≠ 0 := by norm_num
  have hpow : (0 : ℚ) < 2 ^ x.scale := by positivity
  refine ⟨?_, ?_, ?_⟩
  · rw [scale]
    omega
  · have hlt : (x.significand : ℚ) < 2 ^ (53 : Int) := by
      have hcast : (x.significand : ℚ) < (2 * binade : Nat) := by exact_mod_cast x.significand_lt
      refine hcast.trans_le (le_of_eq ?_)
      norm_num [binade]
    rw [zpow_add₀ htwo, mul_comm]
    exact mul_lt_mul_of_pos_left hlt hpow
  · by_cases hsmall : x.bits < binade
    · left
      rw [scale, Nat.div_eq_of_lt hsmall]
      rfl
    · right
      have hle : (2 : ℚ) ^ (52 : Int) ≤ x.significand := by
        have hcast : ((binade : Nat) : ℚ) ≤ x.significand := by
          exact_mod_cast le_significand (Nat.le_of_not_lt hsmall)
        refine le_trans (le_of_eq ?_) hcast
        norm_num [binade]
      rw [zpow_add₀ htwo, mul_comm]
      exact mul_le_mul_of_nonneg_right hle hpow.le

/-- A ratio that is the magnitude of a finite double is rounded to the double. -/
theorem ofRatio_eq_self {x : Double} (hx : x.isFinite = true) {n d : Nat} (hd : 0 < d)
    (h : (n : ℚ) / d = x.significand * 2 ^ x.scale) : ofRatio x.neg n d = x := by
  have hbits : (ofRatio x.neg n d).bits = x.bits := by
    by_cases hn : n = 0
    · have hsignificand : x.significand = 0 := by
        rw [hn, Nat.cast_zero, zero_div] at h
        have hpow : (2 : ℚ) ^ x.scale ≠ 0 := by positivity
        exact_mod_cast (mul_eq_zero.1 h.symm).resolve_right hpow
      have hzero : x.bits = 0 := by
        by_cases hsmall : x.bits < binade
        · rwa [significand, if_pos hsmall] at hsignificand
        · have := le_significand (Nat.le_of_not_lt hsmall)
          have : 0 < binade := by decide
          omega
      rw [hn, ofRatio_zero, hzero]
      rfl
    · have hlast : LastBit ((n : ℚ) / d) x.scale := h ▸ x.lastBit_scale
      have hround : roundHalfEven (rescale n d x.scale).1 (rescale n d x.scale).2 =
          x.significand := by
        have hone : roundHalfEven x.significand 1 = x.significand := by
          simp [roundHalfEven, Nat.mod_one]
        rw [← hone]
        refine roundHalfEven_congr (rescale_pos hd _) Nat.one_pos ?_
        rw [rescale_ratio, h, Nat.cast_one, div_one, mul_div_assoc, div_self (by positivity),
          mul_one]
      rw [ofRatio_of_lastBit hn hd hlast, hround, bits_eq]
      exact Nat.min_eq_left (of_decide_eq_true hx).le
  exact ext_bits (ofRatio_neg _ _ _) hbits

theorem magnitude_exact (x : Double) : x.exact.magnitude = x.significand * 2 ^ x.scale := by
  unfold exact
  split
  · rename_i k hk
    rw [Decimal.magnitude, hk, zpow_zero, mul_one, Int.ofNat_eq_natCast, zpow_natCast]
    exact_mod_cast rfl
  · rename_i k hk
    have hfive : (5 : ℚ) ^ (k + 1) ≠ 0 := by positivity
    have htwo : (2 : ℚ) ^ (k + 1) ≠ 0 := by positivity
    show ((x.significand * 5 ^ (k + 1) : Nat) : ℚ) * 10 ^ (-((k + 1 : Nat) : Int)) = _
    rw [hk, zpow_neg, zpow_natCast, zpow_negSucc, show (10 : ℚ) = 5 * 2 by norm_num, mul_pow,
      Nat.cast_mul, Nat.cast_pow, Nat.cast_ofNat]
    field_simp

theorem ofDecimal_exact {x : Double} (h : x.isFinite = true) : ofDecimal x.exact = x := by
  have hneg : x.exact.neg = x.neg := by
    unfold exact
    split
    · rfl
    · rfl
  obtain ⟨n, d, hd, hmag⟩ := exists_magnitude_eq x.exact
  rw [ofDecimal_eq_ofRatio hd hmag, hneg]
  exact ofRatio_eq_self h hd (hmag.symm.trans x.magnitude_exact)

/-- The shortest numeral of a finite double is read back as the double. -/
theorem ofDecimal_shortest {x : Double} (h : x.isFinite = true) : ofDecimal x.shortest = x := by
  unfold shortest
  dsimp only
  generalize hoffer : List.find? _ _ = offer
  cases offer with
  | none => exact ofDecimal_exact h
  | some c =>
    have hreads := List.find?_some hoffer
    exact of_decide_eq_true hreads

end Double

end Flowgraph
