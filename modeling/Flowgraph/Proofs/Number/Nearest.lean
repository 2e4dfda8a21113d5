import Flowgraph.Proofs.Number.Rounding
import Mathlib.Data.Nat.Log
import Mathlib.Tactic.Ring

/-!
# Integers as doubles

Comparing doubles compares their values (`rank_le_rank_iff`).  The double of an integer within 64 bits
has an integer for its value: the nearest one with 53 significant bits, and of two that are as near the
one whose last bit is even (`Nearest`).

    i.natAbs < 2 ^ 64 → ∃ r, (ofInt i).value = r ∧ Nearest i r              (exists_nearest)
    i ≤ j → Nearest i r → Nearest j t → r ≤ t                               (Nearest.mono)
    Nearest i r → Nearest j t → (ofInt i).order (ofInt j) = compare r t     (order_ofInt)

So two integers are never put the wrong way round, but two that are rounded to one are equal.
-/

namespace Flowgraph

namespace Double

/-! ## Values -/

def magnitude (x : Double) : ℚ := x.significand * 2 ^ x.scale

/-- The value of a double; an infinity counts as the power of two that follows the finite ones. -/
def value (x : Double) : ℚ := if x.neg then -x.magnitude else x.magnitude

theorem magnitude_nonneg (x : Double) : 0 ≤ x.magnitude := by
  unfold magnitude
  positivity

/-- More bits, a larger magnitude: by the scale, and within one scale by the significand. -/
theorem magnitude_lt_of_bits_lt {x y : Double} (h : x.bits < y.bits) : x.magnitude < y.magnitude := by
  have hx := x.bits_eq
  have hy := y.bits_eq
  have hylt := y.significand_lt
  have hxleast := x.lastBit_scale.least
  rcases lt_trichotomy x.scale y.scale with hscale | hscale | hscale
  -- what has 53 bits at a smaller scale lies below all that has 53 bits at a larger one
  · have habove := y.lastBit_scale.above.resolve_left (by omega)
    exact x.lastBit_scale.below.trans_le
      ((zpow_le_zpow_right₀ (by norm_num) (by omega)).trans habove)
  · rw [hscale] at hx
    have hlt : (x.significand : ℚ) < y.significand := by exact_mod_cast (by omega)
    unfold magnitude
    rw [hscale]
    exact mul_lt_mul_of_pos_right hlt (by positivity)
  · have hyleast := y.lastBit_scale.least
    have hnormal : binade ≤ x.bits := by
      unfold binade at hx ⊢
      omega
    have hxle := le_significand hnormal
    unfold binade at hx hy hylt hxle
    omega

theorem magnitude_le_iff {x y : Double} : x.magnitude ≤ y.magnitude ↔ x.bits ≤ y.bits := by
  constructor
  · intro h
    by_contra hlt
    exact absurd (magnitude_lt_of_bits_lt (not_le.1 hlt)) (not_lt.2 h)
  · intro h
    rcases Nat.eq_or_lt_of_le h with heq | hlt
    · unfold magnitude significand scale
      rw [heq]
    · exact (magnitude_lt_of_bits_lt hlt).le

theorem magnitude_zero (neg : Bool) : (zero neg).magnitude = 0 := by
  have hsignificand : (zero neg).significand = 0 := rfl
  rw [magnitude, hsignificand, Nat.cast_zero, zero_mul]

theorem magnitude_eq_zero_iff {x : Double} : x.magnitude = 0 ↔ x.bits = 0 := by
  have hle := magnitude_le_iff (x := x) (y := zero false)
  rw [magnitude_zero] at hle
  have hbits : (zero false).bits = 0 := rfl
  rw [← Nat.le_zero, ← hbits, ← hle]
  exact ⟨le_of_eq, fun h => le_antisymm h x.magnitude_nonneg⟩

/-- Comparing doubles compares their values; the two zeros are equal. -/
theorem rank_le_rank_iff {x y : Double} : x.rank ≤ y.rank ↔ x.value ≤ y.value := by
  have hx := x.magnitude_nonneg
  have hy := y.magnitude_nonneg
  unfold rank value
  cases x.neg <;> cases y.neg
  · simp [magnitude_le_iff]
  · have hzero : x.magnitude ≤ -y.magnitude ↔ x.magnitude = 0 ∧ y.magnitude = 0 := by
      constructor
      · intro h
        constructor <;> linarith
      · rintro ⟨hx0, hy0⟩
        linarith
    simp only [Bool.false_eq_true, if_false, if_true, hzero, magnitude_eq_zero_iff]
    omega
  · simp only [Bool.false_eq_true, if_false, if_true]
    refine iff_of_true (by omega) (by linarith)
  · simp [magnitude_le_iff]

/-! ## The value of a rounded ratio -/

theorem roundHalfEven_cases (n d : Nat) :
    roundHalfEven n d = n / d ∨ roundHalfEven n d = n / d + 1 := by
  unfold roundHalfEven
  dsimp only
  split
  · exact .inr rfl
  · exact .inl rfl

/-- With 53 bits before the point a ratio fills the significand. -/
theorem binade_le_quotient {n d : Nat} (hd : 0 < d) {s : Int} (h : (2 : ℚ) ^ (s + 52) ≤ n / d) :
    binade ≤ (rescale n d s).1 / (rescale n d s).2 := by
  have hpos := rescale_pos (n := n) hd s
  have hposq : (0 : ℚ) < (rescale n d s).2 := by exact_mod_cast hpos
  have hbinade : ((binade : Nat) : ℚ) = 2 ^ (52 : Int) := by norm_num [binade]
  rw [Nat.le_div_iff_mul_le hpos, ← Nat.cast_le (α := ℚ), Nat.cast_mul, ← le_div_iff₀ hposq,
    rescale_ratio, hbinade, le_div_iff₀ (by positivity), ← zpow_add₀ (by norm_num), add_comm]
  exact h

/-- The magnitude that bits stand for, also where the significand runs over into the next binade. -/
theorem magnitude_of_bits {x : Double} {s : Int} {r : Nat} (hs : -1074 ≤ s) (hr : r ≤ 2 * binade)
    (hnormal : s = -1074 ∨ binade ≤ r) (hbits : x.bits = (s + 1074).toNat * binade + r) :
    x.magnitude = r * 2 ^ s := by
  have hsplit := x.bits_eq
  have hlt := x.significand_lt
  have hle := le_significand (x := x)
  have hleast := x.lastBit_scale.least
  have hscale : binade ≤ x.bits ∨ x.scale = -1074 := by
    rcases Nat.lt_or_ge x.bits binade with hsmall | hlarge
    · right
      rw [scale, Nat.div_eq_of_lt hsmall]
      rfl
    · exact .inl hlarge
  unfold binade at *
  unfold magnitude
  by_cases hover : r = 9007199254740992
  · have hnext : x.scale = s + 1 := by omega
    have hhalf : x.significand = 4503599627370496 := by omega
    rw [hover, hnext, hhalf, zpow_add₀ (by norm_num), zpow_one]
    norm_num
    ring
  · have hsame : x.scale = s := by omega
    have hequal : x.significand = r := by
      rw [hsame] at hsplit
      omega
    rw [hsame, hequal]

/-- The magnitude of a rounded ratio is the multiple of its last bit that it is rounded to. -/
theorem magnitude_ofRatio {n d : Nat} (hn : n ≠ 0) (hd : 0 < d) {s : Int}
    (hs : LastBit ((n : ℚ) / d) s) (hfinite : s ≤ 970) (neg : Bool) :
    (ofRatio neg n d).magnitude =
      roundHalfEven (rescale n d s).1 (rescale n d s).2 * 2 ^ s := by
  have hleast := hs.least
  have hbelow := (quotient_lt_iff hd s).2 hs.below
  have hround := roundHalfEven_cases (rescale n d s).1 (rescale n d s).2
  have hnormal : s = -1074 ∨ binade ≤ roundHalfEven (rescale n d s).1 (rescale n d s).2 := by
    rcases hs.above with hlow | habove
    · exact .inl hlow
    · have hfull := binade_le_quotient hd habove
      exact .inr (by omega)
  apply magnitude_of_bits hleast (by omega) hnormal
  rw [ofRatio_of_lastBit hn hd hs]
  apply Nat.min_eq_left
  unfold infinityBits binade at *
  omega

end Double

/-! ## The nearest integer with 53 bits -/

/-- Of the integers as large as `i`, those that are doubles are the multiples of this: they have 53
significant bits. -/
def spacing (i : Int) : Nat := 2 ^ (i.natAbs.log2 - 52)

/-- Of the integers that are doubles `r` is the nearest to `i`, and the even one of two as near. -/
structure Nearest (i r : Int) : Prop where
  multiple : (spacing i : Int) ∣ r
  close : 2 * (r - i).natAbs ≤ spacing i
  even : 2 * (r - i).natAbs = spacing i → 2 * (spacing i : Int) ∣ r

theorem spacing_pos (i : Int) : 0 < spacing i := Nat.pow_pos (by decide)

/-- Up to 53 bits an integer is a double. -/
theorem spacing_dvd_self {i : Int} (h : i.natAbs ≤ 2 ^ 53) : (spacing i : Int) ∣ i := by
  rcases Nat.eq_or_lt_of_le h with hlast | hlt
  · have htwo : spacing i = 2 := by
      rw [spacing, hlast, Nat.log2_two_pow]
      rfl
    rw [htwo]
    omega
  · have hone : spacing i = 1 := by
      by_cases hzero : i.natAbs = 0
      · rw [spacing, hzero]
        rfl
      · have hlog := (Nat.log2_lt hzero).2 hlt
        rw [spacing, Nat.sub_eq_zero_of_le (by omega), Nat.pow_zero]
    rw [hone]
    exact Int.one_dvd i

theorem spacing_le {i : Int} (h : i.natAbs < 2 ^ 64) : spacing i ≤ 2048 := by
  by_cases hzero : i.natAbs = 0
  · rw [spacing, hzero]
    decide
  · have hlog := (Nat.log2_lt hzero).2 h
    exact Nat.pow_le_pow_right (j := 11) (by decide) (by omega)

theorem spacing_neg (i : Int) : spacing (-i) = spacing i := by rw [spacing, Int.natAbs_neg, spacing]

namespace Nearest

variable {i j r t : Int}

theorem neg (h : Nearest i r) : Nearest (-i) (-r) := by
  have habs : (-r - -i).natAbs = (r - i).natAbs := by omega
  refine ⟨?_, ?_, ?_⟩
  · rw [spacing_neg]
    exact Int.dvd_neg.2 h.multiple
  · rw [spacing_neg, habs]
    exact h.close
  · rw [spacing_neg, habs]
    exact fun htie => Int.dvd_neg.2 (h.even htie)

/-- Rounding does not go past an integer that is a double. -/
theorem le_of_le (h : Nearest i r) {p : Int} (hp : (spacing i : Int) ∣ p) (hle : i ≤ p) : r ≤ p := by
  have hpos := spacing_pos i
  have hclose := h.close
  by_contra hlt
  have hstep : (spacing i : Int) ≤ r - p :=
    Int.le_of_dvd (by omega) (Int.dvd_sub h.multiple hp)
  omega

theorem ge_of_ge (h : Nearest i r) {p : Int} (hp : (spacing i : Int) ∣ p) (hle : p ≤ i) : p ≤ r := by
  have hneg := h.neg.le_of_le (p := -p) (by rwa [spacing_neg, Int.dvd_neg]) (by omega)
  omega

/-- An integer that is a double is not rounded. -/
theorem eq_self (h : Nearest i r) (hi : (spacing i : Int) ∣ i) : r = i :=
  le_antisymm (h.le_of_le hi le_rfl) (h.ge_of_ge hi le_rfl)

/-- At one spacing two roundings meet at most: to change places, one integer would have to lie halfway
and be rounded both ways. -/
theorem le_of_spacing_eq (h : i ≤ j) (hr : Nearest i r) (ht : Nearest j t)
    (hspacing : spacing i = spacing j) : r ≤ t := by
  have hpos := spacing_pos i
  have hrclose := hr.close
  have htclose := ht.close
  have htmultiple := ht.multiple
  rw [← hspacing] at htclose htmultiple
  by_contra hlt
  have hstep : (spacing i : Int) ≤ r - t :=
    Int.le_of_dvd (by omega) (Int.dvd_sub hr.multiple htmultiple)
  -- only two ties leave room for a whole step, and then both have gone to the even multiple
  have hreven := hr.even (by omega)
  have hteven := ht.even (by omega)
  rw [← hspacing] at hteven
  have htwo : 2 * (spacing i : Int) ≤ r - t :=
    Int.le_of_dvd (by omega) (Int.dvd_sub hreven hteven)
  omega

/-- At two spacings a power of two stands between the integers, and neither is rounded past it. -/
theorem le_of_log2_lt (hi : 0 ≤ i) (hr : Nearest i r) (ht : Nearest j t)
    (hlog : i.natAbs.log2 < j.natAbs.log2) (hj : 0 ≤ j) : r ≤ t := by
  have hne : j.natAbs ≠ 0 := by
    intro hzero
    rw [hzero] at hlog
    simp at hlog
  have hmultiple : ∀ e, e ≤ j.natAbs.log2 → ((2 ^ e : Nat) : Int) ∣ ((2 ^ j.natAbs.log2 : Nat) : Int) :=
    fun e he => Int.natCast_dvd_natCast.2 (pow_dvd_pow 2 he)
  have hlow : i.natAbs < 2 ^ j.natAbs.log2 :=
    Nat.lt_log2_self.trans_le (Nat.pow_le_pow_right (by decide) hlog)
  have hhigh : 2 ^ j.natAbs.log2 ≤ j.natAbs := Nat.log2_self_le hne
  have hrle := hr.le_of_le (hmultiple _ (by omega)) (by omega)
  have htge := ht.ge_of_ge (hmultiple _ (by omega)) (by omega)
  exact hrle.trans htge

theorem mono_of_nonneg (hi : 0 ≤ i) (h : i ≤ j) (hr : Nearest i r) (ht : Nearest j t) : r ≤ t := by
  have hlog : i.natAbs.log2 ≤ j.natAbs.log2 := by
    rw [Nat.log2_eq_log_two, Nat.log2_eq_log_two]
    exact Nat.log_mono_right (by omega)
  rcases Nat.eq_or_lt_of_le hlog with heq | hlt
  · exact le_of_spacing_eq h hr ht (by rw [spacing, heq, spacing])
  · exact le_of_log2_lt hi hr ht hlt (by omega)

/-- Rounding keeps the order of integers. -/
theorem mono (h : i ≤ j) (hr : Nearest i r) (ht : Nearest j t) : r ≤ t := by
  by_cases hi : 0 ≤ i
  · exact mono_of_nonneg hi h hr ht
  by_cases hj : 0 ≤ j
  · exact (hr.le_of_le (dvd_zero _) (by omega)).trans (ht.ge_of_ge (dvd_zero _) hj)
  · have hneg := mono_of_nonneg (by omega) (Int.neg_le_neg h) ht.neg hr.neg
    omega

theorem unique (hr : Nearest i r) (ht : Nearest i t) : r = t :=
  le_antisymm (mono le_rfl hr ht) (mono le_rfl ht hr)

end Nearest

namespace Double

theorem roundHalfEven_one (n : Nat) : roundHalfEven n 1 = n := by simp [roundHalfEven, Nat.mod_one]

/-- A quotient is rounded to the nearest natural, and to the even one of two. -/
theorem roundHalfEven_near (n : Nat) {d : Nat} (hd : 0 < d) :
    2 * n ≤ 2 * (d * roundHalfEven n d) + d ∧ 2 * (d * roundHalfEven n d) ≤ 2 * n + d ∧
      (2 * n = 2 * (d * roundHalfEven n d) + d ∨ 2 * (d * roundHalfEven n d) = 2 * n + d →
        2 ∣ roundHalfEven n d) := by
  have hdivision := Nat.div_add_mod n d
  have hrest := Nat.mod_lt n hd
  unfold roundHalfEven
  dsimp only
  split
  · rw [Nat.mul_add_one]
    omega
  · omega

theorem nearest_roundHalfEven (k : Nat) :
    Nearest k (spacing k * roundHalfEven k (spacing k) : Nat) := by
  have hpos := spacing_pos k
  obtain ⟨hlow, hhigh, heven⟩ := roundHalfEven_near k hpos
  refine ⟨Int.natCast_dvd_natCast.2 (Nat.dvd_mul_right _ _), by omega, fun htie => ?_⟩
  have hdvd : 2 * spacing k ∣ spacing k * roundHalfEven k (spacing k) := by
    rw [Nat.mul_comm 2]
    exact Nat.mul_dvd_mul_left _ (heven (by omega))
  exact_mod_cast hdvd

theorem lastBit_natural {k : Nat} (hk : k ≠ 0) : LastBit ((k : ℚ) / (1 : Nat)) (k.log2 - 52) := by
  rw [Nat.cast_one, div_one]
  refine ⟨by omega, ?_, .inr ?_⟩
  · rw [show (k.log2 - 52 + 53 : Int) = ((k.log2 + 1 : Nat) : Int) by omega, zpow_natCast]
    exact_mod_cast Nat.lt_log2_self
  · rw [show (k.log2 - 52 + 52 : Int) = (k.log2 : Int) by omega, zpow_natCast]
    exact_mod_cast Nat.log2_self_le hk

/-- The double of a natural is the nearest one; up to 53 bits that is the natural itself. -/
theorem magnitude_ofNatural {k : Nat} (hk : k ≠ 0) (hlt : k < 2 ^ 64) (neg : Bool) :
    (ofRatio neg k 1).magnitude = (spacing k * roundHalfEven k (spacing k) : Nat) := by
  have hlog : k.log2 < 64 := (Nat.log2_lt hk).2 hlt
  rw [magnitude_ofRatio hk Nat.one_pos (lastBit_natural hk) (by omega), Nat.cast_mul, mul_comm]
  rcases Nat.lt_or_ge k.log2 52 with hsmall | hlarge
  · have hone : spacing k = 1 := by
      rw [spacing, Int.natAbs_natCast, Nat.sub_eq_zero_of_le hsmall.le, Nat.pow_zero]
    obtain ⟨e, he⟩ : ∃ e : Nat, ((k.log2 : Int) - 52) = .negSucc e :=
      Int.eq_negSucc_of_lt_zero (by omega)
    have hscaled : rescale k 1 (.negSucc e) = (k * 2 ^ (e + 1), 1) := rfl
    rw [he, hscaled, hone, roundHalfEven_one, roundHalfEven_one, zpow_negSucc]
    push_cast
    field_simp
  · obtain ⟨e, he⟩ := Nat.exists_eq_add_of_le hlarge
    have hspacing : spacing k = 2 ^ e := by
      rw [spacing, Int.natAbs_natCast, he, Nat.add_sub_cancel_left]
    have hscale : ((k.log2 : Int) - 52) = (e : Int) := by omega
    have hscaled : rescale k 1 (e : Int) = (k, 1 * 2 ^ e) := rfl
    rw [hscale, hscaled, hspacing, Nat.one_mul, zpow_natCast, Nat.cast_pow, Nat.cast_ofNat]

/-- The double of an integer within 64 bits has the value of the nearest integer with 53 bits. -/
theorem exists_nearest {i : Int} (hi : i.natAbs < 2 ^ 64) :
    ∃ r : Int, (ofInt i).value = r ∧ Nearest i r := by
  by_cases hzero : i = 0
  · have hvalue : (ofInt 0).value = 0 := magnitude_zero false
    subst hzero
    exact ⟨0, by rw [hvalue, Int.cast_zero], dvd_zero _, Nat.zero_le _, fun _ => dvd_zero _⟩
  have hmagnitude := magnitude_ofNatural (k := i.natAbs) (by omega) hi (decide (i < 0))
  have hnearest := nearest_roundHalfEven i.natAbs
  generalize spacing i.natAbs * roundHalfEven i.natAbs (spacing i.natAbs) = q at hmagnitude hnearest
  have hvalue : (ofInt i).value = if decide (i < 0) then -(q : ℚ) else q := by
    rw [← hmagnitude]
    exact congrArg (fun b : Bool => if b then _ else _) (ofRatio_neg _ _ _)
  rw [hvalue]
  by_cases hsign : i < 0
  · have hopposite := hnearest.neg
    rw [show -(i.natAbs : Int) = i by omega] at hopposite
    refine ⟨-q, ?_, hopposite⟩
    rw [if_pos (decide_eq_true hsign), Int.cast_neg, Int.cast_natCast]
  · rw [show (i.natAbs : Int) = i by omega] at hnearest
    refine ⟨q, ?_, hnearest⟩
    rw [if_neg (by simpa using hsign), Int.cast_natCast]

theorem value_ofInt {i r : Int} (hi : i.natAbs < 2 ^ 64) (hr : Nearest i r) : (ofInt i).value = r := by
  obtain ⟨t, hvalue, ht⟩ := exists_nearest hi
  rw [hvalue, hr.unique ht]

/-- Comparing the doubles of two integers compares the integers that they are rounded to. -/
theorem order_ofInt {i j r t : Int} (hi : i.natAbs < 2 ^ 64) (hj : j.natAbs < 2 ^ 64)
    (hr : Nearest i r) (ht : Nearest j t) : (ofInt i).order (ofInt j) = compare r t := by
  have hle : (ofInt i).rank ≤ (ofInt j).rank ↔ r ≤ t := by
    rw [rank_le_rank_iff, value_ofInt hi hr, value_ofInt hj ht, Int.cast_le]
  have hge : (ofInt j).rank ≤ (ofInt i).rank ↔ t ≤ r := by
    rw [rank_le_rank_iff, value_ofInt hi hr, value_ofInt hj ht, Int.cast_le]
  unfold order
  rcases lt_trichotomy r t with hlt | heq | hgt
  · rw [compare_lt_iff_lt.2 hlt]
    exact compare_lt_iff_lt.2 (by omega)
  · rw [compare_eq_iff_eq.2 heq]
    exact compare_eq_iff_eq.2 (by omega)
  · rw [compare_gt_iff_gt.2 hgt]
    exact compare_gt_iff_gt.2 (show (ofInt j).rank < (ofInt i).rank by omega)

end Double

end Flowgraph
