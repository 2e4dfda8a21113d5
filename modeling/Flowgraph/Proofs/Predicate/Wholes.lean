import Flowgraph.Predicate.Evaluate
import Flowgraph.Proofs.Number.Nearest

/-!
# Comparing integers

Numbers are compared as doubles, and so two integers are compared as the integers with 53 significant
bits that are nearest to them (`holds_wholes`).  The order never goes the wrong way, but two integers
that are rounded to one are taken for equal:

    TakenExactly m n ↔ ∀ r, Nearest m.val r → Nearest n.val r → m.val = n.val   (takenExactly_iff)

That happens only beyond 53 bits, and only to integers that are at most 2048 apart.
-/

namespace Flowgraph

theorem Whole.natAbs_lt (n : Whole) : n.val.natAbs < 2 ^ 64 := by
  have hlower := n.lower
  have hupper := n.upper
  omega

/-- A whole number as a value. -/
abbrev Json.ofWhole (n : Whole) : Json := .num (.whole n)

namespace Predicate

open Json (ofWhole)

/-- What an operator says of two integers. -/
def Operator.relates : Operator → Int → Int → Bool
  | eq, i, j => i = j
  | ne, i, j => i ≠ j
  | gt, i, j => j < i
  | ge, i, j => j ≤ i
  | lt, i, j => i < j
  | le, i, j => i ≤ j

/-- What an operator says hangs on how the integers compare. -/
theorem Operator.relates_eq (op : Operator) (i j : Int) : op.relates i j = match op with
    | eq => compare i j == .eq
    | ne => compare i j != .eq
    | gt => compare i j == .gt
    | ge => compare i j != .lt
    | lt => compare i j == .lt
    | le => compare i j != .gt := by
  rcases lt_trichotomy i j with hlt | rfl | hgt
  · rw [compare_lt_iff_lt.2 hlt]
    cases op <;> simp [relates, hlt, hlt.le, hlt.ne]
  · rw [compare_eq_iff_eq.2 rfl]
    cases op <;> simp [relates]
  · rw [compare_gt_iff_gt.2 hgt]
    cases op <;> simp [relates, hgt, hgt.le, hgt.ne']

/-- Two whole numbers are compared as the integers that they are: by themselves, and in every
condition whose two operands have them as values. -/
structure TakenExactly (m n : Whole) : Prop where
  ordered : (ofWhole m).order (ofWhole n) = some (compare m.val n.val)
  equated : (ofWhole m).looselyEqual (ofWhole n) = true ↔ m.val = n.val
  conditions : ∀ (s : State) (expression : String) (op : Operator) (l r : List Char),
    splitComparison (Text.trim expression.toList) = some (l, op, r) →
    evaluateOperand s l = .ok (ofWhole m) → evaluateOperand s r = .ok (ofWhole n) →
    evaluateString s expression = .ok (op.relates m.val n.val)

/-- A comparison is its operator on the values of its operands. -/
theorem evaluateString_of_operands {s : State} {expression : String} {op : Operator}
    {l r : List Char} {a b : Json}
    (hsplit : splitComparison (Text.trim expression.toList) = some (l, op, r))
    (ha : evaluateOperand s l = .ok a) (hb : evaluateOperand s r = .ok b) :
    evaluateString s expression = op.holds a b := by
  have hne : Text.trim expression.toList ≠ [] := by
    intro hnil
    rw [hnil] at hsplit
    cases hsplit
  unfold evaluateString evaluate
  dsimp only
  rw [if_neg hne, hsplit]
  dsimp only
  rw [ha, hb]
  rfl

section

variable {m n : Whole} {r t : Int}

theorem order_wholes (hr : Nearest m.val r) (ht : Nearest n.val t) :
    (ofWhole m).order (ofWhole n) = some (compare r t) :=
  congrArg some (Double.order_ofInt m.natAbs_lt n.natAbs_lt hr ht)

/-- Structural equality adds nothing: what is the same is rounded to the same. -/
theorem looselyEqual_wholes (hr : Nearest m.val r) (ht : Nearest n.val t) :
    (ofWhole m).looselyEqual (ofWhole n) = decide (r = t) := by
  rw [Json.looselyEqual, order_wholes hr ht]
  show (m.val == n.val || some (compare r t) == some Ordering.eq) = decide (r = t)
  by_cases hrt : r = t
  · simp [hrt]
  · have hmn : m.val ≠ n.val := by
      intro hmn
      rw [hmn] at hr
      exact hrt (hr.unique ht)
    simp [hrt, hmn]

/-- An operator says of two whole numbers what it says of the integers that they are rounded to. -/
theorem holds_wholes (hr : Nearest m.val r) (ht : Nearest n.val t) (op : Operator) :
    op.holds (ofWhole m) (ofWhole n) = .ok (op.relates r t) := by
  unfold Operator.holds
  rw [order_wholes hr ht, looselyEqual_wholes hr ht]
  cases op with
  | eq => rfl
  | ne => exact congrArg Except.ok (decide_not.symm)
  | gt => rw [Operator.relates_eq]
  | ge => rw [Operator.relates_eq]
  | lt => rw [Operator.relates_eq]
  | le => rw [Operator.relates_eq]

/-- Integers that are not rounded to one are put in their order by what they are rounded to. -/
theorem compare_rounded (hr : Nearest m.val r) (ht : Nearest n.val t) (h : r = t → m.val = n.val) :
    compare r t = compare m.val n.val := by
  rcases lt_trichotomy m.val n.val with hlt | heq | hgt
  · have hle := Nearest.mono hlt.le hr ht
    rw [compare_lt_iff_lt.2 hlt]
    exact compare_lt_iff_lt.2 (by omega)
  · rw [heq] at hr
    rw [compare_eq_iff_eq.2 heq, compare_eq_iff_eq.2 (hr.unique ht)]
  · have hle := Nearest.mono hgt.le ht hr
    rw [compare_gt_iff_gt.2 hgt]
    exact compare_gt_iff_gt.2 (show t < r by omega)

end

theorem TakenExactly.of_rounded {m n : Whole}
    (h : ∀ r, Nearest m.val r → Nearest n.val r → m.val = n.val) : TakenExactly m n := by
  obtain ⟨r, -, hr⟩ := Double.exists_nearest m.natAbs_lt
  obtain ⟨t, -, ht⟩ := Double.exists_nearest n.natAbs_lt
  have happart : r = t → m.val = n.val := by
    rintro rfl
    exact h r hr ht
  have hcompare := compare_rounded hr ht happart
  refine ⟨?_, ?_, ?_⟩
  · rw [order_wholes hr ht, hcompare]
  · rw [looselyEqual_wholes hr ht, decide_eq_true_iff, ← compare_eq_iff_eq, hcompare,
      compare_eq_iff_eq]
  · intro s expression op left right hsplit hleft hright
    rw [evaluateString_of_operands hsplit hleft hright, holds_wholes hr ht,
      Operator.relates_eq, hcompare, ← Operator.relates_eq]

theorem TakenExactly.eq_of_nearest {m n : Whole} (h : TakenExactly m n) {r : Int}
    (hm : Nearest m.val r) (hn : Nearest n.val r) : m.val = n.val :=
  h.equated.1 (by rw [looselyEqual_wholes hm hn, decide_eq_true rfl])

/-- **Comparing integers.**  Two integers are compared as the integers that they are, by themselves and
in every condition, exactly if they are not rounded to one; otherwise they are taken for equal.  They are
compared so up to 53 bits, and beyond where they are more than 2048 apart. -/
theorem takenExactly_iff (m n : Whole) :
    (TakenExactly m n ↔ ∀ r, Nearest m.val r → Nearest n.val r → m.val = n.val) ∧
    (¬ TakenExactly m n → (ofWhole m).order (ofWhole n) = some .eq ∧
      (ofWhole m).looselyEqual (ofWhole n) = true) ∧
    (m.val.natAbs ≤ 2 ^ 53 → n.val.natAbs ≤ 2 ^ 53 → TakenExactly m n) ∧
    (2048 < (m.val - n.val).natAbs → TakenExactly m n) := by
  have hiff : TakenExactly m n ↔ ∀ r, Nearest m.val r → Nearest n.val r → m.val = n.val :=
    ⟨fun h _ => h.eq_of_nearest, .of_rounded⟩
  refine ⟨hiff, fun hnot => ?_, fun hm hn => hiff.2 fun r hr ht => ?_, fun hfar =>
    hiff.2 fun r hr ht => ?_⟩
  · rw [hiff] at hnot
    push Not at hnot
    obtain ⟨r, hr, ht, -⟩ := hnot
    rw [order_wholes hr ht, looselyEqual_wholes hr ht, compare_eq_iff_eq.2 rfl]
    exact ⟨rfl, decide_eq_true rfl⟩
  · rw [← hr.eq_self (spacing_dvd_self hm), ht.eq_self (spacing_dvd_self hn)]
  · have hmclose := hr.close.trans (spacing_le m.natAbs_lt)
    have hnclose := ht.close.trans (spacing_le n.natAbs_lt)
    omega

/-- The ends of the 53 bits, the greatest number and the next one that is never taken for it, and two
numbers next to each other beyond 53 bits. -/
theorem takenExactly_iff_edges :
    let first : Whole := { val := -9007199254740992 }
    let last : Whole := { val := 9007199254740992 }
    let top : Whole := { val := 18446744073709551615 }
    let below : Whole := { val := 18446744073709549566 }
    let next : Whole := { val := 9007199254740993 }
    first.val.natAbs ≤ 2 ^ 53 ∧ last.val.natAbs ≤ 2 ^ 53 ∧ TakenExactly first last ∧
      2048 < (top.val - below.val).natAbs ∧ TakenExactly top below ∧
      ¬ TakenExactly next last ∧ (ofWhole next).order (ofWhole last) = some .eq := by
  intro first last top below next
  have hbits := (takenExactly_iff first last).2.2.1 (by decide) (by decide)
  have hfar := (takenExactly_iff top below).2.2.2 (by decide)
  have hnot : ¬ TakenExactly next last := by
    intro h
    have hequal : next.val = last.val := h.equated.1 (by decide +kernel)
    cases hequal
  have htaken := (takenExactly_iff next last).2.1 hnot
  exact ⟨by decide, by decide, hbits, by decide, hfar, hnot, htaken.1⟩

/-- Two ids that differ in their last bit, beyond 53 bits, are taken for one. -/
theorem not_takenExactly_neighbours :
    let a : Whole := { val := 9007199254740993 }
    let b : Whole := { val := 9007199254740992 }
    let s := State.ofFields [("a", ofWhole a), ("b", ofWhole b)]
    b.val < a.val ∧ (ofWhole a).order (ofWhole b) = some .eq ∧
      (ofWhole a).looselyEqual (ofWhole b) = true ∧
      evaluateString s "a == b" = .ok true ∧ evaluateString s "a != b" = .ok false ∧
      evaluateString s "a > b" = .ok false ∧ evaluateString s "a <= b" = .ok true := by
  decide +kernel

end Predicate

end Flowgraph
