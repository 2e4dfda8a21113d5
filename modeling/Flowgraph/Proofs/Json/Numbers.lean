import Flowgraph.Json.Reader
import Flowgraph.Proofs.Number.Scaled

/-!
# Numbers that are written and read

The text of a number is read whatever stands after it, as long as the numeral does not run on.  A
whole number is spelled in its digits and read back as itself.  A double is spelled by the digits
of its shortest numeral in one of four layouts (`spellsReal_layout`), and what is read is the
double that this numeral comes to in steps (`Double.reread`)

    EndsNumeral rest → readNumber (n.text ++ rest) = some (n.reread, rest)      (readNumber_text)
-/

namespace Flowgraph

open Decimal (AllDigits NoDigitNext valueOf digitsOf)

/-- What the text of a number is read as. -/
def Number.reread : Number → Number
  | .whole n => .whole n
  | .real x finite => .real x.reread (Double.isFinite_reread finite)

namespace Json

/-- Text that no numeral runs on into. -/
def EndsNumeral (rest : List Char) : Prop :=
  ∀ c ∈ rest.head?, c.isDigit = false ∧ c ≠ '.' ∧ c ≠ 'e' ∧ c ≠ 'E'

theorem EndsNumeral.noDigitNext {rest : List Char} (h : EndsNumeral rest) : NoDigitNext rest :=
  fun c hc => (h c hc).1

/-! ## Parts of a numeral -/

theorem readWhole_digits {ds rest : List Char} (hds : AllDigits ds) (hne : ds ≠ [])
    (hhead : ds.head? ≠ some '0' ∨ ds.length = 1) (hrest : NoDigitNext rest) :
    readWhole (ds ++ rest) = some (ds, rest) := by
  obtain ⟨d, ds, rfl⟩ := List.exists_cons_of_ne_nil hne
  rw [readWhole, Decimal.spanDigits_digits hds hrest]
  dsimp only
  rw [if_neg]
  rintro ⟨hzero, hlength⟩
  exact hhead.elim (fun h => h hzero) hlength

theorem readWhole_zero {rest : List Char} (hrest : NoDigitNext rest) :
    readWhole ('0' :: rest) = some (['0'], rest) :=
  readWhole_digits (Decimal.allDigits_zeros 1) (List.cons_ne_nil _ _) (.inr rfl) hrest

theorem readFraction_none {rest : List Char} (h : rest.head? ≠ some '.') :
    readFraction rest = some (none, rest) := by
  unfold readFraction
  split
  · exact absurd rfl h
  · rfl

theorem readFraction_digits {ds rest : List Char} (hds : AllDigits ds) (hne : ds ≠ [])
    (hrest : NoDigitNext rest) : readFraction ('.' :: (ds ++ rest)) = some (some ds, rest) := by
  obtain ⟨d, ds, rfl⟩ := List.exists_cons_of_ne_nil hne
  rw [readFraction, Decimal.spanDigits_digits hds hrest]

theorem readExponent_none {rest : List Char} (h : EndsNumeral rest) :
    Decimal.readExponent rest = some (0, rest) ∧ opensExponent rest = false := by
  cases rest with
  | nil => exact ⟨rfl, rfl⟩
  | cons c cs =>
    obtain ⟨-, -, he, hE⟩ := h c rfl
    refine ⟨if_neg (by simp [he, hE]), ?_⟩
    simp [opensExponent, he, hE]

theorem readFraction_zero {rest : List Char} (hrest : NoDigitNext rest) :
    readFraction ('.' :: '0' :: rest) = some (some ['0'], rest) :=
  readFraction_digits (Decimal.allDigits_zeros 1) (List.cons_ne_nil _ _) hrest

/-- An exponent as layouts spell it. -/
def exponentText (e : Int) : List Char :=
  (if e < 0 then ['e', '-'] else ['e', '+']) ++ digitsOf e.natAbs

theorem readExponent_exponentText {rest : List Char} (e : Int) (h : NoDigitNext rest) :
    Decimal.readExponent (exponentText e ++ rest) = some (e, rest) := by
  have hspan := Decimal.spanDigits_digits (Decimal.allDigits_digitsOf e.natAbs) h
  obtain ⟨d, ds, hds⟩ := List.exists_cons_of_ne_nil (Decimal.digitsOf_ne_nil e.natAbs)
  have hvalue : valueOf (d :: ds) = e.natAbs := hds ▸ Decimal.valueOf_digitsOf e.natAbs
  rw [hds] at hspan
  rw [exponentText, hds]
  by_cases he : e < 0
  · rw [if_pos he]
    simp only [List.cons_append, List.nil_append, Decimal.readExponent, true_or, if_true]
    rw [← List.cons_append, hspan]
    dsimp only
    rw [hvalue, show -(e.natAbs : Int) = e by omega]
  · rw [if_neg he]
    simp only [List.cons_append, List.nil_append, Decimal.readExponent, true_or, if_true]
    rw [← List.cons_append, hspan]
    dsimp only
    rw [hvalue]
    simp only [Bool.false_eq_true, if_false]
    rw [show (e.natAbs : Int) = e by omega]

/-- A numeral after its sign. -/
def readUnsigned (neg : Bool) (cs : List Char) : Option (Number × List Char) :=
  (readWhole cs).bind fun r => (readFraction r.2).bind fun s =>
    (Decimal.readExponent s.2).bind fun t =>
      (numberOf neg r.1 s.1 (opensExponent s.2) t.1).bind fun n => some (n, t.2)

theorem readNumber_minus (cs : List Char) : readNumber ('-' :: cs) = readUnsigned true cs := rfl

theorem readNumber_of_ne {c : Char} (hc : c ≠ '-') (cs : List Char) :
    readNumber (c :: cs) = readUnsigned false (c :: cs) := by
  unfold readNumber
  split
  rename_i neg cs' hsign
  split at hsign
  · rename_i heq
    exact absurd (List.cons.inj heq).1 hc
  · cases hsign
    rfl

/-- A numeral is read part by part. -/
theorem readNumber_parts {neg : Bool} {body cs cs' rest before : List Char}
    {after : Option (List Char)} {exponent : Int} (hbefore : readWhole body = some (before, cs))
    (hafter : readFraction cs = some (after, cs'))
    (hexponent : Decimal.readExponent cs' = some (exponent, rest)) :
    readNumber ((if neg then ['-'] else []) ++ body) =
      (numberOf neg before after (opensExponent cs') exponent).map (·, rest) := by
  have hsign : readNumber ((if neg then ['-'] else []) ++ body) = readUnsigned neg body := by
    cases neg with
    | true => exact readNumber_minus body
    | false =>
      cases body with
      | nil => exact absurd hbefore nofun
      | cons c body =>
        refine readNumber_of_ne ?_ body
        -- what is read as a whole part opens with no sign of its own
        rintro rfl
        exact absurd hbefore nofun
  rw [hsign, readUnsigned, hbefore, Option.bind_some, hafter, Option.bind_some, hexponent,
    Option.bind_some]
  exact Option.map_eq_bind.symm

/-! ## Whole numbers -/

theorem numberOf_whole (n : Whole) :
    numberOf (n.val < 0) (digitsOf n.val.natAbs) none false 0 = some (.whole n) := by
  have hplain : (none : Option (List Char)) = none ∧ false = false ∧
      ¬ (decide (n.val < 0) = true ∧ valueOf (digitsOf n.val.natAbs) = 0) := by
    refine ⟨rfl, rfl, ?_⟩
    rintro ⟨hneg, hzero⟩
    rw [Decimal.valueOf_digitsOf] at hzero
    have := of_decide_eq_true hneg
    omega
  have hvalue : (if decide (n.val < 0) = true then -(valueOf (digitsOf n.val.natAbs) : Int)
      else valueOf (digitsOf n.val.natAbs)) = n.val := by
    rw [Decimal.valueOf_digitsOf]
    by_cases hneg : n.val < 0
    · rw [if_pos (decide_eq_true hneg)]
      omega
    · rw [if_neg (by simpa using hneg)]
      omega
  have hword : Whole.ofInt? n.val = some n := dif_pos ⟨n.lower, n.upper⟩
  unfold numberOf
  dsimp only
  rw [if_pos hplain, hvalue, hword]

/-! ## Doubles -/

theorem numberOf_real {neg mark : Bool} {before : List Char} {after : Option (List Char)}
    {exponent : Int} {x : Double} (hx : x.isFinite = true) (hpoint : after ≠ none ∨ mark = true)
    (h : Double.scaled (.ofLeading neg before (after.getD []) exponent) = x) :
    numberOf neg before after mark exponent = some (.real x hx) := by
  have hplain : ¬ (after = none ∧ mark = false ∧ ¬ (neg = true ∧ valueOf before = 0)) := by
    rintro ⟨hafter, hmark, -⟩
    rcases hpoint with h | h
    · exact h hafter
    · rw [hmark] at h
      cases h
  unfold numberOf
  dsimp only
  rw [if_neg hplain]
  dsimp only
  subst h
  exact dif_pos hx

/-- A text opens with an unsigned numeral with a point or an exponent, which has the digits and the
exponent of `y`, and the rest follows it. -/
def SpellsReal (cs : List Char) (y : Decimal) (rest : List Char) : Prop :=
  ∃ before after exponent cs' cs'', readWhole cs = some (before, cs') ∧
    readFraction cs' = some (after, cs'') ∧ Decimal.readExponent cs'' = some (exponent, rest) ∧
    (after ≠ none ∨ opensExponent cs'' = true) ∧
    Decimal.ofParts y.neg before (after.getD []) exponent = y

theorem SpellsReal.readNumber {cs rest : List Char} {y : Decimal} (h : SpellsReal cs y rest)
    (hdigits : y.digits < UInt64.size) (hfinite : (Double.scaled y).isFinite = true) :
    readNumber ((if y.neg then ['-'] else []) ++ cs) =
      some (.real (Double.scaled y) hfinite, rest) := by
  obtain ⟨before, after, exponent, cs', cs'', hbefore, hafter, hexponent, hpoint, hy⟩ := h
  have hleading : Decimal.ofLeading y.neg before (after.getD []) exponent = y :=
    (Decimal.ofLeading_eq (hy ▸ hdigits)).trans hy
  rw [readNumber_parts hbefore hafter hexponent,
    numberOf_real hfinite hpoint (congrArg Double.scaled hleading)]
  rfl

section Layouts

variable {d : Char} {ds rest : List Char} {e : Int}

/-- The numeral of digits around a point. -/
theorem ofParts_eq_ofDigits {before after : List Char} {exponent : Int} (neg : Bool)
    (hdigits : before ++ after = ds) (hexponent : exponent - after.length = e + 1 - ds.length) :
    Decimal.ofParts neg before after exponent = Decimal.ofDigits neg ds e := by
  rw [Decimal.ofParts, hdigits, hexponent]
  rfl

/-- With an exponent: the first digit, a point if there are more, and the exponent. -/
theorem spellsReal_scientific (neg : Bool) (hds : AllDigits (d :: ds)) (hrest : EndsNumeral rest) :
    SpellsReal (d :: ((if ds = [] then [] else '.' :: ds) ++ (exponentText e ++ rest)))
      (Decimal.ofDigits neg (d :: ds) e) rest := by
  have hd : AllDigits [d] := fun c hc => hds c (List.mem_cons.2 (.inl (List.mem_singleton.1 hc)))
  have htail : AllDigits ds := fun c hc => hds c (List.mem_cons_of_mem _ hc)
  have hmark : ∃ c, exponentText e ++ rest = 'e' :: c := by
    rw [exponentText]
    split
    · exact ⟨_, rfl⟩
    · exact ⟨_, rfl⟩
  obtain ⟨c, hc⟩ := hmark
  have hstop : NoDigitNext (exponentText e ++ rest) := by
    rw [hc]
    exact Decimal.noDigitNext_cons rfl c
  have hexponent := readExponent_exponentText e hrest.noDigitNext
  have hopens : opensExponent (exponentText e ++ rest) = true := by
    rw [hc]
    rfl
  by_cases hone : ds = []
  · have hpoint : (exponentText e ++ rest).head? ≠ some '.' := by simp [hc]
    rw [if_pos hone, List.nil_append]
    refine ⟨[d], none, e, _, _, readWhole_digits hd (List.cons_ne_nil _ _) (.inr rfl) hstop,
      readFraction_none hpoint, hexponent, .inr hopens, ?_⟩
    refine ofParts_eq_ofDigits _ (by rw [hone]; rfl) ?_
    rw [hone]
    simp
  · rw [if_neg hone]
    refine ⟨[d], some ds, e, '.' :: (ds ++ (exponentText e ++ rest)), _,
      readWhole_digits hd (List.cons_ne_nil _ _) (.inr rfl) (Decimal.noDigitNext_cons rfl _),
      readFraction_digits htail hone hstop, hexponent, .inl nofun, ?_⟩
    refine ofParts_eq_ofDigits _ rfl ?_
    rw [Option.getD_some, List.length_cons]
    omega

/-- Below 1: the digits behind a point and zeros. -/
theorem spellsReal_small (neg : Bool) (hds : AllDigits ds) (hne : ds ≠ []) (he : e < 0)
    (hrest : EndsNumeral rest) :
    SpellsReal ('0' :: '.' :: (List.replicate (e.natAbs - 1) '0' ++ ds ++ rest))
      (Decimal.ofDigits neg ds e) rest := by
  obtain ⟨hexponent, -⟩ := readExponent_none hrest
  have hzeros := (Decimal.allDigits_zeros (e.natAbs - 1)).append hds
  have hvalue : valueOf (['0'] ++ (List.replicate (e.natAbs - 1) '0' ++ ds)) = valueOf ds := by
    rw [← List.append_assoc, show ['0'] ++ List.replicate (e.natAbs - 1) '0' =
      List.replicate (e.natAbs - 1 + 1) '0' from rfl, Decimal.valueOf_zeros_append]
  refine ⟨['0'], some (List.replicate (e.natAbs - 1) '0' ++ ds), 0, _, rest,
    readWhole_zero (Decimal.noDigitNext_cons rfl _), readFraction_digits hzeros (by simp [hne])
      hrest.noDigitNext, hexponent, .inl nofun, ?_⟩
  rw [Option.getD_some, Decimal.ofParts, hvalue, List.length_append, List.length_replicate,
    show (0 : Int) - ((e.natAbs - 1 + ds.length : Nat) : Int) = e + 1 - ds.length by omega]
  rfl

/-- A whole number: the digits, zeros up to the point, and a zero behind it. -/
theorem spellsReal_whole (neg : Bool) (hds : AllDigits ds) (hne : ds ≠ [])
    (hhead : ds.head? ≠ some '0') (he : 0 ≤ e) (hlength : ds.length ≤ e.natAbs + 1)
    (hrest : EndsNumeral rest) :
    SpellsReal (ds ++ List.replicate (e.natAbs + 1 - ds.length) '0' ++ '.' :: '0' :: rest)
      (Decimal.ofDigits neg (ds ++ List.replicate (e.natAbs + 2 - ds.length) '0') e) rest := by
  obtain ⟨hexponent, -⟩ := readExponent_none hrest
  obtain ⟨d, tail, rfl⟩ := List.exists_cons_of_ne_nil hne
  refine ⟨_, some ['0'], 0, _, rest, readWhole_digits (hds.append (Decimal.allDigits_zeros _))
    (by simp) (.inl hhead) (Decimal.noDigitNext_cons rfl _), readFraction_zero hrest.noDigitNext,
    hexponent, .inl nofun, ?_⟩
  have hzeros : e.natAbs + 2 - (d :: tail).length = e.natAbs + 1 - (d :: tail).length + 1 := by omega
  refine ofParts_eq_ofDigits _ ?_ ?_
  · rw [hzeros, List.append_assoc, Option.getD_some, List.replicate_succ']
  · rw [List.length_append, List.length_replicate, Option.getD_some, List.length_singleton]
    omega

/-- Otherwise a point stands among the digits. -/
theorem spellsReal_split (neg : Bool) (hds : AllDigits ds) (hhead : ds.head? ≠ some '0')
    (he : 0 ≤ e) (hlength : e.natAbs + 1 < ds.length) (hrest : EndsNumeral rest) :
    SpellsReal (ds.take (e.natAbs + 1) ++ '.' :: (ds.drop (e.natAbs + 1) ++ rest))
      (Decimal.ofDigits neg ds e) rest := by
  obtain ⟨hexponent, -⟩ := readExponent_none hrest
  have htake : AllDigits (ds.take (e.natAbs + 1)) := fun c hc => hds c (List.mem_of_mem_take hc)
  have hdrop : AllDigits (ds.drop (e.natAbs + 1)) := fun c hc => hds c (List.mem_of_mem_drop hc)
  refine ⟨_, some (ds.drop (e.natAbs + 1)), 0, _, rest, readWhole_digits htake ?_ (.inl ?_)
    (Decimal.noDigitNext_cons rfl _), readFraction_digits hdrop ?_ hrest.noDigitNext, hexponent, .inl nofun, ?_⟩
  · exact List.ne_nil_of_length_pos (by rw [List.length_take]; omega)
  · rwa [List.head?_take, if_neg (by omega)]
  · exact List.ne_nil_of_length_pos (by rw [List.length_drop]; omega)
  · refine ofParts_eq_ofDigits _ ?_ ?_
    · exact List.take_append_drop _ _
    · rw [Option.getD_some, List.length_drop]
      omega

end Layouts

/-- Every layout of a row of digits spells the numeral that it lays out. -/
theorem spellsReal_layout {ds rest : List Char} {e : Int} (neg : Bool) (hds : AllDigits ds)
    (hne : ds ≠ []) (hhead : ds.head? ≠ some '0') (hrest : EndsNumeral rest) :
    SpellsReal (Double.layout ds e ++ rest) (.laidOut neg ds e) rest := by
  unfold Double.layout Decimal.laidOut
  split
  · rename_i he
    have hwhole : ¬ (0 ≤ e ∧ e < 16 ∧ ds.length ≤ e.natAbs + 1) := by omega
    rw [if_neg hwhole]
    obtain ⟨d, tail, rfl⟩ := List.exists_cons_of_ne_nil hne
    have htext : ∀ mark : List Char, List.take 1 (d :: tail) ++
        (if List.drop 1 (d :: tail) = [] then [] else '.' :: List.drop 1 (d :: tail)) ++ mark ++
          digitsOf e.natAbs ++ rest =
        d :: ((if tail = [] then [] else '.' :: tail) ++ ((mark ++ digitsOf e.natAbs) ++ rest)) := by
      intro mark
      simp only [List.take_succ_cons, List.take_zero, List.drop_succ_cons, List.drop_zero,
        List.append_assoc, List.cons_append, List.nil_append]
    dsimp only
    rw [htext]
    exact spellsReal_scientific neg hds hrest
  rename_i hplain
  split
  · rename_i he
    rw [if_neg (by omega)]
    exact spellsReal_small neg hds hne he hrest
  rename_i he
  dsimp only
  split
  · rename_i hlength
    rw [if_pos (by omega)]
    have htext := spellsReal_whole neg hds hne hhead (Int.not_lt.1 he) hlength hrest
    rwa [List.append_assoc]
  · rename_i hlength
    rw [if_neg (by omega)]
    have htext := spellsReal_split neg hds hhead (Int.not_lt.1 he) (by omega) hrest
    rwa [List.append_assoc]

/-! ## Numbers -/

/-- The text of a finite double spells its numeral, after the sign. -/
theorem spellsReal_text {x : Double} (hx : x.isFinite = true) {rest : List Char}
    (hrest : EndsNumeral rest) :
    ∃ body, x.text = (if x.neg then ['-'] else []) ++ body ∧
      SpellsReal (body ++ rest) x.spelled rest := by
  unfold Double.text Double.spelled
  dsimp only
  split
  · exact ⟨_, rfl, ['0'], some ['0'], 0, _, rest, readWhole_zero (Decimal.noDigitNext_cons rfl _),
      readFraction_zero hrest.noDigitNext, (readExponent_none hrest).1, .inl nofun, rfl⟩
  · rename_i hzero
    have hpos : 0 < x.shortest.digits := by
      refine Nat.pos_of_ne_zero fun hdigits => hzero ?_
      rw [← Double.ofDecimal_shortest hx, Double.ofDecimal, if_pos hdigits]
      rfl
    obtain ⟨hne, hhead⟩ := Double.head?_dropTrailingZeros (Decimal.digitsOf_ne_nil _)
      (Decimal.head?_digitsOf hpos)
    have hdigits : AllDigits x.shortestDigits := by
      obtain ⟨k, hk⟩ := Double.dropTrailingZeros_append (digitsOf x.shortest.digits)
      intro c hc
      refine Decimal.allDigits_digitsOf x.shortest.digits c ?_
      rw [hk]
      exact List.mem_append_left _ hc
    exact ⟨_, rfl, spellsReal_layout x.neg hdigits hne (hhead ▸ Decimal.head?_digitsOf hpos) hrest⟩

/-- The text of a finite double is read as what its numeral comes to. -/
theorem readNumber_double {x : Double} (hx : x.isFinite = true) {rest : List Char}
    (hrest : EndsNumeral rest) :
    readNumber (x.text ++ rest) = some (.real x.reread (Double.isFinite_reread hx), rest) := by
  obtain ⟨body, htext, hspells⟩ := spellsReal_text hx hrest
  have hdigits : x.spelled.digits < UInt64.size :=
    (Double.spelled_digits_le hx).trans_lt (by decide)
  rw [htext, List.append_assoc, ← x.spelled_neg]
  exact hspells.readNumber hdigits (Double.isFinite_reread hx)

/-- The text of a number is read, up to its end. -/
theorem readNumber_text (n : Number) {rest : List Char} (hrest : EndsNumeral rest) :
    readNumber (n.text ++ rest) = some (n.reread, rest) := by
  cases n with
  | real x hx => exact readNumber_double hx hrest
  | whole n =>
    obtain ⟨hexponent, hopens⟩ := readExponent_none hrest
    have hpoint : rest.head? ≠ some '.' := fun h => (hrest _ h).2.1 rfl
    have hhead : (digitsOf n.val.natAbs).head? ≠ some '0' ∨ (digitsOf n.val.natAbs).length = 1 := by
      by_cases hzero : n.val.natAbs = 0
      · right
        rw [hzero]
        rfl
      · exact .inl (Decimal.head?_digitsOf (Nat.pos_of_ne_zero hzero))
    have hwhole := readWhole_digits (Decimal.allDigits_digitsOf _) (Decimal.digitsOf_ne_nil _) hhead
      hrest.noDigitNext
    have hsign : (if n.val < 0 then ['-'] else []) =
        if decide (n.val < 0) = true then ['-'] else ([] : List Char) := by
      simp only [decide_eq_true_eq]
    rw [Number.text, List.append_assoc, hsign,
      readNumber_parts hwhole (readFraction_none hpoint) hexponent, hopens, numberOf_whole]
    rfl

end Json

end Flowgraph
