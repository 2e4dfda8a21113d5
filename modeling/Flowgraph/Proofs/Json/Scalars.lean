import Flowgraph.Proofs.Json.Text
import Mathlib.Data.List.DropRight

/-!
# What the readers of strings and numbers take

A text is balanced if its strings end with a quote of their own and every bracket that opens in it
closes again; what stands around them are digits, letters and marks.  A reader is steady where it takes
texts of a sort and takes the same whatever follows,

    Steady sort read read',    Closes sort close read read'

and readers put together are as steady as their parts (`Steady.bind`).  A scalar is a string, which its
quote closes, or a plain text, and only the latter could go on where a text ends
(`taken_of_readScalar`).
-/

namespace Flowgraph.Json

/-! ## Balanced texts -/

/-- What may stand between the quotes of a string. -/
inductive StringBody : List Char → Prop
  | nil : StringBody []
  | char {c : Char} {b : List Char} : c ≠ '"' → c ≠ '\\' → StringBody b → StringBody (c :: b)
  | escape {b : List Char} (c : Char) : StringBody b → StringBody ('\\' :: c :: b)

/-- A character that may stand outside strings and brackets: a blank, a letter, a digit or a mark. -/
def isPlain (c : Char) : Bool :=
  isLayout c || c.isAlphanum || c == '+' || c == '-' || c == '.' || c == ',' || c == ':'

/-- A text of plain characters only, as numerals are. -/
def Plain (t : List Char) : Prop := ∀ c ∈ t, isPlain c = true

/-- Texts whose strings end and whose brackets close. -/
inductive Balanced : List Char → Prop
  | nil : Balanced []
  | plain {c : Char} {t : List Char} : isPlain c = true → Balanced t → Balanced (c :: t)
  | string {b t : List Char} : StringBody b → Balanced t → Balanced ('"' :: (b ++ '"' :: t))
  | array {b t : List Char} : Balanced b → Balanced t → Balanced ('[' :: (b ++ ']' :: t))
  | object {b t : List Char} : Balanced b → Balanced t → Balanced ('\x7b' :: (b ++ '\x7d' :: t))

namespace Balanced

theorem append {t u : List Char} (ht : Balanced t) (hu : Balanced u) : Balanced (t ++ u) := by
  induction ht with
  | nil => exact hu
  | plain hc _ ih => exact .plain hc ih
  | string hb _ ih =>
    rw [List.cons_append, List.append_assoc]
    exact .string hb ih
  | array hb _ _ ih =>
    rw [List.cons_append, List.append_assoc]
    exact .array hb ih
  | object hb _ _ ih =>
    rw [List.cons_append, List.append_assoc]
    exact .object hb ih

theorem of_plain {t : List Char} (h : Plain t) : Balanced t := by
  induction t with
  | nil => exact .nil
  | cons c t ih =>
    apply plain (h c List.mem_cons_self)
    exact ih fun d hd => h d (List.mem_cons_of_mem c hd)

end Balanced

namespace Plain

theorem nil : Plain [] := List.forall_mem_nil _

theorem cons {c : Char} {t : List Char} (hc : isPlain c = true) (ht : Plain t) : Plain (c :: t) :=
  List.forall_mem_cons.2 ⟨hc, ht⟩

theorem append {t u : List Char} (ht : Plain t) (hu : Plain u) : Plain (t ++ u) :=
  List.forall_mem_append.2 ⟨ht, hu⟩

end Plain

theorem isPlain_of_isLayout {c : Char} (h : isLayout c = true) : isPlain c = true := by
  simp only [isPlain, h, Bool.true_or]

theorem isPlain_of_isDigit {c : Char} (h : c.isDigit = true) : isPlain c = true := by
  simp only [isPlain, Char.isAlphanum, h, Bool.or_true, Bool.true_or]

/-! ## Readers -/

section

variable {α β : Type}

/-- A reader takes a text of a sort, and another one does as much where more text follows.  If nothing
is left of the text, then nothing may follow. -/
def Steady (sort : List Char → Prop) (read read' : List Char → Option (α × List Char)) : Prop :=
  ∀ cs v rest, read cs = some (v, rest) → ∃ t, cs = t ++ rest ∧ sort t ∧
    ∀ more, (rest = [] → more = []) → read' (cs ++ more) = some (v, rest ++ more)

/-- A reader takes a text of a sort and the character that closes it, and another one does as much
whatever follows. -/
def Closes (sort : List Char → Prop) (close : Char) (read read' : List Char → Option (α × List Char)) :
    Prop :=
  ∀ cs v rest, read cs = some (v, rest) → ∃ b, cs = b ++ close :: rest ∧ sort b ∧
    ∀ more, read' (cs ++ more) = some (v, rest ++ more)

/-- One reader after another. -/
theorem Steady.bind {read read' : List Char → Option (α × List Char)}
    {next next' : α → List Char → Option (β × List Char)} (hread : Steady Plain read read')
    (hnext : ∀ a, Steady Plain (next a) (next' a)) :
    Steady Plain (fun cs => (read cs).bind fun r => next r.1 r.2)
      (fun cs => (read' cs).bind fun r => next' r.1 r.2) := by
  intro cs v rest h
  obtain ⟨⟨a, mid⟩, hmid, hrest⟩ := Option.bind_eq_some_iff.1 h
  obtain ⟨t, rfl, ht, hmore⟩ := hread cs a mid hmid
  obtain ⟨u, rfl, hu, hmore'⟩ := hnext a mid v rest hrest
  refine ⟨t ++ u, (List.append_assoc t u rest).symm, ht.append hu, fun more hguard => ?_⟩
  have hguard' : u ++ rest = [] → more = [] := fun hnil => hguard (List.append_eq_nil_iff.1 hnil).2
  dsimp only
  rw [hmore more hguard', Option.bind_some]
  exact hmore' more hguard

end

/-! ### Layout -/

theorem skipLayout_append {cs : List Char} (h : skipLayout cs ≠ []) (more : List Char) :
    skipLayout (cs ++ more) = skipLayout cs ++ more := by
  induction cs with
  | nil => exact absurd rfl h
  | cons c cs ih =>
    unfold skipLayout at h ih ⊢
    rw [List.cons_append, List.dropWhile_cons, List.dropWhile_cons]
    split
    · rename_i hc
      rw [List.dropWhile_cons_of_pos hc] at h
      exact ih h
    · rfl

theorem exists_layout (cs : List Char) : ∃ t, cs = t ++ skipLayout cs ∧ Balanced t := by
  refine ⟨cs.takeWhile isLayout, List.takeWhile_append_dropWhile.symm, Balanced.of_plain ?_⟩
  intro c hc
  exact isPlain_of_isLayout (List.mem_takeWhile_imp hc)

/-! ### Strings -/

theorem ne_of_hexDigit? {c : Char} {n : Nat} (h : hexDigit? c = some n) : c ≠ '"' ∧ c ≠ '\\' := by
  constructor
  · rintro rfl
    cases h
  · rintro rfl
    cases h

theorem StringBody.hexUnit {a b c d : Char} {u : Nat} (h : hexUnit? a b c d = some u)
    {t : List Char} (ht : StringBody t) : StringBody ('\\' :: 'u' :: a :: b :: c :: d :: t) := by
  unfold hexUnit? at h
  obtain ⟨_, ha, h⟩ := Option.bind_eq_some_iff.1 h
  obtain ⟨_, hb, h⟩ := Option.bind_eq_some_iff.1 h
  obtain ⟨_, hc, h⟩ := Option.bind_eq_some_iff.1 h
  obtain ⟨_, hd, -⟩ := Option.bind_eq_some_iff.1 h
  exact .escape 'u' (.char (ne_of_hexDigit? ha).1 (ne_of_hexDigit? ha).2
    (.char (ne_of_hexDigit? hb).1 (ne_of_hexDigit? hb).2
      (.char (ne_of_hexDigit? hc).1 (ne_of_hexDigit? hc).2
        (.char (ne_of_hexDigit? hd).1 (ne_of_hexDigit? hd).2 ht))))

theorem closes_readParts : Closes StringBody '"' readParts readParts := by
  intro cs v rest h
  induction cs using readParts.induct generalizing v rest with
  | case1 tail =>
    cases h
    exact ⟨[], rfl, .nil, fun more => rfl⟩
  | case2 a b c d tail ih =>
    rw [readParts] at h
    obtain ⟨u, hu, h⟩ := Option.bind_eq_some_iff.1 h
    obtain ⟨⟨ps, tail'⟩, hps, h⟩ := Option.bind_eq_some_iff.1 h
    cases h
    obtain ⟨body, rfl, hbody, hmore⟩ := ih _ _ hps
    refine ⟨_, rfl, StringBody.hexUnit hu hbody, fun more => ?_⟩
    have hrest := hmore more
    simp only [List.cons_append, List.append_assoc] at hrest ⊢
    rw [readParts_unit hu, hrest]
    rfl
  | case3 c tail hunit ih =>
    rw [readParts] at h
    · obtain ⟨e, he, h⟩ := Option.bind_eq_some_iff.1 h
      obtain ⟨⟨ps, tail'⟩, hps, h⟩ := Option.bind_eq_some_iff.1 h
      cases h
      obtain ⟨body, rfl, hbody, hmore⟩ := ih _ _ hps
      have hc : c ≠ 'u' := by
        rintro rfl
        cases he
      refine ⟨_, rfl, .escape c hbody, fun more => ?_⟩
      have hrest := hmore more
      simp only [List.cons_append, List.append_assoc] at hrest ⊢
      rw [readParts_short hc he, hrest]
      rfl
    · exact hunit
  | case4 c tail hquote hunit hshort hbad =>
    rw [readParts] at h
    · rw [if_pos hbad] at h
      cases h
    · exact hquote
    · exact hunit
    · exact hshort
  | case5 c tail hquote hunit hshort hgood ih =>
    obtain ⟨hcontrol, hslash⟩ := not_or.1 hgood
    rw [readParts_plain hquote hslash hcontrol] at h
    obtain ⟨⟨ps, tail'⟩, hps, heq⟩ := Option.map_eq_some_iff.1 h
    cases heq
    obtain ⟨body, rfl, hbody, hmore⟩ := ih _ _ hps
    refine ⟨_, rfl, .char hquote hslash hbody, fun more => ?_⟩
    have hrest := hmore more
    simp only [List.cons_append, List.append_assoc] at hrest ⊢
    rw [readParts_plain hquote hslash hcontrol, hrest]
    rfl
  | case6 => cases h

theorem closes_readString : Closes StringBody '"' readString readString := by
  intro cs v rest h
  unfold readString at h
  obtain ⟨⟨ps, tail⟩, hps, h⟩ := Option.bind_eq_some_iff.1 h
  obtain ⟨s, hs, h⟩ := Option.bind_eq_some_iff.1 h
  cases h
  obtain ⟨b, rfl, hb, hmore⟩ := closes_readParts _ _ _ hps
  refine ⟨b, rfl, hb, fun more => ?_⟩
  unfold readString
  rw [hmore more]
  show (joinParts ps).bind (fun s => some (s, rest ++ more)) = _
  rw [hs]
  rfl

/-! ### Numbers -/

theorem spanDigits_more (cs more : List Char) (h : (Decimal.spanDigits cs).2 = [] → more = []) :
    Decimal.spanDigits (cs ++ more) =
      ((Decimal.spanDigits cs).1, (Decimal.spanDigits cs).2 ++ more) := by
  unfold Decimal.spanDigits at h ⊢
  induction cs with
  | nil => rw [h rfl]; rfl
  | cons c cs ih =>
    rw [List.cons_append, List.takeWhile_cons, List.dropWhile_cons, List.takeWhile_cons,
      List.dropWhile_cons]
    split
    · rename_i hc
      rw [List.dropWhile_cons_of_pos hc] at h
      obtain ⟨htake, hdrop⟩ := Prod.mk.injEq .. ▸ ih h
      rw [htake, hdrop]
    · rfl

theorem plain_digits (cs : List Char) : Plain (Decimal.spanDigits cs).1 :=
  fun _ hc => isPlain_of_isDigit (List.mem_takeWhile_imp hc)

theorem steady_readWhole : Steady Plain readWhole readWhole := by
  intro cs ds rest h
  have hcs := Decimal.spanDigits_append cs
  have hmore := spanDigits_more cs
  have hdigits := plain_digits cs
  unfold readWhole at h ⊢
  generalize Decimal.spanDigits cs = r at h hcs hmore hdigits
  obtain ⟨ds', rest'⟩ := r
  cases ds' with
  | nil => cases h
  | cons d ds' =>
    dsimp only at h
    split at h
    · cases h
    · rename_i hzero
      cases h
      refine ⟨_, hcs.symm, hdigits, fun more hguard => ?_⟩
      rw [hmore more hguard]
      exact if_neg hzero

/-- Digits that must be there, and what they come to. -/
theorem steady_digits {α : Type} (f : List Char → α) :
    Steady Plain (fun cs => match Decimal.spanDigits cs with
        | ([], _) => none
        | (ds, rest) => some (f ds, rest))
      (fun cs => match Decimal.spanDigits cs with
        | ([], _) => none
        | (ds, rest) => some (f ds, rest)) := by
  intro cs v rest h
  have hcs := Decimal.spanDigits_append cs
  have hmore := spanDigits_more cs
  have hdigits := plain_digits cs
  dsimp only at h ⊢
  generalize Decimal.spanDigits cs = r at h hcs hmore hdigits
  obtain ⟨ds, rest'⟩ := r
  cases ds with
  | nil => cases h
  | cons d ds =>
    cases h
    refine ⟨_, hcs.symm, hdigits, fun more hguard => ?_⟩
    rw [hmore more hguard]

theorem steady_readFraction : Steady Plain readFraction readFraction := by
  intro cs v rest h
  by_cases hpoint : ∃ tail, cs = '.' :: tail
  · obtain ⟨tail, rfl⟩ := hpoint
    obtain ⟨t, rfl, ht, hmore⟩ := steady_digits some tail v rest h
    exact ⟨'.' :: t, rfl, .cons (by decide) ht, hmore⟩
  · have hnone : ∀ tail, (∀ tail', tail ≠ '.' :: tail') → readFraction tail = some (none, tail) := by
      intro tail htail
      unfold readFraction
      split
      · exact absurd rfl (htail _)
      · rfl
    rw [hnone cs fun tail heq => hpoint ⟨tail, heq⟩] at h
    cases h
    refine ⟨[], rfl, Plain.nil, fun more hguard => hnone _ fun tail heq => ?_⟩
    cases cs with
    | nil =>
      rw [hguard rfl] at heq
      cases heq
    | cons c cs =>
      cases heq
      exact hpoint ⟨cs, rfl⟩

/-- The sign of an exponent, if it has one, and what follows. -/
def takeSign : List Char → Bool × List Char
  | '+' :: cs => (false, cs)
  | '-' :: cs => (true, cs)
  | cs => (false, cs)

theorem exists_sign {cs : List Char} (h : cs ≠ []) :
    ∃ t, cs = t ++ (takeSign cs).2 ∧ Plain t ∧
      ∀ more, takeSign (cs ++ more) = ((takeSign cs).1, (takeSign cs).2 ++ more) := by
  cases cs with
  | nil => exact absurd rfl h
  | cons c cs =>
    by_cases hplus : c = '+'
    · subst hplus
      exact ⟨['+'], rfl, .cons (by decide) .nil, fun more => rfl⟩
    · by_cases hminus : c = '-'
      · subst hminus
        exact ⟨['-'], rfl, .cons (by decide) .nil, fun more => rfl⟩
      · have hnone : ∀ cs, takeSign (c :: cs) = (false, c :: cs) := by
          intro cs
          unfold takeSign
          split
          · rename_i heq
            exact absurd (List.cons.inj heq).1 hplus
          · rename_i heq
            exact absurd (List.cons.inj heq).1 hminus
          · rfl
        refine ⟨[], ?_, Plain.nil, fun more => ?_⟩
        · rw [hnone]
          rfl
        · rw [List.cons_append, hnone, hnone]
          rfl

theorem steady_readExponent : Steady Plain Decimal.readExponent Decimal.readExponent := by
  intro cs v rest h
  cases cs with
  | nil =>
    cases h
    refine ⟨[], rfl, Plain.nil, fun more hguard => ?_⟩
    rw [hguard rfl]
    rfl
  | cons c cs =>
    by_cases hmark : c = 'e' ∨ c = 'E'
    · have heq : ∀ cs, Decimal.readExponent (c :: cs) = match Decimal.spanDigits (takeSign cs).2 with
          | ([], _) => none
          | (ds, rest) => some (if (takeSign cs).1 then -(Decimal.valueOf ds : Int)
              else Decimal.valueOf ds, rest) := by
        intro cs
        unfold Decimal.readExponent
        dsimp only
        rw [if_pos hmark]
        rfl
      rw [heq] at h
      have hcs : cs ≠ [] := by
        rintro rfl
        cases h
      have hplain : isPlain c = true := by
        rcases hmark with rfl | rfl
        · decide
        · decide
      obtain ⟨t, ht, hsign, hmore⟩ := exists_sign hcs
      obtain ⟨u, hu, hdigits, hmore'⟩ := steady_digits _ _ v rest h
      refine ⟨c :: (t ++ u), ?_, .cons hplain (hsign.append hdigits), fun more hguard => ?_⟩
      · rw [List.cons_append, List.append_assoc, ← hu, ← ht]
      · rw [List.cons_append, heq, hmore]
        exact hmore' more hguard
    · have heq : ∀ cs, Decimal.readExponent (c :: cs) = some (0, c :: cs) := fun cs => if_neg hmark
      rw [heq] at h
      cases h
      exact ⟨[], rfl, Plain.nil, fun more _ => heq _⟩

/-- The exponent of a numeral, and the number that it all comes to. -/
def readScaled (neg : Bool) (before : List Char) (after : Option (List Char)) (cs : List Char) :
    Option (Number × List Char) :=
  (Decimal.readExponent cs).bind fun r =>
    (numberOf neg before after (opensExponent cs) r.1).bind fun n => some (n, r.2)

theorem steady_readScaled (neg : Bool) (before : List Char) (after : Option (List Char)) :
    Steady Plain (readScaled neg before after) (readScaled neg before after) := by
  intro cs v rest h
  obtain ⟨⟨e, tail⟩, he, hrest⟩ := Option.bind_eq_some_iff.1 h
  obtain ⟨n, hn, heq⟩ := Option.bind_eq_some_iff.1 hrest
  dsimp only at hn
  cases heq
  obtain ⟨t, rfl, ht, hmore⟩ := steady_readExponent _ _ _ he
  refine ⟨t, rfl, ht, fun more hguard => ?_⟩
  have hopens : opensExponent (t ++ tail ++ more) = opensExponent (t ++ tail) := by
    cases htail : t ++ tail with
    | nil =>
      rw [hguard (List.append_eq_nil_iff.1 htail).2]
      rfl
    | cons c cs => rfl
  unfold readScaled
  rw [hmore more hguard, Option.bind_some]
  dsimp only
  rw [hopens, hn]
  rfl

theorem steady_readUnsigned (neg : Bool) : Steady Plain (readUnsigned neg) (readUnsigned neg) :=
  steady_readWhole.bind fun before =>
    steady_readFraction.bind fun after => steady_readScaled neg before after

theorem steady_readNumber : Steady Plain readNumber readNumber := by
  intro cs v rest h
  obtain ⟨c, cs, rfl, hc⟩ := head_of_readNumber h
  by_cases hsign : c = '-'
  · subst hsign
    obtain ⟨t, rfl, ht, hmore⟩ := steady_readUnsigned true cs v rest h
    exact ⟨'-' :: t, rfl, .cons (by decide) ht, hmore⟩
  · rw [readNumber_of_ne hsign] at h
    obtain ⟨t, ht, hbal, hmore⟩ := steady_readUnsigned false (c :: cs) v rest h
    refine ⟨t, ht, hbal, fun more hguard => ?_⟩
    rw [List.cons_append, readNumber_of_ne hsign]
    exact hmore more hguard

/-! ### Scalars and fields -/

/-- A scalar is a string, or a plain text. -/
theorem taken_of_readScalar {cs rest : List Char} {v : Json} (h : readScalar cs = some (v, rest)) :
    (∃ b, cs = '"' :: (b ++ '"' :: rest) ∧ StringBody b ∧
      ∀ more, readScalar (cs ++ more) = some (v, rest ++ more)) ∨
    ((∀ tail, cs ≠ '"' :: tail) ∧ ∃ t, cs = t ++ rest ∧ Plain t ∧
      ∀ more, (rest = [] → more = []) → readScalar (cs ++ more) = some (v, rest ++ more)) := by
  unfold readScalar at h
  split at h
  · cases h
    exact .inr ⟨nofun, ['n', 'u', 'l', 'l'], rfl, List.all_eq_true.1 rfl, fun more _ => rfl⟩
  · cases h
    exact .inr ⟨nofun, ['t', 'r', 'u', 'e'], rfl, List.all_eq_true.1 rfl, fun more _ => rfl⟩
  · cases h
    exact .inr ⟨nofun, ['f', 'a', 'l', 's', 'e'], rfl, List.all_eq_true.1 rfl, fun more _ => rfl⟩
  · obtain ⟨⟨s, tail⟩, hs, heq⟩ := Option.bind_eq_some_iff.1 h
    cases heq
    obtain ⟨b, rfl, hb, hmore⟩ := closes_readString _ _ _ hs
    refine .inl ⟨b, rfl, hb, fun more => ?_⟩
    show (readString (b ++ '"' :: rest ++ more)).bind _ = _
    rw [hmore more]
    rfl
  · rename_i hquote
    obtain ⟨⟨n, tail⟩, hn, heq⟩ := Option.bind_eq_some_iff.1 h
    cases heq
    obtain ⟨t, rfl, ht, hmore⟩ := steady_readNumber _ _ _ hn
    exact .inr ⟨hquote, t, rfl, ht, fun more hguard => readScalar_of_readNumber (hmore more hguard)⟩

end Flowgraph.Json
