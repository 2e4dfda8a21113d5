import Flowgraph.Proofs.Predicate.Comparisons

/-!
# Texts between single quotes

A text that opens or ends with a single quote is read as a string if it does both, and as nothing
otherwise (`operand?_of_quote`); what stands between the two quotes is not looked at.  The search for
a comparison does look at it, and a quote inside closes the one before.  So of a predicate that opens
and ends with a quote, the parts that the search cuts decide what it is:

    evaluate s (quoted cs).text = .ok true ↔ cs ≠ [] or both operands are quoted and compare as the
      operator says                                                    (evaluate_quoted_eq_true_iff)

For the comparison of `s` with a word `w`, both between quotes, the search comes to the `==` exactly
if it leaves nothing open but the first quote in `s` (`passes_quoted_iff`).  What leaves another quote
or a bracket open hides the `==` (`scan_behind`).
-/

namespace Flowgraph.Predicate

open Text (isBlank isWordChar Trimmed)
open Json (Balanced)

/-! ## Operands at a quote -/

theorem getLast?_append_ne {c : Char} {l m : List Char} (hl : l.getLast? ≠ some c)
    (hm : m.getLast? ≠ some c) : (l ++ m).getLast? ≠ some c := by
  rw [List.getLast?_append]
  cases hlast : m.getLast? with
  | none => exact hl
  | some d =>
    rw [hlast] at hm
    exact hm

/-- A balanced text neither opens nor ends with a single quote. -/
theorem not_quote_of_balanced {t : List Char} (h : Balanced t) :
    t.head? ≠ some '\'' ∧ t.getLast? ≠ some '\'' := by
  have hclose : ∀ {b t : List Char} {c : Char}, c ≠ '\'' → t.getLast? ≠ some '\'' →
      (b ++ c :: t).getLast? ≠ some '\'' := by
    intro b t c hc ht
    have hlast : (b ++ [c]).getLast? ≠ some '\'' := by
      rw [List.getLast?_concat]
      exact fun heq => hc (Option.some.inj heq)
    have happend := getLast?_append_ne hlast ht
    rwa [List.append_assoc] at happend
  induction h with
  | nil => exact ⟨nofun, nofun⟩
  | plain hc _ ih =>
    have hne := ne_of_isPlain hc (show Json.isPlain '\'' = false from rfl)
    exact ⟨fun heq => hne (Option.some.inj heq), hclose (b := []) hne ih.2⟩
  | string _ _ ih => exact ⟨nofun, hclose (b := '"' :: _) (by decide) ih.2⟩
  | array _ _ _ ih => exact ⟨nofun, hclose (b := '[' :: _) (by decide) ih.2⟩
  | object _ _ _ ih => exact ⟨nofun, hclose (b := '\x7b' :: _) (by decide) ih.2⟩

/-- JSON text neither opens nor ends with a single quote. -/
theorem ofText?_of_quote {cs : List Char} (h : cs.head? = some '\'' ∨ cs.getLast? = some '\'') :
    Json.ofText? cs = none := by
  cases hv : Json.ofText? cs with
  | none => rfl
  | some v =>
    obtain ⟨rest, hread, hrest⟩ := Json.ofText?_eq_some hv
    obtain ⟨t, ht, hbalanced, -⟩ := Json.steady_readValue (Nat.le_refl _) _ _ _ hread
    have hlayout : Json.Plain rest := fun c hc =>
      Json.isPlain_of_isLayout (List.dropWhile_eq_nil_iff.1 hrest c hc)
    have hall := not_quote_of_balanced (hbalanced.append (.of_plain hlayout))
    rw [← ht] at hall
    rcases h with hhead | hlast
    · exact absurd hhead hall.1
    · exact absurd hlast hall.2

/-- A row of accessors ends with a word or a bracket. -/
theorem getLast?_of_readAccessors {n : Nat} {cs : List Char} {keys : List (List Char)}
    (h : readAccessors n cs = some keys) : cs.getLast? ≠ some '\'' := by
  induction n, cs using readAccessors.induct generalizing keys with
  | case1 => simp
  | case2 cs hne =>
    rw [readAccessors] at h
    · cases h
    · exact hne
  | case3 n cs hname =>
    rw [readAccessors, hname] at h
    cases h
  | case4 n cs hname ih =>
    obtain ⟨c, ds, hcons⟩ := List.exists_cons_of_ne_nil hname
    rw [readAccessors, hcons] at h
    obtain ⟨rest, hrest, -⟩ := Option.map_eq_some_iff.1 h
    have hword : ('.' :: cs.takeWhile isWordChar).getLast? ≠ some '\'' := by
      intro hlast
      rcases List.mem_cons.1 (List.mem_of_getLast? hlast) with heq | hmem
      · cases heq
      · cases List.mem_takeWhile_imp hmem
    have happend := getLast?_append_ne hword (ih hrest)
    rwa [List.cons_append, List.takeWhile_append_dropWhile] at happend
  | case5 n cs hclose =>
    rw [readAccessors, hclose] at h
    cases h
  | case6 n cs c rest hclose ih =>
    rw [readAccessors, hclose] at h
    obtain ⟨key, -, h⟩ := Option.bind_eq_some_iff.1 h
    obtain ⟨keys', hkeys, -⟩ := Option.bind_eq_some_iff.1 h
    have hbracket : c = ']' := by
      have hhead := List.head?_dropWhile_not (· != ']') cs
      rw [hclose] at hhead
      simpa using hhead
    have hopen : ('[' :: cs.takeWhile (· != ']') ++ [c]).getLast? ≠ some '\'' := by
      rw [List.getLast?_concat, hbracket]
      decide
    have happend := getLast?_append_ne hopen (ih hkeys)
    rwa [List.append_assoc, List.singleton_append, ← hclose, List.cons_append,
      List.takeWhile_append_dropWhile] at happend
  | case7 n cs hnil hdot hbracket =>
    rw [readAccessors] at h
    · cases h
    · exact hnil
    · exact hdot
    · exact hbracket

/-- A text that opens or ends with a single quote is quoted text, or no operand. -/
theorem operand?_of_quote {cs : List Char} (h : cs.head? = some '\'' ∨ cs.getLast? = some '\'') :
    operand? cs = (singleQuoted? cs).map fun a => .literal (.str (String.ofList a)) := by
  have hmem : '\'' ∈ cs := h.elim List.mem_of_head? List.mem_of_getLast?
  have hword : word? cs = none := by
    cases hv : word? cs with
    | none => rfl
    | some v => rcases word?_cases hv with rfl | rfl | rfl <;> simp at hmem
  have hstate : statePath? cs = none := by
    unfold statePath?
    split
    · rename_i ds
      split
      · rename_i key keys hkeys
        have hne : ds ≠ [] := by
          rintro rfl
          cases hkeys
        have hlast := getLast?_of_readAccessors hkeys
        rcases h with hhead | hend
        · cases hhead
        · rw [show 's' :: 't' :: 'a' :: 't' :: 'e' :: ds = "state".toList ++ ds from rfl,
            List.getLast?_append_of_ne_nil _ hne] at hend
          exact absurd hend hlast
      · rfl
    · rfl
  have hpath : Text.isDottedPath cs = false := by
    cases hpath : Text.isDottedPath cs with
    | false => rfl
    | true =>
      obtain ⟨c, ds, rfl⟩ := List.exists_cons_of_ne_nil (List.ne_nil_of_mem hmem)
      rcases (of_isDottedPath hpath).2 '\'' hmem with hchar | hdot
      · cases hchar
      · cases hdot
  unfold operand?
  rw [if_neg (List.ne_nil_of_mem hmem), hword, ofText?_of_quote h, hstate, hpath]
  cases singleQuoted? cs <;> rfl

theorem evaluateOperand_of_quote (s : State) {cs : List Char} (hcs : Trimmed cs)
    (h : cs.head? = some '\'' ∨ cs.getLast? = some '\'') :
    evaluateOperand s cs = match singleQuoted? cs with
      | some a => .ok (.str (String.ofList a))
      | none => .error (.unsupported (String.ofList cs)) := by
  unfold evaluateOperand
  rw [hcs.trim_eq]
  dsimp only
  rw [operand?_of_quote h]
  cases singleQuoted? cs <;> rfl

/-! ## Predicates between quotes -/

/-- Two operands are quoted texts, and these compare as an operator says. -/
def QuotedHold (l : List Char) (op : Operator) (r : List Char) : Prop :=
  ∃ a b, l = (Term.quoted a).text ∧ r = (Term.quoted b).text ∧
    op.holds (.str (String.ofList a)) (.str (String.ofList b)) = .ok true

theorem operands_hold_iff (s : State) {l r : List Char} (op : Operator) (hl : Trimmed l)
    (hlquote : l.head? = some '\'') (hr : Trimmed r) (hrquote : r.getLast? = some '\'') :
    ((evaluateOperand s l).bind fun a => (evaluateOperand s r).bind fun b => op.holds a b) = .ok true ↔
      QuotedHold l op r := by
  rw [evaluateOperand_of_quote s hl (.inl hlquote), evaluateOperand_of_quote s hr (.inr hrquote)]
  constructor
  · intro h
    cases ha : singleQuoted? l with
    | none =>
      rw [ha] at h
      cases h
    | some a =>
      cases hb : singleQuoted? r with
      | none =>
        rw [ha, hb] at h
        cases h
      | some b =>
        rw [ha, hb] at h
        exact ⟨a, b, singleQuoted?_eq_some_iff.1 ha, singleQuoted?_eq_some_iff.1 hb, h⟩
  · rintro ⟨a, b, ha, hb, h⟩
    rw [singleQuoted?_eq_some_iff.2 ha, singleQuoted?_eq_some_iff.2 hb]
    exact h

theorem Operator.eq_append_of_read? {cs rest : List Char} {op : Operator}
    (h : Operator.read? cs = some (op, rest)) : cs = op.text.toList ++ rest := by
  unfold Operator.read? at h
  split at h <;> cases h <;> rfl

/-- The parts that the search cuts make up the text. -/
theorem eq_append_of_splitFrom (st : Option Char × Nat) {cs l r : List Char} {op : Operator}
    (h : splitFrom st.1 st.2 cs = some (l, op, r)) : cs = l ++ (op.text.toList ++ r) := by
  induction cs generalizing st l with
  | nil => cases h
  | cons c cs ih =>
    rw [splitFrom_cons] at h
    cases hc : scanChar st c with
    | some mid =>
      rw [hc] at h
      obtain ⟨⟨l', op', r'⟩, hrest, heq⟩ := Option.map_eq_some_iff.1 h
      cases heq
      rw [ih mid hrest, List.cons_append]
    | none =>
      rw [hc] at h
      obtain ⟨⟨op', r'⟩, hread, heq⟩ := Option.map_eq_some_iff.1 h
      cases heq
      exact Operator.eq_append_of_read? hread

/-- In text between quotes the left operand opens with a quote and the right one ends with one. -/
theorem quotes_of_splitFrom {cs l r : List Char} {op : Operator}
    (h : splitFrom none 0 (Term.quoted cs).text = some (l, op, r)) :
    (∃ l', l = '\'' :: l') ∧ ∃ r', r = r' ++ ['\''] := by
  have hparts := eq_append_of_splitFrom (none, 0) h
  constructor
  · rw [Term.text, splitFrom_cons (none, 0)] at h
    obtain ⟨⟨l', op', r'⟩, -, heq⟩ := Option.map_eq_some_iff.1 h
    cases heq
    exact ⟨l', rfl⟩
  · have hlast : (Term.quoted cs).text.getLast? = some '\'' :=
      List.getLast?_concat (l := '\'' :: cs)
    by_cases hr : r = []
    · -- no operator ends with a quote
      obtain ⟨x, xs, hx⟩ := List.exists_cons_of_ne_nil
        (show op.text.toList ≠ [] by cases op <;> exact List.cons_ne_nil _ _)
      rw [hparts, hr, List.append_nil, List.getLast?_append_of_ne_nil _ (by rw [hx]; simp)] at hlast
      have hquiet := op.quiet_text '\'' (List.mem_of_getLast? hlast)
      cases hquiet
    · rw [hparts, ← List.append_assoc, List.getLast?_append_of_ne_nil _ hr] at hlast
      exact ⟨_, (List.dropLast_append_getLast? _ hlast).symm⟩

/-- A predicate that opens and ends with a quote is one string, which holds unless it is empty, or the
comparison that is found in it, which holds between quoted texts only. -/
theorem evaluate_quoted_eq_true_iff (s : State) (cs : List Char) :
    evaluate s (Term.quoted cs).text = .ok true ↔
      match splitComparison (Term.quoted cs).text with
      | none => cs ≠ []
      | some (l, op, r) => QuotedHold l op r := by
  have htrimmed := Term.trimmed_quoted cs
  unfold splitComparison
  cases hsplit : splitFrom none 0 (Term.quoted cs).text with
  | none =>
    have hvalue : evaluateOperand s (Term.quoted cs).text = .ok (.str (String.ofList cs)) := by
      rw [evaluateOperand_of_quote s htrimmed (.inl rfl), singleQuoted?_eq_some_iff.2 rfl]
    rw [evaluate_of_splitFrom_eq_none s htrimmed hsplit, hvalue]
    show Except.ok (String.ofList cs != "") = Except.ok true ↔ cs ≠ []
    rw [Except.ok.injEq, bne_iff_ne, ne_eq, ← String.toList_inj, String.toList_ofList]
    rfl
  | some parts =>
    obtain ⟨l, op, r⟩ := parts
    obtain ⟨⟨l', rfl⟩, r', rfl⟩ := quotes_of_splitFrom hsplit
    rw [evaluate_of_splitFrom s htrimmed hsplit]
    obtain ⟨ls, -, hl, -, -, hltrimmed⟩ :=
      Text.exists_trim_cons (show isBlank '\'' = false by decide) l'
    obtain ⟨rs, hr, hrtrimmed⟩ :=
      Text.exists_trim_concat (show isBlank '\'' = false by decide) r'
    show _ ↔ QuotedHold (Text.trim ('\'' :: l')) op (Text.trim (r' ++ ['\'']))
    rw [hl, hr]
    exact operands_hold_iff s op hltrimmed rfl hrtrimmed List.getLast?_concat

/-! ## The search in quoted text -/

/-- The search goes over quoted text and leaves nothing open exactly if it comes to the last quote with
nothing open but a single quote. -/
theorem passes_quoted_iff {cs : List Char} :
    Passes (Term.quoted cs).text ↔ scan (none, 0) ('\'' :: cs) = some (some '\'', 0) := by
  have hsplit : (Term.quoted cs).text = ('\'' :: cs) ++ ['\''] := rfl
  unfold Passes
  rw [hsplit, scan_append]
  cases hscan : scan (none, 0) ('\'' :: cs) with
  | none => simp
  | some st =>
    obtain ⟨quote, depth⟩ := st
    rw [Option.bind_some, scan_cons, scanChar.eq_def]
    cases quote with
    | none => simp [scan, isQuote]
    | some q =>
      by_cases hq : q = '\''
      · simp [scan, hq]
      · simp [scan, hq, Ne.symm hq]

/-- An equation of two quoted texts. -/
def equation (s w : List Char) : List Char :=
  (Term.quoted s).text ++ (" == ".toList ++ (Term.quoted w).text)

theorem equation_eq_quoted (s w : List Char) :
    equation s w = (Term.quoted (s ++ '\'' :: (" == ".toList ++ '\'' :: w))).text := by
  simp [equation, Term.text]

/-- What leaves another quote or a bracket open hides an equation sign and a quoted word. -/
theorem scan_behind {st : Option Char × Nat} (hquote : ∀ q, st.1 = some q → isQuote q = true)
    (hst : st ≠ (some '\'', 0)) {w : List Char} (hw : ∀ c ∈ w, isWordChar c = true) :
    ∃ st', scan st ('\'' :: (" == ".toList ++ (Term.quoted w).text)) = some st' := by
  have hword : ∀ d, isWordChar d = false → d ∉ w := by
    intro d hd hmem
    rw [hw d hmem] at hd
    cases hd
  obtain ⟨quote, depth⟩ := st
  cases quote with
  | none =>
    -- the quote opens one that the quote before the word closes
    refine ⟨(some '\'', depth), ?_⟩
    show scan (some '\'', depth) (" == ".toList ++ ('\'' :: (w ++ ['\'']))) = _
    rw [scan_append, scan_inside (by decide), Option.bind_some]
    show scan (none, depth) (w ++ ['\'']) = _
    rw [scan_append, scan_words fun c hc => .inl (hw c hc)]
    rfl
  | some q =>
    by_cases hq : q = '\''
    · subst hq
      obtain ⟨depth, rfl⟩ : ∃ d, depth = d + 1 := by
        cases depth with
        | zero => exact absurd rfl hst
        | succ d => exact ⟨d, rfl⟩
      refine ⟨(none, depth + 1), ?_⟩
      show scan (none, depth + 1) (" == ".toList ++ ('\'' :: (w ++ ['\'']))) = _
      have hquiet : ∀ c ∈ " == ".toList, isQuiet c = true := List.all_eq_true.1 rfl
      have hsign : scan (none, depth + 1) " == ".toList = some (none, depth + 1) :=
        scan_of_quiet hquiet nofun (.inl (by simp))
      rw [scan_append, hsign, Option.bind_some, scan_quoted rfl (hword '\'' rfl)]
    · have hdouble : q = '"' := by
        have hq' := hquote q rfl
        simp only [isQuote, Bool.or_eq_true, beq_iff_eq] at hq'
        exact hq'.resolve_left hq
      subst hdouble
      refine ⟨(some '"', depth), scan_inside ?_ depth⟩
      have hnot := hword '"' rfl
      simp [Term.text, hnot]

/-! ## Equations of quoted texts -/

/-- Strings are equal as data only if they are the same. -/
theorem holds_eq_str_iff {a b : String} : Operator.eq.holds (.str a) (.str b) = .ok true ↔ a = b := by
  show Except.ok (Json.same (.str a) (.str b) || some (compare a b) == some Ordering.eq) =
    Except.ok true ↔ _
  simp [Json.same, Json.equalBy]

theorem quotedHold_iff {s w : List Char} :
    QuotedHold (Term.quoted s).text .eq (Term.quoted w).text ↔ s = w := by
  have hinj : ∀ {a b : List Char}, (Term.quoted a).text = (Term.quoted b).text → a = b := by
    intro a b heq
    exact Option.some.inj ((singleQuoted?_eq_some_iff.2 rfl).symm.trans (singleQuoted?_eq_some_iff.2 heq))
  constructor
  · rintro ⟨a, b, ha, hb, hholds⟩
    rw [hinj ha, hinj hb, ← String.ofList_inj]
    exact holds_eq_str_iff.1 hholds
  · rintro rfl
    exact ⟨s, s, rfl, rfl, holds_eq_str_iff.2 rfl⟩

section

variable {s w : List Char}

/-- Where the search goes over the left text, its comparison is the equation. -/
theorem splitComparison_of_passes (h : Passes (Term.quoted s).text) :
    splitComparison (equation s w) = some ((Term.quoted s).text, .eq, (Term.quoted w).text) := by
  have hgap : ∀ c ∈ [' '], isBlank c = true := List.all_eq_true.1 rfl
  have hmore : ∀ ds, ' ' :: (Term.quoted w).text ≠ '=' :: ds := nofun
  have hsplit := splitFrom_comparison h hgap .eq hmore
  have hleft := (Term.trimmed_quoted s).trim_pad (List.forall_mem_nil _) hgap
  have hright := (Term.trimmed_quoted w).trim_pad hgap (List.forall_mem_nil _)
  rw [List.nil_append] at hleft
  rw [List.append_nil] at hright
  unfold splitComparison
  rw [show equation s w = (Term.quoted s).text ++
    ([' '] ++ (Operator.eq.text.toList ++ ' ' :: (Term.quoted w).text)) from rfl, hsplit]
  show some (Text.trim _, _, Text.trim _) = _
  rw [hleft]
  exact congrArg (fun r => some (_, _, r)) hright

/-- Where the search leaves something else open, no comparison is found. -/
theorem splitComparison_of_open (hw : ∀ c ∈ w, isWordChar c = true) {st : Option Char × Nat}
    (hscan : scan (none, 0) ('\'' :: s) = some st) (hst : st ≠ (some '\'', 0)) :
    splitComparison (equation s w) = none := by
  obtain ⟨st', hst'⟩ := scan_behind (isQuote_of_scan hscan nofun) hst hw
  have hall : scan (none, 0) (equation s w) = some st' := by
    rw [show equation s w = ('\'' :: s) ++ '\'' :: (" == ".toList ++ (Term.quoted w).text) by
      simp [equation, Term.text], scan_append, hscan]
    exact hst'
  have hfound := splitFrom_of_scan hall []
  rw [List.append_nil] at hfound
  unfold splitComparison
  rw [hfound]
  rfl

/-- **Quoted text as data.**  A text between quotes is compared as data with a word where the search
goes over it, as it does where the text holds no single quote.  A text that leaves another quote or a
bracket open makes one string of the whole predicate, which then holds.  A text in which the search
stops is cut there, and what holds is the comparison of the two parts, if both are quoted. -/
theorem evaluate_equation (st : State) (hw : ∀ c ∈ w, isWordChar c = true) :
    ('\'' ∉ s → Passes (Term.quoted s).text) ∧
    (Passes (Term.quoted s).text →
      splitComparison (equation s w) = some ((Term.quoted s).text, .eq, (Term.quoted w).text) ∧
      (evaluate st (equation s w) = .ok true ↔ s = w)) ∧
    (¬ Passes (Term.quoted s).text → (scan (none, 0) ('\'' :: s)).isSome = true →
      splitComparison (equation s w) = none ∧ evaluate st (equation s w) = .ok true) ∧
    (¬ Passes (Term.quoted s).text → scan (none, 0) ('\'' :: s) = none →
      (evaluate st (equation s w) = .ok true ↔ ∀ l op r,
        splitComparison (equation s w) = some (l, op, r) → QuotedHold l op r)) := by
  have hevaluate := evaluate_quoted_eq_true_iff st (s ++ '\'' :: (" == ".toList ++ '\'' :: w))
  rw [← equation_eq_quoted] at hevaluate
  refine ⟨fun hs => ?_, fun hpasses => ?_, fun hpasses hopen => ?_, fun _ _ => ?_⟩
  · exact passes_quoted_iff.2 (scan_inside hs 0)
  · have hsplit := splitComparison_of_passes (w := w) hpasses
    refine ⟨hsplit, hevaluate.trans ?_⟩
    rw [hsplit]
    exact quotedHold_iff
  · obtain ⟨mid, hmid⟩ := Option.isSome_iff_exists.1 hopen
    have hsplit := splitComparison_of_open hw hmid fun heq =>
      hpasses (passes_quoted_iff.2 (heq ▸ hmid))
    refine ⟨hsplit, hevaluate.2 ?_⟩
    rw [hsplit]
    simp
  · refine hevaluate.trans ?_
    cases splitComparison (equation s w) with
    | none => simp
    | some parts =>
      constructor
      · rintro hhold l op r heq
        cases heq
        exact hhold
      · exact fun hall => hall _ _ _ rfl

end

end Flowgraph.Predicate
