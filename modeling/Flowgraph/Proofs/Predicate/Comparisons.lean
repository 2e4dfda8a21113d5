import Flowgraph.Proofs.Predicate.Operands

/-!
# Comparisons of two operands

A comparison is two operands with an operator between them, and blanks around the operator or none.
Where the search goes over the left operand and both can be read, the comparison has the result of the
operator on the two values; otherwise it is refused as a whole, whatever the values are.

    Readable l r → op.Gives a b (evaluateString s (l op r))        (evaluateString_comparison)

The search knows no escapes, and that is what it takes for a left operand to lead it astray: a string
in which a quote is escaped seems to end early, and then operators are found where there are none, or
the one that is there is missed.  What is cut off the text in either way is no JSON text.
-/

namespace Flowgraph.Predicate

open Text (isBlank Trimmed)

/-! ## The operator -/

namespace Operator

theorem read?_text (op : Operator) {cs : List Char} (h : ∀ ds, cs ≠ '=' :: ds) :
    Operator.read? (op.text.toList ++ cs) = some (op, cs) := by
  cases op with
  | eq => rfl
  | ne => rfl
  | gt =>
    show Operator.read? ('>' :: cs) = _
    rw [Operator.read?]
    exact h
  | ge => rfl
  | lt =>
    show Operator.read? ('<' :: cs) = _
    rw [Operator.read?]
    exact h
  | le => rfl

/-- The search stops at an operator that stands outside quotes and brackets. -/
theorem exists_text (op : Operator) : ∃ c cs, op.text.toList = c :: cs ∧ isBlank c = false ∧
    scanChar (none, 0) c = none := by
  cases op with
  | eq => exact ⟨'=', ['='], rfl, by decide, rfl⟩
  | ne => exact ⟨'!', ['='], rfl, by decide, rfl⟩
  | gt => exact ⟨'>', [], rfl, by decide, rfl⟩
  | ge => exact ⟨'>', ['='], rfl, by decide, rfl⟩
  | lt => exact ⟨'<', [], rfl, by decide, rfl⟩
  | le => exact ⟨'<', ['='], rfl, by decide, rfl⟩

theorem quiet_text (op : Operator) : ∀ c ∈ op.text.toList, isQuiet c = true := by
  cases op with
  | eq => exact List.all_eq_true.1 rfl
  | ne => exact List.all_eq_true.1 rfl
  | gt => exact List.all_eq_true.1 rfl
  | ge => exact List.all_eq_true.1 rfl
  | lt => exact List.all_eq_true.1 rfl
  | le => exact List.all_eq_true.1 rfl

end Operator

theorem quiet_of_isBlank {c : Char} (h : isBlank c = true) : isQuiet c = true ∧ opensOperator c = false :=
  quiet_of rfl h

/-- The operator behind a text that the search goes over is the one that is found. -/
theorem splitFrom_comparison {t gap more : List Char} (ht : Passes t)
    (hgap : ∀ c ∈ gap, isBlank c = true) (op : Operator) (hmore : ∀ ds, more ≠ '=' :: ds) :
    splitFrom none 0 (t ++ (gap ++ (op.text.toList ++ more))) = some (t ++ gap, op, more) := by
  have hpass : Passes (t ++ gap) := ht.append (passes_of_quiet fun c hc => quiet_of_isBlank (hgap c hc))
  obtain ⟨c, cs, hop, -, hstop⟩ := op.exists_text
  have hread := op.read?_text hmore
  have hsplit : splitFrom none 0 (op.text.toList ++ more) = some ([], op, more) := by
    rw [hop, List.cons_append] at hread ⊢
    rw [splitFrom_cons (none, 0), hstop, hread]
    rfl
  rw [← List.append_assoc, splitFrom_of_scan hpass, hsplit]
  simp

/-! ## A search that is led astray -/

/-- JSON text is cut short: what is left is none. -/
theorem ofText?_shorter {d : Nat} {c : Char} {cs more : List Char} {v : Json}
    (hc : Json.opens c = true) (h : Json.readValue d (c :: (cs ++ more)) = some (v, []))
    (hmore : more ≠ []) : Json.ofText? (c :: cs) = none := by
  cases hw : Json.ofText? (c :: cs) with
  | none => rfl
  | some w =>
    obtain ⟨rest, hread, -⟩ := Json.ofText?_eq_some hw
    have hlonger := Json.readValue_append (Nat.le_refl _) hc hread more
    obtain ⟨-, hnil⟩ := Json.readValue_unique h hlonger
    exact absurd (List.append_eq_nil_iff.1 hnil).2 hmore

/-- More than blanks follows JSON text: the whole is none. -/
theorem ofText?_longer {d : Nat} {c : Char} {cs more : List Char} {v : Json}
    (hc : Json.opens c = true) (h : Json.readValue d (c :: cs) = some (v, []))
    (hmore : ∃ x ∈ more, isBlank x = false) : Json.ofText? (c :: (cs ++ more)) = none := by
  cases hw : Json.ofText? (c :: (cs ++ more)) with
  | none => rfl
  | some w =>
    obtain ⟨rest, hread, hrest⟩ := Json.ofText?_eq_some hw
    have hlonger := Json.readValue_append (Nat.le_refl _) hc h more
    obtain ⟨-, rfl⟩ := Json.readValue_unique hlonger hread
    obtain ⟨x, hx, hblank⟩ := hmore
    have hlayout : Json.isLayout x = true := List.dropWhile_eq_nil_iff.1 hrest x hx
    rw [isLayout_of_not_isBlank hblank] at hlayout
    cases hlayout

theorem isBlank_of_opens {c : Char} (hc : Json.opens c = true) : isBlank c = false := by
  rcases Json.opens_cases hc with rfl | rfl | rfl <;> decide

/-- What opens as JSON text does but is none is no operand. -/
theorem refused_of_ofText? (s : State) {c : Char} (hc : Json.opens c = true) (cs : List Char)
    (h : ∀ ds gap, cs = ds ++ gap → (∀ x ∈ gap, isBlank x = true) → Json.ofText? (c :: ds) = none) :
    ∃ e, evaluateOperand s (Text.trim (c :: cs)) = .error (.unsupported e) ∧
      evaluateOperand s (c :: cs) = .error (.unsupported e) := by
  obtain ⟨ds, gap, htrim, hcs, hgap, htrimmed⟩ := Text.exists_trim_cons (isBlank_of_opens hc) cs
  have hnone : operand? (c :: ds) = none := by
    rw [operand?_of_opens hc, h ds gap hcs hgap]
    rfl
  refine ⟨String.ofList (c :: ds), ?_, ?_⟩
  · unfold evaluateOperand
    rw [htrim, htrimmed.trim_eq]
    dsimp only
    rw [hnone]
  · unfold evaluateOperand
    rw [htrim]
    dsimp only
    rw [hnone]

/-- A part of JSON text is no operand. -/
theorem refused_shorter (s : State) {d : Nat} {c : Char} {cs more : List Char} {v : Json}
    (hc : Json.opens c = true) (h : Json.readValue d (c :: (cs ++ more)) = some (v, []))
    (hmore : more ≠ []) : ∃ e, evaluateOperand s (Text.trim (c :: cs)) = .error (.unsupported e) := by
  obtain ⟨e, he, -⟩ := refused_of_ofText? s hc cs fun ds gap hcs _ => by
    rw [hcs, List.append_assoc] at h
    exact ofText?_shorter hc h fun hnil => hmore (List.append_eq_nil_iff.1 hnil).2
  exact ⟨e, he⟩

/-- JSON text with something behind it is no operand. -/
theorem refused_longer (s : State) {d : Nat} {c : Char} {cs more : List Char} {v : Json}
    (hc : Json.opens c = true) (h : Json.readValue d (c :: cs) = some (v, []))
    (hmore : ∃ x ∈ more, isBlank x = false) :
    ∃ e, evaluateOperand s (Text.trim (c :: (cs ++ more))) = .error (.unsupported e) ∧
      evaluateOperand s (c :: (cs ++ more)) = .error (.unsupported e) := by
  obtain ⟨x, hx, hblank⟩ := hmore
  apply refused_of_ofText? s hc
  intro ds gap heq hgap
  -- what is trimmed off is blank, so something is left behind the JSON text
  rcases List.append_eq_append_iff.1 heq with ⟨rest, rfl, rfl⟩ | ⟨rest, rfl, rfl⟩
  · apply ofText?_longer hc h
    rcases List.mem_append.1 hx with hrest | hrest
    · exact ⟨x, hrest, hblank⟩
    · rw [hgap x hrest] at hblank
      cases hblank
  · rw [hgap x (List.mem_append_right rest hx)] at hblank
    cases hblank

/-- The operands of a comparison are read from left to right. -/
theorem evaluate_of_splitFrom (s : State) {cs l r : List Char} {op : Operator} (h : Trimmed cs)
    (hsplit : splitFrom none 0 cs = some (l, op, r)) :
    evaluate s cs = (evaluateOperand s (Text.trim l)).bind fun a =>
      (evaluateOperand s (Text.trim r)).bind fun b => op.holds a b := by
  obtain ⟨c, cs', rfl, -⟩ := h.head
  unfold evaluate splitComparison
  rw [h.trim_eq]
  dsimp only
  rw [if_neg (List.cons_ne_nil c cs'), hsplit]
  rfl

theorem evaluate_of_splitFrom_eq_none (s : State) {cs : List Char} (h : Trimmed cs)
    (hsplit : splitFrom none 0 cs = none) :
    evaluate s cs = (evaluateOperand s cs).bind fun v => .ok v.truthy := by
  obtain ⟨c, cs', rfl, -⟩ := h.head
  unfold evaluate splitComparison
  rw [h.trim_eq]
  dsimp only
  rw [if_neg (List.cons_ne_nil c cs'), hsplit]
  rfl

section

variable {s : State} {d : Nat} {c : Char} {cs more : List Char} {v : Json}

/-- Where no comparison is found behind JSON text, the whole is taken for one operand. -/
theorem refused_of_splitFrom (hc : Json.opens c = true) (h : Json.readValue d (c :: cs) = some (v, []))
    (hmore : ∃ x ∈ more, isBlank x = false) (htrimmed : Trimmed (c :: cs ++ more))
    (hsplit : splitFrom none 0 (c :: cs ++ more) = none) :
    ∃ e, evaluate s (c :: cs ++ more) = .error (.unsupported e) := by
  obtain ⟨e, -, he⟩ := refused_longer s hc h hmore
  refine ⟨e, ?_⟩
  rw [evaluate_of_splitFrom_eq_none s htrimmed hsplit, List.cons_append, he]
  rfl

/-- An operator character of the text itself is taken for the comparison, or it ends the search. -/
theorem refused_of_scan_eq_none (hc : Json.opens c = true)
    (h : Json.readValue d (c :: cs) = some (v, [])) (hscan : scan (none, 0) (c :: cs) = none)
    (hmore : ∃ x ∈ more, isBlank x = false) (htrimmed : Trimmed (c :: cs ++ more)) :
    ∃ e, evaluate s (c :: cs ++ more) = .error (.unsupported e) := by
  obtain ⟨p, x, y, hcs, hx, hsplit⟩ := splitFrom_of_scan_eq_none hscan
  have hfound := hsplit more
  cases hread : Operator.read? (x :: (y ++ more)) with
  | none =>
    rw [hread] at hfound
    exact refused_of_splitFrom hc h hmore htrimmed hfound
  | some r =>
    rw [hread] at hfound
    cases p with
    | nil =>
      obtain ⟨rfl, -⟩ := List.cons.inj hcs
      rcases Json.opens_cases hc with rfl | rfl | rfl <;> cases hx
    | cons c' p =>
      obtain ⟨rfl, rfl⟩ := List.cons.inj hcs
      obtain ⟨e, he⟩ := refused_shorter s hc h (List.cons_ne_nil x y)
      refine ⟨e, ?_⟩
      rw [evaluate_of_splitFrom s htrimmed hfound, he]
      rfl

/-- What is open after the text hides the quiet characters behind it. -/
theorem refused_of_scan {st : Option Char × Nat} {skipped : List Char} (hc : Json.opens c = true)
    (h : Json.readValue d (c :: cs) = some (v, [])) (hscan : scan (none, 0) (c :: cs) = some st)
    (hst : st ≠ (none, 0)) (hskipped : ∀ x ∈ skipped, isQuiet x = true)
    (hmark : ∃ x ∈ skipped, isBlank x = false)
    (htrimmed : Trimmed (c :: cs ++ (skipped ++ more))) :
    ∃ e, evaluate s (c :: cs ++ (skipped ++ more)) = .error (.unsupported e) := by
  have hlonger : ∀ rest, ∃ x ∈ skipped ++ rest, isBlank x = false := by
    intro rest
    obtain ⟨x, hx, hblank⟩ := hmark
    exact ⟨x, List.mem_append_left rest hx, hblank⟩
  have hstays : scan (none, 0) (c :: cs ++ skipped) = some st := by
    rw [scan_append, hscan]
    exact scan_of_quiet hskipped (isQuote_of_scan hscan nofun) (.inl hst)
  have hfound := splitFrom_of_scan hstays more
  rw [List.append_assoc] at hfound
  cases hrest : splitFrom st.1 st.2 more with
  | none =>
    rw [hrest] at hfound
    exact refused_of_splitFrom hc h (hlonger more) htrimmed hfound
  | some r =>
    rw [hrest] at hfound
    obtain ⟨e, he, -⟩ := refused_longer s hc h (hlonger r.1)
    refine ⟨e, ?_⟩
    rw [evaluate_of_splitFrom s htrimmed hfound, List.append_assoc, List.cons_append, he]
    rfl

/-- A left operand that leads the search astray makes the comparison no predicate. -/
theorem refused_of_not_passes {gap : List Char} (hc : Json.opens c = true)
    (h : Json.readValue d (c :: cs) = some (v, [])) (hpasses : ¬ Passes (c :: cs))
    (hgap : ∀ x ∈ gap, isBlank x = true) (op : Operator)
    (htrimmed : Trimmed (c :: cs ++ (gap ++ (op.text.toList ++ more)))) :
    ∃ e, evaluate s (c :: cs ++ (gap ++ (op.text.toList ++ more))) = .error (.unsupported e) := by
  obtain ⟨mark, _, hop, hblank, -⟩ := op.exists_text
  have hmark : ∃ x ∈ gap ++ op.text.toList, isBlank x = false := by
    refine ⟨mark, List.mem_append_right gap ?_, hblank⟩
    rw [hop]
    exact List.mem_cons_self
  rw [← List.append_assoc gap] at htrimmed ⊢
  cases hscan : scan (none, 0) (c :: cs) with
  | none =>
    obtain ⟨x, hx, hxblank⟩ := hmark
    exact refused_of_scan_eq_none hc h hscan ⟨x, List.mem_append_left more hx, hxblank⟩ htrimmed
  | some st =>
    have hopen : st ≠ (none, 0) := by
      rintro rfl
      exact hpasses hscan
    refine refused_of_scan hc h hscan hopen ?_ hmark htrimmed
    intro x hx
    rcases List.mem_append.1 hx with hgapped | hoperator
    · exact (quiet_of_isBlank (hgap x hgapped)).1
    · exact op.quiet_text x hoperator

end

/-! ## Comparisons -/

/-- What an operator gives for two values: loose equality or its negation, or else a test of their
order, and an error where they have none. -/
inductive Operator.Gives (a b : Json) : Operator → Except EvaluationError Bool → Prop where
  | eq : Gives a b .eq (.ok (a.looselyEqual b))
  | ne : Gives a b .ne (.ok (!a.looselyEqual b))
  | gt {o : Ordering} (h : a.order b = some o) : Gives a b .gt (.ok (o = .gt))
  | ge {o : Ordering} (h : a.order b = some o) : Gives a b .ge (.ok (o = .gt ∨ o = .eq))
  | lt {o : Ordering} (h : a.order b = some o) : Gives a b .lt (.ok (o = .lt))
  | le {o : Ordering} (h : a.order b = some o) : Gives a b .le (.ok (o = .lt ∨ o = .eq))
  | incomparable {op : Operator} (h : a.order b = none) (heq : op ≠ .eq) (hne : op ≠ .ne) :
      Gives a b op (.error (.incomparable a.typeName op b.typeName))

theorem Operator.gives_holds (op : Operator) (a b : Json) : op.Gives a b (op.holds a b) := by
  unfold holds
  cases h : a.order b with
  | none =>
    cases op with
    | eq => exact .eq
    | ne => exact .ne
    | gt | ge | lt | le => exact .incomparable h nofun nofun
  | some o =>
    cases op with
    | eq => exact .eq
    | ne => exact .ne
    | gt => cases o <;> exact .gt h
    | ge => cases o <;> exact .ge h
    | lt => cases o <;> exact .lt h
    | le => cases o <;> exact .le h

/-- An operator gives one result. -/
theorem Operator.Gives.eq_holds {op : Operator} {a b : Json} {r : Except EvaluationError Bool}
    (h : op.Gives a b r) : r = op.holds a b := by
  unfold holds
  cases h with
  | eq => rfl
  | ne => rfl
  | gt h | ge h | lt h | le h =>
    rename_i o
    rw [h]
    cases o <;> rfl
  | incomparable h heq hne =>
    rw [h]
    cases op with
    | eq => exact absurd rfl heq
    | ne => exact absurd rfl hne
    | gt | ge | lt | le => rfl

/-- The text of a comparison, with what stands on either side of the operator. -/
def comparison (l : Term) (gap : List Char) (op : Operator) (gap' : List Char) (r : Term) : String :=
  String.ofList (l.text ++ (gap ++ (op.text.toList ++ (gap' ++ r.text))))

/-- The search goes over the left operand, and both operands are legible. -/
structure Readable (l r : Term) : Prop where
  passes : Passes l.text
  left : l.Legible
  right : r.Legible

/-- No operand makes an operator of a `<` or `>` before it. -/
theorem Term.text_ne_equals {t : Term} (h : t.WellFormed) (cs : List Char) : t.text ≠ '=' :: cs := by
  intro heq
  cases t with
  | path head tail =>
    obtain ⟨⟨c, ds, rfl, hc⟩, -⟩ := h
    rw [(List.cons.inj heq).1] at hc
    cases hc
  | rooted as => cases heq
  | json ds =>
    obtain ⟨-, d, v, hv⟩ := h
    rw [show ds = '=' :: cs from heq] at hv
    have hplain := (Json.plain_of_readValue rfl rfl hv).1 '=' List.mem_cons_self
    cases hplain
  | quoted ds => cases heq
  | word ds =>
    obtain ⟨v, hv⟩ := Option.isSome_iff_exists.1 h
    have hcase := word?_cases hv
    rw [show ds = '=' :: cs from heq] at hcase
    simp at hcase

/-- Where the search goes over the left operand, the two operands are what is read. -/
theorem evaluate_of_passes (s : State) {l r : Term} (hl : l.WellFormed) (hr : r.WellFormed)
    (hpasses : Passes l.text) {gap gap' : List Char} (hgap : ∀ c ∈ gap, isBlank c = true)
    (hgap' : ∀ c ∈ gap', isBlank c = true) (op : Operator)
    (htrimmed : Trimmed (l.text ++ (gap ++ (op.text.toList ++ (gap' ++ r.text))))) :
    evaluate s (l.text ++ (gap ++ (op.text.toList ++ (gap' ++ r.text)))) =
      (evaluateOperand s l.text).bind fun a =>
        (evaluateOperand s r.text).bind fun b => op.holds a b := by
  have hright : ∀ ds, gap' ++ r.text ≠ '=' :: ds := by
    intro ds heq
    cases gap' with
    | nil => exact Term.text_ne_equals hr ds heq
    | cons c gap' =>
      have hblank := hgap' c List.mem_cons_self
      rw [(List.cons.inj heq).1] at hblank
      cases hblank
  have hsplit := splitFrom_comparison hpasses hgap op hright
  have htrim := (Term.trimmed_text hl).trim_pad (List.forall_mem_nil _) hgap
  have htrim' := (Term.trimmed_text hr).trim_pad hgap' (List.forall_mem_nil _)
  rw [List.nil_append] at htrim
  rw [List.append_nil] at htrim'
  rw [evaluate_of_splitFrom s htrimmed hsplit, htrim, htrim']

/-- **Comparisons.**  A comparison of two operands that can be read comes to what its operator gives for
what they denote, and it is refused where one cannot be read.  The search goes over every left operand
in which no quote is escaped. -/
theorem evaluateString_comparison {s : State} {l r : Term} {a b : Json} (hl : l.WellFormed)
    (hr : r.WellFormed) (ha : l.Denotes s a) (hb : r.Denotes s b) {gap gap' : List Char}
    (hgap : ∀ c ∈ gap, isBlank c = true) (hgap' : ∀ c ∈ gap', isBlank c = true) (op : Operator) :
    (Readable l r → op.Gives a b (evaluateString s (comparison l gap op gap' r))) ∧
    (¬ Readable l r →
      ∃ e, evaluateString s (comparison l gap op gap' r) = .error (.unsupported e)) ∧
    (l.Unescaped → Passes l.text) := by
  have htrimmed : Trimmed (l.text ++ (gap ++ (op.text.toList ++ (gap' ++ r.text)))) := by
    have happend := (Term.trimmed_text hl).append (Term.trimmed_text hr) (gap ++ (op.text.toList ++ gap'))
    simp only [List.append_assoc] at happend
    exact happend
  have htext : evaluateString s (comparison l gap op gap' r) =
      evaluate s (l.text ++ (gap ++ (op.text.toList ++ (gap' ++ r.text)))) := by
    rw [evaluateString, comparison, String.toList_ofList]
  rw [htext]
  refine ⟨fun hread => ?_, fun hread => ?_, Term.passes_text hl⟩
  · rw [evaluate_of_passes s hl hr hread.passes hgap hgap' op htrimmed,
      Term.evaluateOperand_text hl ha hread.left, Term.evaluateOperand_text hr hb hread.right]
    exact op.gives_holds a b
  · by_cases hpasses : Passes l.text
    · rw [evaluate_of_passes s hl hr hpasses hgap hgap' op htrimmed]
      by_cases hleft : l.Legible
      · have hright : ¬ r.Legible := fun hright => hread ⟨hpasses, hleft, hright⟩
        rw [Term.evaluateOperand_text hl ha hleft, Term.evaluateOperand_of_not_legible s hr hright]
        exact ⟨_, rfl⟩
      · rw [Term.evaluateOperand_of_not_legible s hl hleft]
        exact ⟨_, rfl⟩
    · obtain ⟨c, cs, d, v, heq, hopens, hv⟩ := Term.opens_of_not_passes hl hpasses
      rw [heq] at hpasses htrimmed ⊢
      exact refused_of_not_passes hopens hv hpasses hgap op htrimmed

/-- Operator characters in a key and in a string are no operators; a list and a string have no order. -/
theorem evaluateString_comparison_marks :
    let s := State.ofFields [("a==b", .arr [.str "<"])]
    evaluateString s "state['a==b'][0] == \"<\"" = .ok true ∧
      evaluateString s "state['a==b'][0] > \"<\"" = .ok false ∧
      evaluateString s "state['a==b'] <= \"<\"" = .error (.incomparable "array" .le "string") := by
  intro s
  let item := Term.rooted [.key '\'' "a==b".toList, .index ['0']]
  let list := Term.rooted [.key '\'' "a==b".toList]
  let mark := Term.json "\"<\"".toList
  have hkey : (Accessor.key '\'' "a==b".toList).WellFormed := ⟨rfl, by decide⟩
  have hindex : (Accessor.index ['0']).WellFormed := ⟨List.cons_ne_nil _ _, List.all_eq_true.1 rfl⟩
  have hitem : item.WellFormed :=
    ⟨List.cons_ne_nil _ _, List.forall_mem_cons.2 ⟨hkey, List.forall_mem_singleton.2 hindex⟩⟩
  have hlist : list.WellFormed := ⟨List.cons_ne_nil _ _, List.forall_mem_singleton.2 hkey⟩
  have hmark : mark.WellFormed :=
    ⟨⟨⟨'"', _, rfl, by decide⟩, ⟨['"', '<'], '"', rfl, by decide⟩⟩, 0, .str "<", rfl⟩
  have hgap : ∀ c ∈ [' '], isBlank c = true := List.all_eq_true.1 rfl
  have hitemDenotes : item.Denotes s (.str "<") := rfl
  have hlistDenotes : list.Denotes s (.arr [.str "<"]) := rfl
  have hmarkDenotes : mark.Denotes s (.str "<") := ⟨0, rfl⟩
  have hfirst : Readable item mark := ⟨rfl, rfl, ⟨.str "<", rfl⟩⟩
  have hsecond : Readable list mark := ⟨rfl, rfl, ⟨.str "<", rfl⟩⟩
  have heq := evaluateString_comparison hitem hmark hitemDenotes hmarkDenotes hgap hgap .eq
  have hgt := evaluateString_comparison hitem hmark hitemDenotes hmarkDenotes hgap hgap .gt
  have hle := evaluateString_comparison hlist hmark hlistDenotes hmarkDenotes hgap hgap .le
  exact ⟨(heq.1 hfirst).eq_holds, (hgt.1 hfirst).eq_holds, (hle.1 hsecond).eq_holds⟩

/-- The comparison of a string with itself is refused where a quote is escaped in it. -/
theorem not_evaluateString_escapedQuote :
    let t := Term.json "\"a\\\"b\"".toList
    let v := Json.str "a\"b"
    t.WellFormed ∧ t.Denotes ∅ v ∧ Operator.eq.Gives v v (.ok true) ∧
      evaluateString ∅ (comparison t [' '] .eq [' '] t) =
        .error (.unsupported "\"a\\\"b\" == \"a\\\"b\"") := by
  intro t v
  have ht : t.Denotes ∅ v := ⟨0, rfl⟩
  refine ⟨⟨⟨⟨'"', _, rfl, by decide⟩, ⟨"\"a\\\"b".toList, '"', rfl, by decide⟩⟩, 0, v, rfl⟩, ht, ?_, ?_⟩
  · exact .eq
  · decide +kernel

end Flowgraph.Predicate
