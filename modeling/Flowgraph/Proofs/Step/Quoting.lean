import Flowgraph.Proofs.Predicate.Quotes
import Flowgraph.Proofs.Step.Decisions
import Flowgraph.Proofs.Template.Substitution

/-!
# Templated values between quotes

A branch step renders its conditions before it evaluates them, so a value of the state that stands
between quotes in a condition becomes part of the predicate as it is.  The condition

    '{{ x }}' == 'w'

renders to the equation of the value and the word (`renderString_quotedCondition`), and what the
predicate then says depends on what the search for a comparison leaves open in the value:

    Passes (Term.quoted x).text → (the step decides for branch-0 ↔ x = w)        (decides_quoted)

A value that holds no single quote passes.  One that does can make the condition hold whatever the
word is: text that opens and ends with a quote is taken for a string, the quotes inside and all.
-/

namespace Flowgraph

open Predicate (Passes Term QuotedHold equation scan splitComparison)

/-! ## Branching on a quoted value -/

namespace BranchConfig

/-- A value of the state and a word, both between quotes. -/
def quotedCondition (name word : String) : String :=
  "'\x7b\x7b " ++ name ++ " \x7d\x7d' == '" ++ word ++ "'"

theorem toList_quotedCondition (name word : String) : (quotedCondition name word).toList =
    '\'' :: '\x7b' :: '\x7b' :: ' ' :: (name.toList ++ ' ' :: '\x7d' :: '\x7d' ::
      ('\'' :: (" == ".toList ++ (Term.quoted word.toList).text))) := by
  simp [quotedCondition, Term.text]

/-- A condition with a text that is not blank is that text. -/
theorem expression_quotedCondition (first : BranchCondition) (name word : String) :
    { first with condition := quotedCondition name word }.expression = quotedCondition name word := by
  obtain ⟨ds, -, htrim, -⟩ := Text.exists_trim_cons (show Text.isBlank '\'' = false by decide)
    (quotedCondition name word).toList.tail
  have hblank : Text.trimmed (quotedCondition name word) ≠ "" := by
    rw [toList_quotedCondition, List.tail_cons, ← toList_quotedCondition] at htrim
    rw [Text.trimmed, htrim, ne_eq, ← String.toList_inj, String.toList_ofList]
    exact List.cons_ne_nil _ _
  rw [BranchCondition.expression, if_pos (.inl hblank)]

/-- The value becomes a part of the predicate as it is. -/
theorem renderString_quotedCondition (S : State) {name word : String}
    (hname : Text.isDottedPath name.toList = true) (hdot : '.' ∉ name.toList)
    (hword : '\x7b' ∉ word.toList) (s : String) :
    Template.renderString (S.insert name (.str s)) (quotedCondition name word) =
      String.ofList (equation s.toList word.toList) := by
  obtain ⟨c, cs, hcons⟩ : ∃ c cs, name.toList = c :: cs := by
    cases hnil : name.toList with
    | nil =>
      rw [hnil] at hname
      cases hname
    | cons c cs => exact ⟨c, cs, rfl⟩
  obtain ⟨hstart, hchars⟩ := Predicate.of_isDottedPath (hcons ▸ hname)
  have hwordy : ∀ d ∈ name.toList, Text.isWordChar d = true := by
    intro d hd
    rcases hchars d (hcons ▸ hd) with hword | rfl
    · exact hword
    · exact absurd hd hdot
  have hpath : DottedPath.WellFormed ⟨name.toList, []⟩ := by
    refine ⟨⟨c, cs, hcons, hstart⟩, List.forall_mem_singleton.2 ⟨?_, hwordy⟩⟩
    rw [hcons]
    exact List.cons_ne_nil c cs
  let slot : Template.Slot := ⟨[' '], ⟨name.toList, []⟩, [' ']⟩
  let template : Template.Written :=
    ⟨['\''], [(slot, '\'' :: (" == ".toList ++ (Term.quoted word.toList).text))]⟩
  have htemplate : template.WellFormed := by
    have hslot : slot.WellFormed := ⟨List.all_eq_true.1 rfl, hpath, List.all_eq_true.1 rfl⟩
    refine ⟨by simp [template], List.forall_mem_singleton.2 hslot, List.forall_mem_singleton.2 ?_⟩
    simp [Term.text, hword]
  have htext : (quotedCondition name word).toList = template.text := by
    rw [toList_quotedCondition]
    simp [template, slot, Template.Written.text, Template.Slot.text, Template.opening, DottedPath.text]
  rw [Template.renderString, htext, Template.Written.render_text htemplate]
  simp [template, slot, Template.Slot.shown, DottedPath.value?_insert, equation, Term.text, Json.display]

/-- Only the first condition is decided for under the first number. -/
theorem decide_eq_first_iff (evaluator : Evaluator) (S : State) (first : BranchCondition)
    (others : List BranchCondition) (hasElse : Bool) :
    decide evaluator { conditions := first :: others, hasElse } S = "branch-0" ↔
      evaluator (Template.renderString S first.expression) S = .ok true := by
  have hfirst : FirstFulfilled evaluator S (first :: others) 0 ↔ Fulfilled evaluator S first := by
    constructor
    · rintro ⟨_, hfulfilled, _⟩
      exact hfulfilled
    · intro hfulfilled
      exact ⟨Nat.zero_lt_succ _, hfulfilled, fun j hj => absurd hj (Nat.not_lt_zero j)⟩
  exact (decide_eq_branch_iff _ 0).trans hfirst

/-- **Values between quotes.**  A branch step whose first condition compares the value of `x` with a
word, both between quotes, decides for it exactly if the two are the same, where the search for a
comparison goes over the quoted value; it does so if the value holds no single quote.  Otherwise the
value is not the word.  A value that leaves another quote or a bracket open then makes the step decide
for the condition whatever the word is, and one in which the search stops makes it depend on the
comparison that is cut out of the value. -/
theorem decides_quoted (S : State) (s word : String) (first : BranchCondition)
    (others : List BranchCondition) (hasElse : Bool) (hword : ∀ c ∈ word.toList, c.isAlpha = true) :
    let config : BranchConfig :=
      { conditions := { first with condition := quotedCondition "x" word } :: others, hasElse }
    let decision := config.decide (fun e S => Predicate.evaluateString S e) (S.insert "x" (.str s))
    let quoted := (Term.quoted s.toList).text
    let compared := splitComparison (equation s.toList word.toList)
    ('\'' ∉ s.toList → Passes quoted) ∧
    (Passes quoted → compared = some (quoted, .eq, (Term.quoted word.toList).text) ∧
      (decision = "branch-0" ↔ s = word)) ∧
    (¬ Passes quoted → s ≠ word ∧
      ((scan (none, 0) ('\'' :: s.toList)).isSome = true → compared = none ∧ decision = "branch-0") ∧
      (scan (none, 0) ('\'' :: s.toList) = none → (decision = "branch-0" ↔
        ∀ l op r, compared = some (l, op, r) → QuotedHold l op r))) := by
  intro config decision quoted compared
  have hchar : ∀ d : Char, d.isAlpha = false → d ∉ word.toList := by
    intro d hd hmem
    rw [hword d hmem] at hd
    cases hd
  have hwords : ∀ c ∈ word.toList, Text.isWordChar c = true := by
    intro c hc
    exact Predicate.isWordChar_of_isWordStart (by rw [Text.isWordStart, hword c hc, Bool.true_or])
  have hdecision : decision = "branch-0" ↔
      Predicate.evaluate (S.insert "x" (.str s)) (equation s.toList word.toList) = .ok true := by
    refine (decide_eq_first_iff _ _ _ _ _).trans ?_
    rw [expression_quotedCondition, renderString_quotedCondition S (by decide) (by decide)
      (hchar '\x7b' rfl), Predicate.evaluateString, String.toList_ofList]
  obtain ⟨hplain, hdata, hopen, hcut⟩ :=
    Predicate.evaluate_equation (s := s.toList) (S.insert "x" (.str s)) hwords
  rw [← hdecision] at hdata hopen hcut
  refine ⟨hplain, fun hpasses => ?_, fun hpasses => ⟨?_, hopen hpasses, hcut hpasses⟩⟩
  · obtain ⟨hcompared, hsame⟩ := hdata hpasses
    exact ⟨hcompared, hsame.trans String.toList_inj⟩
  · intro heq
    apply hpasses
    apply hplain
    rw [heq]
    exact hchar '\'' rfl

/-- An apostrophe in the value is enough: `'it's' == 'fast'` is one string and holds. -/
theorem decides_quoted_apostrophe :
    (∀ c ∈ "fast".toList, c.isAlpha = true) ∧
      ({ conditions := [.ofExpression (quotedCondition "x" "fast")] } : BranchConfig).decide
        (fun e S => Predicate.evaluateString S e) (.insert ∅ "x" (.str "it's")) = "branch-0" := by
  have hword : ∀ c ∈ "fast".toList, c.isAlpha = true := List.all_eq_true.1 rfl
  obtain ⟨-, -, hnot⟩ := decides_quoted ∅ "it's" "fast" {} [] false hword
  exact ⟨hword, ((hnot (by decide)).2.1 (by decide)).2⟩

/-- The value is not always compared with the word. -/
theorem not_decides_quoted_apostrophe :
    ¬ ∀ s word : String, (∀ c ∈ word.toList, c.isAlpha = true) →
      (({ conditions := [.ofExpression (quotedCondition "x" word)] } : BranchConfig).decide
        (fun e S => Predicate.evaluateString S e) (.insert ∅ "x" (.str s)) = "branch-0" ↔ s = word) := by
  intro hall
  have hword : ∀ c ∈ "fast".toList, c.isAlpha = true := List.all_eq_true.1 rfl
  have hdecision : ({ conditions := [.ofExpression (quotedCondition "x" "fast")] } : BranchConfig).decide
      (fun e S => Predicate.evaluateString S e) (.insert ∅ "x" (.str "it's")) = "branch-0" := by
    decide +kernel
  exact absurd ((hall "it's" "fast" hword).1 hdecision) (by decide)

end BranchConfig

end Flowgraph
