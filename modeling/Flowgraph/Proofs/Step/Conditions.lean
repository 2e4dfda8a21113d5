import Flowgraph.Proofs.Predicate.Comparisons
import Flowgraph.Proofs.Template.Substitution
import Flowgraph.Step.Branch

/-!
# Conditions that are put together

A condition without an expression of its own names a key of the state, an operator and a value.  The
expression that is put together of them goes through the template renderer and the reader of
predicates, and comes out as the comparison that was meant:

    op.Gives v c.compared (evaluateString s (renderString s c.expression))
                                     if v is the value under the key       (evaluate_expression)

The key stands between single quotes and brackets, and may hold none that closes them; the value
stands as a numeral or a word of JSON, or else as a string with all in it escaped that needs to be.  No
placeholder is made by putting the parts together (`unbraced_expression`).
-/

namespace Flowgraph

open Predicate (Term Operator evaluateOperand evaluateString)
open Template (Unbraced)
open Text (isBlank Trimmed)

/-! ## Strings and braces -/

namespace Json

/-- An opening brace is never a part of an escape. -/
theorem eq_of_brace_mem_escapeChar {c : Char} (h : '\x7b' ∈ escapeChar c) : c = '\x7b' := by
  rcases escapeChar_cases c with ⟨x, -, hshort, htext⟩ | ⟨hcontrol, htext⟩ | ⟨-, -, -, htext⟩
  · rw [htext] at h
    simp only [List.mem_cons, List.not_mem_nil, or_false] at h
    rcases h with heq | rfl
    · cases heq
    · cases hshort
  · obtain ⟨x, y, z, w, hescape, hunit⟩ := controlEscape_eq hcontrol
    unfold hexUnit? at hunit
    obtain ⟨_, hx, hunit⟩ := Option.bind_eq_some_iff.1 hunit
    obtain ⟨_, hy, hunit⟩ := Option.bind_eq_some_iff.1 hunit
    obtain ⟨_, hz, hunit⟩ := Option.bind_eq_some_iff.1 hunit
    obtain ⟨_, hw, -⟩ := Option.bind_eq_some_iff.1 hunit
    rw [htext, hescape] at h
    simp only [List.mem_cons, List.not_mem_nil, or_false] at h
    rcases h with heq | heq | rfl | rfl | rfl | rfl
    · cases heq
    · cases heq
    · cases hx
    · cases hy
    · cases hz
    · cases hw
  · rw [htext] at h
    exact (List.mem_singleton.1 h).symm

theorem escapeChar_ne_nil (c : Char) : escapeChar c ≠ [] := by
  rcases escapeChar_cases c with ⟨x, -, -, htext⟩ | ⟨-, htext⟩ | ⟨-, -, -, htext⟩
  · rw [htext]
    exact List.cons_ne_nil _ _
  · rw [htext]
    exact List.cons_ne_nil _ _
  · rw [htext]
    exact List.cons_ne_nil _ _

/-- Escaping brings no two opening braces together. -/
theorem unbraced_escaped {cs : List Char} (h : Unbraced cs) : Unbraced (cs.flatMap escapeChar) := by
  induction cs with
  | nil => exact h
  | cons c cs ih =>
    obtain ⟨hopens, hrest⟩ := Template.unbraced_cons_iff.1 h
    rw [List.flatMap_cons]
    have hchar : Unbraced (escapeChar c) := by
      by_cases hc : c = '\x7b'
      · subst hc
        decide
      · exact .of_not_mem fun hmem => hc (eq_of_brace_mem_escapeChar hmem)
    refine hchar.append (ih hrest) fun hlast hhead => hopens ⟨?_, ?_⟩
    · exact eq_of_brace_mem_escapeChar (List.mem_of_getLast? hlast)
    · cases cs with
      | nil => cases hhead
      | cons d cs =>
        rw [List.flatMap_cons, List.head?_append_of_ne_nil _ (escapeChar_ne_nil d)] at hhead
        exact congrArg some (eq_of_brace_mem_escapeChar (List.mem_of_head? hhead))

theorem unbraced_stringText {cs : List Char} (h : Unbraced cs) : Unbraced (stringText cs) := by
  have hquote : Unbraced ['"'] := by decide
  have hbody := (unbraced_escaped h).append hquote (fun _ => by decide)
  exact hquote.append hbody fun hlast => absurd hlast (by decide)

/-- What a text without blanks at its ends denotes is read up to its end. -/
theorem readValue_of_trimmed {cs : List Char} {v : Json} (hcs : Trimmed cs) (h : ofText? cs = some v) :
    readValue depthLimit cs = some (v, []) := by
  obtain ⟨rest, hread, hlayout⟩ := ofText?_eq_some h
  obtain ⟨t, ht, -⟩ := steady_readValue (Nat.le_refl _) _ _ _ hread
  -- only layout is left over, and the text does not end in layout
  cases hrest : rest.getLast? with
  | none =>
    rw [List.getLast?_eq_none_iff.1 hrest] at hread
    exact hread
  | some c =>
    obtain ⟨ds, d, hds, hd⟩ := hcs.last
    have hlast : cs.getLast? = some c := by
      rw [ht, List.getLast?_append, hrest]
      rfl
    rw [hds, List.getLast?_concat] at hlast
    have hblank : isLayout c = true :=
      List.dropWhile_eq_nil_iff.1 hlayout c (List.mem_of_getLast? hrest)
    rw [← Option.some.inj hlast, Predicate.isLayout_of_not_isBlank hd] at hblank
    cases hblank

end Json

/-! ## The two operands -/

namespace Predicate

/-- A key of the state between quotes and brackets, whatever else it holds. -/
theorem evaluateOperand_key (s : State) {key : List Char} (hquote : '\'' ∉ key) (hbracket : ']' ∉ key) :
    evaluateOperand s (Term.rooted [.key '\'' key]).text = match s.find? (String.ofList key) with
      | none => .error (.unknownVariable (String.ofList key))
      | some v => .ok v := by
  have hkey : (Term.rooted [.key '\'' key]).WellFormed :=
    ⟨List.cons_ne_nil _ _, List.forall_mem_singleton.2 ⟨rfl, hquote⟩⟩
  have hlegible : [Accessor.key '\'' key].all Accessor.legible = true := by
    simp [Accessor.legible, hbracket]
  unfold evaluateOperand
  rw [(Term.trimmed_text hkey).trim_eq]
  dsimp only
  rw [Term.operand?_rooted hkey, if_pos hlegible]
  show Operand.resolve s (.path [String.ofList key]) = _
  unfold Operand.resolve
  dsimp only
  cases hfound : s.find? (String.ofList key) with
  | none => rw [String.intercalate_singleton]; rfl
  | some v => rfl

end Predicate

namespace BranchCondition

/-- What a condition compares with: the number, truth value or null that its value denotes as JSON
text, and otherwise the value itself as a string. -/
def compared (c : BranchCondition) : Json :=
  match Json.ofString? (Text.trimmed c.value) with
  | some (.num n) => .num n
  | some (.bool b) => .bool b
  | some .null => .null
  | _ => .str c.value

/-- A trimmed text that is read as a value, up to its end. -/
structure Spells (cs : List Char) (v : Json) : Prop where
  trimmed : Trimmed cs
  read : Json.readValue Json.depthLimit cs = some (v, [])

theorem spells_trimmed {value : String} {v : Json} (h : Json.ofString? (Text.trimmed value) = some v) :
    Spells (Text.trimmed value).toList v := by
  rw [Json.ofString?, Text.trimmed, String.toList_ofList] at h
  rw [Text.trimmed, String.toList_ofList]
  have htrimmed : Trimmed (Text.trim value.toList) := by
    apply Text.trimmed_trim
    intro hnil
    rw [hnil] at h
    cases h
  exact ⟨htrimmed, Json.readValue_of_trimmed htrimmed h⟩

theorem spells_string (value : String) : Spells (Json.str value).compact.toList (.str value) := by
  have hread := Json.readsBack_str (d := Json.depthLimit) value [] nofun
  rw [List.append_nil] at hread
  rw [Json.compact, String.toList_ofList]
  refine ⟨⟨⟨'"', _, rfl, by decide⟩, ⟨'"' :: value.toList.flatMap Json.escapeChar, '"', rfl, by decide⟩⟩, ?_⟩
  exact hread

theorem spells_operandText (c : BranchCondition) :
    Spells (operandText c.value).toList c.compared := by
  unfold operandText compared
  dsimp only
  cases h : Json.ofString? (Text.trimmed c.value) with
  | none => exact spells_string c.value
  | some v =>
    cases v with
    | null => exact spells_trimmed h
    | bool b => exact spells_trimmed h
    | num n => exact spells_trimmed h
    | str t => exact spells_string c.value
    | arr items => exact spells_string c.value
    | obj fields => exact spells_string c.value

theorem unbraced_operandText {value : String} (h : Unbraced value.toList) :
    Unbraced (operandText value).toList := by
  have htrimmed : Unbraced (Text.trimmed value).toList := by
    rw [Text.trimmed, String.toList_ofList]
    exact h.of_infix (Text.trim_infix _)
  have hstring : Unbraced (Json.str value).compact.toList := by
    rw [Json.compact, String.toList_ofList]
    exact Json.unbraced_stringText h
  unfold operandText
  dsimp only
  split
  · exact htrimmed
  · exact htrimmed
  · exact htrimmed
  · exact hstring

/-! ## The expression -/

variable {c : BranchCondition} {op : Operator}

/-- A condition without an expression, for a key that can be written. -/
structure Structured (c : BranchCondition) (op : Operator) : Prop where
  blank : ∀ x ∈ c.condition.toList, isBlank x = true
  named : c.subject ≠ ""
  unquoted : '\'' ∉ c.subject.toList
  unclosed : ']' ∉ c.subject.toList
  subject : Unbraced c.subject.toList
  operator : c.operator = op.text
  value : Unbraced c.value.toList

theorem expression_eq (h : c.Structured op) :
    c.expression = "state['" ++ c.subject ++ "'] " ++ op.text ++ " " ++ operandText c.value := by
  have hblank : Text.trimmed c.condition = "" := by
    rw [Text.trimmed, Text.trim_of_blank h.blank, String.ofList_nil]
  rw [expression, if_neg, h.operator]
  rintro (hcondition | hsubject)
  · exact hcondition hblank
  · exact h.named hsubject

/-- The two operands of the expression. -/
def leftOperand (c : BranchCondition) : Term := .rooted [.key '\'' c.subject.toList]

def rightOperand (c : BranchCondition) : Term := .json (operandText c.value).toList

theorem toList_expression (h : c.Structured op) : c.expression.toList =
    c.leftOperand.text ++ ([' '] ++ (op.text.toList ++ ([' '] ++ c.rightOperand.text))) := by
  rw [expression_eq h]
  simp [leftOperand, rightOperand, Term.text, Predicate.Accessor.text]

theorem wellFormed_leftOperand (h : c.Structured op) : c.leftOperand.WellFormed :=
  ⟨List.cons_ne_nil _ _, List.forall_mem_singleton.2 ⟨rfl, h.unquoted⟩⟩

theorem wellFormed_rightOperand (c : BranchCondition) : c.rightOperand.WellFormed :=
  ⟨(spells_operandText c).trimmed, Json.depthLimit, c.compared, (spells_operandText c).read⟩

/-- No placeholder is made where the parts of the expression meet. -/
theorem unbraced_expression (h : c.Structured op) : Unbraced c.expression.toList := by
  have hopening : Unbraced "state['".toList := by decide
  have hclosing : Unbraced "'] ".toList := by decide
  have hoperator : Unbraced (op.text.toList ++ [' ']) := by cases op <;> decide
  have hend : (op.text.toList ++ [' ']).getLast? ≠ some '\x7b' := by
    rw [List.getLast?_concat]
    decide
  have hright := hoperator.append (unbraced_operandText h.value) fun hlast => absurd hlast hend
  have hcomparison := hclosing.append hright fun hlast => absurd hlast (by decide)
  -- a key may end in a brace: what follows it is a quote
  have hsubject := h.subject.append hcomparison fun _ hhead => by cases hhead
  have hwhole := hopening.append hsubject fun hlast => absurd hlast (by decide)
  rw [expression_eq h]
  simpa using hwhole

/-- **Conditions that are put together.**  What a condition without an expression says of a state is
what its operator gives for the value under its key and for what it compares with; where there is no
such value, the key is named as unknown. -/
theorem evaluate_expression (h : c.Structured op) (s : State) :
    (s.find? c.subject = none →
      evaluateString s (Template.renderString s c.expression) =
        .error (.unknownVariable c.subject)) ∧
    (∀ v, s.find? c.subject = some v →
      op.Gives v c.compared (evaluateString s (Template.renderString s c.expression))) := by
  have hblank : ∀ x ∈ [' '], isBlank x = true := List.all_eq_true.1 rfl
  have hl := wellFormed_leftOperand h
  have hr := wellFormed_rightOperand c
  have htrimmed : Trimmed c.expression.toList := by
    have happend := (Term.trimmed_text hl).append (Term.trimmed_text hr)
      ([' '] ++ (op.text.toList ++ [' ']))
    simp only [List.append_assoc] at happend
    rw [toList_expression h]
    exact happend
  have hleft : evaluateOperand s c.leftOperand.text = match s.find? c.subject with
      | none => .error (.unknownVariable c.subject)
      | some v => .ok v := by
    have hkey := Predicate.evaluateOperand_key s h.unquoted h.unclosed
    rw [String.ofList_toList] at hkey
    exact hkey
  have hright : evaluateOperand s c.rightOperand.text = .ok c.compared :=
    Term.evaluateOperand_text hr ⟨_, (spells_operandText c).read⟩ ⟨_, (spells_operandText c).read⟩
  rw [Template.renderString_of_unbraced s (unbraced_expression h), evaluateString]
  rw [toList_expression h] at htrimmed ⊢
  rw [Predicate.evaluate_of_passes s hl hr (Term.passes_text hl trivial) hblank hblank op htrimmed,
    hleft, hright]
  constructor
  · intro hfound
    rw [hfound]
    rfl
  · intro v hfound
    rw [hfound]
    exact op.gives_holds v c.compared

/-- A key with an operator and a bracket in it, and a value with quotes, a backslash and a brace. -/
def intricate : BranchCondition where
  condition := " \t"
  subject := "a\" >= [b"
  operator := "<="
  value := " '\\\" == [\x7b"

theorem structured_intricate : intricate.Structured .le where
  blank := List.all_eq_true.1 rfl
  named := by decide
  unquoted := by decide
  unclosed := by decide
  subject := by decide
  operator := rfl
  value := by decide

/-- The value is compared with strings, and with a list it has no order. -/
theorem evaluate_expression_intricate :
    let s := fun v => State.ofFields [("a\" >= [b", v)]
    let result := fun v => evaluateString (s v) (Template.renderString (s v) intricate.expression)
    intricate.Structured .le ∧
      result (.str " '\\\" == [\x7b") = .ok true ∧ result (.str "a") = .ok false ∧
      result (.arr []) = .error (.incomparable "array" .le "string") ∧
      evaluateString ∅ (Template.renderString ∅ intricate.expression) =
        .error (.unknownVariable "a\" >= [b") := by
  intro s result
  have hgives : ∀ v, result v = Operator.le.holds v intricate.compared := fun v =>
    ((evaluate_expression structured_intricate (s v)).2 v rfl).eq_holds
  refine ⟨structured_intricate, (hgives _).trans ?_, (hgives _).trans ?_, (hgives _).trans ?_,
    (evaluate_expression structured_intricate ∅).1 rfl⟩
  · decide +kernel
  · decide +kernel
  · decide +kernel

end BranchCondition

end Flowgraph
