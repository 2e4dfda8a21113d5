import Flowgraph.Proofs.State.Merging
import Flowgraph.Proofs.Step.Keys

/-!
# Decisions after merging

A conditional step stores its decision in the state, and the handle that the run leaves through is
read off the state that its update was merged into.  The two fit together whatever was stored before.

A branch step leaves through the handle of the first condition that is fulfilled

    decision = some ("branch-" ++ toString i) ↔ FirstFulfilled ev s c.conditions i    (routed_by_first)

and conditions without a truth value are passed over as those that do not hold are.  An approval step
leaves through `approval` exactly if its input approves, and through `error_path` exactly if the input
decides on a word that is neither an approval nor a rejection (`routed_by_input`).
-/

namespace Flowgraph

variable {σ : Type}

/-- An object that is made of fields with keys of their own has these fields. -/
theorem Json.field?_object_iff {fields : Fields} (hkeys : (fields.map (·.1)).Nodup) {key : String}
    {v : Json} : (Json.object fields).field? key = some v ↔ (key, v) ∈ fields :=
  NameMap.find?_ofList_of_nodup hkeys

/-- Numbers that are written alike are the same. -/
theorem Text.toString_inj {i j : Nat} (h : toString i = toString j) : i = j := by
  rw [Nat.toString_eq_ofList_toDigits, Nat.toString_eq_ofList_toDigits, String.ofList_inj] at h
  have hvalue := congrArg (Nat.ofDigitChars 10 · 0) h
  simpa [Nat.ofDigitChars_ten_toDigits] using hvalue

/-! ## Branches -/

namespace BranchConfig

variable {ev : Evaluator} {s : State}

/-- The predicate of a condition, rendered, is true. -/
def Fulfilled (ev : Evaluator) (s : State) (c : BranchCondition) : Prop :=
  ev (Template.renderString s c.expression) s = .ok true

theorem holds_eq_true_iff {c : BranchCondition} : holds ev s c = true ↔ Fulfilled ev s c := by
  unfold holds Fulfilled
  cases ev (Template.renderString s c.expression) s with
  | error e => exact iff_of_false nofun nofun
  | ok b => simp

/-- The condition at a place is fulfilled, and none before it is. -/
def FirstFulfilled (ev : Evaluator) (s : State) (conditions : List BranchCondition) (i : Nat) : Prop :=
  ∃ h : i < conditions.length, Fulfilled ev s conditions[i] ∧
    ∀ j (hj : j < i), ¬ Fulfilled ev s conditions[j]

theorem findIdx?_holds_iff {conditions : List BranchCondition} {i : Nat} :
    conditions.findIdx? (holds ev s) = some i ↔ FirstFulfilled ev s conditions i := by
  rw [List.findIdx?_eq_some_iff_getElem]
  simp only [holds_eq_true_iff]
  rfl

instance (ev : Evaluator) (s : State) (conditions : List BranchCondition) (i : Nat) :
    Decidable (FirstFulfilled ev s conditions i) :=
  decidable_of_iff _ findIdx?_holds_iff

theorem numbered_ne (i : Nat) (hasElse : Bool) :
    (if hasElse then "else" else "default") ≠ "branch-" ++ toString i := by
  intro heq
  have hhead := congrArg (·.toList.head?) heq
  rw [String.toList_append] at hhead
  cases hasElse <;> cases hhead

/-- A branch step decides for a number exactly if the first condition that is fulfilled has it. -/
theorem decide_eq_branch_iff (c : BranchConfig) (i : Nat) :
    c.decide ev s = "branch-" ++ toString i ↔ FirstFulfilled ev s c.conditions i := by
  rw [← findIdx?_holds_iff]
  unfold decide
  cases c.conditions.findIdx? (holds ev s) with
  | none => exact iff_of_false (numbered_ne i c.hasElse) nofun
  | some j =>
    constructor
    · intro h
      rw [Text.toString_inj ((String.append_right_inj _).1 h)]
    · intro h
      rw [Option.some.inj h]

theorem decide_of_unfulfilled {c : BranchConfig} (h : ∀ x ∈ c.conditions, ¬ Fulfilled ev s x) :
    c.decide ev s = if c.hasElse then "else" else "default" := by
  have hnone : c.conditions.findIdx? (holds ev s) = none := by
    rw [List.findIdx?_eq_none_iff]
    intro x hx
    rw [← Bool.not_eq_true, holds_eq_true_iff]
    exact h x hx
  rw [decide, hnone]

/-- **Branches.**  Once the update of a branch step is merged, the decision that is read off the state
is the number of the first condition that was fulfilled before, or the else path or the default where
none was.  It is all that the update changes, and it takes the place of any decision before it. -/
theorem routed_by_first (c : BranchConfig) (ev : Evaluator) (id : String) (ctx : StepContext) (s : State)
    (memory : σ) :
    ∃ update, (c.step ev id).execute ctx s memory = (⟨.done (.update update), []⟩, memory) ∧
      let after := (s.reduce [update]).1
      let decision := (c.step ev id).decision after memory
      (∀ i, decision = some ("branch-" ++ toString i) ↔ FirstFulfilled ev s c.conditions i) ∧
      ((∀ x ∈ c.conditions, ¬ Fulfilled ev s x) →
        decision = some (if c.hasElse then "else" else "default")) ∧
      after.find? (id ++ "_decision") = decision.map .str ∧
      ∀ key, key ≠ id ++ "_decision" → after.find? key = s.find? key := by
  let update := Json.object [(decisionKey id, .str (c.decide ev s))]
  refine ⟨update, rfl, ?_⟩
  intro after decision
  have hafter : ∀ key, after.find? key =
      if key = decisionKey id then some (.str (c.decide ev s)) else s.find? key := by
    intro key
    rw [State.find?_reduce_singleton]
    show ([(decisionKey id, Json.str (c.decide ev s))].lookup key).or (s.find? key) = _
    rw [NameMap.lookup_cons]
    split <;> rfl
  have hstored : after.find? (decisionKey id) = some (.str (c.decide ev s)) := by
    rw [hafter, if_pos rfl]
  have hdecision : decision = some (c.decide ev s) := by
    show (after.find? (decisionKey id)).bind Json.string? = _
    rw [hstored]
    rfl
  refine ⟨fun i => ?_, fun hnone => ?_, ?_, fun key hkey => ?_⟩
  · rw [hdecision, Option.some_inj]
    exact c.decide_eq_branch_iff i
  · rw [hdecision, decide_of_unfulfilled hnone]
  · rw [hdecision]
    exact hstored
  · exact (hafter key).trans (if_neg hkey)

/-- An unknown name, a comparison that does not hold and one that does, with an old decision. -/
theorem routed_by_first_third :
    let ev : Evaluator := fun e s => Predicate.evaluateString s e
    let c : BranchConfig := { conditions :=
      [.ofExpression "y > 1", .ofExpression "x == '\x7b\x7by\x7d\x7d'", .ofExpression "x", .ofExpression "x"] }
    let s := State.ofFields [("b_decision", .str "branch-7"), ("x", .bool true)]
    ∃ update, (c.step ev "b").execute ⟨"b", "run", 0, true⟩ s () = (⟨.done (.update update), []⟩, ()) ∧
      (c.step ev "b").decision (s.reduce [update]).1 () = some "branch-2" := by
  intro ev c s
  obtain ⟨update, hexecute, hbranch, -⟩ := routed_by_first c ev "b" ⟨"b", "run", 0, true⟩ s ()
  exact ⟨update, hexecute, (hbranch 2).2 (by decide +kernel)⟩

end BranchConfig

/-! ## Approvals -/

namespace ApprovalConfig

/-- An input that decides for neither an approval nor a rejection. -/
def Diverts (c : ApprovalConfig) (input : Json) : Prop :=
  ∃ word, word ≠ "approved" ∧ word ≠ "rejected" ∧ c.Decides input word

/-- What is recorded is neither word exactly if the input diverts. -/
theorem recorded_iff_diverts {c : ApprovalConfig} {input : Json} :
    c.recorded input ≠ approved ∧ c.recorded input ≠ rejected ↔ c.Diverts input := by
  constructor
  · rintro ⟨happroved, hrejected⟩
    exact ⟨_, happroved, hrejected, (recorded_eq_iff_decides hrejected).1 rfl⟩
  · rintro ⟨word, happroved, hrejected, hdecides⟩
    rw [(recorded_eq_iff_decides hrejected).2 hdecides]
    exact ⟨happroved, hrejected⟩

/-- The keys of a record are its own. -/
theorem nodup_keys_record (c : ApprovalConfig) (id : String) (s : State) (input : Json) :
    ((c.record id s input).map (·.1)).Nodup := by
  unfold record decisionKey
  cases c.complaint? input <;> simp [String.append_right_inj]

theorem field?_record_decision (c : ApprovalConfig) (id : String) (s : State) (input : Json) :
    (Json.object (c.record id s input)).field? (decisionKey id) = some (.str (c.recorded input)) := by
  rw [Json.field?_object_iff (c.nodup_keys_record id s input)]
  exact List.mem_append_right _ List.mem_cons_self

theorem isSome_complaint?_iff {c : ApprovalConfig} {input : Json} :
    (c.complaint? input).isSome = true ↔ input.isObject = false ∨ c.lacksComment input = true := by
  unfold complaint?
  cases input.isObject with
  | false => exact iff_of_true rfl (.inl rfl)
  | true => cases c.lacksComment input <;> decide

/-- An error is recorded with the complaint about an input, and only then. -/
theorem isSome_field?_record_error (c : ApprovalConfig) (id : String) (s : State) (input : Json) :
    ((Json.object (c.record id s input)).field? (id ++ "_error")).isSome = true ↔
      (c.complaint? input).isSome = true := by
  simp only [Option.isSome_iff_exists, Json.field?_object_iff (c.nodup_keys_record id s input)]
  unfold record decisionKey
  simp [String.append_right_inj]

/-- **Approvals.**  Once the record of an input is merged, the handle that is read off the state is
that of an approval exactly if the input approves, that of an error exactly if it decides for neither
word, and that of a rejection for any other input.  An error is recorded exactly if the input is no
object or lacks a comment. -/
theorem routed_by_input (c : ApprovalConfig) (id : String) (ctx : StepContext) {s : State} (memory : σ)
    {v : Json} (hdecision : s.find? (id ++ "_decision") = none)
    (hinput : s.find? (id ++ "_human_input") = some v) :
    ∃ update, (c.step id).execute ctx s memory = (⟨.done (.update update), []⟩, memory) ∧
      let handle := (c.step id).decision (s.reduce [update]).1 memory
      (handle = some "approval" ↔ c.Approves v) ∧
      (handle = some "error_path" ↔ c.Diverts v) ∧
      (handle = some "rejection" ↔ ¬ c.Approves v ∧ ¬ c.Diverts v) ∧
      ((update.field? (id ++ "_error")).isSome = true ↔ v.isObject = false ∨
        c.requireComment = true ∧ ¬ HasComment v ∧
          ∃ word, v.field? "decision" = some (.str word) ∧ word ≠ "rejected") := by
  have hexecute : c.execute id ctx s = .update (c.record id s v) := by
    unfold execute decisionKey inputKey
    rw [hdecision, hinput]
  let update := Json.object (c.record id s v)
  refine ⟨update, congrArg (·, memory) hexecute, ?_⟩
  intro handle
  have hstored : (s.reduce [update]).1.find? (decisionKey id) = some (.str (c.recorded v)) := by
    rw [State.find?_reduce_singleton, field?_record_decision]
    rfl
  have hhandle : handle = some (handleOf (c.recorded v)) := by
    show some (decision id (s.reduce [update]).1) = _
    rw [decision, hstored]
    rfl
  obtain ⟨happroval, hrejection, herror⟩ := handleOf_eq_iff (c.recorded v)
  simp only [hhandle, Option.some_inj]
  rw [recorded_eq_iff] at happroval
  rw [recorded_iff_diverts] at herror
  refine ⟨happroval, herror, ?_, ?_⟩
  · rw [hrejection, ← recorded_eq_iff, ← recorded_iff_diverts]
    constructor
    · intro h
      rw [h]
      exact ⟨rejected_ne_approved, fun hneither => hneither.2 rfl⟩
    · rintro ⟨happroved, hneither⟩
      exact Classical.byContradiction fun hrejected => hneither ⟨happroved, hrejected⟩
  · rw [isSome_field?_record_error, isSome_complaint?_iff, lacksComment_iff]
    rfl

/-- A decision of another kind, without the comment that is required. -/
theorem routed_by_input_uncommented :
    let c : ApprovalConfig := { requireComment := true }
    let v := Json.obj [("comment", .str " \n"), ("decision", .str "later")]
    let s := State.ofFields [("r_human_input", v)]
    s.find? "r_decision" = none ∧ s.find? "r_human_input" = some v ∧
      ∃ update, (c.step "r").execute ⟨"r", "run", 0, true⟩ s () = (⟨.done (.update update), []⟩, ()) ∧
        (c.step "r").decision (s.reduce [update]).1 () = some "rejection" ∧
        (update.field? "r_error").isSome = true := by
  intro c v s
  have hdecision : s.find? "r_decision" = none := by decide +kernel
  have hinput : s.find? "r_human_input" = some v := by decide +kernel
  have hcomment : ¬ HasComment v := by
    rintro ⟨comment, hfield, hblank⟩
    cases hfield
    exact hblank (by decide)
  obtain ⟨update, hexecute, -, -, hrejection, herror⟩ :=
    routed_by_input c "r" ⟨"r", "run", 0, true⟩ () hdecision hinput
  refine ⟨hdecision, hinput, update, hexecute, hrejection.2 ⟨?_, ?_⟩, herror.2 (.inr ⟨rfl, hcomment, ?_⟩)⟩
  · rintro ⟨-, -, hrequired⟩
    exact hcomment (hrequired rfl)
  · rintro ⟨word, -, -, -, -, hrequired⟩
    exact hcomment (hrequired rfl)
  · exact ⟨"later", rfl, by decide⟩

end ApprovalConfig

end Flowgraph
