import Flowgraph.Step.Registry

/-!
# Keys of steps

Which keys of the state the built-in steps write and wait for.  A key is the id of a
node and an ending, and endings that differ keep the keys of all ids apart
(`append_ne_append`).

    key ∉ builtinKeys n.id → step.Keeps n.id key                 (keeps_of_create_builtin)

An approval step waits for its own input only, and decides for `approval` only on an
input that approves                                       (written_cases, recorded_eq_iff)
-/

namespace Flowgraph

variable {σ : Type}

/-! ## Endings -/

namespace Text

/-- Whether two endings differ somewhere, counted from the end. -/
def endsDiffer (x y : String) : Bool :=
  (List.zip x.toList.reverse y.toList.reverse).any fun p => p.1 != p.2

theorem append_ne_append_of_any {l m : List Char} (h : (List.zip l m).any (fun p => p.1 != p.2) = true)
    (s t : List Char) : l ++ s ≠ m ++ t := by
  induction l generalizing m with
  | nil => simp at h
  | cons c l ih =>
    cases m with
    | nil => simp at h
    | cons d m =>
      intro heq
      simp only [List.cons_append, List.cons.injEq] at heq
      obtain ⟨rfl, heq⟩ := heq
      simp only [List.zip_cons_cons, List.any_cons, bne_self_eq_false, Bool.false_or] at h
      exact ih h heq

/-- Endings that differ make names differ. -/
theorem append_ne_append {x y : String} (h : endsDiffer x y = true) (a b : String) :
    a ++ x ≠ b ++ y := by
  intro heq
  refine append_ne_append_of_any h a.toList.reverse b.toList.reverse ?_
  rw [← List.reverse_append, ← List.reverse_append, ← String.toList_append,
    ← String.toList_append, heq]

end Text

/-! ## Keys that a step keeps -/

theorem Json.mem_of_object {fields fields' : Fields} (h : Json.object fields = .obj fields')
    {f : String × Json} (hf : f ∈ fields') : f ∈ fields := by
  unfold object at h
  rw [← Json.obj.inj h] at hf
  exact NameMap.mem_of_find?_ofList (NameMap.find?_eq_some_iff.2 hf)

namespace Step

/-- A step neither writes a key nor waits for input under it. -/
def Avoids (step : Step σ) (node key : String) : Prop :=
  ∀ ctx s memory, ctx.node = node →
    (∀ fields v, (step.execute ctx s memory).1.attempt = .done (.update (.obj fields)) →
      (key, v) ∉ fields) ∧
    ∀ payload, (step.execute ctx s memory).1.attempt ≠ .done (.suspend key payload)

/-- A step writes a key only with the value that it has, and never waits for input under it. -/
def Keeps (step : Step σ) (node key : String) : Prop :=
  ∀ ctx s memory, ctx.node = node →
    (∀ fields v, (step.execute ctx s memory).1.attempt = .done (.update (.obj fields)) →
      (key, v) ∈ fields → s.find? key = some v) ∧
    ∀ payload, (step.execute ctx s memory).1.attempt ≠ .done (.suspend key payload)

theorem Avoids.keeps {step : Step σ} {node key : String} (h : step.Avoids node key) :
    step.Keeps node key := by
  intro ctx s memory hnode
  obtain ⟨hwrites, hawaits⟩ := h ctx s memory hnode
  exact ⟨fun fields v hf hmem => absurd hmem (hwrites fields v hf), hawaits⟩

/-- A step that gives an update at once keeps a key that it writes only with the value it has. -/
theorem keeps_of_update {step : Step σ} {node key : String}
    (fields : StepContext → State → Fields)
    (hstep : ∀ ctx s memory, (step.execute ctx s memory).1 = .update (fields ctx s))
    (h : ∀ ctx s v, ctx.node = node → (key, v) ∈ fields ctx s → s.find? key = some v) :
    step.Keeps node key := by
  intro ctx s memory hnode
  rw [hstep]
  refine ⟨fun fields' v hf hmem => ?_, fun payload hf => ?_⟩
  · have hobject : Json.object (fields ctx s) = .obj fields' := by
      simpa [Execution.update] using hf
    exact h ctx s v hnode (Json.mem_of_object hobject hmem)
  · simp [Execution.update] at hf

end Step

/-! ## Approvals -/

namespace ApprovalConfig

/-- A comment that says something. -/
def HasComment (input : Json) : Prop :=
  ∃ comment, input.field? "comment" = some (.str comment) ∧ Text.trimmed comment ≠ ""

/-- An input that decides on a word: an object with that decision, and with a comment if one is
required. -/
def Decides (c : ApprovalConfig) (input : Json) (word : String) : Prop :=
  input.isObject = true ∧ input.field? "decision" = some (.str word) ∧
    (c.requireComment = true → HasComment input)

/-- An input that approves. -/
def Approves (c : ApprovalConfig) (input : Json) : Prop := c.Decides input "approved"

theorem inputText?_eq_some_iff {input : Json} {key text : String} :
    inputText? input key = some text ↔ input.field? key = some (.str text) := by
  unfold inputText?
  cases input.field? key with
  | none => simp
  | some v => cases v <;> simp [Json.string?]

theorem isObject_of_field? {input : Json} {key : String} {v : Json}
    (h : input.field? key = some v) : input.isObject = true := by
  cases input with
  | obj fields => rfl
  | _ => cases h

theorem rejected_ne_approved : rejected ≠ approved := by
  decide

theorem trimmed_comment_iff {input : Json} :
    Text.trimmed ((inputText? input "comment").getD "") = "" ↔ ¬ HasComment input := by
  unfold HasComment
  simp only [← inputText?_eq_some_iff]
  cases inputText? input "comment" with
  | none => exact iff_of_true (by decide) nofun
  | some comment => simp

theorem decision_ne_rejected_iff {input : Json} :
    (inputText? input "decision").getD rejected ≠ rejected ↔
      ∃ word, input.field? "decision" = some (.str word) ∧ word ≠ rejected := by
  simp only [← inputText?_eq_some_iff]
  cases inputText? input "decision" with
  | none => simp
  | some word => simp

/-- Only a decision that is no rejection lacks a comment. -/
theorem lacksComment_iff {c : ApprovalConfig} {input : Json} :
    c.lacksComment input = true ↔ c.requireComment = true ∧ ¬ HasComment input ∧
      ∃ word, input.field? "decision" = some (.str word) ∧ word ≠ rejected := by
  unfold lacksComment
  simp only [Bool.and_eq_true, beq_iff_eq, bne_iff_ne, trimmed_comment_iff, decision_ne_rejected_iff]
  constructor
  · rintro ⟨⟨⟨-, hrequired⟩, hcomment⟩, hword⟩
    exact ⟨hrequired, hcomment, hword⟩
  · rintro ⟨hrequired, hcomment, word, hfield, hword⟩
    exact ⟨⟨⟨isObject_of_field? hfield, hrequired⟩, hcomment⟩, word, hfield, hword⟩

/-- A word that is no rejection is recorded exactly if the input decides on it. -/
theorem recorded_eq_iff_decides {c : ApprovalConfig} {input : Json} {word : String}
    (hword : word ≠ rejected) : c.recorded input = word ↔ c.Decides input word := by
  unfold recorded
  by_cases hlacks : c.lacksComment input = true
  · rw [if_pos hlacks]
    obtain ⟨hrequired, hcomment, -⟩ := lacksComment_iff.1 hlacks
    exact iff_of_false hword.symm fun hdecides => hcomment (hdecides.2.2 hrequired)
  · rw [if_neg hlacks]
    constructor
    · intro h
      cases hd : inputText? input "decision" with
      | none =>
        rw [hd] at h
        exact absurd h.symm hword
      | some decision =>
        rw [hd] at h
        cases h
        have hfield := inputText?_eq_some_iff.1 hd
        refine ⟨isObject_of_field? hfield, hfield, fun hrequired => ?_⟩
        exact Classical.byContradiction fun hcomment =>
          hlacks (lacksComment_iff.2 ⟨hrequired, hcomment, _, hfield, hword⟩)
    · rintro ⟨-, hfield, -⟩
      rw [inputText?_eq_some_iff.2 hfield]
      rfl

/-- What is recorded as approved is what approves. -/
theorem recorded_eq_iff {c : ApprovalConfig} {input : Json} :
    c.recorded input = approved ↔ c.Approves input :=
  recorded_eq_iff_decides rejected_ne_approved.symm

/-- Each handle stands for a word of its own, and the last one for all others. -/
theorem handleOf_eq_iff (word : String) :
    (handleOf word = "approval" ↔ word = approved) ∧
    (handleOf word = "rejection" ↔ word = rejected) ∧
    (handleOf word = "error_path" ↔ word ≠ approved ∧ word ≠ rejected) := by
  unfold handleOf
  by_cases happroved : word = approved
  · subst happroved
    decide
  by_cases hrejected : word = rejected
  · subst hrejected
    decide
  · simp [happroved, hrejected]

/-- The approval handle is that of a recorded approval. -/
theorem decision_eq_approval_iff {id : String} {s : State} :
    decision id s = "approval" ↔ s.find? (decisionKey id) = some (.str approved) := by
  unfold decision
  rw [(handleOf_eq_iff _).1]
  cases s.find? (decisionKey id) with
  | none => exact iff_of_false rejected_ne_approved nofun
  | some v =>
    cases v with
    | str text => simp [Json.string?]
    | _ => exact iff_of_false rejected_ne_approved nofun

/-- The keys beside that of the decision that an approval step writes. -/
def noteKeys (id : String) : List String :=
  [id ++ "_error", id ++ "_comment", id ++ "_user_input", id ++ "_hilp_info"]

theorem mem_record {c : ApprovalConfig} {id key : String} {s : State} {input v : Json}
    (h : (key, v) ∈ c.record id s input) :
    key = decisionKey id ∧ v = .str (c.recorded input) ∨ key ∈ noteKeys id := by
  unfold record at h
  rcases List.mem_append.1 h with herror | hrest
  · right
    simp only [Option.mem_toList, Option.map_eq_some_iff, Prod.mk.injEq] at herror
    obtain ⟨text, -, rfl, -⟩ := herror
    exact List.mem_cons_self
  · simp only [List.mem_cons, Prod.mk.injEq, List.not_mem_nil, or_false] at hrest
    rcases hrest with ⟨rfl, rfl⟩ | ⟨rfl, -⟩ | ⟨rfl, -⟩ | ⟨rfl, -⟩
    · exact .inl ⟨rfl, rfl⟩
    · exact .inr (by simp [noteKeys])
    · exact .inr (by simp [noteKeys])
    · exact .inr (by simp [noteKeys])

/-- What an approval step answers: its decision again, the record of its input, or a request for
input. -/
theorem attempt_cases (c : ApprovalConfig) (id : String) (ctx : StepContext) (s : State) :
    (∃ v, s.find? (decisionKey id) = some v ∧
      (c.execute id ctx s).attempt = .done (.update (.object [(decisionKey id, v)]))) ∨
    (∃ input, s.find? (inputKey id) = some input ∧
      (c.execute id ctx s).attempt = .done (.update (.object (c.record id s input)))) ∨
    (c.execute id ctx s).attempt = .done (.suspend (inputKey id) (c.request id s)) := by
  unfold execute
  split
  · rename_i v hv
    exact .inl ⟨v, hv, rfl⟩
  · split
    · rename_i input hinput
      exact .inr (.inl ⟨input, hinput, rfl⟩)
    · exact .inr (.inr rfl)

/-- An approval step writes its decision again, or the one that its input is recorded as, and
notes. -/
theorem written_cases {c : ApprovalConfig} {id key : String} {ctx : StepContext} {s : State}
    {fields : Fields} {v : Json} (h : (c.execute id ctx s).attempt = .done (.update (.obj fields)))
    (hv : (key, v) ∈ fields) :
    key = decisionKey id ∧ (s.find? (decisionKey id) = some v ∨
      ∃ input, s.find? (inputKey id) = some input ∧ v = .str (c.recorded input)) ∨
    key ∈ noteKeys id := by
  rcases c.attempt_cases id ctx s with ⟨u, hu, ha⟩ | ⟨input, hinput, ha⟩ | ha
  · rw [ha] at h
    have hmem := Json.mem_of_object (by simpa using h) hv
    simp only [List.mem_singleton, Prod.mk.injEq] at hmem
    obtain ⟨rfl, rfl⟩ := hmem
    exact .inl ⟨rfl, .inl hu⟩
  · rw [ha] at h
    rcases mem_record (Json.mem_of_object (by simpa using h) hv) with ⟨rfl, hrec⟩ | hnote
    · exact .inl ⟨rfl, .inr ⟨input, hinput, hrec⟩⟩
    · exact .inr hnote
  · rw [ha] at h
    cases h

theorem awaited_eq {c : ApprovalConfig} {id key : String} {ctx : StepContext} {s : State}
    {payload : Json} (h : (c.execute id ctx s).attempt = .done (.suspend key payload)) :
    key = inputKey id := by
  rcases c.attempt_cases id ctx s with ⟨u, -, ha⟩ | ⟨input, -, ha⟩ | ha
  · rw [ha] at h
    cases h
  · rw [ha] at h
    cases h
  · rw [ha] at h
    cases h
    rfl

theorem decisionKey_not_mem_noteKeys (a b : String) : decisionKey a ∉ noteKeys b := by
  unfold decisionKey noteKeys
  simp only [List.mem_cons, List.not_mem_nil, or_false, not_or]
  exact ⟨Text.append_ne_append (by decide) a b, Text.append_ne_append (by decide) a b,
    Text.append_ne_append (by decide) a b, Text.append_ne_append (by decide) a b⟩

theorem inputKey_not_mem_noteKeys (a b : String) : inputKey a ∉ noteKeys b := by
  unfold inputKey noteKeys
  simp only [List.mem_cons, List.not_mem_nil, or_false, not_or]
  exact ⟨Text.append_ne_append (by decide) a b, Text.append_ne_append (by decide) a b,
    Text.append_ne_append (by decide) a b, Text.append_ne_append (by decide) a b⟩

theorem inputKey_ne_decisionKey (a b : String) : inputKey a ≠ decisionKey b :=
  Text.append_ne_append (by decide) a b

end ApprovalConfig

/-! ## Built-in steps -/

/-- The keys that the built-in step of a node can write beside declared inputs, or wait for. -/
def builtinKeys (id : String) : List String :=
  ["outputs", id ++ "_outputs", ApprovalConfig.decisionKey id, ApprovalConfig.inputKey id] ++
    ApprovalConfig.noteKeys id

namespace StartConfig

/-- What a start step publishes is in the state. -/
theorem keeps (c : StartConfig) (node key : String) : (c.step (σ := σ)).Keeps node key := by
  refine Step.keeps_of_update (fun _ s => c.published s) (fun _ _ _ => rfl) ?_
  intro ctx s v _ hmem
  simp only [published, List.mem_filterMap, Option.map_eq_some_iff, Prod.mk.injEq] at hmem
  obtain ⟨i, -, u, hu, rfl, rfl⟩ := hmem
  exact hu

end StartConfig

theorem EndConfig.keeps (c : EndConfig) {node key : String} (h : key ∉ builtinKeys node) :
    (c.step (σ := σ)).Keeps node key := by
  refine Step.keeps_of_update (fun ctx s =>
    [(ctx.key "outputs", c.rendered s), ("outputs", c.rendered s)]) (fun _ _ _ => rfl) ?_
  intro ctx s v hnode hmem
  simp only [List.mem_cons, Prod.mk.injEq, List.not_mem_nil, or_false] at hmem
  rcases hmem with ⟨hkey, -⟩ | ⟨hkey, -⟩
  · rw [StepContext.key, hnode] at hkey
    refine absurd ?_ h
    rw [hkey]
    simp [builtinKeys, String.append_assoc]
  · refine absurd ?_ h
    rw [hkey]
    simp [builtinKeys]

theorem BranchConfig.keeps (c : BranchConfig) (ev : Evaluator) {node key : String}
    (h : key ∉ builtinKeys node) : (c.step (σ := σ) ev node).Keeps node key := by
  refine Step.keeps_of_update (fun _ s =>
    [(decisionKey node, .str (c.decide ev s))]) (fun _ _ _ => rfl) ?_
  intro ctx s v hnode hmem
  simp only [List.mem_singleton, Prod.mk.injEq] at hmem
  refine absurd ?_ h
  rw [hmem.1]
  simp [builtinKeys, decisionKey, ApprovalConfig.decisionKey]

theorem ApprovalConfig.keeps (c : ApprovalConfig) {node key : String}
    (h : key ∉ builtinKeys node) : (c.step (σ := σ) node).Keeps node key := by
  intro ctx s memory _
  refine ⟨fun fields v hf hmem => ?_, fun payload hf => ?_⟩
  · rcases written_cases hf hmem with ⟨rfl, -⟩ | hnote
    · exact absurd (by simp [builtinKeys]) h
    · exact absurd (List.mem_append_right _ hnote) h
  · cases awaited_eq hf
    exact absurd (by simp [builtinKeys]) h

theorem made_of_return {α : Type} {made : Except StepError α} (f : α → Step σ) {step : Step σ}
    (h : (do return f (← made)) = .ok step) : ∃ c, made = .ok c ∧ step = f c := by
  cases made with
  | error e => cases h
  | ok c => exact ⟨c, rfl, (Except.ok.inj h).symm⟩

/-- The built-in steps by the types of their nodes. -/
theorem create_builtin_cases {ev : Evaluator} {n : Node} {step : Step σ}
    (hc : (Registry.builtin ev).create n = .ok step) :
    (n.type = .start ∧ ∃ c : StartConfig, step = c.step) ∨
      (n.type = .finish ∧ ∃ c : EndConfig, step = c.step) ∨
      (n.type = .branch ∧ ∃ c : BranchConfig, step = c.step ev n.id) ∨
      (n.type = .approval ∧ ∃ c, Step.config ApprovalConfig.decode n = .ok c ∧
        step = c.step n.id) := by
  unfold Registry.create at hc
  cases ht : n.type with
  | start =>
    rw [ht] at hc
    obtain ⟨c, -, hstep⟩ := made_of_return (fun c : StartConfig => c.step) hc
    exact .inl ⟨rfl, c, hstep⟩
  | finish =>
    rw [ht] at hc
    obtain ⟨c, -, hstep⟩ := made_of_return (fun c : EndConfig => c.step) hc
    exact .inr (.inl ⟨rfl, c, hstep⟩)
  | branch =>
    rw [ht] at hc
    obtain ⟨c, -, hstep⟩ := made_of_return (fun c : BranchConfig => c.step ev n.id) hc
    exact .inr (.inr (.inl ⟨rfl, c, hstep⟩))
  | approval =>
    rw [ht] at hc
    obtain ⟨c, hconfig, hstep⟩ := made_of_return (fun c : ApprovalConfig => c.step n.id) hc
    exact .inr (.inr (.inr ⟨rfl, c, hconfig, hstep⟩))
  | step kind =>
    rw [ht] at hc
    cases hc

theorem create_builtin_approval {ev : Evaluator} {n : Node} {step : Step σ}
    (hc : (Registry.builtin ev).create n = .ok step) (ht : n.type = .approval) :
    ∃ c, Step.config ApprovalConfig.decode n = .ok c ∧ step = c.step n.id := by
  rcases create_builtin_cases hc with ⟨hother, -⟩ | ⟨hother, -⟩ | ⟨hother, -⟩ | ⟨-, hmade⟩
  · rw [ht] at hother
    cases hother
  · rw [ht] at hother
    cases hother
  · rw [ht] at hother
    cases hother
  · exact hmade

/-- A built-in step keeps every key that is none of its own. -/
theorem keeps_of_create_builtin {ev : Evaluator} {n : Node} {step : Step σ}
    (hc : (Registry.builtin ev).create n = .ok step) {key : String} (h : key ∉ builtinKeys n.id) :
    step.Keeps n.id key := by
  rcases create_builtin_cases hc with ⟨-, c, rfl⟩ | ⟨-, c, rfl⟩ | ⟨-, c, rfl⟩ | ⟨-, c, -, rfl⟩
  · exact c.keeps n.id key
  · exact c.keeps h
  · exact c.keeps ev h
  · exact c.keeps h

/-- The keys of an approval are none of another node's. -/
theorem approval_keys_not_mem {a b : String} (h : a ≠ b) :
    ApprovalConfig.decisionKey a ∉ builtinKeys b ∧ ApprovalConfig.inputKey a ∉ builtinKeys b := by
  have houtputs : "outputs" = "" ++ "outputs" := rfl
  unfold builtinKeys
  simp only [List.mem_append, List.mem_cons, List.not_mem_nil, or_false, not_or]
  refine ⟨⟨⟨?_, ?_, ?_, ?_⟩, ApprovalConfig.decisionKey_not_mem_noteKeys a b⟩,
    ⟨?_, ?_, ?_, ?_⟩, ApprovalConfig.inputKey_not_mem_noteKeys a b⟩
  · rw [houtputs]
    exact Text.append_ne_append (by decide) a ""
  · exact Text.append_ne_append (by decide) a b
  · exact fun heq => h ((String.append_left_inj "_decision").1 heq)
  · exact (ApprovalConfig.inputKey_ne_decisionKey b a).symm
  · rw [houtputs]
    exact Text.append_ne_append (by decide) a ""
  · exact Text.append_ne_append (by decide) a b
  · exact ApprovalConfig.inputKey_ne_decisionKey a b
  · exact fun heq => h ((String.append_left_inj "_human_input").1 heq)

end Flowgraph
