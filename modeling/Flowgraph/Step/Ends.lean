import Flowgraph.Step.Basic
import Flowgraph.Template

/-!
# The first and the last step

The start step publishes the declared inputs that the state has; the end step
renders the declared outputs and stores them under its own key and under
`outputs`.
-/

namespace Flowgraph

/-! ## Start -/

structure InputVariable where
  name : String
deriving DecidableEq

structure StartConfig where
  inputs : List InputVariable := []
deriving DecidableEq

namespace InputVariable

def decode : Decoder InputVariable := fun v => do
  let d ← Decoder.record "struct InputVariable" [["name"]] none
    (fun (_ : Option String) _ v => do return some (← Decoder.text v)) v
  return { name := ← d.require "name" id }

end InputVariable

namespace StartConfig

def decode : Decoder StartConfig := fun v => do
  let d ← Decoder.record "struct StartConfig" [["inputs"]] {}
    (fun (_ : StartConfig) _ v => do return { inputs := ← Decoder.items InputVariable.decode v }) v
  return d.value

/-- The names that the step provides. -/
def provides (c : StartConfig) : List String := c.inputs.map (·.name)

/-- The declared inputs that the state has. -/
def published (c : StartConfig) (s : State) : Fields :=
  c.inputs.filterMap fun i => (s.find? i.name).map fun v => (i.name, v)

def step {σ : Type} (c : StartConfig) : Step σ := .pure fun _ s => .update (c.published s)

end StartConfig

/-! ## End -/

structure OutputVariable where
  name : String
  /-- A template. -/
  value : String
deriving DecidableEq

structure EndConfig where
  outputs : List OutputVariable := []
deriving DecidableEq

namespace OutputVariable

/-- What a record of an output gave so far. -/
structure Draft where
  name : Option String := none
  value : Option String := none

def decode : Decoder OutputVariable := fun v => do
  let d ← Decoder.record "struct OutputVariable" [["name"], ["value"]] ({} : Draft)
    (fun d key v => do
      if key = "name" then return { d with name := some (← Decoder.text v) }
      else return { d with value := some (← Decoder.text v) }) v
  return { name := ← d.require "name" (·.name), value := ← d.require "value" (·.value) }

end OutputVariable

namespace EndConfig

def decode : Decoder EndConfig := fun v => do
  let d ← Decoder.record "struct EndConfig" [["outputs"]] {}
    (fun (_ : EndConfig) _ v => do return { outputs := ← Decoder.items OutputVariable.decode v }) v
  return d.value

/-- The outputs in a state; of outputs with one name the last one counts. -/
def rendered (c : EndConfig) (s : State) : Json :=
  .object (c.outputs.map fun o => (o.name, Template.renderLeaf s o.value))

/-- The names of the state that the outputs refer to. -/
def requiredVariables (c : EndConfig) : NameSet :=
  c.outputs.foldr (fun o names => Template.roots o.value.toList ∪ names) ∅

def step {σ : Type} (c : EndConfig) : Step σ := .pure fun ctx s =>
  let outputs := c.rendered s
  .update [(ctx.key "outputs", outputs), ("outputs", outputs)]

/-- The end step stores its outputs, whatever it finds. -/
theorem attempt_step {σ : Type} (c : EndConfig) (ctx : StepContext) (s : State) (memory : σ) :
    ∃ fields, (c.step.execute ctx s memory).1.attempt = .done (.update (.obj fields)) ∧
      ("outputs", c.rendered s) ∈ fields := by
  refine ⟨_, rfl, NameMap.find?_eq_some_iff.1 ?_⟩
  rw [NameMap.find?_ofList, List.reverse_cons, List.reverse_singleton]
  exact List.lookup_cons_self

end EndConfig

end Flowgraph
