import Flowgraph.Graph.Plan
import Flowgraph.Step.Registry

/-!
# Workflows

A graph with its plan and the step of each of its nodes.  A graph that has a plan
compiles if every step can be made; otherwise every step that cannot is named.
-/

namespace Flowgraph

structure Workflow (σ : Type) where
  graph : Graph
  plan : Plan
  steps : NameMap (Step σ)

/-- A step that could not be made. -/
structure StepFault where
  node : String
  type : NodeType
  error : StepError
deriving DecidableEq

def StepFault.message (f : StepFault) : String :=
  "node `" ++ f.node ++ "` (" ++ f.type.encode ++ "): " ++ f.error.message

/-- Why a graph does not compile. -/
inductive CompileError where
  | graph (error : GraphError)
  | steps (faults : List StepFault)
deriving DecidableEq

namespace CompileError

def message : CompileError → String
  | graph error => error.message
  | steps faults => GraphError.invalidMessage (faults.map StepFault.message)

end CompileError

namespace Graph

variable {σ : Type}

/-- What is wrong with making the step of a node, if anything. -/
def stepFault? (r : Registry σ) (n : Node) : Option StepFault :=
  match r.create n with
  | .ok _ => none
  | .error error => some ⟨n.id, n.type, error⟩

/-- The steps of the nodes for which one can be made. -/
def makeSteps (r : Registry σ) (g : Graph) : NameMap (Step σ) :=
  .ofList (g.nodes.filterMap fun n => (r.create n).toOption.map fun step => (n.id, step))

def compile (g : Graph) (r : Registry σ) : Except CompileError (Workflow σ) :=
  match g.plan with
  | .error error => .error (.graph error)
  | .ok plan =>
    match g.nodes.filterMap (stepFault? r) with
    | [] => .ok ⟨g, plan, g.makeSteps r⟩
    | faults => .error (.steps faults)

end Graph

namespace Graph

variable {σ : Type} {g : Graph} {r : Registry σ} {w : Workflow σ}

theorem compile_of_plan {p : Plan} (hp : g.plan = .ok p)
    (hf : g.nodes.filterMap (stepFault? r) = []) : g.compile r = .ok ⟨g, p, g.makeSteps r⟩ := by
  unfold compile
  rw [hp]
  dsimp only
  rw [hf]

/-- What a workflow is made of: the plan of its graph, and a step for each of its nodes. -/
theorem compile_eq_ok (h : g.compile r = .ok w) :
    g.plan = .ok w.plan ∧ w.graph = g ∧ w.steps = g.makeSteps r ∧
      ∀ n ∈ g.nodes, ∃ step, r.create n = .ok step := by
  unfold compile at h
  cases hp : g.plan with
  | error error =>
    rw [hp] at h
    cases h
  | ok plan =>
    rw [hp] at h
    dsimp only at h
    split at h
    · rename_i hnone
      cases Except.ok.inj h
      refine ⟨rfl, rfl, rfl, fun n hn => ?_⟩
      have hfault := List.filterMap_eq_nil_iff.1 hnone n hn
      unfold stepFault? at hfault
      cases hs : r.create n with
      | ok step => exact ⟨step, rfl⟩
      | error error =>
        rw [hs] at hfault
        cases hfault
    · cases h

/-- Each node is backed by the step that is made for it. -/
theorem find?_makeSteps {n : Node} {step : Step σ} (hn : n ∈ g.nodes) (hs : r.create n = .ok step) :
    (g.makeSteps r).find? n.id = some step := by
  have hkeys : ∀ nodes : List Node, ((nodes.filterMap fun n =>
      (r.create n).toOption.map fun step => (n.id, step)).map (·.1)).Sublist (nodes.map (·.id)) := by
    intro nodes
    induction nodes with
    | nil => exact List.Sublist.slnil
    | cons m nodes ih =>
      rw [List.filterMap_cons]
      cases r.create m with
      | ok step => exact ih.cons_cons _
      | error error => exact ih.cons _
  refine (NameMap.find?_ofList_of_nodup (g.distinct.sublist (hkeys g.nodes))).2 ?_
  exact List.mem_filterMap.2 ⟨n, hn, by rw [hs]; rfl⟩

/-- Every step is one that is made for a node. -/
theorem create_of_makeSteps {id : String} {step : Step σ}
    (h : (g.makeSteps r).find? id = some step) : ∃ n ∈ g.nodes, n.id = id ∧ r.create n = .ok step := by
  obtain ⟨n, hn, hmade⟩ := List.mem_filterMap.1 (NameMap.mem_of_find?_ofList h)
  obtain ⟨s, hs, heq⟩ := Option.map_eq_some_iff.1 hmade
  obtain ⟨rfl, rfl⟩ := Prod.mk.inj heq
  refine ⟨n, hn, rfl, ?_⟩
  cases hr : r.create n with
  | error error =>
    rw [hr] at hs
    cases hs
  | ok made =>
    rw [hr] at hs
    rw [Option.some.inj hs]

theorem mem_ids_of_makeSteps {id : String} {step : Step σ}
    (h : (g.makeSteps r).find? id = some step) : id ∈ g.ids := by
  obtain ⟨n, hn, rfl, -⟩ := create_of_makeSteps h
  exact List.mem_map_of_mem hn

/-- In a workflow every node of the graph has a step. -/
theorem exists_step (h : g.compile r = .ok w) {id : String} (hid : id ∈ g.ids) :
    ∃ step, w.steps.find? id = some step := by
  obtain ⟨-, -, hsteps, hmade⟩ := compile_eq_ok h
  obtain ⟨n, hn, rfl⟩ := List.mem_map.1 hid
  obtain ⟨step, hstep⟩ := hmade n hn
  exact ⟨step, by rw [hsteps, find?_makeSteps hn hstep]⟩

end Graph

namespace Workflow

variable {σ : Type}

def display (w : Workflow σ) : String :=
  "Workflow \x7b entry: " ++ Text.quoted w.plan.entry ++ ", exit: " ++ Text.quoted w.plan.exit ++
    ", nodes: " ++ Text.quotedList w.plan.order ++ ", .. \x7d"

end Workflow

end Flowgraph
