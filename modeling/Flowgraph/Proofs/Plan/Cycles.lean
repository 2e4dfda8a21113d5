import Flowgraph.Proofs.Run.Lineage
import Mathlib.Logic.Relation

/-!
# Cycles of a plan's routes

The analysis finds every cycle of edges, but the routes of a plan are not its edges
alone: leaves are led to the end, and the end may be left by edges of its own.

    (∃ a, TransGen p.Leads a a) ↔ ∃ leaf, g.IsLeaf leaf ∧ ReflTransGen p.Leads p.exit leaf
                                                                  (leads_cycle_iff)

So routes come back to a node exactly if the end leads on to a leaf.  `afterEnd` is
such a graph, and a run of it goes round until it reaches its step limit.
-/

namespace Flowgraph.Graph

open Relation

variable {g : Graph} {p : Plan}

/-! ## Paths of routes -/

/-- A path of routes goes forward in the order, unless it takes the route of a leaf to the end. -/
theorem path_cases (h : g.plan = .ok p) {a b : String} (hp : TransGen p.Leads a b) :
    p.order.idxOf a < p.order.idxOf b ∨
      ∃ leaf, g.IsLeaf leaf ∧ ReflTransGen p.Leads a leaf ∧ ReflTransGen p.Leads p.exit b := by
  induction hp with
  | @single b hl =>
    rcases leads_cases h hl with ⟨e, he, rfl, rfl⟩ | ⟨hleaf, rfl⟩
    · exact .inl (order_lt h he)
    · exact .inr ⟨a, hleaf, .refl, .refl⟩
  | @tail b c hab hl ih =>
    rcases leads_cases h hl with ⟨e, he, rfl, rfl⟩ | ⟨hleaf, rfl⟩
    · rcases ih with hlt | ⟨leaf, hleaf, hto, hfrom⟩
      · have := order_lt h he
        left
        omega
      · exact .inr ⟨leaf, hleaf, hto, hfrom.tail hl⟩
    · exact .inr ⟨b, hleaf, hab.to_reflTransGen, .refl⟩

/-! ## Cycles -/

/-- The routes of a plan have a cycle exactly if the end leads on to a leaf. -/
theorem leads_cycle_iff (h : g.plan = .ok p) :
    (∃ a, TransGen p.Leads a a) ↔
      ∃ leaf, g.IsLeaf leaf ∧ ReflTransGen p.Leads p.exit leaf := by
  constructor
  · rintro ⟨a, ha⟩
    rcases path_cases h ha with hlt | ⟨leaf, hleaf, hto, hfrom⟩
    · omega
    · exact ⟨leaf, hleaf, hfrom.trans hto⟩
  · rintro ⟨leaf, hleaf, hpath⟩
    exact ⟨p.exit, .tail' hpath (leads_exit_of_leaf h hleaf)⟩

/-! ## A graph that goes round -/

/-- The end is left by an edge to a step without edges. -/
def afterEnd : Graph where
  nodes := [{ id := "start", type := .start }, { id := "a", type := .step "task" },
    { id := "end", type := .finish }]
  edges := [.between "start" "end", .between "end" "a"]
  distinct := by decide
  closed := by decide

def afterEndPlan : Plan := afterEnd.planFrom ⟨"start", "end", ["start", "end", "a"]⟩

theorem afterEnd_plan : afterEnd.plan = .ok afterEndPlan := by
  decide +kernel

theorem leads_cycle_iff_afterEnd :
    afterEnd.plan = .ok afterEndPlan ∧ ((∃ a, TransGen afterEndPlan.Leads a a) ↔
      ∃ leaf, afterEnd.IsLeaf leaf ∧ ReflTransGen afterEndPlan.Leads afterEndPlan.exit leaf) :=
  ⟨afterEnd_plan, leads_cycle_iff afterEnd_plan⟩

def afterEndWorkflow : Workflow Unit := ⟨afterEnd, afterEndPlan, afterEnd.makeSteps .idle⟩

theorem afterEnd_compile : afterEnd.compile .idle = .ok afterEndWorkflow :=
  compile_of_plan afterEnd_plan rfl

/-- The routes of a plan can have a cycle, and a run can follow it up to the step limit. -/
theorem leads_cycle_afterEnd :
    (¬ ∀ (g : Graph) (p : Plan), g.plan = .ok p → ∀ a, ¬ TransGen p.Leads a a) ∧
      afterEnd.compile .idle = .ok afterEndWorkflow ∧
      afterEndWorkflow.plainRun.result = .error (.failed "run" (.stepLimitExceeded 10) ∅) := by
  refine ⟨fun hall => ?_, afterEnd_compile, by decide +kernel⟩
  have hleaf : afterEnd.IsLeaf "a" := by
    refine ⟨⟨{ id := "a", type := .step "task" }, ?_, rfl, rfl⟩, ?_⟩
    · decide
    · decide
  have hout : afterEndPlan.Leads "end" "a" :=
    ⟨.all (.singleton "a"), by decide +kernel, by decide⟩
  exact hall afterEnd afterEndPlan afterEnd_plan "end"
    (.tail (.single hout) (leads_exit_of_leaf afterEnd_plan hleaf))

end Flowgraph.Graph
