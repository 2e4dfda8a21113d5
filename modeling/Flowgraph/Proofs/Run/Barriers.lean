import Flowgraph.Proofs.Run.Lineage

/-!
# Barriers

Whether the nodes of a lineage wait for their joins.  A join other than the end can
come to run in four ways: it is routed to by a node that leads to all its targets, it
asked for input in the round before, it is the entry, or a conditional node chose it.
The barrier holds in the first way, and is kept in the second.  Nothing looks at it in
the other two:

    (every executed node is awaited) ↔ (every unchecked node is awaited)       (waited_iff)

`earlyChoice` is a graph whose branch chooses a join that still waits.
-/

namespace Flowgraph

variable {σ τ : Type}

namespace Workflow

/-- The sources of a node's join have run. -/
def Waited (w : Workflow σ) (past : List Round) (n : String) : Prop :=
  ∀ sources, w.plan.joins.find? n = some sources → ∀ s ∈ sources, s ∈ ranIn past

/-- A conditional node ran in a round and decided for a target. -/
def Chose (w : Workflow σ) (run : String) (r : Round) (n target : String) : Prop :=
  n ∈ r.executions.ran ∧ ∃ now p frontier memory, (w.round run now p frontier memory).1 = r ∧
    w.plan.resolve n
      (w.decisionOf r.after.state (w.round run now p frontier memory).2 n) = .ok target

/-- A node comes to run without a look at its join. -/
def Unchecked (w : Workflow σ) (run : String) (past : List Round) (n : String) : Prop :=
  past = [] ∧ n = w.plan.entry ∨
    ∃ before r c, past = before ++ [r] ∧ w.Chose run r c n

variable {w : Workflow σ} {id : String}

theorem Waited.mono {past : List Round} {n : String} (h : w.Waited past n) (r : Round) :
    w.Waited (past ++ [r]) n :=
  fun sources hs s hmem => mem_ranIn_append.2 (.inl (h sources hs s hmem))

/-- A node that is ready where a lineage passes is awaited. -/
theorem waited_of_isReady {past : List Round} {completed : NameSet} {n : String}
    (hcompleted : ∀ m, m ∈ completed ↔ m ∈ ranIn past)
    (h : w.plan.isReady completed n = true) : w.Waited past n := by
  intro sources hs s hmem
  exact (hcompleted s).1 (Plan.isReady_iff.1 h sources hs s hmem)

/-! ## How a node comes to run -/

/-- A node that is to run is awaited, or unchecked, or asked for input in the round before. -/
theorem waited_or_unchecked {past : List Round} {p : Progress} {frontier : NameSet}
    (h : Passed w id past p frontier) {n : String} (hn : n ∈ frontier) :
    w.Waited past n ∨ w.Unchecked id past n ∨
      ∃ before r, past = before ++ [r] ∧ n ∈ r.executions.suspended := by
  refine h.along (I := fun past _ frontier => ∀ n ∈ frontier, w.Waited past n ∨
    w.Unchecked id past n ∨ ∃ before r, past = before ++ [r] ∧ n ∈ r.executions.suspended)
    ?_ ?_ n hn
  · intro initial n hn
    exact .inr (.inl (.inl ⟨rfl, NameSet.mem_singleton.1 hn⟩))
  · intro past p frontier r next s hp _ hr hnext _ n hn
    have hcompleted := hp.mem_completed_after hr
    obtain ⟨due, now, memory, -, rfl⟩ := hr
    have hwent := w.went_of_next? id now p due memory hnext
    rcases (hwent.mem_next n).1 hn with hsusp | ⟨a, ha, targets, hroute, hb⟩
    · exact .inr (.inr ⟨past, _, rfl, hsusp⟩)
    · rcases w.mem_route _ _ hroute hb with ⟨ts, -, -, hready⟩ | ⟨handles, -, hchoice⟩
      · exact .inl (waited_of_isReady hcompleted hready)
      · exact .inr (.inl (.inr ⟨past, _, a, rfl, ha, now, p, due, memory, rfl, hchoice⟩))

/-- A node that is unchecked is executed in the round that comes next. -/
theorem mem_ids_of_unchecked {g : Graph} {reg : Registry σ} (hc : g.compile reg = .ok w)
    {past : List Round} {p : Progress} {frontier : NameSet} {r : Round}
    (hp : Passed w id past p frontier) (hr : w.Follows id p frontier r) {n : String}
    (hn : n ≠ w.plan.exit) (h : w.Unchecked id past n) : n ∈ r.executions.ids := by
  rw [hp.mem_executed hc hr hn]
  rcases h with ⟨rfl, rfl⟩ | ⟨before, r', c, rfl, hran, now, q, f, memory, rfl, hchoice⟩
  · generalize hpast : ([] : List Round) = past at hp
    cases hp with
    | entry => exact NameSet.mem_singleton.2 rfl
    | ready => simp at hpast
    | resumed => simp at hpast
  · have hwent := w.went_of_next? id now q f memory hp.last.1
    exact hwent.mem_next_of_resolve hran hchoice

/-! ## The barrier -/

/-- The nodes of a lineage wait for their joins, the end apart, exactly if those wait that are
unchecked. -/
theorem waited_iff {g : Graph} {reg : Registry σ} (hc : g.compile reg = .ok w)
    {rounds : List Round} {last : Call σ τ} (hl : Lineage w id rounds last) :
    (∀ past r rest, rounds = past ++ r :: rest →
        ∀ n ∈ r.executions.ids, n ≠ w.plan.exit → w.Waited past n) ↔
      ∀ past r rest, rounds = past ++ r :: rest →
        ∀ n, n ≠ w.plan.exit → w.Unchecked id past n → w.Waited past n := by
  constructor
  · intro h past r rest hrounds n hn hun
    obtain ⟨p, frontier, hp, hr⟩ := hl.passed hrounds
    exact h past r rest hrounds n (mem_ids_of_unchecked hc hp hr hn hun) hn
  · intro h past r rest hrounds n hids hn
    -- by induction on the rounds before: a node that asked for input has waited in the last of them
    induction hlen : past.length generalizing past r rest with
    | zero =>
      obtain ⟨p, frontier, hp, hr⟩ := hl.passed hrounds
      rcases waited_or_unchecked hp ((hp.mem_executed hc hr hn).1 hids) with
        hw | hun | ⟨before, r', rfl, -⟩
      · exact hw
      · exact h past r rest hrounds n hn hun
      · simp at hlen
    | succ k ih =>
      obtain ⟨p, frontier, hp, hr⟩ := hl.passed hrounds
      rcases waited_or_unchecked hp ((hp.mem_executed hc hr hn).1 hids) with
        hw | hun | ⟨before, r', rfl, hsusp⟩
      · exact hw
      · exact h past r rest hrounds n hn hun
      · refine (ih before r' (r :: rest) ?_ (Executions.mem_ids_of_suspended hsusp) ?_).mono r'
        · rw [hrounds]
          simp
        · simpa using hlen

end Workflow

/-! ## A choice of a join -/

/-- A branch leads to a join before one of its sources can have run. -/
def earlyChoice : Graph where
  nodes := [{ id := "start", type := .start }, { id := "b", type := .branch },
    { id := "c", type := .step "task" }, { id := "d", type := .step "task" },
    { id := "j", type := .step "task" }, { id := "end", type := .finish }]
  edges := [.between "start" "b", .between "start" "c", .between "start" "j", .between "b" "j",
    .between "c" "d", .between "d" "j", .between "j" "end"]
  distinct := by decide
  closed := by decide

def earlyChoiceWorkflow : Workflow Unit :=
  ⟨earlyChoice, earlyChoice.planFrom ⟨"start", "end", ["start", "b", "c", "d", "j", "end"]⟩,
    earlyChoice.makeSteps .idle⟩

theorem earlyChoice_compile : earlyChoice.compile .idle = .ok earlyChoiceWorkflow :=
  Graph.compile_of_plan (by decide +kernel) rfl

theorem waited_iff_earlyChoice :
    earlyChoice.compile .idle = .ok earlyChoiceWorkflow ∧
      Lineage earlyChoiceWorkflow "run" earlyChoiceWorkflow.plainRun.rounds
        earlyChoiceWorkflow.plainRun ∧
      ((∀ past r rest, earlyChoiceWorkflow.plainRun.rounds = past ++ r :: rest →
          ∀ n ∈ r.executions.ids, n ≠ earlyChoiceWorkflow.plan.exit →
            earlyChoiceWorkflow.Waited past n) ↔
        ∀ past r rest, earlyChoiceWorkflow.plainRun.rounds = past ++ r :: rest →
          ∀ n, n ≠ earlyChoiceWorkflow.plan.exit → earlyChoiceWorkflow.Unchecked "run" past n →
            earlyChoiceWorkflow.Waited past n) :=
  ⟨earlyChoice_compile, .run _ _ _ _, Workflow.waited_iff earlyChoice_compile (.run _ _ _ _)⟩

/-- A join can be executed before one of its sources has run. -/
theorem not_waited_earlyChoice :
    earlyChoice.compile .idle = .ok earlyChoiceWorkflow ∧
      Lineage earlyChoiceWorkflow "run" earlyChoiceWorkflow.plainRun.rounds
        earlyChoiceWorkflow.plainRun ∧
      ¬ ∀ past r rest, earlyChoiceWorkflow.plainRun.rounds = past ++ r :: rest →
        ∀ n ∈ r.executions.ids, n ≠ earlyChoiceWorkflow.plan.exit →
          earlyChoiceWorkflow.Waited past n := by
  refine ⟨earlyChoice_compile, .run _ _ _ _, fun h => ?_⟩
  -- the third round runs the join beside one of its sources
  have hthird := h (earlyChoiceWorkflow.plainRun.rounds.take 2)
    (earlyChoiceWorkflow.plainRun.rounds.get ⟨2, by decide +kernel⟩)
    (earlyChoiceWorkflow.plainRun.rounds.drop 3)
    (by rw [List.get_eq_getElem, ← List.drop_eq_getElem_cons, List.take_append_drop])
    "j" (by decide +kernel) (by decide)
  have hsource := hthird (.ofList ["start", "d"]) (by decide +kernel) "d" (by decide)
  revert hsource
  decide +kernel

end Flowgraph
