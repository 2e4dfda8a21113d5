import Flowgraph.Proofs.Run.Drive

/-!
# Lineages

A lineage is a run and any number of resumes, each of the checkpoint that the call
before it left.  `Passed` are the points that a lineage passes between its rounds:

    Lineage w id (past ++ r :: rest) last →
      ∃ p frontier, Passed w id past p frontier ∧ w.Follows id p frontier r   (Lineage.passed)

so what holds at the entry and is kept by every round (`Passed.along`) holds before
every round of a lineage, whatever its limits, its stores and its inputs are.

Where a lineage completes, it has passed after its last round with nothing left to run
(`Lineage.completed`).

A failed call leaves no checkpoint, and what it was called on is still there: to try
again is to put another call in its place.
-/

namespace Flowgraph

open Runner

variable {σ τ : Type}

/-- The names that ran in some of the rounds. -/
def ranIn (rounds : List Round) : List String := rounds.flatMap (·.executions.ran)

theorem mem_ranIn_append {rounds : List Round} {r : Round} {n : String} :
    n ∈ ranIn (rounds ++ [r]) ↔ n ∈ ranIn rounds ∨ n ∈ r.executions.ran := by
  simp [ranIn]

/-- An element of a list that grew at its end is the new one, or an earlier one. -/
theorem last_or_earlier {α : Type} {l before after : List α} {a b : α}
    (heq : l ++ [a] = before ++ b :: after) :
    (before = l ∧ b = a) ∨ ∃ after', l = before ++ b :: after' := by
  rcases List.eq_nil_or_concat after with rfl | ⟨after', z, rfl⟩
  · obtain ⟨rfl, hb⟩ := List.append_inj' heq rfl
    exact .inl ⟨rfl, (List.singleton_inj.1 hb).symm⟩
  · rw [List.concat_eq_append, ← List.cons_append, ← List.append_assoc] at heq
    exact .inr ⟨after', (List.append_inj' heq rfl).1⟩

/-! ## Lineages -/

/-- The rounds of a run and of the resumes after it, and the last of these calls. -/
inductive Lineage (w : Workflow σ) (id : String) : List Round → Call σ τ → Prop
  | run (r : Runner τ) (initial : State) (memory : σ) (content : τ) :
      Lineage w id (r.run w id initial memory content).rounds (r.run w id initial memory content)
  | resume {rounds : List Round} {last : Call σ τ} {c : Checkpoint} (r : Runner τ) (input : Json)
      (memory : σ) (content : τ) :
      Lineage w id rounds last → last.checkpoint? = some c →
      (r.store.load id content).1 = .ok (some c) →
      Lineage w id (rounds ++ (r.resume w id input memory content).rounds)
        (r.resume w id input memory content)

/-- Where a lineage stands after rounds that did not fail, and what is to run. -/
inductive Passed (w : Workflow σ) (id : String) : List Round → Progress → NameSet → Prop
  | entry (initial : State) : Passed w id [] { state := initial } (.singleton w.plan.entry)
  | ready {past : List Round} {p : Progress} {frontier next : NameSet} {r : Round} :
      Passed w id past p frontier → w.Follows id p frontier r → r.verdict = .ready next →
      Passed w id (past ++ [r]) r.after next
  | resumed {past : List Round} {p : Progress} {frontier : NameSet} {r : Round} {c : Checkpoint}
      (input : Json) :
      Passed w id past p frontier → w.Follows id p frontier r → r.verdict = .suspended c →
      Passed w id (past ++ [r]) (resumePoint c input) c.frontier

/-- What a call left is resumed from where the run stands after it. -/
theorem Along.passed_resume {w : Workflow σ} {id : String} {past rounds : List Round}
    {call : Call σ τ} {c : Checkpoint} (h : Along w id (Passed w id) [] rounds)
    (hrounds : rounds = past ++ call.rounds) (hc : call.checkpoint? = some c) (input : Json) :
    Passed w id rounds (resumePoint c input) c.frontier := by
  obtain ⟨before, r, hcall, hv⟩ := Call.checkpoint?_eq_some_iff.1 hc
  rw [hrounds, hcall, ← List.append_assoc] at h ⊢
  obtain ⟨p, frontier, hp, hr⟩ := h.before
  exact hp.resumed input hr hv

namespace Lineage

variable {w : Workflow σ} {id : String} {rounds : List Round} {last : Call σ τ}

/-- The rounds of a lineage end with those of its last call. -/
theorem rounds_eq (h : Lineage w id rounds last) : ∃ past, rounds = past ++ last.rounds := by
  cases h with
  | run => exact ⟨[], rfl⟩
  | @resume rounds => exact ⟨rounds, rfl⟩

/-- A lineage passes before its rounds, and after the last one if it completes. -/
theorem along_and_completed (h : Lineage w id rounds last) : Along w id (Passed w id) [] rounds ∧
    ∀ run s, last.result = .ok (.completed run s) → ∃ p frontier, Passed w id rounds p frontier ∧
      w.dueFrontier? p.completed frontier = none ∧ p.state = s := by
  have hkeep : ∀ past p frontier r next, Passed w id past p frontier →
      w.Follows id p frontier r → r.verdict = .ready next →
      Passed w id (past ++ [r]) r.after next :=
    fun past p frontier r next hp hr hv => hp.ready hr hv
  induction h with
  | run r initial memory content =>
    have hcall := r.along_callOf hkeep false
      (.object [("entry", .str w.plan.entry), ("resumed", .bool false)]) memory content
      (.entry initial)
    exact hcall
  | @resume rounds last c r input memory content hlast hc hload ih =>
    obtain ⟨past, hpast⟩ := hlast.rounds_eq
    have hpoint := ih.1.passed_resume hpast hc input
    rw [r.resume_eq hload]
    obtain ⟨hrounds, hdone⟩ := r.along_callOf hkeep true
      (.object [("resumed", .bool true), ("pending_node", .str c.pending),
        ("input_key", .str c.inputKey)]) memory (r.store.load id content).2 hpoint
    exact ⟨ih.1.append (by simpa using hrounds), hdone⟩

theorem along (h : Lineage w id rounds last) : Along w id (Passed w id) [] rounds :=
  h.along_and_completed.1

/-- Where a lineage that completes ends. -/
theorem completed {run : String} {s : State} (h : Lineage w id rounds last)
    (hresult : last.result = .ok (.completed run s)) :
    ∃ p frontier, Passed w id rounds p frontier ∧ w.dueFrontier? p.completed frontier = none ∧
      p.state = s :=
  h.along_and_completed.2 run s hresult

theorem passed {past rest : List Round} {r : Round} (h : Lineage w id rounds last)
    (hrounds : rounds = past ++ r :: rest) :
    ∃ p frontier, Passed w id past p frontier ∧ w.Follows id p frontier r := by
  rw [hrounds] at h
  exact h.along.before

theorem passed_resume {c : Checkpoint} (h : Lineage w id rounds last)
    (hc : last.checkpoint? = some c) (input : Json) :
    Passed w id rounds (resumePoint c input) c.frontier := by
  obtain ⟨past, hpast⟩ := h.rounds_eq
  exact h.along.passed_resume hpast hc input

end Lineage

/-! ## Invariants -/

/-- A round that did not fail, by what it did. -/
theorem Workflow.Follows.went {w : Workflow σ} {run : String} {p : Progress}
    {frontier next : NameSet} {r : Round} (h : w.Follows run p frontier r)
    (hnext : r.next? = some next) :
    ∃ due memory, w.dueFrontier? p.completed frontier = some due ∧ w.Went p due memory r next := by
  obtain ⟨due, now, memory, hdue, rfl⟩ := h
  exact ⟨due, _, hdue, w.went_of_next? run now p due memory hnext⟩

/-- What holds at the entry and is kept by every round holds wherever a lineage passes.  The input
of a resume can only add to the state. -/
theorem Passed.along {w : Workflow σ} {id : String} {I : List Round → Progress → NameSet → Prop}
    (hentry : ∀ initial, I [] { state := initial } (.singleton w.plan.entry))
    (hround : ∀ past p frontier r next s, Passed w id past p frontier → I past p frontier →
      w.Follows id p frontier r → r.next? = some next →
      (∀ key, r.after.state.contains key = true → s.contains key = true) →
      I (past ++ [r]) { r.after with state := s } next)
    {past : List Round} {p : Progress} {frontier : NameSet} (h : Passed w id past p frontier) :
    I past p frontier := by
  induction h with
  | entry initial => exact hentry initial
  | @ready past p frontier next r hp hr hv ih =>
    exact hround past p frontier r next r.after.state hp ih hr (by rw [Round.next?, hv])
      fun key hkey => hkey
  | @resumed past p frontier r c input hp hr hv ih =>
    obtain ⟨due, now, memory, hdue, rfl⟩ := hr
    obtain ⟨hafter, -⟩ := w.checkpoint_of_round id now p due memory hv
    have hpoint : resumePoint c input =
        { (w.round id now p due memory).1.after with state := c.state.insert c.inputKey input } := by
      rw [hafter]
      rfl
    rw [hpoint]
    refine hround past p frontier _ c.frontier _ hp ih ⟨due, now, memory, hdue, rfl⟩
      (by rw [Round.next?, hv]) fun key hkey => ?_
    rw [hafter] at hkey
    obtain ⟨v, hv⟩ := NameMap.contains_eq_true_iff.1 hkey
    rw [NameMap.contains_eq_true_iff, NameMap.find?_insert]
    split
    · exact ⟨input, rfl⟩
    · exact ⟨v, hv⟩

/-- A frontier after a round is what the round said to run next. -/
theorem Passed.last {w : Workflow σ} {id : String} {past : List Round} {r : Round} {p : Progress}
    {frontier : NameSet} (h : Passed w id (past ++ [r]) p frontier) :
    r.next? = some frontier ∧ ∃ q f, Passed w id past q f ∧ w.Follows id q f r := by
  generalize hrounds : past ++ [r] = rounds at h
  cases h with
  | entry => simp at hrounds
  | @ready past' q f next r' hq hr hv =>
    obtain ⟨rfl, hlast⟩ := List.append_inj' hrounds rfl
    cases List.singleton_inj.1 hlast
    exact ⟨by rw [Round.next?, hv], q, f, hq, hr⟩
  | @resumed past' q f r' c input hq hr hv =>
    obtain ⟨rfl, hlast⟩ := List.append_inj' hrounds rfl
    cases List.singleton_inj.1 hlast
    exact ⟨by rw [Round.next?, hv], q, f, hq, hr⟩

theorem Workflow.Follows.mem_completed {w : Workflow σ} {run : String} {p : Progress}
    {frontier : NameSet} {r : Round} (h : w.Follows run p frontier r) {n : String} :
    n ∈ r.after.completed ↔ n ∈ r.executions.ran ∨ n ∈ p.completed := by
  obtain ⟨due, now, memory, -, rfl⟩ := h
  exact w.mem_completed_after run now p due memory

theorem Workflow.Follows.step_after {w : Workflow σ} {run : String} {p : Progress}
    {frontier : NameSet} {r : Round} (h : w.Follows run p frontier r) : r.after.step = p.step + 1 := by
  obtain ⟨due, now, memory, -, rfl⟩ := h
  exact w.step_after_round run now p due memory

theorem Workflow.Follows.number {w : Workflow σ} {run : String} {p : Progress} {frontier : NameSet}
    {r : Round} (h : w.Follows run p frontier r) : r.number = p.step + 1 := by
  obtain ⟨due, now, memory, -, rfl⟩ := h
  exact w.number_round run now p due memory

/-- No key of the state is lost in a round. -/
theorem Workflow.Follows.contains_after {w : Workflow σ} {run : String} {p : Progress}
    {frontier : NameSet} {r : Round} (h : w.Follows run p frontier r) {key : String}
    (hkey : p.state.contains key = true) : r.after.state.contains key = true := by
  obtain ⟨due, now, memory, -, rfl⟩ := h
  rw [w.state_after]
  exact State.contains_reduce hkey _

/-- The completed nodes are those that ran. -/
theorem Passed.mem_completed {w : Workflow σ} {id : String} {past : List Round} {p : Progress}
    {frontier : NameSet} (h : Passed w id past p frontier) (n : String) :
    n ∈ p.completed ↔ n ∈ ranIn past := by
  refine h.along (I := fun past p _ => ∀ n, n ∈ p.completed ↔ n ∈ ranIn past) ?_ ?_ n
  · intro initial n
    simp [ranIn]
  · intro past p frontier r next s _ ih hr _ _ n
    rw [mem_ranIn_append, ← ih n]
    exact hr.mem_completed.trans or_comm

theorem Passed.mem_completed_after {w : Workflow σ} {id : String} {past : List Round}
    {p : Progress} {frontier : NameSet} {r : Round} (h : Passed w id past p frontier)
    (hr : w.Follows id p frontier r) (n : String) :
    n ∈ r.after.completed ↔ n ∈ ranIn (past ++ [r]) := by
  rw [mem_ranIn_append, ← h.mem_completed n]
  exact hr.mem_completed.trans or_comm

/-! ## Frontiers -/

theorem Workflow.mem_dueFrontier? {w : Workflow σ} {completed frontier due : NameSet}
    (h : w.dueFrontier? completed frontier = some due) {n : String} (hn : n ≠ w.plan.exit) :
    n ∈ due ↔ n ∈ frontier := by
  rcases due_cases h with ⟨rfl, -⟩ | ⟨rfl, rfl, -⟩
  · rfl
  · rw [NameSet.mem_singleton]
    exact iff_of_false hn NameSet.not_mem_empty

section

variable {g : Graph} {reg : Registry σ} {w : Workflow σ} {id : String} {past : List Round}
  {p : Progress} {frontier : NameSet}

/-- Only nodes of the graph come to run. -/
theorem Passed.mem_ids (hc : g.compile reg = .ok w) (h : Passed w id past p frontier) {n : String}
    (hn : n ∈ frontier) : n ∈ g.ids := by
  obtain ⟨hplan, -⟩ := Graph.compile_eq_ok hc
  refine h.along (I := fun _ _ frontier => ∀ n ∈ frontier, n ∈ g.ids) ?_ ?_ n hn
  · intro initial n hn
    rw [NameSet.mem_singleton.1 hn]
    exact Graph.entry_mem_ids hplan
  · intro past p frontier r next s _ ih hr hnext _ n hn
    obtain ⟨due, memory, hdue, hwent⟩ := hr.went hnext
    rcases (hwent.mem_next n).1 hn with hsusp | ⟨a, -, targets, hroute, hb⟩
    · have hids := Executions.mem_ids_of_suspended hsusp
      rw [hwent.ids] at hids
      by_cases hx : n = w.plan.exit
      · rw [hx]
        exact Graph.exit_mem_ids hplan
      · exact ih n ((Workflow.mem_dueFrontier? hdue hx).1 hids)
    · exact Graph.mem_ids_of_leads hplan (w.leads_of_route _ _ hroute hb)

/-- Whatever is due has a step. -/
theorem Passed.staffed (hc : g.compile reg = .ok w) (h : Passed w id past p frontier) {due : NameSet}
    (hdue : w.dueFrontier? p.completed frontier = some due) {n : String} (hn : n ∈ due) :
    ∃ step, w.steps.find? n = some step := by
  refine Graph.exists_step hc ?_
  by_cases hx : n = w.plan.exit
  · rw [hx]
    exact Graph.exit_mem_ids (Graph.compile_eq_ok hc).1
  · exact h.mem_ids hc ((Workflow.mem_dueFrontier? hdue hx).1 hn)

/-- A node other than the end is executed in a round exactly if it was to run. -/
theorem Passed.mem_executed (hc : g.compile reg = .ok w) (h : Passed w id past p frontier)
    {r : Round} (hr : w.Follows id p frontier r) {n : String} (hn : n ≠ w.plan.exit) :
    n ∈ r.executions.ids ↔ n ∈ frontier := by
  obtain ⟨due, now, memory, hdue, rfl⟩ := hr
  rw [w.ids_round id now p due memory fun m hm => h.staffed hc hdue hm]
  exact Workflow.mem_dueFrontier? hdue hn

end

/-! ## Plain runs -/

/-- Steps that write nothing and decide for the default handle; an `ask` waits for input first. -/
def Registry.idle : Registry Unit :=
  let factory : StepFactory Unit := fun _ =>
    .ok (.pure (fun _ _ => .update []) fun _ => some Edge.defaultHandle)
  let ask : StepFactory Unit := fun _ => .ok (.pure fun ctx s =>
    if s.contains (Awaiting.ownKey ctx.node) then .update []
    else ⟨.done (.suspend (Awaiting.ownKey ctx.node) .null), []⟩)
  ⟨[(.start, factory), (.branch, factory), (.step "task", factory), (.step "ask", ask),
    (.finish, factory)]⟩

/-- A runner with a limit of ten rounds and checkpoints in a map. -/
def Runner.tenRounds : Runner (NameMap Checkpoint) := ⟨10, .memory, .epoch⟩

/-- A checkpoint that a call left in a map is found there. -/
theorem Call.exists_checkpoint {call : Call σ (NameMap Checkpoint)} {run : String}
    (hc : call.checkpoint?.isSome = true) (hs : call.content.find? run = call.checkpoint?) :
    ∃ c, call.checkpoint? = some c ∧
      (CheckpointStore.memory.load run call.content).1 = .ok (some c) := by
  obtain ⟨c, hc⟩ := Option.isSome_iff_exists.1 hc
  refine ⟨c, hc, ?_⟩
  show Except.ok (call.content.find? run) = .ok (some c)
  rw [hs, hc]

namespace Workflow

/-- A run from the empty state. -/
def plainRun (w : Workflow Unit) : Call Unit (NameMap Checkpoint) :=
  Runner.tenRounds.run w "run" ∅ () ∅

/-- The resume of a plain run. -/
def plainResume (w : Workflow Unit) : Call Unit (NameMap Checkpoint) :=
  Runner.tenRounds.resume w "run" .null () w.plainRun.content

/-- A plain run that suspended left a checkpoint that its resume finds. -/
theorem exists_checkpoint_plainRun {w : Workflow Unit} (hc : w.plainRun.checkpoint?.isSome = true)
    (hs : w.plainRun.content.find? "run" = w.plainRun.checkpoint?) :
    ∃ c, w.plainRun.checkpoint? = some c ∧
      (Runner.tenRounds.store.load "run" w.plainRun.content).1 = .ok (some c) :=
  Call.exists_checkpoint hc hs

theorem lineage_plainResume {w : Workflow Unit} (hc : w.plainRun.checkpoint?.isSome = true)
    (hs : w.plainRun.content.find? "run" = w.plainRun.checkpoint?) :
    Lineage w "run" (w.plainRun.rounds ++ w.plainResume.rounds) w.plainResume := by
  obtain ⟨c, hc, hload⟩ := exists_checkpoint_plainRun hc hs
  exact .resume Runner.tenRounds .null () w.plainRun.content (.run _ _ _ _) hc hload

end Workflow

/-- A graph whose one task asks for input. -/
def question : Graph where
  nodes := [{ id := "start", type := .start }, { id := "q", type := .step "ask" },
    { id := "end", type := .finish }]
  edges := [.between "start" "q", .between "q" "end"]
  distinct := by decide
  closed := by decide

end Flowgraph
