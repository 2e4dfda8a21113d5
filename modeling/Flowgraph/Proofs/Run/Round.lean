import Flowgraph.Proofs.Plan.Routes
import Flowgraph.Run.Round

/-!
# What a round does

The spec of `Workflow.round` that proofs about runs go by.  A round that does not fail
runs its whole frontier, and what is to run after it (`Round.next?`) is what the nodes
that gave an update lead to, and the nodes that asked for input:

    (w.round run now p frontier memory).1.next? = some next →
      w.Went p frontier (w.round …).1 (w.round …).2 next          (went_of_next?)

A node that ran brings up those of its targets that are ready, or the one that it decides
for (`mem_next_of_all`, `mem_next_of_resolve`).  `mem_completed_after` and `state_after`
say what any round makes of the progress, `error_of_round` what it can fail with.
-/

namespace Flowgraph

variable {σ : Type}

/-! ## Executions -/

namespace Executions

/-- The nodes that were executed. -/
def ids (es : Executions) : List String := es.map (·.1)

/-- The nodes that asked for input. -/
def suspended (es : Executions) : List String := es.suspensions.map (·.1)

theorem mem_updates {es : Executions} {id : String} {v : Json} :
    (id, v) ∈ es.updates ↔ ∃ e, (id, e) ∈ es ∧ e.attempt = .done (.update v) := by
  simp only [updates, List.mem_filterMap]
  constructor
  · rintro ⟨⟨i, e⟩, he, h⟩
    dsimp only at h
    split at h
    · rename_i u hu
      simp only [Option.some.injEq, Prod.mk.injEq] at h
      obtain ⟨rfl, rfl⟩ := h
      exact ⟨e, he, hu⟩
    · cases h
  · rintro ⟨e, he, hu⟩
    exact ⟨(id, e), he, by simp only [hu]⟩

theorem mem_ran {es : Executions} {id : String} : id ∈ es.ran ↔ ∃ v, (id, v) ∈ es.updates := by
  simp [ran]

theorem mem_suspensions {es : Executions} {id key : String} {payload : Json} :
    (id, key, payload) ∈ es.suspensions ↔
      ∃ e, (id, e) ∈ es ∧ e.attempt = .done (.suspend key payload) := by
  simp only [suspensions, List.mem_filterMap]
  constructor
  · rintro ⟨⟨i, e⟩, he, h⟩
    dsimp only at h
    split at h
    · rename_i k u hu
      simp only [Option.some.injEq, Prod.mk.injEq] at h
      obtain ⟨rfl, rfl, rfl⟩ := h
      exact ⟨e, he, hu⟩
    · cases h
  · rintro ⟨e, he, hu⟩
    exact ⟨(id, e), he, by simp only [hu]⟩

theorem mem_suspended {es : Executions} {id : String} :
    id ∈ es.suspended ↔ ∃ key payload, (id, key, payload) ∈ es.suspensions := by
  simp [suspended]

theorem mem_ids {es : Executions} {id : String} : id ∈ es.ids ↔ ∃ e, (id, e) ∈ es := by
  simp [ids]

theorem mem_ids_of_ran {es : Executions} {id : String} (h : id ∈ es.ran) : id ∈ es.ids := by
  obtain ⟨v, hv⟩ := mem_ran.1 h
  obtain ⟨e, he, -⟩ := mem_updates.1 hv
  exact mem_ids.2 ⟨e, he⟩

theorem mem_ids_of_suspended {es : Executions} {id : String} (h : id ∈ es.suspended) :
    id ∈ es.ids := by
  obtain ⟨key, payload, hs⟩ := mem_suspended.1 h
  obtain ⟨e, he, -⟩ := mem_suspensions.1 hs
  exact mem_ids.2 ⟨e, he⟩

/-- Where nothing failed, every node gave an update or asked for input. -/
theorem ran_or_suspended {es : Executions} (hf : es.failure? = none) {id : String}
    (h : id ∈ es.ids) : id ∈ es.ran ∨ id ∈ es.suspended := by
  obtain ⟨e, he⟩ := mem_ids.1 h
  have herr : errorOf? (id, e) = none := List.findSome?_eq_none_iff.1 hf _ he
  cases ha : e.attempt with
  | done outcome =>
    cases outcome with
    | update v => exact .inl (mem_ran.2 ⟨v, mem_updates.2 ⟨e, he, ha⟩⟩)
    | suspend key payload =>
      exact .inr (mem_suspended.2 ⟨key, payload, mem_suspensions.2 ⟨e, he, ha⟩⟩)
  | failed error => simp [errorOf?, ha] at herr
  | crashed report => simp [errorOf?, ha] at herr

/-- An execution of a node failed or broke down. -/
def FailedAt (es : Executions) (id : String) (source : StepError) : Prop :=
  ∃ e, (id, e) ∈ es ∧ errorOf? (id, e) = some (.stepExecution id source)

theorem failedAt_of_errorOf? {es : Executions} {e : String × Execution} {error : RunError}
    (he : e ∈ es) (h : errorOf? e = some error) :
    ∃ source, error = .stepExecution e.1 source ∧ es.FailedAt e.1 source := by
  obtain ⟨id, e⟩ := e
  have hcopy := h
  unfold errorOf? at h
  split at h
  · cases h
    exact ⟨_, rfl, e, he, hcopy⟩
  · cases h
    exact ⟨_, rfl, e, he, hcopy⟩
  · cases h

/-- What is reported of failures is that of the first node. -/
theorem failure?_eq_some {es : Executions} (hasc : es.ids.Pairwise (· < ·)) {error : RunError}
    (h : es.failure? = some error) :
    ∃ id source, error = .stepExecution id source ∧ es.FailedAt id source ∧
      ∀ id' source', es.FailedAt id' source' → id ≤ id' := by
  obtain ⟨before, e, after, rfl, herror, hbefore⟩ := List.findSome?_eq_some_iff.1 h
  have hmem : e ∈ before ++ e :: after := List.mem_append_right _ List.mem_cons_self
  obtain ⟨source, rfl, hfailed⟩ := failedAt_of_errorOf? hmem herror
  refine ⟨e.1, source, rfl, hfailed, fun id' source' hother => ?_⟩
  obtain ⟨e', he', hfails⟩ := hother
  rw [ids, List.map_append, List.map_cons] at hasc
  rcases List.mem_append.1 he' with hearlier | hlater
  · rw [hbefore _ hearlier] at hfails
    cases hfails
  · have hid : id' ∈ e.1 :: after.map (·.1) := by
      rw [← List.map_cons]
      exact List.mem_map.2 ⟨_, hlater, rfl⟩
    exact head_le_of_ascending (List.pairwise_append.1 hasc).2.1 hid

theorem failure?_isSome_of_failedAt {es : Executions} {id : String} {source : StepError}
    (h : es.FailedAt id source) : ∃ error, es.failure? = some error := by
  obtain ⟨e, he, hfails⟩ := h
  rw [← Option.ne_none_iff_exists']
  intro hnone
  rw [List.findSome?_eq_none_iff.1 hnone _ he] at hfails
  cases hfails

/-- Every execution gave an update. -/
def Updated (es : Executions) : Prop := ∀ e ∈ es, ∃ v, e.2.attempt = .done (.update v)

namespace Updated

variable {es : Executions}

theorem ran_eq_ids (h : es.Updated) : es.ran = es.ids := by
  induction es with
  | nil => rfl
  | cons e es ih =>
    obtain ⟨v, hv⟩ := h e List.mem_cons_self
    have hrest := ih fun f hf => h f (List.mem_cons_of_mem _ hf)
    simp only [ran, updates, ids, List.filterMap_cons, List.map_cons, hv] at hrest ⊢
    rw [hrest]

theorem suspensions_eq_nil (h : es.Updated) : es.suspensions = [] := by
  refine List.filterMap_eq_nil_iff.2 fun e he => ?_
  obtain ⟨v, hv⟩ := h e he
  rw [hv]

theorem failure?_eq_none (h : es.Updated) : es.failure? = none := by
  refine List.findSome?_eq_none_iff.2 fun e he => ?_
  obtain ⟨v, hv⟩ := h e he
  rw [errorOf?, hv]

end Updated

theorem eq_of_mem {es : Executions} (hnd : es.ids.Nodup) {id : String} {e f : Execution}
    (he : (id, e) ∈ es) (hf : (id, f) ∈ es) : e = f := by
  have h := NameMap.lookup_of_nodup hnd he
  rw [NameMap.lookup_of_nodup hnd hf] at h
  exact (Option.some.inj h).symm

theorem not_suspended_of_ran {es : Executions} (hnd : es.ids.Nodup) {id : String}
    (h : id ∈ es.ran) : id ∉ es.suspended := by
  intro hs
  obtain ⟨v, hv⟩ := mem_ran.1 h
  obtain ⟨e, he, hdone⟩ := mem_updates.1 hv
  obtain ⟨key, payload, hs⟩ := mem_suspended.1 hs
  obtain ⟨f, hf, hsusp⟩ := mem_suspensions.1 hs
  rw [eq_of_mem hnd he hf, hsusp] at hdone
  cases hdone

theorem ran_sublist (es : Executions) : es.ran.Sublist es.ids := by
  induction es with
  | nil => exact List.Sublist.slnil
  | cons e es ih =>
    simp only [ran, updates, ids, List.filterMap_cons, List.map_cons] at ih ⊢
    split
    · exact ih.cons _
    · rename_i u hu
      split at hu
      · cases Option.some.inj hu
        exact ih.cons_cons _
      · cases hu

theorem suspended_sublist (es : Executions) : es.suspended.Sublist es.ids := by
  induction es with
  | nil => exact List.Sublist.slnil
  | cons e es ih =>
    simp only [suspended, suspensions, ids, List.filterMap_cons, List.map_cons] at ih ⊢
    split
    · exact ih.cons _
    · rename_i s hs
      split at hs
      · cases Option.some.inj hs
        exact ih.cons_cons _
      · cases hs

end Executions

theorem ids_executeAll (context : String → StepContext) (snapshot : State)
    (steps : List (String × Step σ)) (memory : σ) :
    (executeAll context snapshot steps memory).1.ids = steps.map (·.1) := by
  induction steps generalizing memory with
  | nil => rfl
  | cons s steps ih =>
    obtain ⟨id, step⟩ := s
    simp only [executeAll, Executions.ids, List.map_cons]
    congr 1
    exact ih _

/-- Every execution is that of a step on the snapshot, with some memory. -/
theorem mem_executeAll {context : String → StepContext} {snapshot : State}
    {steps : List (String × Step σ)} {memory : σ} {id : String} {e : Execution}
    (h : (id, e) ∈ (executeAll context snapshot steps memory).1) :
    ∃ step m, (id, step) ∈ steps ∧ e = (step.execute (context id) snapshot m).1 := by
  induction steps generalizing memory with
  | nil => cases h
  | cons s steps ih =>
    obtain ⟨i, step⟩ := s
    simp only [executeAll] at h
    rcases List.mem_cons.1 h with heq | hrest
    · simp only [Prod.mk.injEq] at heq
      obtain ⟨rfl, rfl⟩ := heq
      exact ⟨step, memory, List.mem_cons_self, rfl⟩
    · obtain ⟨step', m, hmem, he⟩ := ih hrest
      exact ⟨step', m, List.mem_cons_of_mem _ hmem, he⟩

/-! ## Joins -/

theorem Plan.isReady_iff {p : Plan} {completed : NameSet} {n : String} :
    p.isReady completed n = true ↔
      ∀ sources, p.joins.find? n = some sources → ∀ s ∈ sources, s ∈ completed := by
  unfold isReady
  cases p.joins.find? n with
  | none => exact iff_of_true rfl nofun
  | some sources =>
    refine decide_eq_true_iff.trans ⟨fun h _ hs => ?_, fun h => h sources rfl⟩
    cases hs
    exact h

/-- A node that is not ready has a join, one of whose sources has not completed. -/
theorem Plan.isReady_eq_false_iff {p : Plan} {completed : NameSet} {n : String} :
    p.isReady completed n = false ↔
      ∃ sources, p.joins.find? n = some sources ∧ ∃ s ∈ sources, s ∉ completed := by
  rw [← Bool.not_eq_true, isReady_iff]
  push Not
  rfl

/-! ## Rounds -/

namespace Round

/-- The nodes to run after a round, unless it failed. -/
def next? (r : Round) : Option NameSet :=
  match r.verdict with
  | .ready next => some next
  | .suspended c => some c.frontier
  | .failed _ => none

end Round

namespace Workflow

variable (w : Workflow σ) (run : String) (now : Timestamp) (p : Progress) (frontier : NameSet)
  (memory : σ)

/-- How a round went that did not fail; `memory` is what it left. -/
structure Went (r : Round) (next : NameSet) : Prop where
  /-- The whole frontier was executed. -/
  ids : r.executions.ids = frontier.toList
  noFailure : r.executions.failure? = none
  after : r.after = advance p r.executions
  /-- Every node that gave an update could be routed. -/
  routed : ∀ id ∈ r.executions.ran, ∃ targets, w.route r.after memory id = .ok targets
  mem_next : ∀ b, b ∈ next ↔ b ∈ r.executions.suspended ∨
    ∃ id ∈ r.executions.ran, ∃ targets, w.route r.after memory id = .ok targets ∧ b ∈ targets

theorem mem_staffed {id : String} {step : Step σ} :
    (id, step) ∈ w.staffed frontier ↔ id ∈ frontier ∧ w.steps.find? id = some step := by
  simp only [staffed, List.mem_filterMap, Option.map_eq_some_iff]
  constructor
  · rintro ⟨i, hi, s, hs, heq⟩
    simp only [Prod.mk.injEq] at heq
    obtain ⟨rfl, rfl⟩ := heq
    exact ⟨hi, hs⟩
  · rintro ⟨hi, hs⟩
    exact ⟨id, hi, step, hs, rfl⟩

theorem ids_staffed (h : w.unstaffed? frontier = none) :
    (w.staffed frontier).map (·.1) = frontier.toList := by
  unfold unstaffed? at h
  unfold staffed
  generalize frontier.toList = l at h ⊢
  induction l with
  | nil => rfl
  | cons id l ih =>
    rw [List.find?_cons] at h
    split at h
    · cases h
    · rename_i hsome
      cases hs : w.steps.find? id with
      | none => simp [hs] at hsome
      | some step => simp [hs, ih h]

/-- A node is routed to every target that is ready, or to the one that it decides for. -/
theorem mem_route {id b : String} {targets : List String} (h : w.route p memory id = .ok targets)
    (hb : b ∈ targets) :
    (∃ ts, w.plan.routing.find? id = some (.all ts) ∧ b ∈ ts ∧
      w.plan.isReady p.completed b = true) ∨
    ∃ handles, w.plan.routing.find? id = some (.choice handles) ∧
      w.plan.resolve id (w.decisionOf p.state memory id) = .ok b := by
  unfold route at h
  split at h
  · cases Except.ok.inj h
    cases hb
  · rename_i ts hts
    cases Except.ok.inj h
    obtain ⟨hmem, hready⟩ := List.mem_filter.1 hb
    exact .inl ⟨ts, hts, hmem, hready⟩
  · rename_i handles hhandles
    split at h
    · rename_i target htarget
      cases Except.ok.inj h
      rw [List.mem_singleton.1 hb]
      exact .inr ⟨handles, hhandles, htarget⟩
    · cases h

/-- A node is routed where it leads. -/
theorem leads_of_route {id b : String} {targets : List String}
    (h : w.route p memory id = .ok targets) (hb : b ∈ targets) : w.plan.Leads id b := by
  rcases w.mem_route p memory h hb with ⟨ts, hts, hmem, -⟩ | ⟨handles, hhandles, htarget⟩
  · exact ⟨_, hts, hmem⟩
  · exact ⟨_, hhandles, Plan.mem_values_of_resolve hhandles htarget⟩

theorem mem_routeAll {ids : List String} {next : NameSet}
    (h : w.routeAll p memory ids = .ok next) :
    (∀ id ∈ ids, ∃ targets, w.route p memory id = .ok targets) ∧
      ∀ b, b ∈ next ↔ ∃ id ∈ ids, ∃ targets, w.route p memory id = .ok targets ∧ b ∈ targets := by
  induction ids generalizing next with
  | nil =>
    cases Except.ok.inj h
    simp
  | cons id ids ih =>
    simp only [routeAll] at h
    split at h
    · cases h
    rename_i targets ht
    split at h
    · cases h
    rename_i rest hrest
    cases Except.ok.inj h
    obtain ⟨hrouted, hmem⟩ := ih hrest
    constructor
    · intro i hi
      rcases List.mem_cons.1 hi with rfl | hi
      · exact ⟨targets, ht⟩
      · exact hrouted i hi
    · intro b
      rw [NameSet.mem_union, NameSet.mem_ofList, hmem b]
      constructor
      · rintro (hb | ⟨i, hi, hlead⟩)
        · exact ⟨id, List.mem_cons_self, targets, ht, hb⟩
        · exact ⟨i, List.mem_cons_of_mem _ hi, hlead⟩
      · rintro ⟨i, hi, ts, hts, hb⟩
        rcases List.mem_cons.1 hi with rfl | hi
        · rw [ht] at hts
          cases Except.ok.inj hts
          exact .inl hb
        · exact .inr ⟨i, hi, ts, hts, hb⟩

theorem route_of_routeAll_error {ids : List String} {error : PlanError}
    (h : w.routeAll p memory ids = .error error) :
    ∃ id ∈ ids, w.route p memory id = .error error := by
  induction ids with
  | nil => cases h
  | cons id ids ih =>
    simp only [routeAll] at h
    split at h
    · rename_i e he
      cases h
      exact ⟨id, List.mem_cons_self, he⟩
    split at h
    · rename_i e he
      cases h
      obtain ⟨i, hi, hroute⟩ := ih he
      exact ⟨i, List.mem_cons_of_mem _ hi, hroute⟩
    · cases h

theorem number_round : (w.round run now p frontier memory).1.number = p.step + 1 := by
  unfold round
  split <;> rfl

theorem snapshot_round : (w.round run now p frontier memory).1.snapshot = p.state := by
  unfold round
  split <;> rfl

/-- Where every node has a step, the whole frontier is executed. -/
theorem ids_round (h : ∀ n ∈ frontier, ∃ step, w.steps.find? n = some step) :
    (w.round run now p frontier memory).1.executions.ids = frontier.toList := by
  have hstaffed : w.unstaffed? frontier = none := by
    refine List.find?_eq_none.2 fun n hn => ?_
    obtain ⟨step, hs⟩ := h n hn
    simp [hs]
  unfold round
  rw [hstaffed]
  dsimp only
  rw [ids_executeAll, ids_staffed w frontier hstaffed]

/-- Where a node has no step, nothing is executed, and the least such node is reported. -/
theorem round_of_unstaffed {n : String} (h : w.unstaffed? frontier = some n) :
    (w.round run now p frontier memory).1.executions = [] ∧
      (w.round run now p frontier memory).1.verdict = .failed (.unknownNode n) ∧
      (w.round run now p frontier memory).1.after.state = p.state ∧
      (w.round run now p frontier memory).2 = memory := by
  unfold round
  rw [h]
  exact ⟨rfl, rfl, rfl, rfl⟩

/-- Only nodes of the frontier are executed, each with its step on the state. -/
theorem mem_executions {id : String} {e : Execution}
    (h : (id, e) ∈ (w.round run now p frontier memory).1.executions) :
    id ∈ frontier ∧ ∃ step ctx m, w.steps.find? id = some step ∧ ctx.node = id ∧
      e = (step.execute ctx p.state m).1 := by
  unfold round at h
  split at h
  · cases h
  · obtain ⟨step, m, hstep, he⟩ := mem_executeAll h
    obtain ⟨hid, hs⟩ := (mem_staffed w frontier).1 hstep
    exact ⟨hid, step, _, m, hs, rfl, he⟩

theorem ascending_ids :
    (w.round run now p frontier memory).1.executions.ids.Pairwise (· < ·) := by
  unfold round
  split
  · exact List.Pairwise.nil
  · rename_i hnone
    dsimp only
    rw [ids_executeAll, ids_staffed w frontier hnone]
    exact frontier.ascending

theorem nodup_ids : (w.round run now p frontier memory).1.executions.ids.Nodup := by
  refine (w.ascending_ids run now p frontier memory).imp fun {a b} hlt heq => ?_
  rw [heq] at hlt
  exact String.lt_irrefl b hlt

theorem state_after : (w.round run now p frontier memory).1.after.state =
    (p.state.reduce ((w.round run now p frontier memory).1.executions.updates.map (·.2))).1 := by
  unfold round
  split <;> rfl

theorem mem_completed_after {id : String} :
    id ∈ (w.round run now p frontier memory).1.after.completed ↔
      id ∈ (w.round run now p frontier memory).1.executions.ran ∨ id ∈ p.completed := by
  unfold round
  split
  · simp [Executions.ran, Executions.updates]
  · simp [advance]

/-- What the state has under a key after a round it had before, or an execution wrote it. -/
theorem find?_state_after {key : String} {v : Json}
    (h : (w.round run now p frontier memory).1.after.state.find? key = some v) :
    p.state.find? key = some v ∨ ∃ id step ctx m fields, w.steps.find? id = some step ∧
      ctx.node = id ∧ (step.execute ctx p.state m).1.attempt = .done (.update (.obj fields)) ∧
      (key, v) ∈ fields := by
  rw [w.state_after] at h
  rcases State.find?_reduce_cases h with hbefore | ⟨fields, hfields, hkey⟩
  · exact .inl hbefore
  · right
    obtain ⟨⟨id, u⟩, hu, rfl⟩ := List.mem_map.1 hfields
    obtain ⟨e, he, hdone⟩ := Executions.mem_updates.1 hu
    obtain ⟨-, step, ctx, m, hstep, hnode, rfl⟩ := w.mem_executions run now p frontier memory he
    exact ⟨id, step, ctx, m, fields, hstep, hnode, hdone, hkey⟩

/-- A node that asked for input in a round did so in an execution of its step. -/
theorem suspended_by {id key : String} {payload : Json} (h : (id, key, payload) ∈
      (w.round run now p frontier memory).1.executions.suspensions) :
    ∃ step ctx m, w.steps.find? id = some step ∧ ctx.node = id ∧
      (step.execute ctx p.state m).1.attempt = .done (.suspend key payload) := by
  obtain ⟨e, he, hdone⟩ := Executions.mem_suspensions.1 h
  obtain ⟨-, step, ctx, m, hstep, hnode, rfl⟩ := w.mem_executions run now p frontier memory he
  exact ⟨step, ctx, m, hstep, hnode, hdone⟩

/-- A round is suspended with the checkpoint for the first of its suspensions, its nodes routed. -/
theorem checkpoint_eq_of_round {c : Checkpoint}
    (h : (w.round run now p frontier memory).1.verdict = .suspended c) :
    ∃ next key payload others,
      w.routeAll (w.round run now p frontier memory).1.after (w.round run now p frontier memory).2
        (w.round run now p frontier memory).1.executions.ran = .ok next ∧
      (w.round run now p frontier memory).1.executions.suspensions =
        (c.pending, key, payload) :: others ∧
      c = checkpointOf run now (w.round run now p frontier memory).1.after next c.pending key payload
        (others.map (·.1)) := by
  unfold round at h ⊢
  split at h
  · cases h
  · dsimp only [conclude] at h ⊢
    split at h
    · cases h
    split at h
    · cases h
    · rename_i next hnext
      split at h
      · cases h
      · rename_i pending key payload others hs
        cases Verdict.suspended.inj h
        exact ⟨next, key, payload, others, hnext, hs, rfl⟩

/-- The checkpoint of a round holds the progress after it, and waits for the input that a node of
the round asked for. -/
theorem checkpoint_of_round {c : Checkpoint}
    (h : (w.round run now p frontier memory).1.verdict = .suspended c) :
    (w.round run now p frontier memory).1.after = ⟨c.state, c.completed, c.step⟩ ∧
      ∃ payload, (c.pending, c.inputKey, payload) ∈
        (w.round run now p frontier memory).1.executions.suspensions := by
  obtain ⟨next, key, payload, others, -, hs, hc⟩ := w.checkpoint_eq_of_round run now p frontier memory h
  have hkey : c.inputKey = key := by
    rw [hc]
    exact Awaiting.inputKey_ofKey c.pending key
  refine ⟨?_, payload, ?_⟩
  · rw [hc]
    rfl
  · rw [hs, hkey]
    exact List.mem_cons_self

/-- A round that is ready to go on has no node that asked for input. -/
theorem suspended_of_ready {next : NameSet}
    (h : (w.round run now p frontier memory).1.verdict = .ready next) :
    (w.round run now p frontier memory).1.executions.suspended = [] := by
  unfold round at h ⊢
  split at h
  · cases h
  · dsimp only [conclude] at h ⊢
    split at h
    · cases h
    split at h
    · cases h
    split at h
    · rename_i hs
      rw [Executions.suspended, hs]
      rfl
    · cases h

/-- A round in which a node failed fails with what is reported of it. -/
theorem verdict_of_failure {error : RunError}
    (h : (w.round run now p frontier memory).1.executions.failure? = some error) :
    (w.round run now p frontier memory).1.verdict = .failed error := by
  unfold round at h ⊢
  split
  · rename_i hsome
    rw [hsome] at h
    cases h
  · rename_i hnone
    rw [hnone] at h
    dsimp only [conclude] at h ⊢
    rw [h]

/-- What a round can fail with: a node without a step, the failure of a step, or a decision that
leads nowhere. -/
theorem error_of_round {error : RunError}
    (h : (w.round run now p frontier memory).1.verdict = .failed error) :
    (∃ id, w.unstaffed? frontier = some id ∧ error = .unknownNode id) ∨
      (w.round run now p frontier memory).1.executions.failure? = some error ∨
      ∃ source, error = .plan source ∧
        ∃ id ∈ (w.round run now p frontier memory).1.executions.ran,
          w.route (w.round run now p frontier memory).1.after
            (w.round run now p frontier memory).2 id = .error source := by
  unfold round at h ⊢
  split at h
  · rename_i n hn
    exact .inl ⟨n, hn, (Verdict.failed.inj h).symm⟩
  · rename_i hnone
    rw [hnone]
    dsimp only [conclude] at h ⊢
    right
    split at h
    · rename_i e he
      rw [← Verdict.failed.inj h]
      exact .inl he
    split at h
    · rename_i source hsource
      exact .inr ⟨source, (Verdict.failed.inj h).symm, w.route_of_routeAll_error _ _ hsource⟩
    split at h
    · cases h
    · cases h

/-- A round in which nodes asked for input, none failed and all could be routed is suspended. -/
theorem suspended_of_routed (hs : (w.round run now p frontier memory).1.executions.suspended ≠ [])
    (hf : (w.round run now p frontier memory).1.executions.failure? = none)
    (hroutes : ∀ n ∈ (w.round run now p frontier memory).1.executions.ran, ∃ targets,
      w.route (w.round run now p frontier memory).1.after (w.round run now p frontier memory).2 n =
        .ok targets) :
    ∃ c, (w.round run now p frontier memory).1.verdict = .suspended c := by
  cases hv : (w.round run now p frontier memory).1.verdict with
  | suspended c => exact ⟨c, rfl⟩
  | ready next => exact absurd (w.suspended_of_ready run now p frontier memory hv) hs
  | failed error =>
    rcases w.error_of_round run now p frontier memory hv with
      ⟨n, hn, -⟩ | hfailure | ⟨source, -, n, hran, hroute⟩
    · rw [(w.round_of_unstaffed run now p frontier memory hn).1] at hs
      exact absurd rfl hs
    · rw [hf] at hfailure
      cases hfailure
    · obtain ⟨targets, htargets⟩ := hroutes n hran
      rw [hroute] at htargets
      cases htargets

/-- A round does not fail with the limit of steps. -/
theorem root_ne_stepLimit_of_round {error : RunError}
    (h : (w.round run now p frontier memory).1.verdict = .failed error) (limit : UInt64) :
    error.root ≠ .stepLimitExceeded limit := by
  rcases w.error_of_round run now p frontier memory h with
    ⟨id, -, rfl⟩ | hfailure | ⟨source, rfl, -⟩
  · exact nofun
  · obtain ⟨id, source, rfl, -⟩ :=
      Executions.failure?_eq_some (w.ascending_ids run now p frontier memory) hfailure
    exact nofun
  · exact nofun

/-- A round that does not fail went as it should. -/
theorem went_of_next? {next : NameSet}
    (h : (w.round run now p frontier memory).1.next? = some next) :
    w.Went p frontier (w.round run now p frontier memory).2
      (w.round run now p frontier memory).1 next := by
  cases hu : w.unstaffed? frontier with
  | some id => simp [round, hu, Round.next?] at h
  | none =>
    simp only [round, hu] at h ⊢
    generalize hx : executeAll (fun node => { node, run, step := p.step + 1 }) p.state
      (w.staffed frontier) memory = x at h ⊢
    have hids : x.1.ids = frontier.toList := by
      rw [← hx, ids_executeAll, ids_staffed w frontier hu]
    simp only [Round.next?, conclude] at h
    cases hf : x.1.failure? with
    | some error => simp [hf] at h
    | none =>
      cases hr : w.routeAll (advance p x.1) x.2 x.1.ran with
      | error error => simp [hf, hr] at h
      | ok routed =>
        obtain ⟨hrouted, hmem⟩ := w.mem_routeAll _ _ hr
        refine ⟨hids, hf, rfl, hrouted, fun b => ?_⟩
        rw [← hmem b]
        -- the least suspended node is pending, the others are carried: together all of them
        cases hs : x.1.suspensions with
        | nil =>
          simp only [hf, hr, hs, Option.some.injEq] at h
          simp [← h, Executions.suspended, hs]
        | cons s others =>
          simp only [hf, hr, hs, Option.some.injEq] at h
          rw [← h]
          simp only [Checkpoint.frontier, checkpointOf, NameSet.mem_insert, NameSet.mem_union,
            NameSet.mem_ofList, Executions.suspended, hs, List.map_cons, List.mem_cons]
          constructor
          · rintro (hb | hb | hb)
            · exact .inl (.inl hb)
            · exact .inr hb
            · exact .inl (.inr hb)
          · rintro ((hb | hb) | hb)
            · exact .inl hb
            · exact .inr (.inr hb)
            · exact .inr (.inl hb)

end Workflow

/-! ## What comes next -/

namespace Workflow.Went

variable {w : Workflow σ} {p : Progress} {due next : NameSet} {memory : σ} {r : Round} {a b : String}

/-- Of the targets of a node that leads to all of them, the ready ones are to run after it. -/
theorem mem_next_of_all (h : w.Went p due memory r next) (ha : a ∈ r.executions.ran)
    {targets : NameSet} (hrouting : w.plan.routing.find? a = some (.all targets)) (hb : b ∈ targets)
    (hready : w.plan.isReady r.after.completed b = true) : b ∈ next := by
  refine (h.mem_next b).2 (.inr ⟨a, ha, targets.toList.filter (w.plan.isReady r.after.completed), ?_,
    List.mem_filter.2 ⟨hb, hready⟩⟩)
  unfold route
  rw [hrouting]

/-- The target that a node decides for is to run after it. -/
theorem mem_next_of_resolve (h : w.Went p due memory r next) (ha : a ∈ r.executions.ran)
    (hb : w.plan.resolve a (w.decisionOf r.after.state memory a) = .ok b) : b ∈ next := by
  obtain ⟨targets, htargets⟩ := h.routed a ha
  refine (h.mem_next b).2 (.inr ⟨a, ha, targets, htargets, ?_⟩)
  -- what resolves is a choice, so the target is all that the node is routed to
  unfold route at htargets
  split at htargets
  · rename_i hnone
    simp [Plan.resolve, hnone] at hb
  · rename_i ts hts
    simp [Plan.resolve, hts] at hb
  · rw [hb] at htargets
    cases Except.ok.inj htargets
    exact List.mem_singleton.2 rfl

/-- One of the targets of a node that chooses is to run after it. -/
theorem mem_next_of_choice (h : w.Went p due memory r next) (ha : a ∈ r.executions.ran)
    {handles : NameMap String} (hrouting : w.plan.routing.find? a = some (.choice handles)) :
    ∃ b ∈ handles.values, b ∈ next := by
  obtain ⟨targets, htargets⟩ := h.routed a ha
  unfold route at htargets
  rw [hrouting] at htargets
  dsimp only at htargets
  split at htargets
  · rename_i b hb
    exact ⟨b, Plan.mem_values_of_resolve hrouting hb, h.mem_next_of_resolve ha hb⟩
  · cases htargets

end Workflow.Went

end Flowgraph
