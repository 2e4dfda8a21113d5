import Flowgraph.Proofs.Plan.Paths
import Flowgraph.Proofs.Run.Barriers

/-!
# Repetitions

Where routes do not come back, a node other than the end can still be executed after it
has run.  That is so exactly if such a node is brought up again
(`Workflow.BroughtAgain`): it has run by the time that a node routes to it, another
node routed to it before, and one of the two chose it

    (some node is executed again) ↔ (some node is brought up again)          (repeated_iff)

Two nodes that lead to all their targets make a join of what they both lead to, which
comes up once, after both have run.  So it takes a choice to bring a node up again, and
nothing is executed again where what is chosen has no other way in.  `revisit` is a graph
whose branch chooses a task that ran before the run was suspended.
-/

namespace Flowgraph

open Relation

variable {σ τ : Type}

namespace Workflow

/-- A node ran in a round and is routed to a target. -/
def Routed (w : Workflow σ) (run : String) (r : Round) (n target : String) : Prop :=
  n ∈ r.executions.ran ∧ ∃ now p frontier memory, (w.round run now p frontier memory).1 = r ∧
    ∃ targets, w.route r.after (w.round run now p frontier memory).2 n = .ok targets ∧
      target ∈ targets

/-- A node that has run is routed to in a round.  Another node was routed to it before, and one of the
two chose it. -/
structure BroughtAgain (w : Workflow σ) (run : String) (past : List Round) (r : Round) (n : String) :
    Prop where
  ran : n ∈ ranIn (past ++ [r])
  routes : ∃ q ∈ past, ∃ a b, a ≠ b ∧ w.Routed run q a n ∧ w.Routed run r b n ∧
    (w.Chose run q a n ∨ w.Chose run r b n)

variable {w : Workflow σ} {id : String}

/-! ## Routes of a lineage -/

namespace Routed

variable {r : Round} {a n : String}

theorem leads (h : w.Routed id r a n) : w.plan.Leads a n := by
  obtain ⟨-, now, p, frontier, memory, rfl, targets, hroute, hmem⟩ := h
  exact w.leads_of_route _ _ hroute hmem

/-- A node is routed to a target with all the others if that is ready, or by choice. -/
theorem ready_or_chose (h : w.Routed id r a n) :
    (∃ targets, w.plan.routing.find? a = some (.all targets) ∧ n ∈ targets ∧
      w.plan.isReady r.after.completed n = true) ∨ w.Chose id r a n := by
  obtain ⟨hran, now, p, frontier, memory, hr, targets, hroute, hmem⟩ := h
  rcases w.mem_route _ _ hroute hmem with hall | ⟨handles, -, hchoice⟩
  · exact .inl hall
  · exact .inr ⟨hran, now, p, frontier, memory, hr, hchoice⟩

/-- What is routed to in a round is to run after it. -/
theorem mem_frontier {past : List Round} {p : Progress} {frontier : NameSet} (h : w.Routed id r a n)
    (hp : Passed w id (past ++ [r]) p frontier) : n ∈ frontier := by
  obtain ⟨hran, now, q, due, memory, rfl, targets, hroute, hmem⟩ := h
  have hwent := w.went_of_next? id now q due memory hp.last.1
  exact (hwent.mem_next n).2 (.inr ⟨a, hran, targets, hroute, hmem⟩)

end Routed

/-- What is to run, other than the entry and the end, was routed to in some round before. -/
theorem exists_routed {past : List Round} {p : Progress} {frontier : NameSet}
    (h : Passed w id past p frontier) {n : String} (hn : n ∈ frontier) (hentry : n ≠ w.plan.entry)
    (hexit : n ≠ w.plan.exit) :
    ∃ q ∈ past, (∀ s ∈ q.after.completed, s ∈ ranIn past) ∧ ∃ a, w.Routed id q a n := by
  refine h.along (I := fun past _ frontier => n ∈ frontier →
    ∃ q ∈ past, (∀ s ∈ q.after.completed, s ∈ ranIn past) ∧ ∃ a, w.Routed id q a n) ?_ ?_ hn
  · exact fun initial hn => absurd (NameSet.mem_singleton.1 hn) hentry
  · intro past p frontier r next s hp ih hr hnext _ hn
    have hcompleted := hp.mem_completed_after hr
    obtain ⟨due, now, memory, hdue, rfl⟩ := hr
    have hwent := w.went_of_next? id now p due memory hnext
    rcases (hwent.mem_next n).1 hn with hsusp | ⟨a, ha, targets, hroute, hmem⟩
    · -- a node that asked for input was to run before the round
      have hids := Executions.mem_ids_of_suspended hsusp
      rw [hwent.ids] at hids
      obtain ⟨q, hq, hbefore, hrouted⟩ := ih ((mem_dueFrontier? hdue hexit).1 hids)
      refine ⟨q, List.mem_append_left _ hq, fun s hs => ?_, hrouted⟩
      exact mem_ranIn_append.2 (.inl (hbefore s hs))
    · exact ⟨_, List.mem_concat_self, fun s hs => (hcompleted s).1 hs, a, ha, now, p, due, memory, rfl,
        targets, hroute, hmem⟩

/-- Two nodes that are routed to one target bring it up by choice, or it is a join and the later one had
completed when the earlier one was routed. -/
theorem chose_or_completed {g : Graph} (hplan : g.plan = .ok w.plan) {q r : Round} {a b n : String}
    (hn : n ≠ w.plan.exit) (hab : a ≠ b) (ha : w.Routed id q a n) (hb : w.Routed id r b n) :
    (w.Chose id q a n ∨ w.Chose id r b n) ∨ b ∈ q.after.completed := by
  rcases ha.ready_or_chose with ⟨targets, hall, hmem, hready⟩ | hchose
  · rcases hb.ready_or_chose with ⟨targets', hall', hmem', -⟩ | hchose
    · have hsource := Graph.source_of_targets hplan hall hmem hn
      have hsource' := Graph.source_of_targets hplan hall' hmem' hn
      have hjoin := Graph.join_of_sources hplan hsource hsource' hab
      exact .inr (Plan.isReady_iff.1 hready _ hjoin b hsource')
    · exact .inl (.inr hchose)
  · exact .inl (.inl hchose)

/-! ## Executing a node again -/

section

variable {g : Graph} {reg : Registry σ} {rounds : List Round} {last : Call σ τ}

/-- What has run by the end of a round, other than the entry and the end, was routed to before the
round. -/
theorem exists_routed_of_ran (hc : g.compile reg = .ok w) (hl : Lineage w id rounds last)
    {past rest : List Round} {r : Round} {n : String} (hrounds : rounds = past ++ r :: rest)
    (hran : n ∈ ranIn (past ++ [r])) (hentry : n ≠ w.plan.entry) (hexit : n ≠ w.plan.exit) :
    ∃ q ∈ past, (∀ s ∈ q.after.completed, s ∈ ranIn past) ∧ ∃ a, w.Routed id q a n := by
  obtain ⟨j, hj, hjran⟩ := List.mem_flatMap.1 hran
  obtain ⟨before, after, hsplit⟩ := List.append_of_mem hj
  have hrounds' : rounds = before ++ j :: (after ++ rest) := by
    rw [hrounds, List.append_cons, hsplit, List.append_assoc, List.cons_append]
  obtain ⟨p, frontier, hp, hfollows⟩ := hl.passed hrounds'
  have hfrontier : n ∈ frontier :=
    (hp.mem_executed hc hfollows hexit).1 (Executions.mem_ids_of_ran hjran)
  obtain ⟨q, hq, hcompleted, hrouted⟩ := exists_routed hp hfrontier hentry hexit
  have hsub : ∀ x ∈ before, x ∈ past := by
    rcases last_or_earlier hsplit with ⟨rfl, -⟩ | ⟨after', rfl⟩
    · exact fun x hx => hx
    · exact fun x hx => List.mem_append_left _ hx
  refine ⟨q, hsub q hq, fun s hs => ?_, hrouted⟩
  obtain ⟨x, hx, hsx⟩ := List.mem_flatMap.1 (hcompleted s hs)
  exact List.mem_flatMap.2 ⟨x, hsub x hx, hsx⟩

/-- Where a node is executed again, some node was brought up again. -/
theorem exists_broughtAgain (hc : g.compile reg = .ok w)
    (hacyclic : ∀ a, ¬ TransGen w.plan.Leads a a) (hl : Lineage w id rounds last)
    {past rest : List Round} {r : Round} {n : String} (hrounds : rounds = past ++ r :: rest)
    (hn : n ≠ w.plan.exit) (hran : n ∈ ranIn past) (hids : n ∈ r.executions.ids) :
    ∃ past r next rest n, rounds = past ++ r :: next :: rest ∧ n ≠ w.plan.exit ∧
      w.BroughtAgain id past r n := by
  have hplan := (Graph.compile_eq_ok hc).1
  -- by induction on the rounds before, down to the first repetition
  induction past using List.reverseRecOn generalizing r rest n with
  | nil => exact absurd hran List.not_mem_nil
  | append_singleton before q ih =>
    have hsplit : rounds = before ++ q :: r :: rest := by
      rw [hrounds, List.append_assoc]
      rfl
    obtain ⟨p, frontier, hp, hr⟩ := hl.passed hrounds
    have hfrontier : n ∈ frontier := (hp.mem_executed hc hr hn).1 hids
    obtain ⟨hnext, p', f', -, due, now, memory, -, rfl⟩ := hp.last
    have hwent := w.went_of_next? id now p' due memory hnext
    rcases (hwent.mem_next n).1 hfrontier with hsusp | ⟨b, hb, targets, hroute, hmem⟩
    · -- a node that asked for input in a round did not run in it
      have hnot := fun h => Executions.not_suspended_of_ran (w.nodup_ids id now p' due memory) h hsusp
      exact ih hsplit hn ((mem_ranIn_append.1 hran).resolve_right hnot)
        (Executions.mem_ids_of_suspended hsusp)
    · have hrouted : w.Routed id (w.round id now p' due memory).1 b n :=
        ⟨hb, now, p', due, memory, rfl, targets, hroute, hmem⟩
      by_cases hagain : b ∈ ranIn before
      · refine ih hsplit ?_ hagain (Executions.mem_ids_of_ran hb)
        rintro rfl
        exact Graph.not_leads_exit hplan hacyclic n hrouted.leads
      · have hentry : n ≠ w.plan.entry := by
          rintro rfl
          exact Graph.not_leads_entry hplan hacyclic b hrouted.leads
        obtain ⟨i, hi, hcompleted, a, ha⟩ := exists_routed_of_ran hc hl hsplit hran hentry hn
        have hab : a ≠ b := by
          rintro rfl
          exact hagain (List.mem_flatMap.2 ⟨i, hi, ha.1⟩)
        refine ⟨before, _, r, rest, n, hsplit, hn, hran, i, hi, a, b, hab, ha, hrouted, ?_⟩
        refine (chose_or_completed hplan hn hab ha hrouted).resolve_right fun hdone => ?_
        exact hagain (hcompleted b hdone)

/-- A node that is brought up again is executed in the next round. -/
theorem BroughtAgain.mem_ids (hc : g.compile reg = .ok w) (hl : Lineage w id rounds last)
    {past rest : List Round} {r next : Round} {n : String} (hrounds : rounds = past ++ r :: next :: rest)
    (hn : n ≠ w.plan.exit) (h : w.BroughtAgain id past r n) : n ∈ next.executions.ids := by
  rw [List.append_cons] at hrounds
  obtain ⟨p, frontier, hp, hnext⟩ := hl.passed hrounds
  obtain ⟨q, -, a, b, -, -, hb, -⟩ := h.routes
  exact (hp.mem_executed hc hnext hn).2 (hb.mem_frontier hp)

/-- Where what is chosen has no other way in, no node is brought up again. -/
theorem BroughtAgain.exists_second (hplan : g.plan = .ok w.plan) {past : List Round} {r : Round}
    {n : String} (hn : n ≠ w.plan.exit) (h : w.BroughtAgain id past r n) :
    ∃ e ∈ g.edges, g.isConditionalId e.source = true ∧ e.target = n ∧
      ∃ f ∈ g.edges, f.target = n ∧ f.source ≠ e.source := by
  have hedge : ∀ {q a}, w.Routed id q a n → ∃ e ∈ g.edges, e.source = a ∧ e.target = n := by
    intro q a ha
    exact (Graph.leads_cases hplan ha.leads).resolve_right fun hleaf => hn hleaf.2
  have hconditional : ∀ {q a}, w.Chose id q a n → g.isConditionalId a = true := by
    rintro q a ⟨-, now, p, frontier, memory, -, hchoice⟩
    obtain ⟨handles, hr⟩ := Plan.choice_of_resolve hchoice
    exact Graph.isConditionalId_of_choice hplan hr
  obtain ⟨q, -, a, b, hab, ha, hb, hchose⟩ := h.routes
  obtain ⟨e, he, rfl, het⟩ := hedge ha
  obtain ⟨f, hf, rfl, hft⟩ := hedge hb
  rcases hchose with hchose | hchose
  · exact ⟨e, he, hconditional hchose, het, f, hf, hft, Ne.symm hab⟩
  · exact ⟨f, hf, hconditional hchose, hft, e, he, het, hab⟩

/-- Where routes do not come back, a node of a lineage other than the end is executed after it ran
exactly if one is brought up again; and none is where the target of a node that chooses has no other
way in. -/
theorem repeated_iff (hc : g.compile reg = .ok w) (hacyclic : ∀ a, ¬ TransGen w.plan.Leads a a)
    (hl : Lineage w id rounds last) :
    ((∃ past r rest n, rounds = past ++ r :: rest ∧ n ≠ w.plan.exit ∧ n ∈ ranIn past ∧
        n ∈ r.executions.ids) ↔
      ∃ past r next rest n, rounds = past ++ r :: next :: rest ∧ n ≠ w.plan.exit ∧
        w.BroughtAgain id past r n) ∧
    ((∀ e ∈ g.edges, g.isConditionalId e.source = true → e.target ≠ w.plan.exit →
        ∀ f ∈ g.edges, f.target = e.target → f.source = e.source) →
      ∀ past r rest, rounds = past ++ r :: rest → ∀ n ∈ r.executions.ids, n ≠ w.plan.exit →
        n ∉ ranIn past) := by
  have hplan := (Graph.compile_eq_ok hc).1
  constructor
  · constructor
    · rintro ⟨past, r, rest, n, hrounds, hn, hran, hids⟩
      exact exists_broughtAgain hc hacyclic hl hrounds hn hran hids
    · rintro ⟨past, r, next, rest, n, hrounds, hn, hagain⟩
      refine ⟨past ++ [r], next, rest, n, by rw [hrounds, ← List.append_cons], hn, hagain.ran, ?_⟩
      exact hagain.mem_ids hc hl hrounds hn
  · intro honly past r rest hrounds n hids hn hran
    obtain ⟨past, r, next, rest, m, -, hm, hagain⟩ :=
      exists_broughtAgain hc hacyclic hl hrounds hn hran hids
    obtain ⟨e, he, hconditional, rfl, f, hf, htarget, hne⟩ := hagain.exists_second hplan hm
    exact hne (honly e he hconditional hm f hf htarget)

end

end Workflow

/-! ## A choice of what has run -/

/-- A branch leads to a task that does not wait for it. -/
def revisit : Graph where
  nodes := [{ id := "start", type := .start }, { id := "x", type := .step "task" },
    { id := "h", type := .step "ask" }, { id := "c", type := .step "task" },
    { id := "d", type := .step "task" }, { id := "b", type := .branch },
    { id := "end", type := .finish }]
  edges := [.between "start" "x", .between "start" "c", .between "x" "h", .between "c" "d",
    .between "d" "b", .between "b" "x", .between "h" "end"]
  distinct := by decide
  closed := by decide

def revisitWorkflow : Workflow Unit :=
  ⟨revisit, revisit.planFrom ⟨"start", "end", ["start", "c", "d", "b", "x", "h", "end"]⟩,
    revisit.makeSteps .idle⟩

theorem revisit_compile : revisit.compile .idle = .ok revisitWorkflow :=
  Graph.compile_of_plan (by decide +kernel) rfl

theorem revisit_acyclic : ∀ a, ¬ TransGen revisitWorkflow.plan.Leads a a :=
  (Graph.acyclic_iff (Graph.compile_eq_ok revisit_compile).1).2 (by decide)

/-- The rounds of a run, which is suspended, and of its resume. -/
def revisitRounds : List Round := revisitWorkflow.plainRun.rounds ++ revisitWorkflow.plainResume.rounds

theorem lineage_revisit :
    Lineage revisitWorkflow "run" revisitRounds revisitWorkflow.plainResume :=
  Workflow.lineage_plainResume (by decide +kernel) (by decide +kernel)

/-- The task runs before the run is suspended, and again after it is resumed. -/
theorem revisit_again : ∃ past r rest, revisitRounds = past ++ r :: rest ∧ "x" ∈ ranIn past ∧
    "x" ∈ r.executions.ids := by
  refine ⟨revisitRounds.take 4, revisitRounds.get ⟨4, by decide +kernel⟩, revisitRounds.drop 5, ?_,
    by decide +kernel, by decide +kernel⟩
  rw [List.get_eq_getElem, ← List.drop_eq_getElem_cons, List.take_append_drop]

theorem repeated_iff_revisit :
    revisit.compile .idle = .ok revisitWorkflow ∧
      (∀ a, ¬ TransGen revisitWorkflow.plan.Leads a a) ∧
      Lineage revisitWorkflow "run" revisitRounds revisitWorkflow.plainResume ∧
      ∃ past r next rest n, revisitRounds = past ++ r :: next :: rest ∧
        n ≠ revisitWorkflow.plan.exit ∧ revisitWorkflow.BroughtAgain "run" past r n := by
  refine ⟨revisit_compile, revisit_acyclic, lineage_revisit, ?_⟩
  obtain ⟨past, r, rest, hrounds, hran, hids⟩ := revisit_again
  exact (Workflow.repeated_iff revisit_compile revisit_acyclic lineage_revisit).1.1
    ⟨past, r, rest, "x", hrounds, by decide, hran, hids⟩

/-- No call fails, but a node that has run is executed again. -/
theorem not_once_revisit :
    revisit.compile .idle = .ok revisitWorkflow ∧
      (∀ a, ¬ TransGen revisitWorkflow.plan.Leads a a) ∧
      Lineage revisitWorkflow "run" revisitRounds revisitWorkflow.plainResume ∧
      revisitWorkflow.plainRun.result.toBool = true ∧
      revisitWorkflow.plainResume.result.toBool = true ∧
      ¬ ∀ past r rest, revisitRounds = past ++ r :: rest → ∀ n ∈ r.executions.ids,
        n ≠ revisitWorkflow.plan.exit → n ∉ ranIn past := by
  refine ⟨revisit_compile, revisit_acyclic, lineage_revisit, by decide +kernel, by decide +kernel,
    fun hnone => ?_⟩
  obtain ⟨past, r, rest, hrounds, hran, hids⟩ := revisit_again
  exact hnone past r rest hrounds "x" hids (by decide) hran

end Flowgraph
