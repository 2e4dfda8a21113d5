import Flowgraph.Proofs.Run.Announcements
import Flowgraph.Proofs.State.Merging

/-!
# What the events of a call tell

The stream of a call that answers is its start, one event for every round, and its end.  The event of
a round says what happened in it (`Reports`): its number, who gave an update and who asked for input,
and the keys that were written, each list in ascending order and without repetition.

    (r.answer …).result = .ok outcome →
      stream = start :: progress ++ [terminal] ∧ List.Forall₂ Reports progress rounds ∧
        numbers of the rounds = before + 1, before + 2, …               (stream_of_ok)

The rounds are numbered on from where the run stands when the call drives it, and a complete event
bears the state that is returned and the number of the last round.
-/

namespace Flowgraph

open Runner

variable {σ τ : Type}

/-! ## What a round is reported as -/

/-- What happened in a round: who gave an update, which keys the updates wrote, and who asked for
input. -/
structure Round.Told (r : Round) (ran updates suspended : List String) : Prop where
  ran_ascending : ran.Pairwise (· < ·)
  mem_ran : ∀ n, n ∈ ran ↔ ∃ e u, (n, e) ∈ r.executions ∧ e.attempt = .done (.update u)
  updates_ascending : updates.Pairwise (· < ·)
  mem_updates : ∀ key, key ∈ updates ↔ ∃ n e u v, (n, e) ∈ r.executions ∧
    e.attempt = .done (.update u) ∧ u.field? key = some v
  suspended_ascending : suspended.Pairwise (· < ·)
  mem_suspended : ∀ n, n ∈ suspended ↔ ∃ e key payload, (n, e) ∈ r.executions ∧
    e.attempt = .done (.suspend key payload)

/-- An event of progress tells what happened in a round. -/
def Reports (e : RunEvent) (r : Round) : Prop :=
  e.kind = .progress ∧ ∃ ran updates suspended, r.Told ran updates suspended ∧
    e.data = .object [("step", .ofWord r.number), ("ran", .arr (ran.map .str)),
      ("updates", .arr (updates.map .str)), ("suspended", .arr (suspended.map .str))]

namespace Workflow

variable (w : Workflow σ)

/-- The keys that a round wrote are those of its updates. -/
theorem updatedKeys_round (run : String) (now : Timestamp) (p : Progress) (frontier : NameSet)
    (memory : σ) :
    (w.round run now p frontier memory).1.updatedKeys = (p.state.reduce
      ((w.round run now p frontier memory).1.executions.updates.map (·.2))).2.updatedKeys := by
  unfold round
  split <;> rfl

theorem Follows.told {w : Workflow σ} {run : String} {p : Progress} {frontier : NameSet} {r : Round}
    (h : w.Follows run p frontier r) :
    r.Told r.executions.ran r.updatedKeys.toList r.executions.suspended := by
  obtain ⟨due, now, memory, -, rfl⟩ := h
  have hids := w.ascending_ids run now p due memory
  constructor
  · exact hids.sublist (Executions.ran_sublist _)
  · intro n
    rw [Executions.mem_ran, exists_comm]
    exact exists_congr fun u => Executions.mem_updates
  · exact NameSet.ascending _
  · intro key
    show key ∈ (w.round run now p due memory).1.updatedKeys ↔ _
    rw [w.updatedKeys_round, State.mem_updatedKeys]
    constructor
    · rintro ⟨u, hu, v, hv⟩
      obtain ⟨⟨n, u⟩, hn, rfl⟩ := List.mem_map.1 hu
      obtain ⟨e, he, hdone⟩ := Executions.mem_updates.1 hn
      exact ⟨n, e, u, v, he, hdone, hv⟩
    · rintro ⟨n, e, u, v, he, hdone, hv⟩
      have hn := Executions.mem_updates.2 ⟨e, he, hdone⟩
      exact ⟨u, List.mem_map.2 ⟨_, hn, rfl⟩, v, hv⟩
  · exact hids.sublist (Executions.suspended_sublist _)
  · intro n
    rw [Executions.mem_suspended, exists_comm]
    simp only [Executions.mem_suspensions]
    constructor
    · rintro ⟨payload, key, e, he, hdone⟩
      exact ⟨e, key, payload, he, hdone⟩
    · rintro ⟨e, key, payload, he, hdone⟩
      exact ⟨payload, key, e, he, hdone⟩

end Workflow

/-- A round that did not fail has one event, which reports it. -/
theorem Round.reports_of_told {r : Round}
    (h : r.Told r.executions.ran r.updatedKeys.toList r.executions.suspended)
    (hv : ∀ error, r.verdict ≠ .failed error) (run : String) (now : Timestamp) :
    ∃ e, (r.progress? run now).toList = [e] ∧ Reports e r := by
  have hprogress : r.progress? run now = some ⟨.progress, r.progressData, now, run⟩ := by
    unfold progress?
    split
    · rename_i error hfailed
      exact absurd hfailed (hv error)
    · rfl
  rw [hprogress]
  exact ⟨_, rfl, rfl, _, _, _, h, rfl⟩

theorem Round.forall₂_reports {rounds : List Round} {run : String} {now : Timestamp}
    (h : ∀ r ∈ rounds, ∃ e, (r.progress? run now).toList = [e] ∧ Reports e r) :
    List.Forall₂ Reports (rounds.flatMap fun r => (r.progress? run now).toList) rounds := by
  induction rounds with
  | nil => exact .nil
  | cons r rounds ih =>
    obtain ⟨e, he, hreports⟩ := h r List.mem_cons_self
    rw [List.flatMap_cons, he]
    apply List.Forall₂.cons hreports
    apply ih
    intro r' hr'
    exact h r' (List.mem_cons_of_mem _ hr')

/-! ## Numbers of rounds -/

namespace Workflow

/-- The rule of induction on a drive, with the counter below the limit before every round. -/
theorem drive_induct (w : Workflow σ) (run : String) (now : Timestamp) (limit : UInt64)
    {motive : Progress → NameSet → Drive σ → Prop}
    (hdone : ∀ p frontier memory, w.dueFrontier? p.completed frontier = none →
      motive p frontier ⟨[], p, .completed, memory⟩)
    (hlimit : ∀ p frontier memory, motive p frontier ⟨[], p, .failed (.stepLimitExceeded limit), memory⟩)
    (hended : ∀ p frontier r ending memory, p.step < limit → w.Follows run p frontier r →
      r.verdict.ending? = some ending → motive p frontier ⟨[r], r.after, ending, memory⟩)
    (hready : ∀ p frontier r next d, p.step < limit → w.Follows run p frontier r →
      r.verdict = .ready next → motive r.after next d →
      motive p frontier { d with rounds := r :: d.rounds })
    (p : Progress) (frontier : NameSet) (memory : σ) :
    motive p frontier (w.drive run now limit p frontier memory) := by
  generalize hleft : limit.toNat - p.step.toNat = left
  induction left generalizing p frontier memory with
  | zero =>
    have hle : limit ≤ p.step := UInt64.le_iff_toNat_le.2 (by omega)
    rw [drive_eq]
    cases hdue : w.dueFrontier? p.completed frontier with
    | none => exact hdone p frontier memory hdue
    | some due =>
      dsimp only
      rw [if_pos hle]
      exact hlimit p frontier memory
  | succ left ih =>
    have hlt : p.step < limit := UInt64.lt_iff_toNat_lt.2 (by omega)
    rw [drive_eq]
    cases hdue : w.dueFrontier? p.completed frontier with
    | none => exact hdone p frontier memory hdue
    | some due =>
      dsimp only
      rw [if_neg (UInt64.not_le.2 hlt)]
      have hr : w.Follows run p frontier (w.round run now p due memory).1 :=
        ⟨due, now, memory, hdue, rfl⟩
      cases hv : (w.round run now p due memory).1.verdict with
      | failed error => exact hended _ _ _ _ _ hlt hr (by rw [hv]; rfl)
      | suspended c => exact hended _ _ _ _ _ hlt hr (by rw [hv]; rfl)
      | ready next =>
        apply hready _ _ _ _ _ hlt hr hv
        apply ih
        have hstep := hr.step_after
        rw [hstep, toNat_step_succ hlt]
        omega

/-- How a drive counts its rounds. -/
structure Counts (w : Workflow σ) (run : String) (p : Progress) (frontier : NameSet) (d : Drive σ) :
    Prop where
  follows : ∀ r ∈ d.rounds, ∃ q f, w.Follows run q f r
  numbers : d.rounds.map (·.number.toNat) = List.range' (p.step.toNat + 1) d.rounds.length
  last : (d.rounds = [] ∧ d.last.step = p.step) ∨
    ∃ before r, d.rounds = before ++ [r] ∧ d.last.step = r.number
  /-- Only what has nothing to run completes without a round. -/
  nothing : d.rounds = [] → d.ending = .completed → w.dueFrontier? p.completed frontier = none

theorem counts_drive (w : Workflow σ) (run : String) (now : Timestamp) (limit : UInt64) (p : Progress)
    (frontier : NameSet) (memory : σ) :
    w.Counts run p frontier (w.drive run now limit p frontier memory) := by
  apply w.drive_induct run now limit (motive := w.Counts run)
  · intro p frontier memory hdue
    exact ⟨List.forall_mem_nil _, rfl, .inl ⟨rfl, rfl⟩, fun _ _ => hdue⟩
  · intro p frontier memory
    exact ⟨List.forall_mem_nil _, rfl, .inl ⟨rfl, rfl⟩, nofun⟩
  · intro p frontier r ending memory hlt hr _
    refine ⟨?_, ?_, .inr ⟨[], r, rfl, hr.step_after.trans hr.number.symm⟩, nofun⟩
    · intro r' hr'
      rw [List.mem_singleton.1 hr']
      exact ⟨p, frontier, hr⟩
    · show [r.number.toNat] = [p.step.toNat + 1]
      rw [hr.number, toNat_step_succ hlt]
  · intro p frontier r next d hlt hr hv ih
    refine ⟨?_, ?_, .inr ?_, nofun⟩
    · intro r' hr'
      rcases List.mem_cons.1 hr' with rfl | hrest
      · exact ⟨p, frontier, hr⟩
      · exact ih.follows r' hrest
    · show r.number.toNat :: d.rounds.map (·.number.toNat) = List.range' _ (d.rounds.length + 1)
      rw [ih.numbers, hr.step_after, List.range'_succ, hr.number, toNat_step_succ hlt]
    · dsimp only
      rcases ih.last with ⟨hnil, hstep⟩ | ⟨before, last, hrounds, hstep⟩
      · rw [hnil]
        exact ⟨[], r, rfl, hstep.trans (hr.step_after.trans hr.number.symm)⟩
      · rw [hrounds]
        exact ⟨r :: before, last, rfl, hstep⟩

end Workflow

/-! ## Calls -/

/-- A drive that settles without an error has not failed, nor have its rounds. -/
theorem Runner.not_failed_of_settle {r : Runner τ} {w : Workflow σ} {id : String} {resumed : Bool}
    {p : Progress} {frontier : NameSet} {memory : σ} {content : τ} {outcome : RunOutcome}
    (h : (r.settle id resumed (w.drive id r.now r.maxSteps p frontier memory) content).result =
      .ok outcome) :
    ∀ round ∈ (w.drive id r.now r.maxSteps p frontier memory).rounds, ∀ error,
      round.verdict ≠ .failed error := by
  intro round hround error hfailed
  have hending : (w.drive id r.now r.maxSteps p frontier memory).ending = .failed error :=
    w.ending_driveFor id r.now r.maxSteps _ p frontier memory round hround (.failed error)
      (by rw [hfailed]; rfl)
  unfold settle at h
  rw [hending] at h
  cases h

/-- The event of a completed drive bears the state that is returned and the counter. -/
theorem Runner.terminal_of_completed {r : Runner τ} {run id : String} {resumed : Bool} {d : Drive σ}
    {content : τ} {s : State} {e : RunEvent}
    (h : (r.settle run resumed d content).result = .ok (.completed id s))
    (he : (r.settle run resumed d content).terminal = some e) :
    e.data = .object [("state", .obj s.toList), ("steps", .ofWord d.last.step)] := by
  obtain ⟨hend, rfl⟩ := completed_of_settle h
  unfold settle at h he
  rw [hend] at h he
  dsimp only at h he
  split at he
  · rename_i hresumed
    rw [if_pos hresumed] at h
    split at he
    · cases he
      rfl
    · cases he
  · cases he
    rfl

theorem Runner.stream_callOf_of_ok {r : Runner τ} {w : Workflow σ} {id : String} {resumed : Bool}
    {startData : Json} {p : Progress} {frontier : NameSet} {memory : σ} {content : τ}
    {outcome : RunOutcome} (hdue : w.dueFrontier? p.completed frontier ≠ none)
    (h : (r.callOf w id resumed startData p frontier memory content).result = .ok outcome) :
    let call := r.callOf w id resumed startData p frontier memory content
    ∃ start progress terminal, call.stream = start :: (progress ++ [terminal]) ∧
      start.kind = .start ∧ List.Forall₂ Reports progress call.rounds ∧
      (∀ round ∈ call.rounds, ∃ q f, w.Follows id q f round) ∧
      call.rounds.map (·.number.toNat) = List.range' (p.step.toNat + 1) call.rounds.length ∧
      terminal.kind = announcementOf call.result ∧
      ∀ run s, outcome = .completed run s → ∃ before last, call.rounds = before ++ [last] ∧
        terminal.data = .object [("state", .obj s.toList), ("steps", .ofWord last.number)] := by
  intro call
  have hstream := r.stream_callOf w id resumed startData p frontier memory content
  have hcounts := w.counts_drive id r.now r.maxSteps p frontier memory
  have hnotFailed := not_failed_of_settle h
  have hending := r.terminal_settle id resumed (w.drive id r.now r.maxSteps p frontier memory) content
  obtain ⟨-, terminal, hterminal, hkind⟩ | ⟨-, -, source, hsource⟩ := hending
  · dsimp only at hstream
    rw [hterminal] at hstream
    refine ⟨_, _, terminal, hstream, rfl, ?_, hcounts.follows, hcounts.numbers, hkind, ?_⟩
    · apply Round.forall₂_reports
      intro round hround
      obtain ⟨q, f, hfollows⟩ := hcounts.follows round hround
      exact Round.reports_of_told hfollows.told (hnotFailed round hround) id r.now
    · rintro run s rfl
      have hdata := terminal_of_completed h hterminal
      rcases hcounts.last with ⟨hnil, -⟩ | ⟨before, last, hrounds, hstep⟩
      · exact absurd (hcounts.nothing hnil (completed_of_settle h).1) hdue
      · refine ⟨before, last, hrounds, ?_⟩
        rw [hdata, hstep]
  · have hresult : call.result = .error (.store source) := hsource
    rw [h] at hresult
    cases hresult

/-- Where a run stands when a call begins to drive it: at its start, or where the checkpoint is. -/
def Runner.StandsAt (r : Runner τ) (id : String) (content : τ) : Request → UInt64 → Prop
  | .start _, step => step = 0
  | .resume _, step => ∃ c, (r.store.load id content).1 = .ok (some c) ∧ step = c.step

/-- The events of a call that answers: its start, one report of every round, the rounds numbered on
from where the run stood, and its end.  If the run completes, the end bears the state that is
returned and the number of the last round. -/
theorem Runner.stream_of_ok (r : Runner τ) (w : Workflow σ) (id : String) (q : Request) (memory : σ)
    (content : τ) (outcome : RunOutcome)
    (h : (r.answer w id q memory content).result = .ok outcome) :
    let call := r.answer w id q memory content
    ∃ step, r.StandsAt id content q step ∧
      ∃ start progress terminal, call.stream = start :: (progress ++ [terminal]) ∧
        start.kind = .start ∧ List.Forall₂ Reports progress call.rounds ∧
        (∀ round ∈ call.rounds, ∃ p frontier, w.Follows id p frontier round) ∧
        call.rounds.map (·.number.toNat) = List.range' (step.toNat + 1) call.rounds.length ∧
        terminal.kind = announcementOf call.result ∧
        ∀ run s, outcome = .completed run s → ∃ before last, call.rounds = before ++ [last] ∧
          terminal.data = .object [("state", .obj s.toList), ("steps", .ofWord last.number)] := by
  intro call
  cases q with
  | start initial =>
    refine ⟨0, rfl, ?_⟩
    apply stream_callOf_of_ok (p := { state := initial }) ?_ h
    exact Option.some_ne_none (NameSet.singleton w.plan.entry)
  | resume input =>
    by_cases hload : ∃ c, (r.store.load id content).1 = .ok (some c)
    · obtain ⟨c, hload⟩ := hload
      have hcall : call = r.callOf w id true _ (resumePoint c input) c.frontier memory
          (r.store.load id content).2 := resume_eq hload input memory
      refine ⟨c.step, ⟨c, hload, rfl⟩, ?_⟩
      have hresult : call.result = .ok outcome := h
      rw [hcall] at hresult ⊢
      apply stream_callOf_of_ok (p := resumePoint c input) ?_ hresult
      rw [w.dueFrontier?_frontier]
      exact Option.some_ne_none c.frontier
    · obtain ⟨error, -, hrefused⟩ := resume_eq_refused (not_exists.1 hload) input memory (w := w)
      have hresult : (r.resume w id input memory content).result = .ok outcome := h
      rw [hrefused] at hresult
      cases hresult

/-- The resume of a run that waits for input, with a store that refuses nothing. -/
def questionAnswered : Call Nat (NameMap Checkpoint × List Bool) :=
  Runner.hindered.answer questionCounted "run" (.resume .null) questionRun.memory
    (questionRun.content.1, [])

/-- The run has asked in its second round; the resume goes on with the third and completes. -/
theorem Runner.stream_of_ok_question :
    question.compile Registry.idle.counted = .ok questionCounted ∧
      ∃ s, questionAnswered.result = .ok (.completed "run" s) ∧
        questionAnswered.rounds.map (·.number.toNat) = [3, 4] ∧
        ∃ start progress terminal, questionAnswered.stream = start :: (progress ++ [terminal]) ∧
          List.Forall₂ Reports progress questionAnswered.rounds ∧ terminal.kind = .complete := by
  have hresult : questionAnswered.result = .ok (.completed "run" (.ofFields [("q_human_input", .null)])) := by
    decide +kernel
  obtain ⟨step, -, start, progress, terminal, hstream, -, hreports, -, -, hkind, -⟩ :=
    Runner.hindered.stream_of_ok questionCounted "run" (.resume .null) questionRun.memory
      (questionRun.content.1, []) _ hresult
  have hcomplete : terminal.kind = announcementOf questionAnswered.result := hkind
  rw [hresult] at hcomplete
  exact ⟨Graph.compile_of_plan (by decide +kernel) rfl, _, hresult, by decide +kernel, start, progress,
    terminal, hstream, hreports, hcomplete⟩

end Flowgraph
