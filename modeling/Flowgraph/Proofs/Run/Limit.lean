import Flowgraph.Proofs.Plan.Cycles
import Flowgraph.Proofs.Run.Drive
import Mathlib.Logic.Function.Iterate

/-!
# The loop of a drive and its limit

A drive as the loop that it is: turn after turn it releases the end, runs a round, or ends.  The
release moves no counter, so what falls at every turn is

    2 * (limit - step), and 2 more with nothing to run, or else 1            (turnsLeft_turn)

and the loop ends as `Workflow.drive` says, whatever the routes and the steps are
(`iterate_turn`).  The counter goes up by one with every round and with nothing else, and stays
within the limit (`Counted.turn`).

    the call fails with the step limit ↔
      the loop comes to run a frontier with the counter at the limit         (limited_iff)
-/

namespace Flowgraph

open Runner

variable {σ τ : Type}

/-! ## Turns -/

/-- What the loop of a drive turns on: a frontier, or how it ended. -/
inductive Stage where
  | ready (frontier : NameSet)
  | ended (ending : Ending)

/-- The loop of a drive between two turns. -/
structure Loop (σ : Type) where
  stage : Stage
  progress : Progress
  memory : σ
  /-- The rounds that were counted. -/
  rounds : List Round

def Verdict.stage : Verdict → Stage
  | .ready next => .ready next
  | .suspended c => .ended (.suspended c)
  | .failed error => .ended (.failed error)

theorem Verdict.stage_of_ending {v : Verdict} {ending : Ending} (h : v.ending? = some ending) :
    v.stage = .ended ending := by
  cases v with
  | ready next => cases h
  | suspended c => cases h; rfl
  | failed error => cases h; rfl

theorem Verdict.exists_ready {v : Verdict} (h : v.ending? = none) : ∃ next, v = .ready next := by
  cases v with
  | ready next => exact ⟨next, rfl⟩
  | suspended c => cases h
  | failed error => cases h

/-- The loop before its first turn. -/
def Loop.entering (p : Progress) (frontier : NameSet) (memory : σ) : Loop σ :=
  ⟨.ready frontier, p, memory, []⟩

/-- The loop comes to run a frontier with the counter at or above the limit. -/
def Loop.AtLimit (limit : UInt64) (l : Loop σ) : Prop :=
  ∃ frontier, l.stage = .ready frontier ∧ frontier ≠ ∅ ∧ limit ≤ l.progress.step

namespace Workflow

variable (w : Workflow σ) (run : String) (now : Timestamp) (limit : UInt64)

/-- One turn of the loop.  With nothing to run it releases the end or completes; with a frontier it
runs a round if the counter is below the limit.  A loop that has ended stays as it is. -/
def turn (l : Loop σ) : Loop σ :=
  match l.stage with
  | .ended _ => l
  | .ready frontier =>
    if frontier.isEmpty then
      match w.plan.releasedExit? l.progress.completed with
      | some exit => { l with stage := .ready (.singleton exit) }
      | none => { l with stage := .ended .completed }
    else if limit ≤ l.progress.step then
      { l with stage := .ended (.failed (.stepLimitExceeded limit)) }
    else
      let (r, memory) := w.round run now l.progress frontier l.memory
      ⟨r.verdict.stage, r.after, memory, l.rounds ++ [r]⟩

/-- What a turn can do. -/
inductive Turned (l : Loop σ) : Loop σ → Prop
  | stayed {ending : Ending} : l.stage = .ended ending → Turned l l
  | released {exit : String} : l.stage = .ready ∅ →
      w.plan.releasedExit? l.progress.completed = some exit →
      Turned l { l with stage := .ready (.singleton exit) }
  | completed : l.stage = .ready ∅ → w.plan.releasedExit? l.progress.completed = none →
      Turned l { l with stage := .ended .completed }
  | limited : l.AtLimit limit →
      Turned l { l with stage := .ended (.failed (.stepLimitExceeded limit)) }
  | went {frontier : NameSet} {r : Round} {memory : σ} : l.stage = .ready frontier → frontier ≠ ∅ →
      l.progress.step < limit → w.round run now l.progress frontier l.memory = (r, memory) →
      r.after.step.toNat = l.progress.step.toNat + 1 →
      Turned l ⟨r.verdict.stage, r.after, memory, l.rounds ++ [r]⟩

theorem turned (l : Loop σ) : w.Turned run now limit l (w.turn run now limit l) := by
  unfold turn
  split
  · rename_i ending hstage
    exact .stayed hstage
  · rename_i frontier hstage
    split
    · rename_i hempty
      rw [NameSet.isEmpty_eq_true_iff.1 hempty] at hstage
      split
      · rename_i exit hexit
        exact .released hstage hexit
      · rename_i hnone
        exact .completed hstage hnone
    · rename_i hempty
      have hne : frontier ≠ ∅ := mt NameSet.isEmpty_eq_true_iff.2 hempty
      split
      · rename_i hlimit
        exact .limited ⟨frontier, hstage, hne, hlimit⟩
      · rename_i hlimit
        have hlt := UInt64.not_le.1 hlimit
        have hstep : (w.round run now l.progress frontier l.memory).1.after.step.toNat =
            l.progress.step.toNat + 1 := by
          rw [w.step_after_round]
          exact toNat_step_succ hlt
        exact .went hstage hne hlt rfl hstep

/-! ## The counter -/

/-- The counter has gone up by one with every round, and there were not too many of them. -/
structure Counted (start : Nat) (l : Loop σ) : Prop where
  step : l.progress.step.toNat = start + l.rounds.length
  within : l.rounds.length ≤ limit.toNat - start

theorem Counted.turn {start : Nat} {l : Loop σ} (h : Counted limit start l) :
    Counted limit start (w.turn run now limit l) := by
  have hturned := w.turned run now limit l
  generalize w.turn run now limit l = l' at hturned ⊢
  cases hturned with
  | stayed => exact h
  | released => exact ⟨h.step, h.within⟩
  | completed => exact ⟨h.step, h.within⟩
  | limited => exact ⟨h.step, h.within⟩
  | @went frontier r memory _ _ hlt _ hstep =>
    have hlt' := UInt64.lt_iff_toNat_lt.1 hlt
    have hbefore := h.step
    constructor
    · show r.after.step.toNat = start + (l.rounds ++ [r]).length
      rw [List.length_append, List.length_singleton]
      omega
    · show (l.rounds ++ [r]).length ≤ limit.toNat - start
      rw [List.length_append, List.length_singleton]
      omega

theorem counted_iterate (p : Progress) (frontier : NameSet) (memory : σ) (n : Nat) :
    Counted limit p.step.toNat ((w.turn run now limit)^[n] (.entering p frontier memory)) := by
  induction n with
  | zero => exact ⟨rfl, Nat.zero_le _⟩
  | succ n ih =>
    rw [Function.iterate_succ_apply']
    exact ih.turn w run now limit

/-! ## The end of the loop -/

/-- A bound on the turns that a loop has left. -/
def turnsLeft (l : Loop σ) : Nat :=
  match l.stage with
  | .ended _ => 0
  | .ready frontier =>
    2 * (limit.toNat - l.progress.step.toNat) + if frontier.isEmpty then 2 else 1

theorem turnsLeft_of_ready {l : Loop σ} {frontier : NameSet} (h : l.stage = .ready frontier)
    (hne : frontier ≠ ∅) :
    turnsLeft limit l = 2 * (limit.toNat - l.progress.step.toNat) + 1 := by
  unfold turnsLeft
  rw [h]
  dsimp only
  rw [if_neg (mt NameSet.isEmpty_eq_true_iff.1 hne)]

theorem turnsLeft_of_empty {l : Loop σ} (h : l.stage = .ready ∅) :
    turnsLeft limit l = 2 * (limit.toNat - l.progress.step.toNat) + 2 := by
  unfold turnsLeft
  rw [h]
  rfl

theorem turnsLeft_pos {l : Loop σ} {frontier : NameSet} (h : l.stage = .ready frontier) :
    0 < turnsLeft limit l := by
  unfold turnsLeft
  rw [h]
  dsimp only
  split <;> omega

theorem turnsLeft_le (l : Loop σ) :
    turnsLeft limit l ≤ 2 * (limit.toNat - l.progress.step.toNat) + 2 := by
  unfold turnsLeft
  split
  · omega
  · split <;> omega

/-- Every turn brings the loop nearer to its end, the release of the end included. -/
theorem turnsLeft_turn {l : Loop σ} (h : 0 < turnsLeft limit l) :
    turnsLeft limit (w.turn run now limit l) < turnsLeft limit l := by
  have hturned := w.turned run now limit l
  generalize w.turn run now limit l = l' at hturned ⊢
  cases hturned with
  | stayed hstage =>
    unfold turnsLeft at h
    rw [hstage] at h
    exact absurd h (Nat.lt_irrefl 0)
  | @released exit hstage =>
    have hne : NameSet.singleton exit ≠ ∅ := nofun
    rw [turnsLeft_of_empty limit hstage, turnsLeft_of_ready limit rfl hne]
    dsimp only
    omega
  | completed => exact h
  | limited => exact h
  | @went frontier r memory hstage hne hlt _ hstep =>
    have hlt' := UInt64.lt_iff_toNat_lt.1 hlt
    have hrest := turnsLeft_le limit (⟨r.verdict.stage, r.after, memory, l.rounds ++ [r]⟩ : Loop σ)
    rw [turnsLeft_of_ready limit hstage hne]
    dsimp only at hrest ⊢
    omega

theorem iterate_turn_of_ended {l : Loop σ} {ending : Ending} (h : l.stage = .ended ending) (n : Nat) :
    (w.turn run now limit)^[n] l = l := by
  apply Function.iterate_fixed
  unfold turn
  rw [h]

/-- With nothing to run, a drive goes on with the end that is released. -/
theorem drive_released {p : Progress} {exit : String}
    (h : w.plan.releasedExit? p.completed = some exit) (memory : σ) :
    w.drive run now limit p ∅ memory = w.drive run now limit p (.singleton exit) memory := by
  have hdue : w.dueFrontier? p.completed ∅ = some (.singleton exit) := by
    show (w.plan.releasedExit? p.completed).map NameSet.singleton = _
    rw [h]
    rfl
  have hdue' : w.dueFrontier? p.completed (.singleton exit) = some (.singleton exit) := rfl
  rw [w.drive_eq, w.drive_eq, hdue, hdue']

theorem dueFrontier?_of_ne {frontier : NameSet} (h : frontier ≠ ∅) (completed : NameSet) :
    w.dueFrontier? completed frontier = some frontier :=
  if_neg (mt NameSet.isEmpty_eq_true_iff.1 h)

/-- With a frontier at the limit, a drive ends before it runs it. -/
theorem drive_at_limit {p : Progress} {frontier : NameSet} (hne : frontier ≠ ∅)
    (hle : limit ≤ p.step) (memory : σ) :
    w.drive run now limit p frontier memory = ⟨[], p, .failed (.stepLimitExceeded limit), memory⟩ := by
  rw [w.drive_eq, w.dueFrontier?_of_ne hne]
  exact if_pos hle

section

variable {w run now limit} {p : Progress} {frontier : NameSet} {memory memory' : σ} {r : Round}

/-- A round that lets a drive go on is the first of it. -/
theorem drive_of_ready (hne : frontier ≠ ∅) (hlt : p.step < limit)
    (hround : w.round run now p frontier memory = (r, memory')) {next : NameSet}
    (hv : r.verdict = .ready next) :
    w.drive run now limit p frontier memory =
      { w.drive run now limit r.after next memory' with
        rounds := r :: (w.drive run now limit r.after next memory').rounds } := by
  rw [w.drive_eq, w.dueFrontier?_of_ne hne]
  dsimp only
  rw [if_neg (UInt64.not_le.2 hlt), hround]
  dsimp only
  rw [hv]

/-- A round that ends a drive is all of it. -/
theorem drive_of_ending (hne : frontier ≠ ∅) (hlt : p.step < limit)
    (hround : w.round run now p frontier memory = (r, memory')) {ending : Ending}
    (hv : r.verdict.ending? = some ending) :
    w.drive run now limit p frontier memory = ⟨[r], r.after, ending, memory'⟩ := by
  rw [w.drive_eq, w.dueFrontier?_of_ne hne]
  dsimp only
  rw [if_neg (UInt64.not_le.2 hlt), hround]
  dsimp only
  cases hverdict : r.verdict with
  | ready next =>
    rw [hverdict] at hv
    cases hv
  | suspended c =>
    rw [hverdict] at hv
    cases hv
    rfl
  | failed error =>
    rw [hverdict] at hv
    cases hv
    rfl

end

/-- After enough turns the loop has ended, as the drive does. -/
theorem iterate_turn (n : Nat) (p : Progress) (frontier : NameSet) (memory : σ) (past : List Round)
    (h : turnsLeft limit ⟨.ready frontier, p, memory, past⟩ ≤ n) :
    let d := w.drive run now limit p frontier memory
    (w.turn run now limit)^[n] ⟨.ready frontier, p, memory, past⟩ =
      ⟨.ended d.ending, d.last, d.memory, past ++ d.rounds⟩ := by
  intro d
  induction n generalizing p frontier memory past with
  | zero =>
    have hpos := turnsLeft_pos limit (l := ⟨.ready frontier, p, memory, past⟩) rfl
    omega
  | succ n ih =>
    have hpos := turnsLeft_pos limit (l := ⟨.ready frontier, p, memory, past⟩) rfl
    have hleft := w.turnsLeft_turn run now limit hpos
    rw [Function.iterate_succ_apply]
    have hturned := w.turned run now limit ⟨.ready frontier, p, memory, past⟩
    generalize w.turn run now limit ⟨.ready frontier, p, memory, past⟩ = l at hleft hturned ⊢
    cases hturned with
    | stayed hstage => cases hstage
    | @released exit hstage hexit =>
      cases hstage
      dsimp only at hleft
      have hrest := ih p (.singleton exit) memory past (by omega)
      rw [← w.drive_released run now limit hexit] at hrest
      exact hrest
    | completed hstage hnone =>
      cases hstage
      have hd : d = ⟨[], p, .completed, memory⟩ := by
        show w.drive run now limit p ∅ memory = _
        rw [w.drive_eq, dueFrontier?_eq_none_iff.2 ⟨rfl, hnone⟩]
      rw [w.iterate_turn_of_ended run now limit rfl, hd, List.append_nil]
    | limited hlimit =>
      obtain ⟨f, hstage, hne, hle⟩ := hlimit
      cases hstage
      have hd := w.drive_at_limit run now limit hne hle memory
      rw [w.iterate_turn_of_ended run now limit rfl, show d = _ from hd, List.append_nil]
    | @went f r memory' hstage hne hlt hround _ =>
      cases hstage
      cases hv : r.verdict.ending? with
      | none =>
        obtain ⟨next, hnext⟩ := Verdict.exists_ready hv
        have hd := drive_of_ready hne hlt hround hnext
        rw [hnext] at hleft ⊢
        have hrest := ih r.after next memory' (past ++ [r]) (by
          simp only [Verdict.stage] at hleft
          omega)
        rw [show d = _ from hd]
        simp only [Verdict.stage]
        rw [hrest, List.append_assoc]
        rfl
      | some ending =>
        have hd := drive_of_ending hne hlt hround hv
        rw [w.iterate_turn_of_ended run now limit (Verdict.stage_of_ending hv),
          Verdict.stage_of_ending hv, show d = _ from hd]

/-- However many turns it took, the loop ends as the drive does. -/
theorem ending_of_iterate {p : Progress} {frontier : NameSet} {memory : σ} {n : Nat}
    {ending : Ending}
    (h : ((w.turn run now limit)^[n] (.entering p frontier memory)).stage = .ended ending) :
    (w.drive run now limit p frontier memory).ending = ending := by
  have hstays := w.iterate_turn_of_ended run now limit h
    (turnsLeft limit (.entering p frontier memory))
  rw [← Function.iterate_add_apply] at hstays
  have hends := w.iterate_turn run now limit
    (turnsLeft limit (.entering p frontier memory) + n) p frontier memory [] (Nat.le_add_right _ _)
  change (w.turn run now limit)^[_] (Loop.entering p frontier memory) = _ at hends
  rw [hends] at hstays
  rw [← hstays] at h
  injection h

/-- What a turn ends with is what the drive ends with. -/
theorem ending_of_turn {p : Progress} {frontier : NameSet} {memory : σ} {n : Nat} {ending : Ending}
    (h : (w.turn run now limit ((w.turn run now limit)^[n] (.entering p frontier memory))).stage =
      .ended ending) : (w.drive run now limit p frontier memory).ending = ending := by
  rw [← Function.iterate_succ_apply' (w.turn run now limit)] at h
  exact w.ending_of_iterate run now limit h

/-! ## The limit -/

theorem turn_of_atLimit {l : Loop σ} (h : l.AtLimit limit) :
    w.turn run now limit l = { l with stage := .ended (.failed (.stepLimitExceeded limit)) } := by
  obtain ⟨frontier, hstage, hne, hle⟩ := h
  unfold turn
  rw [hstage]
  dsimp only
  rw [if_neg (mt NameSet.isEmpty_eq_true_iff.1 hne), if_pos hle]

theorem turn_of_completed {l : Loop σ} (h : l.stage = .ready ∅)
    (hnone : w.plan.releasedExit? l.progress.completed = none) :
    w.turn run now limit l = { l with stage := .ended .completed } := by
  unfold turn
  rw [h]
  dsimp only
  rw [hnone]
  rfl

/-- A loop that ends with a limit came to run a frontier at its own. -/
theorem atLimit_of_iterate {l : Loop σ} {n : Nat} {error : RunError} {k : UInt64}
    (hready : ∃ frontier, l.stage = .ready frontier)
    (h : ((w.turn run now limit)^[n] l).stage = .ended (.failed error))
    (hroot : error.root = .stepLimitExceeded k) :
    ∃ m, ((w.turn run now limit)^[m] l).AtLimit limit ∧ error = .stepLimitExceeded limit := by
  induction n with
  | zero =>
    obtain ⟨frontier, hready⟩ := hready
    cases hready.symm.trans h
  | succ n ih =>
    rw [Function.iterate_succ_apply'] at h
    have hturned := w.turned run now limit ((w.turn run now limit)^[n] l)
    generalize w.turn run now limit ((w.turn run now limit)^[n] l) = l' at h hturned
    cases hturned with
    | stayed => exact ih h
    | released => cases h
    | completed => cases h
    | limited hlimit =>
      cases h
      exact ⟨n, hlimit, rfl⟩
    | @went frontier r memory hstage hne hlt hround hstep =>
      -- a round ends the loop with errors of its own only
      change r.verdict.stage = .ended (.failed error) at h
      cases hv : r.verdict with
      | ready next =>
        rw [hv] at h
        cases h
      | suspended c =>
        rw [hv] at h
        cases h
      | failed e =>
        rw [hv] at h
        cases h
        have hr : r = (w.round run now _ frontier _).1 := (congrArg Prod.fst hround).symm
        rw [hr] at hv
        exact absurd hroot (w.root_ne_stepLimit_of_round _ _ _ _ _ hv k)

end Workflow

/-! ## Calls -/

/-- The loop of a call after a number of turns. -/
def Runner.loop (r : Runner τ) (w : Workflow σ) (id : String) (p : Progress) (frontier : NameSet)
    (memory : σ) (n : Nat) : Loop σ :=
  (w.turn id r.now r.maxSteps)^[n] (.entering p frontier memory)

/-- A call fails with a limit only where its drive does: the store has errors of its own only. -/
theorem Runner.limited_of_callOf {r : Runner τ} {w : Workflow σ} {id : String} {resumed : Bool}
    {startData : Json} {p : Progress} {frontier : NameSet} {memory : σ} {content : τ}
    {error : RunError} {k : UInt64}
    (h : (r.callOf w id resumed startData p frontier memory content).result = .error error)
    (hroot : error.root = .stepLimitExceeded k) :
    ∃ e, (w.drive id r.now r.maxSteps p frontier memory).ending = .failed e ∧
      e.root = .stepLimitExceeded k := by
  rcases Runner.failed_of_settle h with ⟨source, hsource⟩ | ⟨e, hend, rfl⟩
  · rw [hsource] at hroot
    cases hroot
  · exact ⟨e, hend, hroot⟩

/-- The loop of a call ends, whatever the routes and the steps are.  Its counter starts where the run
stands, goes up by one with every round, and stays within the limit.  The call fails with the limit
exactly if the loop comes to run a frontier with the counter at it, and never if it comes to have
nothing to run and no end to release. -/
theorem Runner.limited_iff (r : Runner τ) (w : Workflow σ) (id : String) (resumed : Bool)
    (startData : Json) (p : Progress) (frontier : NameSet) (memory : σ) (content : τ) :
    let loop := r.loop w id p frontier memory
    let d := w.drive id r.now r.maxSteps p frontier memory
    let call := r.callOf w id resumed startData p frontier memory content
    (∀ n, 2 * (r.maxSteps.toNat - p.step.toNat) + 2 ≤ n →
      loop n = ⟨.ended d.ending, d.last, d.memory, call.rounds⟩) ∧
    (∀ n, (loop n).progress.step.toNat = p.step.toNat + (loop n).rounds.length ∧
      (loop n).rounds.length ≤ r.maxSteps.toNat - p.step.toNat) ∧
    ((∃ n, (loop n).AtLimit r.maxSteps) ↔
      call.result = .error (.failed id (.stepLimitExceeded r.maxSteps) d.last.state)) ∧
    (∀ error k, call.result = .error error → error.root = .stepLimitExceeded k →
      ∃ n, (loop n).AtLimit r.maxSteps) ∧
    ∀ n, (loop n).stage = .ready ∅ → w.plan.releasedExit? (loop n).progress.completed = none →
      d.ending = .completed ∧
        ∀ error k, call.result = .error error → error.root ≠ .stepLimitExceeded k := by
  intro loop d call
  have hends : ∀ n, 2 * (r.maxSteps.toNat - p.step.toNat) + 2 ≤ n →
      loop n = ⟨.ended d.ending, d.last, d.memory, call.rounds⟩ := by
    intro n hn
    apply w.iterate_turn id r.now r.maxSteps n p frontier memory []
    exact Nat.le_trans (Workflow.turnsLeft_le r.maxSteps _) hn
  have hlimited : ∀ error k, call.result = .error error → error.root = .stepLimitExceeded k →
      ∃ n, (loop n).AtLimit r.maxSteps := by
    intro error k herror hroot
    obtain ⟨e, hend, he⟩ := Runner.limited_of_callOf herror hroot
    have hstage := congrArg Loop.stage (hends _ (Nat.le_refl _))
    rw [show d.ending = .failed e from hend] at hstage
    obtain ⟨m, hm, -⟩ := w.atLimit_of_iterate id r.now r.maxSteps ⟨frontier, rfl⟩ hstage he
    exact ⟨m, hm⟩
  refine ⟨hends, ?_, ⟨?_, ?_⟩, hlimited, ?_⟩
  · intro n
    have hcounted := w.counted_iterate id r.now r.maxSteps p frontier memory n
    exact ⟨hcounted.step, hcounted.within⟩
  · rintro ⟨n, hn⟩
    have hend : d.ending = .failed (.stepLimitExceeded r.maxSteps) :=
      w.ending_of_turn id r.now r.maxSteps
        (congrArg Loop.stage (w.turn_of_atLimit id r.now r.maxSteps hn))
    show (r.settle id resumed d content).result = _
    unfold settle
    rw [hend]
    rfl
  · intro h
    exact hlimited _ r.maxSteps h rfl
  · intro n hempty hnone
    have hend : d.ending = .completed :=
      w.ending_of_turn id r.now r.maxSteps
        (congrArg Loop.stage (w.turn_of_completed id r.now r.maxSteps hempty hnone))
    refine ⟨hend, fun error k herror hroot => ?_⟩
    obtain ⟨e, hfailed, -⟩ := Runner.limited_of_callOf herror hroot
    cases hend.symm.trans hfailed

/-- The graph whose end leads on goes round until its counter is at the limit.  With the counter there
and nothing left to run it completes. -/
theorem Runner.limited_iff_afterEnd :
    let loop := tenRounds.loop Graph.afterEndWorkflow "run" { state := ∅ } (.singleton "start") ()
    let done : Progress := { state := ∅, completed := .singleton "end", step := 10 }
    Graph.afterEnd.compile .idle = .ok Graph.afterEndWorkflow ∧
      (∃ n, (loop n).AtLimit 10) ∧ (loop 22).rounds = Graph.afterEndWorkflow.plainRun.rounds ∧
      (Graph.afterEndWorkflow.drive "run" .epoch 10 done ∅ ()).ending = .completed := by
  intro loop done
  have hresult : Graph.afterEndWorkflow.plainRun.result =
      .error (.failed "run" (.stepLimitExceeded 10) ∅) := by
    decide +kernel
  obtain ⟨hends, -, -, hlimited, -⟩ := tenRounds.limited_iff Graph.afterEndWorkflow "run" false
    (.object [("entry", .str "start"), ("resumed", .bool false)]) { state := ∅ }
    (.singleton "start") () ∅
  obtain ⟨-, -, -, -, hfree⟩ := tenRounds.limited_iff Graph.afterEndWorkflow "run" false .null
    done ∅ () ∅
  exact ⟨Graph.afterEnd_compile, hlimited _ 10 hresult rfl,
    congrArg Loop.rounds (hends 22 (by decide)), (hfree 0 rfl (by decide +kernel)).1⟩

end Flowgraph
