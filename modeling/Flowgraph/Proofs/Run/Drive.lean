import Flowgraph.Proofs.Run.Round
import Flowgraph.Run.Call

/-!
# Drives and calls

What a call does round by round.  A round `Follows` where a run stands, and what holds
at the start of a drive and is kept by every round that is ready to go on holds before
every round of it, and after the last one if the drive completes:

    P past p frontier → Along w run P past (w.driveFor …).rounds ∧ …    (along_driveFor)

A drive that fails does so in its last round, or when it has come to its limit and
something is still due (`failed_driveFor`).  The checkpoint of a call is that of its last
round, and a call that answers that the run is suspended has saved it
(`saved_of_suspended`).  A resume goes on with what its checkpoint holds, unless the run
has come to its limit (`rounds_resume_of_lt`, `resume_of_limit`).
-/

namespace Flowgraph

open Runner

variable {σ τ : Type}

/-! ## What is due -/

theorem Plan.releasedExit?_eq_some_iff {p : Plan} {completed : NameSet} {n : String} :
    p.releasedExit? completed = some n ↔ n = p.exit ∧ p.exit ∉ completed ∧
      ∃ sources, p.joins.find? p.exit = some sources ∧ ∃ s ∈ sources, s ∈ completed := by
  unfold releasedExit?
  by_cases hexit : p.exit ∈ completed
  · simp [hexit]
  · cases hj : p.joins.find? p.exit with
    | none => simp [hexit]
    | some sources =>
      rw [if_neg hexit]
      dsimp only
      constructor
      · intro h
        split at h
        · rename_i hany
          obtain ⟨s, hs, hmem⟩ := List.any_eq_true.1 hany
          exact ⟨(Option.some.inj h).symm, hexit, sources, rfl, s, hs, of_decide_eq_true hmem⟩
        · cases h
      · rintro ⟨rfl, -, _, hsources, s, hs, hmem⟩
        cases Option.some.inj hsources
        exact if_pos (List.any_eq_true.2 ⟨s, hs, decide_eq_true hmem⟩)

namespace Workflow

/-- What is due is the frontier, or the end if the frontier is empty and the end is released. -/
theorem due_cases {w : Workflow σ} {completed frontier due : NameSet}
    (h : w.dueFrontier? completed frontier = some due) :
    (due = frontier ∧ ∃ n, n ∈ frontier) ∨
      (due = .singleton w.plan.exit ∧ frontier = ∅ ∧
        w.plan.releasedExit? completed = some w.plan.exit) := by
  unfold dueFrontier? at h
  split at h
  · rename_i hempty
    obtain ⟨n, hn, rfl⟩ := Option.map_eq_some_iff.1 h
    have hexit := (Plan.releasedExit?_eq_some_iff.1 hn).1
    rw [hexit] at hn ⊢
    exact .inr ⟨rfl, NameSet.isEmpty_eq_true_iff.1 hempty, hn⟩
  · rename_i hsome
    cases Option.some.inj h
    refine .inl ⟨rfl, ?_⟩
    by_contra hnone
    refine hsome (NameSet.isEmpty_eq_true_iff.2 (NameSet.ext fun n => ?_))
    exact iff_of_false (fun hn => hnone ⟨n, hn⟩) NameSet.not_mem_empty

/-- Nothing is due if the frontier is empty and the end is not released. -/
theorem dueFrontier?_eq_none_iff {w : Workflow σ} {completed frontier : NameSet} :
    w.dueFrontier? completed frontier = none ↔
      frontier = ∅ ∧ w.plan.releasedExit? completed = none := by
  unfold dueFrontier?
  split
  · rename_i hempty
    rw [Option.map_eq_none_iff]
    exact (and_iff_right (NameSet.isEmpty_eq_true_iff.1 hempty)).symm
  · rename_i hsome
    refine iff_of_false nofun fun h => hsome ?_
    exact NameSet.isEmpty_eq_true_iff.2 h.1

end Workflow

/-! ## Drives -/

/-- A round that may come next where a run stands. -/
def Workflow.Follows (w : Workflow σ) (run : String) (p : Progress) (frontier : NameSet)
    (r : Round) : Prop :=
  ∃ due now memory, w.dueFrontier? p.completed frontier = some due ∧
    r = (w.round run now p due memory).1

/-- How a drive ends with a round, if it does. -/
def Verdict.ending? : Verdict → Option Ending
  | .ready _ => none
  | .suspended c => some (.suspended c)
  | .failed error => some (.failed error)

/-- Rounds, after past ones, before each of which a predicate holds where the run stands. -/
inductive Along (w : Workflow σ) (run : String) (P : List Round → Progress → NameSet → Prop) :
    List Round → List Round → Prop
  | nil {past : List Round} : Along w run P past []
  | cons {past rest : List Round} {r : Round} {p : Progress} {frontier : NameSet} :
      P past p frontier → w.Follows run p frontier r → Along w run P (past ++ [r]) rest →
      Along w run P past (r :: rest)

namespace Along

variable {w : Workflow σ} {run : String} {P : List Round → Progress → NameSet → Prop}

theorem append {past l m : List Round} (hl : Along w run P past l)
    (hm : Along w run P (past ++ l) m) : Along w run P past (l ++ m) := by
  induction hl with
  | nil => simpa using hm
  | cons hp hr _ ih =>
    refine cons hp hr (ih ?_)
    simpa using hm

theorem before {past before rest : List Round} {r : Round}
    (h : Along w run P past (before ++ r :: rest)) :
    ∃ p frontier, P (past ++ before) p frontier ∧ w.Follows run p frontier r := by
  induction before generalizing past with
  | nil =>
    cases h with
    | @cons _ _ _ p frontier hp hr _ =>
      rw [List.append_nil]
      exact ⟨p, frontier, hp, hr⟩
  | cons b before ih =>
    cases h with
    | cons _ _ hrest =>
      have := ih hrest
      rwa [List.append_assoc] at this

end Along

namespace Workflow

variable {w : Workflow σ} {run : String} {P : List Round → Progress → NameSet → Prop}

/-- What holds of a drive that runs nothing, of one that ends with its first round, and of one that
goes on after it if it holds of the rest, holds of every drive. -/
theorem driveFor_induct (w : Workflow σ) (run : String) (now : Timestamp) (limit : UInt64)
    {motive : Progress → NameSet → Drive σ → Prop}
    (hdone : ∀ p frontier memory, w.dueFrontier? p.completed frontier = none →
      motive p frontier ⟨[], p, .completed, memory⟩)
    (hlimit : ∀ p frontier memory, motive p frontier ⟨[], p, .failed (.stepLimitExceeded limit), memory⟩)
    (hfailed : ∀ p frontier r error memory, w.Follows run p frontier r →
      r.verdict = .failed error → motive p frontier ⟨[r], r.after, .failed error, memory⟩)
    (hsuspended : ∀ p frontier r c memory, w.Follows run p frontier r →
      r.verdict = .suspended c → motive p frontier ⟨[r], r.after, .suspended c, memory⟩)
    (hready : ∀ p frontier r next d, w.Follows run p frontier r → r.verdict = .ready next →
      motive r.after next d → motive p frontier { d with rounds := r :: d.rounds })
    (left : Nat) (p : Progress) (frontier : NameSet) (memory : σ) :
    motive p frontier (w.driveFor run now limit left p frontier memory) := by
  induction left generalizing p frontier memory with
  | zero =>
    rw [driveFor.eq_def]
    cases hdue : w.dueFrontier? p.completed frontier with
    | none => exact hdone p frontier memory hdue
    | some due => exact hlimit p frontier memory
  | succ left ih =>
    rw [driveFor.eq_def]
    cases hdue : w.dueFrontier? p.completed frontier with
    | none => exact hdone p frontier memory hdue
    | some due =>
      have hr : w.Follows run p frontier (w.round run now p due memory).1 :=
        ⟨due, now, memory, hdue, rfl⟩
      dsimp only
      cases hv : (w.round run now p due memory).1.verdict with
      | failed error => exact hfailed _ _ _ _ _ hr hv
      | suspended c => exact hsuspended _ _ _ _ _ hr hv
      | ready next => exact hready _ _ _ _ _ hr hv (ih _ _ _)

/-- What every round that is ready to go on keeps holds all along a drive, and after it. -/
theorem along_driveFor
    (hkeep : ∀ past p frontier r next, P past p frontier → w.Follows run p frontier r →
      r.verdict = .ready next → P (past ++ [r]) r.after next)
    (now : Timestamp) (limit : UInt64) (left : Nat) (p : Progress) (frontier : NameSet) (memory : σ) :
    ∀ past, P past p frontier →
      Along w run P past (w.driveFor run now limit left p frontier memory).rounds ∧
      ((w.driveFor run now limit left p frontier memory).ending = .completed →
        ∃ f, P (past ++ (w.driveFor run now limit left p frontier memory).rounds)
            (w.driveFor run now limit left p frontier memory).last f ∧
          w.dueFrontier? (w.driveFor run now limit left p frontier memory).last.completed f = none) := by
  refine driveFor_induct w run now limit (motive := fun p frontier d => ∀ past, P past p frontier →
    Along w run P past d.rounds ∧ (d.ending = .completed →
      ∃ f, P (past ++ d.rounds) d.last f ∧ w.dueFrontier? d.last.completed f = none))
    ?_ ?_ ?_ ?_ ?_ left p frontier memory
  · intro p frontier memory hdue past hp
    refine ⟨.nil, fun _ => ⟨frontier, ?_, hdue⟩⟩
    rw [List.append_nil]
    exact hp
  · intro p frontier memory past hp
    refine ⟨.nil, fun hend => ?_⟩
    cases hend
  · intro p frontier r error memory hr hv past hp
    refine ⟨.cons hp hr .nil, fun hend => ?_⟩
    cases hend
  · intro p frontier r c memory hr hv past hp
    refine ⟨.cons hp hr .nil, fun hend => ?_⟩
    cases hend
  · intro p frontier r next d hr hv ih past hp
    obtain ⟨hrest, hlast⟩ := ih (past ++ [r]) (hkeep _ _ _ _ _ hp hr hv)
    refine ⟨.cons hp hr hrest, fun hend => ?_⟩
    obtain ⟨f, hf, hnone⟩ := hlast hend
    refine ⟨f, ?_, hnone⟩
    show P (past ++ ([r] ++ d.rounds)) d.last f
    rw [← List.append_assoc]
    exact hf

/-- A drive fails in its last round, or it has made all its rounds and there is more to do. -/
theorem failed_driveFor
    (hkeep : ∀ past p frontier r next, P past p frontier → w.Follows run p frontier r →
      r.verdict = .ready next → P (past ++ [r]) r.after next)
    (now : Timestamp) (limit : UInt64) (left : Nat) (p : Progress) (frontier : NameSet) (memory : σ)
    (error : RunError) :
    ∀ past, P past p frontier →
      (w.driveFor run now limit left p frontier memory).ending = .failed error →
      (∃ before r q f, (w.driveFor run now limit left p frontier memory).rounds = before ++ [r] ∧
        P (past ++ before) q f ∧ w.Follows run q f r ∧ r.verdict = .failed error) ∨
      (error = .stepLimitExceeded limit ∧
        (w.driveFor run now limit left p frontier memory).rounds.length = left ∧
        ∃ q f due, P (past ++ (w.driveFor run now limit left p frontier memory).rounds) q f ∧
          w.dueFrontier? q.completed f = some due) := by
  induction left generalizing p frontier memory with
  | zero =>
    intro past hp hend
    rw [driveFor.eq_def] at hend ⊢
    cases hdue : w.dueFrontier? p.completed frontier with
    | none =>
      rw [hdue] at hend
      cases hend
    | some due =>
      rw [hdue] at hend
      cases hend
      exact .inr ⟨rfl, rfl, p, frontier, due, by rwa [List.append_nil], hdue⟩
  | succ left ih =>
    intro past hp hend
    rw [driveFor.eq_def] at hend ⊢
    cases hdue : w.dueFrontier? p.completed frontier with
    | none =>
      rw [hdue] at hend
      cases hend
    | some due =>
      rw [hdue] at hend
      dsimp only at hend ⊢
      have hr : w.Follows run p frontier (w.round run now p due memory).1 :=
        ⟨due, now, memory, hdue, rfl⟩
      cases hv : (w.round run now p due memory).1.verdict with
      | failed e =>
        rw [hv] at hend
        cases hend
        refine .inl ⟨[], _, p, frontier, rfl, ?_, hr, hv⟩
        rw [List.append_nil]
        exact hp
      | suspended c =>
        rw [hv] at hend
        cases hend
      | ready next =>
        rw [hv] at hend
        dsimp only at hend ⊢
        rcases ih _ next _ (past ++ [(w.round run now p due memory).1])
          (hkeep _ _ _ _ _ hp hr hv) hend with
          ⟨before, r, q, f, hrounds, hq, hfollows, hfailed⟩ | ⟨he, hlen, q, f, due', hq, hdue'⟩
        · rw [List.append_assoc] at hq
          exact .inl ⟨_ :: before, r, q, f, by rw [hrounds, List.cons_append], hq, hfollows, hfailed⟩
        · rw [List.append_assoc] at hq
          exact .inr ⟨he, by rw [List.length_cons, hlen], q, f, due', hq, hdue'⟩

/-- A drive ends with the first round that is not ready to go on. -/
theorem ending_driveFor (w : Workflow σ) (run : String) (now : Timestamp) (limit : UInt64)
    (left : Nat) (p : Progress) (frontier : NameSet) (memory : σ) :
    ∀ r ∈ (w.driveFor run now limit left p frontier memory).rounds, ∀ ending,
      r.verdict.ending? = some ending →
        (w.driveFor run now limit left p frontier memory).ending = ending := by
  refine driveFor_induct w run now limit (motive := fun _ _ d => ∀ r ∈ d.rounds, ∀ ending,
    r.verdict.ending? = some ending → d.ending = ending) ?_ ?_ ?_ ?_ ?_ left p frontier memory
  · intro p frontier memory _ r hr
    cases hr
  · intro p frontier memory r hr
    cases hr
  · intro p frontier r error memory _ hv r' hr' ending hending
    rw [List.mem_singleton.1 hr', hv] at hending
    exact Option.some.inj hending
  · intro p frontier r c memory _ hv r' hr' ending hending
    rw [List.mem_singleton.1 hr', hv] at hending
    exact Option.some.inj hending
  · intro p frontier r next d _ hv ih r' hr' ending hending
    rcases List.mem_cons.1 hr' with rfl | hrest
    · rw [hv] at hending
      cases hending
    · exact ih r' hrest ending hending

/-- A drive is suspended by its last round. -/
theorem last_of_suspended (w : Workflow σ) (run : String) (now : Timestamp) (limit : UInt64)
    (left : Nat) (p : Progress) (frontier : NameSet) (memory : σ) (c : Checkpoint) :
    (w.driveFor run now limit left p frontier memory).ending = .suspended c →
      ∃ before r, (w.driveFor run now limit left p frontier memory).rounds = before ++ [r] ∧
        r.verdict = .suspended c := by
  refine driveFor_induct w run now limit (motive := fun _ _ d => d.ending = .suspended c →
    ∃ before r, d.rounds = before ++ [r] ∧ r.verdict = .suspended c)
    ?_ ?_ ?_ ?_ ?_ left p frontier memory
  · intro p frontier memory _ h
    cases h
  · intro p frontier memory h
    cases h
  · intro p frontier r error memory _ _ h
    cases h
  · intro p frontier r c' memory _ hv h
    cases h
    exact ⟨[], r, rfl, hv⟩
  · intro p frontier r next d _ _ ih h
    obtain ⟨before, last, hrounds, hv⟩ := ih h
    refine ⟨r :: before, last, ?_, hv⟩
    show r :: d.rounds = r :: (before ++ [last])
    rw [hrounds]

end Workflow

/-! ## Calls -/

/-- The checkpoint that a call gave to its store. -/
def Call.checkpoint? (c : Call σ τ) : Option Checkpoint :=
  match c.rounds.getLast? with
  | none => none
  | some r =>
    match r.verdict with
    | .suspended checkpoint => some checkpoint
    | _ => none

/-- What a call gave to its store is what its last round was suspended with. -/
theorem Call.checkpoint?_eq_some_iff {call : Call σ τ} {c : Checkpoint} :
    call.checkpoint? = some c ↔
      ∃ before r, call.rounds = before ++ [r] ∧ r.verdict = .suspended c := by
  unfold checkpoint?
  constructor
  · intro h
    split at h
    · cases h
    · rename_i r hlast
      obtain ⟨before, hrounds⟩ := List.getLast?_eq_some_iff.1 hlast
      refine ⟨before, r, hrounds, ?_⟩
      split at h
      · rename_i hv
        rw [hv, Option.some.inj h]
      · cases h
  · rintro ⟨before, r, hrounds, hv⟩
    rw [hrounds, List.getLast?_concat]
    dsimp only
    rw [hv]

/-- A call that gave a checkpoint to its store has driven its run up to it. -/
theorem Runner.ending_of_checkpoint {w : Workflow σ} {id : String} {r : Runner τ} {resumed : Bool}
    {startData : Json} {p : Progress} {frontier : NameSet} {memory : σ} {content : τ}
    {c : Checkpoint}
    (h : (r.callOf w id resumed startData p frontier memory content).checkpoint? = some c) :
    (w.drive id r.now r.maxSteps p frontier memory).ending = .suspended c := by
  obtain ⟨before, last, hrounds, hv⟩ := Call.checkpoint?_eq_some_iff.1 h
  have hlast : last ∈ (w.drive id r.now r.maxSteps p frontier memory).rounds := by
    show last ∈ (r.callOf w id resumed startData p frontier memory content).rounds
    rw [hrounds]
    exact List.mem_concat_self
  exact w.ending_driveFor id r.now r.maxSteps _ p frontier memory last hlast (.suspended c)
    (by rw [hv]; rfl)

/-- A call that answers that the run is suspended has saved its checkpoint. -/
theorem Runner.saved_of_suspended {w : Workflow σ} {id : String} {r : Runner τ} {resumed : Bool}
    {startData : Json} {p : Progress} {frontier : NameSet} {memory : σ} {content : τ}
    {signal : SuspendSignal}
    (h : (r.callOf w id resumed startData p frontier memory content).result =
      .ok (.suspended signal)) :
    ∃ c, (r.callOf w id resumed startData p frontier memory content).checkpoint? = some c ∧
      signal = signalOf c ∧ r.store.save c content =
        (.ok (), (r.callOf w id resumed startData p frontier memory content).content) := by
  unfold callOf at h ⊢
  dsimp only at h ⊢
  generalize hd : w.drive id r.now r.maxSteps p frontier memory = d at h ⊢
  unfold settle at h ⊢
  cases hend : d.ending with
  | completed =>
    rw [hend] at h
    dsimp only at h
    split at h
    · split at h <;> cases h
    · cases h
  | failed error =>
    rw [hend] at h
    cases h
  | suspended c =>
    rw [hend] at h
    dsimp only at h ⊢
    generalize hsave : r.store.save c content = saved at h ⊢
    obtain ⟨answer, content'⟩ := saved
    cases answer with
    | error e => cases h
    | ok u =>
      cases h
      unfold Workflow.drive at hd
      rw [← hd] at hend
      obtain ⟨before, last, hrounds, hv⟩ := Workflow.last_of_suspended _ _ _ _ _ _ _ _ c hend
      rw [hd] at hrounds
      exact ⟨c, Call.checkpoint?_eq_some_iff.2 ⟨before, last, hrounds, hv⟩, rfl, hsave⟩

/-- What the end of a drive comes to. -/
theorem Runner.settle_cases (r : Runner τ) (run : String) (resumed : Bool) (d : Drive σ)
    (content : τ) :
    (d.ending = .completed ∧
      ((r.settle run resumed d content).result = .ok (.completed run d.last.state) ∨
        ∃ source, (r.settle run resumed d content).result = .error (.store source))) ∨
    (∃ c, d.ending = .suspended c ∧
      ((r.settle run resumed d content).result = .ok (.suspended (signalOf c)) ∨
        ∃ source, (r.settle run resumed d content).result =
          .error (.failed run (.store source) d.last.state))) ∨
    ∃ e, d.ending = .failed e ∧
      (r.settle run resumed d content).result = .error (.failed run e d.last.state) := by
  unfold settle
  cases d.ending with
  | completed =>
    refine .inl ⟨rfl, ?_⟩
    dsimp only
    split
    · split
      · exact .inl rfl
      · exact .inr ⟨_, rfl⟩
    · exact .inl rfl
  | suspended c =>
    refine .inr (.inl ⟨c, rfl, ?_⟩)
    dsimp only
    split
    · exact .inl rfl
    · exact .inr ⟨_, rfl⟩
  | failed e => exact .inr (.inr ⟨e, rfl, rfl⟩)

/-- A drive that is settled as completed has completed, and the state is the one that it leaves. -/
theorem Runner.completed_of_settle {r : Runner τ} {run id : String} {resumed : Bool}
    {d : Drive σ} {content : τ} {s : State}
    (h : (r.settle run resumed d content).result = .ok (.completed id s)) :
    d.ending = .completed ∧ d.last.state = s := by
  rcases r.settle_cases run resumed d content with
    ⟨hend, hresult | ⟨source, hresult⟩⟩ | ⟨c, -, hresult | ⟨source, hresult⟩⟩ | ⟨e, -, hresult⟩
  · rw [h] at hresult
    cases hresult
    exact ⟨hend, rfl⟩
  · rw [h] at hresult
    cases hresult
  · rw [h] at hresult
    cases hresult
  · rw [h] at hresult
    cases hresult
  · rw [h] at hresult
    cases hresult

/-- What settles as an error is that of a store, or the drive has failed. -/
theorem Runner.failed_of_settle {r : Runner τ} {run : String} {resumed : Bool} {d : Drive σ}
    {content : τ} {error : RunError}
    (h : (r.settle run resumed d content).result = .error error) :
    (∃ source, error.root = .store source) ∨
      ∃ e, d.ending = .failed e ∧ error = .failed run e d.last.state := by
  rcases r.settle_cases run resumed d content with
    ⟨-, hresult | ⟨source, hresult⟩⟩ | ⟨c, -, hresult | ⟨source, hresult⟩⟩ | ⟨e, hend, hresult⟩
  · rw [h] at hresult
    cases hresult
  · rw [h] at hresult
    cases hresult
    exact .inl ⟨source, rfl⟩
  · rw [h] at hresult
    cases hresult
  · rw [h] at hresult
    cases hresult
    exact .inl ⟨source, rfl⟩
  · rw [h] at hresult
    cases hresult
    exact .inr ⟨e, hend, rfl⟩

/-- A run that does not complete has stopped in its last round, or come to its limit. -/
theorem Runner.completed_or_stopped (r : Runner τ) (w : Workflow σ) (id : String) (initial : State)
    (memory : σ) (content : τ) :
    (∃ s, (r.run w id initial memory content).result = .ok (.completed id s)) ∨
    (∃ before last, (r.run w id initial memory content).rounds = before ++ [last] ∧
      ∀ next, last.verdict ≠ .ready next) ∨
    ∃ s, (r.run w id initial memory content).result =
      .error (.failed id (.stepLimitExceeded r.maxSteps) s) := by
  unfold run callOf
  dsimp only
  unfold settle
  cases hend : (w.drive id r.now r.maxSteps { state := initial } (.singleton w.plan.entry)
      memory).ending with
  | completed => exact .inl ⟨_, rfl⟩
  | suspended c =>
    obtain ⟨before, last, hrounds, hv⟩ := Workflow.last_of_suspended _ _ _ _ _ _ _ _ c hend
    exact .inr (.inl ⟨before, last, hrounds, fun next hnext => nomatch hv.symm.trans hnext⟩)
  | failed error =>
    right
    rcases Workflow.failed_driveFor (P := fun _ _ _ => True) (fun _ _ _ _ _ _ _ _ => trivial)
        _ _ _ _ _ _ _ [] trivial hend with
      ⟨before, last, q, f, hrounds, -, -, hv⟩ | ⟨rfl, -⟩
    · exact .inl ⟨before, last, hrounds, fun next hnext => nomatch hv.symm.trans hnext⟩
    · exact .inr ⟨_, rfl⟩

/-- A call along whose rounds a predicate holds, and after them if it completes. -/
theorem Runner.along_callOf {w : Workflow σ} {id : String}
    {P : List Round → Progress → NameSet → Prop}
    (hkeep : ∀ past p frontier r next, P past p frontier → w.Follows id p frontier r →
      r.verdict = .ready next → P (past ++ [r]) r.after next)
    (r : Runner τ) (resumed : Bool) (startData : Json) {past : List Round} {p : Progress}
    {frontier : NameSet} (memory : σ) (content : τ) (hp : P past p frontier) :
    Along w id P past (r.callOf w id resumed startData p frontier memory content).rounds ∧
      ∀ run s, (r.callOf w id resumed startData p frontier memory content).result =
          .ok (.completed run s) →
        ∃ q f, P (past ++ (r.callOf w id resumed startData p frontier memory content).rounds) q f ∧
          w.dueFrontier? q.completed f = none ∧ q.state = s := by
  obtain ⟨hrounds, hlast⟩ := Workflow.along_driveFor hkeep r.now r.maxSteps
    (r.maxSteps.toNat - p.step.toNat) p frontier memory past hp
  refine ⟨hrounds, fun run s hresult => ?_⟩
  obtain ⟨hend, hstate⟩ := completed_of_settle hresult
  obtain ⟨f, hf, hnone⟩ := hlast hend
  exact ⟨_, f, hf, hnone, hstate⟩

/-- A resume that finds a checkpoint drives the run on from there. -/
theorem Runner.resume_eq {w : Workflow σ} {id : String} {r : Runner τ} {content : τ}
    {c : Checkpoint} (h : (r.store.load id content).1 = .ok (some c)) (input : Json) (memory : σ) :
    r.resume w id input memory content =
      r.callOf w id true
        (.object [("resumed", .bool true), ("pending_node", .str c.pending),
          ("input_key", .str c.inputKey)])
        (resumePoint c input) c.frontier memory (r.store.load id content).2 := by
  unfold resume
  generalize r.store.load id content = loaded at h ⊢
  obtain ⟨answer, content'⟩ := loaded
  cases h
  rfl

/-- What a checkpoint holds is not empty, so it is due. -/
theorem Workflow.dueFrontier?_frontier (w : Workflow σ) (completed : NameSet) (c : Checkpoint) :
    w.dueFrontier? completed c.frontier = some c.frontier := by
  have hpending : c.pending ∈ c.frontier := NameSet.mem_insert.2 (.inl rfl)
  unfold dueFrontier?
  rw [if_neg]
  intro hempty
  rw [NameSet.isEmpty_eq_true_iff.1 hempty] at hpending
  exact NameSet.not_mem_empty hpending

/-- The rule of a drive that goes on from a checkpoint. -/
theorem Workflow.drive_resumePoint (w : Workflow σ) (id : String) (now : Timestamp) (limit : UInt64)
    (c : Checkpoint) (input : Json) (memory : σ) :
    w.drive id now limit (resumePoint c input) c.frontier memory =
      if limit ≤ c.step then ⟨[], resumePoint c input, .failed (.stepLimitExceeded limit), memory⟩
      else
        let (r, memory) := w.round id now (resumePoint c input) c.frontier memory
        match r.verdict with
        | .failed error => ⟨[r], r.after, .failed error, memory⟩
        | .suspended checkpoint => ⟨[r], r.after, .suspended checkpoint, memory⟩
        | .ready next =>
          let rest := w.drive id now limit r.after next memory
          { rest with rounds := r :: rest.rounds } := by
  rw [w.drive_eq, w.dueFrontier?_frontier]
  rfl

namespace Runner

variable {w : Workflow σ} {id : String} {r : Runner τ} {content : τ} {c : Checkpoint}

/-- A resume of a run that has come to the limit fails before anything is executed. -/
theorem resume_of_limit (h : (r.store.load id content).1 = .ok (some c)) (hlimit : r.maxSteps ≤ c.step)
    (input : Json) (memory : σ) :
    (r.resume w id input memory content).rounds = [] ∧
      (r.resume w id input memory content).memory = memory ∧
      (r.resume w id input memory content).result =
        .error (.failed id (.stepLimitExceeded r.maxSteps) (c.state.insert c.inputKey input)) := by
  rw [resume_eq h]
  unfold callOf
  rw [w.drive_resumePoint, if_pos hlimit]
  exact ⟨rfl, rfl, rfl⟩

/-- A resume of a run that has not come to the limit begins with a round on what the checkpoint holds. -/
theorem rounds_resume_of_lt (h : (r.store.load id content).1 = .ok (some c))
    (hlimit : ¬ r.maxSteps ≤ c.step) (input : Json) (memory : σ) :
    ∃ rest, (r.resume w id input memory content).rounds =
      (w.round id r.now (resumePoint c input) c.frontier memory).1 :: rest := by
  rw [resume_eq h]
  unfold callOf
  rw [w.drive_resumePoint, if_neg hlimit]
  dsimp only
  split
  · exact ⟨_, rfl⟩
  · exact ⟨_, rfl⟩
  · exact ⟨_, rfl⟩

/-- If that round fails, the resume has no other and fails with it. -/
theorem resume_of_failed (h : (r.store.load id content).1 = .ok (some c))
    (hlimit : ¬ r.maxSteps ≤ c.step) {input : Json} {memory : σ} {error : RunError}
    (hv : (w.round id r.now (resumePoint c input) c.frontier memory).1.verdict = .failed error) :
    (r.resume w id input memory content).rounds =
        [(w.round id r.now (resumePoint c input) c.frontier memory).1] ∧
      (r.resume w id input memory content).memory =
        (w.round id r.now (resumePoint c input) c.frontier memory).2 ∧
      (r.resume w id input memory content).result = .error (.failed id error
        (w.round id r.now (resumePoint c input) c.frontier memory).1.after.state) := by
  rw [resume_eq h]
  unfold callOf
  rw [w.drive_resumePoint, if_neg hlimit]
  dsimp only
  rw [hv]
  exact ⟨rfl, rfl, rfl⟩

end Runner

/-- A resume that finds nothing is refused. -/
theorem Runner.resume_eq_refused {w : Workflow σ} {id : String} {r : Runner τ} {content : τ}
    (h : ∀ c, (r.store.load id content).1 ≠ .ok (some c)) (input : Json) (memory : σ) :
    ∃ error, (error = .checkpointNotFound id ∨ ∃ source, error = .store source) ∧
      r.resume w id input memory content =
        r.refused id error memory (r.store.load id content).2 := by
  unfold resume
  generalize r.store.load id content = loaded at h ⊢
  obtain ⟨answer, content'⟩ := loaded
  cases answer with
  | error e => exact ⟨_, .inr ⟨e, rfl⟩, rfl⟩
  | ok found =>
    cases found with
    | none => exact ⟨_, .inl rfl, rfl⟩
    | some c => exact absurd rfl (h c)

theorem Runner.rounds_resume_eq_nil {w : Workflow σ} {id : String} {r : Runner τ} {content : τ}
    (h : ∀ c, (r.store.load id content).1 ≠ .ok (some c)) (input : Json) (memory : σ) :
    (r.resume w id input memory content).rounds = [] := by
  obtain ⟨error, -, hrefused⟩ := resume_eq_refused h input memory (w := w)
  rw [hrefused]
  rfl

end Flowgraph
