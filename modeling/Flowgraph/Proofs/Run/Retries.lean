import Flowgraph.Proofs.Run.Stores
import Flowgraph.Proofs.Step.Keys

/-!
# Retries

A resume that fails leaves nothing behind but what the steps remember.  Where they
remember nothing (`Step.Memoryless`), a call goes the same way whatever the memory is,

    (w.round run now p frontier memory).1 = (w.round run now p frontier memory').1
                                                                        (round_memory)

so that a later resume goes as if the one that failed had not been made
                                                          (checkpoints_after_answer)

The built-in steps remember nothing (`memoryless_of_compile_builtin`).
-/

namespace Flowgraph

open Runner

variable {σ τ : Type}

/-! ## Steps that remember nothing -/

/-- What a step does depends on its context and the state only. -/
structure Step.Memoryless (step : Step σ) : Prop where
  execute : ∀ ctx s memory memory', (step.execute ctx s memory).1 = (step.execute ctx s memory').1
  decision : ∀ s memory memory', step.decision s memory = step.decision s memory'

theorem Step.memoryless_pure (execute : StepContext → State → Execution)
    (decision : State → Option String) : (Step.pure execute decision : Step σ).Memoryless :=
  ⟨fun _ _ _ _ => rfl, fun _ _ _ => rfl⟩

theorem memoryless_of_compile_builtin {g : Graph} {ev : Evaluator} {w : Workflow σ}
    (hc : g.compile (.builtin ev) = .ok w) {n : String} {step : Step σ}
    (h : w.steps.find? n = some step) : step.Memoryless := by
  obtain ⟨-, -, hsteps, -⟩ := Graph.compile_eq_ok hc
  rw [hsteps] at h
  obtain ⟨node, -, -, hmade⟩ := Graph.create_of_makeSteps h
  rcases create_builtin_cases hmade with ⟨-, c, rfl⟩ | ⟨-, c, rfl⟩ | ⟨-, c, rfl⟩ | ⟨-, c, -, rfl⟩
  · exact Step.memoryless_pure _ _
  · exact Step.memoryless_pure _ _
  · exact Step.memoryless_pure _ _
  · exact Step.memoryless_pure _ _

theorem executeAll_memory (context : String → StepContext) (snapshot : State)
    {steps : List (String × Step σ)} (h : ∀ s ∈ steps, s.2.Memoryless) (memory memory' : σ) :
    (executeAll context snapshot steps memory).1 =
      (executeAll context snapshot steps memory').1 := by
  induction steps generalizing memory memory' with
  | nil => rfl
  | cons s steps ih =>
    obtain ⟨id, step⟩ := s
    have hstep := (h _ List.mem_cons_self).execute (context id) snapshot memory memory'
    have hrest := fun s hs => h s (List.mem_cons_of_mem _ hs)
    simp only [executeAll]
    rw [hstep, ih hrest _ (step.execute (context id) snapshot memory').2]

namespace Workflow

variable {w : Workflow σ} (hw : ∀ n step, w.steps.find? n = some step → step.Memoryless)

include hw

theorem decisionOf_memory (s : State) (memory memory' : σ) (id : String) :
    w.decisionOf s memory id = w.decisionOf s memory' id := by
  unfold decisionOf
  cases h : w.steps.find? id with
  | none => rfl
  | some step =>
    show (step.decision s memory).getD "" = (step.decision s memory').getD ""
    rw [(hw id step h).decision s memory memory']

theorem routeAll_memory (p : Progress) (memory memory' : σ) (ids : List String) :
    w.routeAll p memory ids = w.routeAll p memory' ids := by
  have hroute : ∀ id, w.route p memory id = w.route p memory' id := by
    intro id
    unfold route
    rw [decisionOf_memory hw p.state memory memory' id]
  induction ids with
  | nil => rfl
  | cons id ids ih =>
    simp only [routeAll]
    rw [hroute id, ih]

/-- A round goes the same way whatever the memory is. -/
theorem round_memory (run : String) (now : Timestamp) (p : Progress) (frontier : NameSet)
    (memory memory' : σ) :
    (w.round run now p frontier memory).1 = (w.round run now p frontier memory').1 := by
  unfold round
  split
  · rfl
  · have hsteps : ∀ s ∈ w.staffed frontier, s.2.Memoryless :=
      fun s hs => hw s.1 s.2 ((w.mem_staffed frontier).1 hs).2
    have hes := executeAll_memory (fun node => { node, run, step := p.step + 1 }) p.state hsteps
      memory memory'
    dsimp only [conclude]
    rw [hes, routeAll_memory hw]

/-- A drive goes the same way whatever the memory is. -/
theorem driveFor_memory (run : String) (now : Timestamp) (limit : UInt64) (left : Nat)
    (p : Progress) (frontier : NameSet) (memory memory' : σ) :
    ∃ m, w.driveFor run now limit left p frontier memory' =
      { w.driveFor run now limit left p frontier memory with memory := m } := by
  induction left generalizing p frontier memory memory' with
  | zero =>
    rw [driveFor.eq_def, driveFor.eq_def]
    cases w.dueFrontier? p.completed frontier with
    | none => exact ⟨memory', rfl⟩
    | some due => exact ⟨memory', rfl⟩
  | succ left ih =>
    rw [driveFor.eq_def, driveFor.eq_def]
    cases w.dueFrontier? p.completed frontier with
    | none => exact ⟨memory', rfl⟩
    | some due =>
      have hround := round_memory hw run now p due memory memory'
      dsimp only
      rw [← hround]
      cases (w.round run now p due memory).1.verdict with
      | failed error => exact ⟨_, rfl⟩
      | suspended c => exact ⟨_, rfl⟩
      | ready next =>
        obtain ⟨m, hm⟩ := ih (w.round run now p due memory).1.after next
          (w.round run now p due memory).2 (w.round run now p due memory').2
        dsimp only
        rw [hm]
        exact ⟨m, rfl⟩

end Workflow

/-! ## Calls that nobody can tell apart -/

/-- Two calls that go the same way and leave the same map. -/
structure Call.Same (map : τ → NameMap Checkpoint) (a b : Call σ τ) : Prop where
  rounds : a.rounds = b.rounds
  events : a.events = b.events
  result : a.result = b.result
  map : map a.content = map b.content

/-- A store answers a resume at two contents alike: it refuses the same of its operations. -/
structure CheckpointStore.Alike (st : CheckpointStore τ) (run : String) (t u : τ) : Prop where
  load : (st.load run t).1 = (st.load run u).1
  save : ∀ c, (st.save c (st.load run t).2).1 = (st.save c (st.load run u).2).1
  delete : (st.delete run (st.load run t).2).1 = (st.delete run (st.load run u).2).1

section

variable {w : Workflow σ} {r : Runner τ} {map : τ → NameMap Checkpoint}

/-- The end of a drive comes to the same where a store answers the same. -/
theorem Runner.settle_same (hs : r.store.Holds map) (run : String) (resumed : Bool) (d : Drive σ)
    {t u : τ} (hmap : map t = map u) (hsave : ∀ c, (r.store.save c t).1 = (r.store.save c u).1)
    (hdelete : (r.store.delete run t).1 = (r.store.delete run u).1) :
    (r.settle run resumed d t).terminal = (r.settle run resumed d u).terminal ∧
      (r.settle run resumed d t).result = (r.settle run resumed d u).result ∧
      map (r.settle run resumed d t).content = map (r.settle run resumed d u).content := by
  unfold settle
  cases d.ending with
  | completed =>
    cases resumed with
    | false => exact ⟨rfl, rfl, hmap⟩
    | true =>
      dsimp only
      rw [if_pos rfl, if_pos rfl]
      generalize ht : r.store.delete run t = deletedₜ at hdelete ⊢
      generalize hu : r.store.delete run u = deletedᵤ at hdelete ⊢
      obtain ⟨answer, t'⟩ := deletedₜ
      obtain ⟨answer', u'⟩ := deletedᵤ
      cases hdelete
      cases answer with
      | error e => exact ⟨rfl, rfl, by rw [hs.delete_error ht, hs.delete_error hu, hmap]⟩
      | ok b =>
        refine ⟨rfl, rfl, ?_⟩
        show map t' = map u'
        rw [hs.delete_ok ht, hs.delete_ok hu, hmap]
  | suspended c =>
    have hanswer := hsave c
    dsimp only
    generalize ht : r.store.save c t = savedₜ at hanswer ⊢
    generalize hu : r.store.save c u = savedᵤ at hanswer ⊢
    obtain ⟨answer, t'⟩ := savedₜ
    obtain ⟨answer', u'⟩ := savedᵤ
    cases hanswer
    cases answer with
    | error e =>
      refine ⟨rfl, rfl, ?_⟩
      show map t' = map u'
      rw [hs.save_error ht, hs.save_error hu, hmap]
    | ok _ =>
      refine ⟨rfl, rfl, ?_⟩
      show map t' = map u'
      rw [hs.save_ok ht, hs.save_ok hu, hmap]
  | failed e => exact ⟨rfl, rfl, hmap⟩

/-- Where steps remember nothing, a call that drives a run goes the same way whatever the memory is. -/
theorem Runner.same_callOf (hw : ∀ n step, w.steps.find? n = some step → step.Memoryless)
    (hs : r.store.Holds map) (id : String) (resumed : Bool) (startData : Json) (p : Progress)
    (frontier : NameSet) (memory memory' : σ) {t u : τ} (hmap : map t = map u)
    (hsave : ∀ c, (r.store.save c t).1 = (r.store.save c u).1)
    (hdelete : (r.store.delete id t).1 = (r.store.delete id u).1) :
    Call.Same map (r.callOf w id resumed startData p frontier memory t)
      (r.callOf w id resumed startData p frontier memory' u) := by
  obtain ⟨m, hm⟩ := Workflow.driveFor_memory hw id r.now r.maxSteps
    (r.maxSteps.toNat - p.step.toNat) p frontier memory' memory
  unfold callOf Workflow.drive
  rw [hm]
  generalize w.driveFor id r.now r.maxSteps _ p frontier memory' = d
  obtain ⟨hterminal, hresult, hcontent⟩ := settle_same hs id resumed d hmap hsave hdelete
  -- what a drive comes to has nothing to do with the memory that it leaves
  have hforget : r.settle id resumed { d with memory := m } t = r.settle id resumed d t := rfl
  dsimp only
  rw [hforget]
  exact ⟨rfl, by dsimp only; rw [hterminal], hresult, hcontent⟩

/-- Where steps remember nothing, a resume goes the same way whatever the memory is, from any content
that holds the same map and is refused the same. -/
theorem Runner.same_resume (hw : ∀ n step, w.steps.find? n = some step → step.Memoryless)
    (hs : r.store.Holds map) (id : String) (input : Json) (memory memory' : σ) {t u : τ}
    (hmap : map t = map u) (halike : r.store.Alike id t u) :
    Call.Same map (r.resume w id input memory t) (r.resume w id input memory' u) := by
  obtain ⟨hload, hsave, hdelete⟩ := halike
  have hloaded : map (r.store.load id t).2 = map (r.store.load id u).2 := by
    rw [hs.load, hs.load, hmap]
  unfold resume
  generalize r.store.load id t = loadedₜ at hload hsave hdelete hloaded ⊢
  generalize r.store.load id u = loadedᵤ at hload hsave hdelete hloaded ⊢
  obtain ⟨answer, t'⟩ := loadedₜ
  obtain ⟨answer', u'⟩ := loadedᵤ
  cases hload
  cases answer with
  | error e => exact ⟨rfl, rfl, rfl, hloaded⟩
  | ok found =>
    cases found with
    | none => exact ⟨rfl, rfl, rfl, hloaded⟩
    | some c => exact same_callOf hw hs id true _ _ _ memory memory' hloaded hsave hdelete

/-- A call on a store that holds a map leaves the map as it was if it fails, with a checkpoint of its
run if it suspends, and without one if a resume completes; other runs keep theirs.  So where steps
remember nothing, a resume after one that failed goes as if that one had not been made: as from any
content with the map of before, if the store refuses the same. -/
theorem checkpoints_after_answer (hs : r.store.Holds map) (w : Workflow σ) (id : String)
    (memory : σ) (content : τ) :
    (∀ q, (r.answer w id q memory content).Leaves id q.resumes (map content)
      (map (r.answer w id q memory content).content)) ∧
    (∀ q other, other ≠ id → (map (r.answer w id q memory content).content).find? other =
      (map content).find? other) ∧
    ∀ input error, (r.resume w id input memory content).result = .error error →
      (∀ n step, w.steps.find? n = some step → step.Memoryless) →
      ∀ (again : Runner τ) (input' : Json) (memory' : σ) (u : τ), again.store.Holds map →
        map u = map content →
        again.store.Alike id (r.resume w id input memory content).content u →
        Call.Same map
          (again.resume w id input' (r.resume w id input memory content).memory
            (r.resume w id input memory content).content)
          (again.resume w id input' memory' u) := by
  have hleaves := fun q => leaves_answer hs w id q memory content
  refine ⟨hleaves, fun q other hother => (hleaves q).find? hother, ?_⟩
  intro input error hresult hw again input' memory' u hagain hu halike
  have hfailed : map (r.resume w id input memory content).content = map content := by
    have h : (r.resume w id input memory content).Leaves id true (map content)
      (map (r.resume w id input memory content).content) := hleaves (.resume input)
    unfold Call.Leaves at h
    rw [hresult] at h
    exact h
  exact same_resume hw hagain id input' _ memory' (hfailed.trans hu.symm) halike

end

/-! ## A refused deletion -/

/-- A map from runs to checkpoints, with a list that says of its next operations which are refused. -/
def CheckpointStore.refusing : CheckpointStore (NameMap Checkpoint × List Bool) where
  save c t :=
    if t.2.headD false then (.error (.other "refused"), t.1, t.2.tail)
    else (.ok (), t.1.insert c.run c, t.2.tail)
  load run t :=
    if t.2.headD false then (.error (.other "refused"), t.1, t.2.tail)
    else (.ok (t.1.find? run), t.1, t.2.tail)
  delete run t :=
    if t.2.headD false then (.error (.other "refused"), t.1, t.2.tail)
    else (.ok (t.1.contains run), t.1.erase run, t.2.tail)
  list t := (.ok t.1.keys.toList, t)

theorem CheckpointStore.refusing_holds : CheckpointStore.refusing.Holds Prod.fst := by
  constructor
  all_goals
    intros
    rename_i h
    dsimp only [refusing] at h
    split at h <;> cases h
    all_goals simp

/-- The steps of a registry, their executions counted in the memory. -/
def Registry.counted (r : Registry Unit) : Registry Nat :=
  ⟨r.factories.map fun f => (f.1, fun n => (f.2 n).map fun step =>
    { execute := fun ctx s count => ((step.execute ctx s ()).1, count + 1)
      decision := fun s _ => step.decision s () })⟩

theorem Registry.memoryless_counted {r : Registry Unit} {n : Node} {step : Step Nat}
    (h : r.counted.create n = .ok step) : step.Memoryless := by
  unfold create at h
  split at h
  · rename_i factory hfactory
    obtain ⟨before, after, hfactories, -⟩ := List.lookup_eq_some_iff.1 hfactory
    have hmem : (n.type, factory) ∈ r.counted.factories := by
      rw [hfactories]
      exact List.mem_append_right _ List.mem_cons_self
    obtain ⟨⟨type, make⟩, -, heq⟩ := List.mem_map.1 hmem
    obtain ⟨-, rfl⟩ := Prod.mk.inj heq
    cases hmake : make n with
    | error error => simp [hmake, Except.map] at h
    | ok made =>
      simp only [hmake, Except.map, Except.ok.injEq] at h
      rw [← h]
      exact ⟨fun _ _ _ _ => rfl, fun _ _ _ => rfl⟩
  · cases h

def questionCounted : Workflow Nat :=
  ⟨question, question.planFrom ⟨"start", "end", ["start", "q", "end"]⟩,
    question.makeSteps Registry.idle.counted⟩

/-- A runner whose store may refuse. -/
def Runner.hindered : Runner (NameMap Checkpoint × List Bool) := ⟨10, .refusing, .epoch⟩

/-- A run that waits for input. -/
def questionRun : Call Nat (NameMap Checkpoint × List Bool) :=
  Runner.hindered.run questionCounted "run" ∅ 0 (∅, [])

/-- Its resume, which completes, but may not delete the checkpoint. -/
def questionRefused : Call Nat (NameMap Checkpoint × List Bool) :=
  Runner.hindered.resume questionCounted "run" .null questionRun.memory
    (questionRun.content.1, [false, true])

/-- The steps have run, the checkpoint is there, and a second resume goes as the first would have. -/
theorem checkpoints_after_answer_question :
    question.compile Registry.idle.counted = .ok questionCounted ∧
    questionRefused.result = .error (.store (.other "refused")) ∧
    questionRun.memory < questionRefused.memory ∧
    Call.Same Prod.fst
      (Runner.hindered.resume questionCounted "run" .null questionRefused.memory
        questionRefused.content)
      (Runner.hindered.resume questionCounted "run" .null questionRun.memory
        (questionRun.content.1, [])) := by
  have hc : question.compile Registry.idle.counted = .ok questionCounted :=
    Graph.compile_of_plan (by decide +kernel) rfl
  have hresult : questionRefused.result = .error (.store (.other "refused")) := by decide +kernel
  have hcontent : questionRefused.content = (questionRun.content.1, []) := by decide +kernel
  have hw : ∀ n step, questionCounted.steps.find? n = some step → step.Memoryless := by
    intro n step hstep
    obtain ⟨m, -, -, hmade⟩ := Graph.create_of_makeSteps hstep
    exact Registry.memoryless_counted hmade
  refine ⟨hc, hresult, by decide +kernel, ?_⟩
  have hagain := checkpoints_after_answer (r := .hindered) CheckpointStore.refusing_holds
    questionCounted "run" questionRun.memory (questionRun.content.1, [false, true])
  refine hagain.2.2 .null _ hresult hw .hindered .null questionRun.memory (questionRun.content.1, [])
    CheckpointStore.refusing_holds rfl ?_
  show CheckpointStore.Alike _ "run" questionRefused.content _
  rw [hcontent]
  exact ⟨rfl, fun _ => rfl, rfl⟩

end Flowgraph
