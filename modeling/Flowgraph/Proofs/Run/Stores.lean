import Flowgraph.Proofs.Run.Lineage

/-!
# What calls leave in their store

A store holds a map from runs to checkpoints if an operation that succeeds acts on the
map, and one that is refused leaves the map alone (`CheckpointStore.Holds`).  A call that
fails then leaves the map as it was, one that suspends puts a checkpoint of its run
there, and a resume that completes takes the checkpoint of its run away

    call.Leaves id q.resumes (map content) (map call.content)           (leaves_answer)

A `Request` is what a call is made for: it starts a run or resumes one.
-/

namespace Flowgraph

open Runner

variable {σ τ : Type}

/-! ## Stores that hold a map -/

/-- A store holds a map from runs to checkpoints: what it does it does to the map, and what it
refuses leaves the map alone. -/
structure CheckpointStore.Holds (st : CheckpointStore τ) (map : τ → NameMap Checkpoint) : Prop where
  save_ok : ∀ {c t u}, st.save c t = (.ok (), u) → map u = (map t).insert c.run c
  save_error : ∀ {c t e u}, st.save c t = (.error e, u) → map u = map t
  load_ok : ∀ {run t found u}, st.load run t = (.ok found, u) →
    found = (map t).find? run ∧ map u = map t
  load_error : ∀ {run t e u}, st.load run t = (.error e, u) → map u = map t
  delete_ok : ∀ {run t b u}, st.delete run t = (.ok b, u) → map u = (map t).erase run
  delete_error : ∀ {run t e u}, st.delete run t = (.error e, u) → map u = map t

theorem CheckpointStore.memory_holds : CheckpointStore.memory.Holds fun m => m where
  save_ok := fun h => (Prod.mk.inj h).2.symm
  save_error := fun h => nomatch (Prod.mk.inj h).1
  load_ok := fun h => ⟨(Except.ok.inj (Prod.mk.inj h).1).symm, (Prod.mk.inj h).2.symm⟩
  load_error := fun h => nomatch (Prod.mk.inj h).1
  delete_ok := fun h => (Prod.mk.inj h).2.symm
  delete_error := fun h => nomatch (Prod.mk.inj h).1

theorem CheckpointStore.Holds.load {st : CheckpointStore τ} {map : τ → NameMap Checkpoint}
    (hs : st.Holds map) (run : String) (t : τ) : map (st.load run t).2 = map t := by
  cases h : st.load run t with
  | mk answer u =>
    cases answer with
    | error e => exact hs.load_error h
    | ok found => exact (hs.load_ok h).2

/-! ## Calls -/

/-- What is asked for a run: that it starts, or that it goes on with an input. -/
inductive Request where
  | start (initial : State)
  | resume (input : Json)

def Request.resumes : Request → Bool
  | start _ => false
  | resume _ => true

/-- The call that answers a request. -/
def Runner.answer (r : Runner τ) (w : Workflow σ) (id : String) :
    Request → σ → τ → Call σ τ
  | .start initial => r.run w id initial
  | .resume input => r.resume w id input

/-- A call is refused, as its store fails or has no checkpoint, or it drives the run. -/
theorem Runner.answer_cases (r : Runner τ) (w : Workflow σ) (id : String) (q : Request) (memory : σ)
    (content : τ) :
    (∃ error t, (error = .checkpointNotFound id ∨ ∃ source, error = .store source) ∧
      r.answer w id q memory content = r.refused id error memory t) ∨
    ∃ startData p frontier t,
      r.answer w id q memory content = r.callOf w id q.resumes startData p frontier memory t := by
  cases q with
  | start initial => exact .inr ⟨_, _, _, _, rfl⟩
  | resume input =>
    by_cases hload : ∃ c, (r.store.load id content).1 = .ok (some c)
    · obtain ⟨c, hload⟩ := hload
      exact .inr ⟨_, _, _, _, resume_eq hload input memory⟩
    · obtain ⟨error, herror, hrefused⟩ := resume_eq_refused (not_exists.1 hload) input memory
      exact .inl ⟨error, _, herror, hrefused⟩

/-- The map after a call, by what the call returned. -/
def Call.Leaves (call : Call σ τ) (id : String) (resumed : Bool)
    (before after : NameMap Checkpoint) : Prop :=
  match call.result with
  | .error _ => after = before
  | .ok (.completed _ _) => after = if resumed then before.erase id else before
  | .ok (.suspended signal) => ∃ c, call.checkpoint? = some c ∧ c.run = id ∧ signal = signalOf c ∧
      after = before.insert id c

/-- In whatever a call leaves, the slots of other runs are as before. -/
theorem Call.Leaves.find? {call : Call σ τ} {id : String} {resumed : Bool}
    {before after : NameMap Checkpoint} (h : call.Leaves id resumed before after) {other : String}
    (hother : other ≠ id) : after.find? other = before.find? other := by
  unfold Leaves at h
  split at h
  · rw [h]
  · cases resumed with
    | true =>
      rw [h, if_pos rfl, NameMap.find?_erase, if_neg hother]
    | false =>
      rw [h]
      rfl
  · obtain ⟨c, -, -, -, hafter⟩ := h
    rw [hafter, NameMap.find?_insert, if_neg hother]

section

variable {w : Workflow σ} {id : String} {r : Runner τ} {map : τ → NameMap Checkpoint}

/-- What a drive is suspended with is a checkpoint of its run. -/
theorem Workflow.run_checkpoint_driveFor (w : Workflow σ) (run : String) (now : Timestamp)
    (limit : UInt64) (left : Nat) (p : Progress) (frontier : NameSet) (memory : σ) (c : Checkpoint) :
    (w.driveFor run now limit left p frontier memory).ending = .suspended c → c.run = run := by
  refine driveFor_induct w run now limit
    (motive := fun _ _ d => d.ending = .suspended c → c.run = run) ?_ ?_ ?_ ?_ ?_ left p frontier memory
  · exact fun p frontier memory _ => nofun
  · exact fun p frontier memory => nofun
  · exact fun p frontier r error memory _ _ => nofun
  · intro p frontier r c' memory hr hv hend
    cases hend
    obtain ⟨due, now, memory, -, rfl⟩ := hr
    obtain ⟨next, key, payload, others, -, -, hc⟩ := w.checkpoint_eq_of_round run now p due memory hv
    rw [hc]
    rfl
  · exact fun p frontier r next d _ _ ih => ih

/-- What the end of a drive leaves in the store. -/
theorem Runner.leaves_settle (hs : r.store.Holds map) (run : String) (resumed : Bool) (d : Drive σ)
    (content : τ) :
    (∀ error, (r.settle run resumed d content).result = .error error →
      map (r.settle run resumed d content).content = map content) ∧
    ∀ run' s, (r.settle run resumed d content).result = .ok (.completed run' s) →
      map (r.settle run resumed d content).content =
        if resumed then (map content).erase run else map content := by
  unfold settle
  cases d.ending with
  | completed =>
    cases resumed with
    | false => exact ⟨nofun, fun run' s _ => rfl⟩
    | true =>
      dsimp only
      rw [if_pos rfl]
      generalize hdelete : r.store.delete run content = deleted
      obtain ⟨answer, content'⟩ := deleted
      cases answer with
      | error e => exact ⟨fun error _ => hs.delete_error hdelete, nofun⟩
      | ok b => exact ⟨nofun, fun run' s _ => hs.delete_ok hdelete⟩
  | suspended c =>
    dsimp only
    generalize hsave : r.store.save c content = saved
    obtain ⟨answer, content'⟩ := saved
    cases answer with
    | error e => exact ⟨fun error _ => hs.save_error hsave, nofun⟩
    | ok u => exact ⟨nofun, nofun⟩
  | failed e => exact ⟨fun error _ => rfl, nofun⟩

theorem Runner.leaves_callOf (hs : r.store.Holds map) (resumed : Bool) (startData : Json)
    (p : Progress) (frontier : NameSet) (memory : σ) (content : τ) :
    (r.callOf w id resumed startData p frontier memory content).Leaves id resumed (map content)
      (map (r.callOf w id resumed startData p frontier memory content).content) := by
  obtain ⟨herror, hcompleted⟩ := leaves_settle hs id resumed
    (w.drive id r.now r.maxSteps p frontier memory) content
  unfold Call.Leaves
  split
  · rename_i error hresult
    exact herror error hresult
  · rename_i run s hresult
    exact hcompleted run s hresult
  · rename_i signal hresult
    obtain ⟨c, hc, hsignal, hsave⟩ := saved_of_suspended hresult
    have hrun : c.run = id := w.run_checkpoint_driveFor _ _ _ _ _ _ _ c (ending_of_checkpoint hc)
    refine ⟨c, hc, hrun, hsignal, ?_⟩
    rw [hs.save_ok hsave, hrun]

theorem Runner.leaves_answer (hs : r.store.Holds map) (w : Workflow σ) (id : String) (q : Request)
    (memory : σ) (content : τ) :
    (r.answer w id q memory content).Leaves id q.resumes (map content)
      (map (r.answer w id q memory content).content) := by
  cases q with
  | start initial => exact leaves_callOf hs false _ _ _ memory content
  | resume input =>
    have hload := hs.load id content
    show (r.resume w id input memory content).Leaves id true (map content)
      (map (r.resume w id input memory content).content)
    rw [← hload]
    unfold resume
    generalize r.store.load id content = loaded
    obtain ⟨answer, content'⟩ := loaded
    cases answer with
    | error e => exact rfl
    | ok found =>
      cases found with
      | none => exact rfl
      | some c => exact leaves_callOf hs true _ _ _ memory content'

end

end Flowgraph
