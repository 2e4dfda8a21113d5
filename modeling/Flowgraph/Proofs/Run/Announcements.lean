import Flowgraph.Proofs.Run.Retries

/-!
# The events that announce how a call ended

A call is announced if one event of it is terminal, that event is the last, and it is
of the kind that the result asks for.  All calls are announced but those of one sort:
a resume that completes its run while the store refuses to delete the checkpoint.

    call.Announced ↔ ¬ r.DeletionRefused w id q memory content            (announced_iff)

Such a call returns the store's error without any terminal event, so that a reader of
its stream does not learn how it ended (`not_announced_questionRefused`).
-/

namespace Flowgraph

open Runner

variable {σ τ : Type}

/-! ## Announcements -/

/-- The kind of event that a result is announced with. -/
def announcementOf : Except RunError RunOutcome → EventKind
  | .ok (.completed _ _) => .complete
  | .ok (.suspended _) => .inputRequired
  | .error _ => .error

/-- One event of the run is terminal; it is the last one, and of the kind that the result asks for. -/
def Call.Announced (c : Call σ τ) : Prop :=
  ∃ e, c.stream.filter (·.kind.isTerminal) = [e] ∧ c.stream.getLast? = some e ∧
    e.kind = announcementOf c.result

/-- No event of the run is terminal, and the result is an error of the store. -/
def Call.Silent (c : Call σ τ) : Prop :=
  (∀ e ∈ c.stream, e.kind.isTerminal = false) ∧ ∃ source, c.result = .error (.store source)

theorem isTerminal_announcementOf (result : Except RunError RunOutcome) :
    (announcementOf result).isTerminal = true := by
  match result with
  | .ok (.completed _ _) => rfl
  | .ok (.suspended _) => rfl
  | .error _ => rfl

/-- A call is announced whose last event, and no other, is terminal. -/
theorem Call.announced_of_concat {c : Call σ τ} {before : List RunEvent} {e : RunEvent}
    (hstream : c.stream = before ++ [e]) (hbefore : ∀ d ∈ before, d.kind.isTerminal = false)
    (he : e.kind = announcementOf c.result) : c.Announced := by
  have hterminal : e.kind.isTerminal = true := by
    rw [he]
    exact isTerminal_announcementOf c.result
  have hnone : before.filter (·.kind.isTerminal) = [] := by
    rw [List.filter_eq_nil_iff]
    intro d hd
    simp [hbefore d hd]
  refine ⟨e, ?_, ?_, he⟩
  · rw [hstream, List.filter_append, hnone]
    simp [hterminal]
  · rw [hstream, List.getLast?_concat]

theorem Call.Silent.not_announced {c : Call σ τ} (h : c.Silent) : ¬ c.Announced := by
  rintro ⟨e, hone, -, -⟩
  have he : e ∈ c.stream.filter (·.kind.isTerminal) := by
    rw [hone]
    exact List.mem_singleton_self e
  obtain ⟨hmem, hterminal⟩ := List.mem_filter.1 he
  rw [h.1 e hmem] at hterminal
  cases hterminal

/-! ## Events of a call -/

/-- The events of a call before its end: the start, and the progress of the rounds. -/
def ongoingEvents (run : String) (now : Timestamp) (startData : Json) (rounds : List Round) :
    List RunEvent :=
  ⟨.start, startData, now, run⟩ :: rounds.flatMap fun r => (r.progress? run now).toList

theorem isTerminal_ongoingEvents {run : String} {now : Timestamp} {startData : Json}
    {rounds : List Round} :
    ∀ e ∈ ongoingEvents run now startData rounds, e.kind.isTerminal = false := by
  intro e he
  rcases List.mem_cons.1 he with rfl | he
  · rfl
  · obtain ⟨r, -, hr⟩ := List.mem_flatMap.1 he
    have hprogress : r.progress? run now = some e := by simpa using hr
    unfold Round.progress? at hprogress
    split at hprogress
    · cases hprogress
    · cases hprogress
      rfl

/-- Of the events of a round a stream shows the progress. -/
theorem Round.filterMap_events (r : Round) (run : String) (now : Timestamp) :
    (r.events run now).filterMap Event.run? = (r.progress? run now).toList := by
  have hnodes : r.executions.messages.filterMap (Event.run? ∘ Event.node) = [] :=
    List.filterMap_eq_nil_iff.2 fun _ _ => rfl
  have hruns : (Event.run? ∘ Event.run) = some := rfl
  unfold events
  rw [List.filterMap_append, List.filterMap_map, List.filterMap_map, hnodes, hruns,
    List.filterMap_some, List.nil_append]

theorem Runner.stream_callOf (r : Runner τ) (w : Workflow σ) (id : String) (resumed : Bool)
    (startData : Json) (p : Progress) (frontier : NameSet) (memory : σ) (content : τ) :
    let d := w.drive id r.now r.maxSteps p frontier memory
    (r.callOf w id resumed startData p frontier memory content).stream =
      ongoingEvents id r.now startData d.rounds ++
        (r.settle id resumed d content).terminal.toList := by
  intro d
  have hruns : (Event.run? ∘ Event.run) = some := rfl
  unfold Call.stream callOf ongoingEvents
  simp only [List.filterMap_cons, Event.run?, List.filterMap_append, List.filterMap_flatMap,
    Round.filterMap_events, List.filterMap_map, hruns, List.filterMap_some, List.cons_append, d]

/-! ## The end of a drive -/

/-- A resume has completed its run, and the store refuses to delete the checkpoint. -/
def Runner.Undeleted (r : Runner τ) (id : String) (resumed : Bool) (d : Drive σ) (content : τ) :
    Prop :=
  resumed = true ∧ d.ending = .completed ∧ ∃ source, (r.store.delete id content).1 = .error source

/-- The end of a drive has a terminal event of the kind of its result, or none where the checkpoint
could not be deleted. -/
theorem Runner.terminal_settle (r : Runner τ) (id : String) (resumed : Bool) (d : Drive σ)
    (content : τ) :
    (¬ r.Undeleted id resumed d content ∧ ∃ e, (r.settle id resumed d content).terminal = some e ∧
      e.kind = announcementOf (r.settle id resumed d content).result) ∨
    (r.Undeleted id resumed d content ∧ (r.settle id resumed d content).terminal = none ∧
      ∃ source, (r.settle id resumed d content).result = .error (.store source)) := by
  unfold Undeleted settle
  cases d.ending with
  | completed =>
    cases resumed with
    | false => exact .inl ⟨by simp, _, rfl, rfl⟩
    | true =>
      dsimp only
      rw [if_pos rfl]
      generalize r.store.delete id content = deleted
      obtain ⟨answer, content'⟩ := deleted
      cases answer with
      | error source => exact .inr ⟨⟨rfl, rfl, source, rfl⟩, rfl, source, rfl⟩
      | ok b => exact .inl ⟨by simp, _, rfl, rfl⟩
  | suspended c =>
    dsimp only
    generalize r.store.save c content = saved
    obtain ⟨answer, content'⟩ := saved
    cases answer with
    | error source => exact .inl ⟨by simp, _, rfl, rfl⟩
    | ok u => exact .inl ⟨by simp, _, rfl, rfl⟩
  | failed error => exact .inl ⟨by simp, _, rfl, rfl⟩

/-! ## Calls -/

theorem Runner.announced_or_silent_callOf (r : Runner τ) (w : Workflow σ) (id : String)
    (resumed : Bool) (startData : Json) (p : Progress) (frontier : NameSet) (memory : σ)
    (content : τ) :
    let d := w.drive id r.now r.maxSteps p frontier memory
    let call := r.callOf w id resumed startData p frontier memory content
    (¬ r.Undeleted id resumed d content ∧ call.Announced) ∨
      (r.Undeleted id resumed d content ∧ call.Silent) := by
  intro d call
  have hstream := r.stream_callOf w id resumed startData p frontier memory content
  rcases r.terminal_settle id resumed d content with
    ⟨hdeleted, e, hterminal, hkind⟩ | ⟨hundeleted, hterminal, hresult⟩
  · left
    dsimp only at hstream
    rw [hterminal] at hstream
    exact ⟨hdeleted, Call.announced_of_concat hstream isTerminal_ongoingEvents hkind⟩
  · right
    dsimp only at hstream
    rw [hterminal, Option.toList_none, List.append_nil] at hstream
    refine ⟨hundeleted, ?_, hresult⟩
    rw [hstream]
    exact isTerminal_ongoingEvents

/-- A request to resume a run whose checkpoint is found, whose drive completes, and whose checkpoint
the store then refuses to delete. -/
def Runner.DeletionRefused (r : Runner τ) (w : Workflow σ) (id : String) (q : Request) (memory : σ)
    (content : τ) : Prop :=
  ∃ input c, q = .resume input ∧ (r.store.load id content).1 = .ok (some c) ∧
    r.Undeleted id true (w.drive id r.now r.maxSteps (resumePoint c input) c.frontier memory)
      (r.store.load id content).2

theorem Runner.announced_or_silent (r : Runner τ) (w : Workflow σ) (id : String) (q : Request)
    (memory : σ) (content : τ) :
    (¬ r.DeletionRefused w id q memory content ∧ (r.answer w id q memory content).Announced) ∨
      (r.DeletionRefused w id q memory content ∧ (r.answer w id q memory content).Silent) := by
  cases q with
  | start initial =>
    rcases r.announced_or_silent_callOf w id false _ _ _ memory content with
      ⟨-, hannounced⟩ | ⟨hundeleted, -⟩
    · refine .inl ⟨?_, hannounced⟩
      rintro ⟨input, c, hq, -⟩
      cases hq
    · cases hundeleted.1
  | resume input =>
    show (_ ∧ (r.resume w id input memory content).Announced) ∨
      (_ ∧ (r.resume w id input memory content).Silent)
    by_cases hload : ∃ c, (r.store.load id content).1 = .ok (some c)
    · obtain ⟨c, hload⟩ := hload
      rw [resume_eq hload]
      rcases r.announced_or_silent_callOf w id true _ _ _ memory (r.store.load id content).2 with
        ⟨hdeleted, hannounced⟩ | ⟨hundeleted, hsilent⟩
      · refine .inl ⟨?_, hannounced⟩
        rintro ⟨input', c', hq, hload', hundeleted⟩
        cases hq
        rw [hload] at hload'
        cases hload'
        exact hdeleted hundeleted
      · exact .inr ⟨⟨input, c, rfl, hload, hundeleted⟩, hsilent⟩
    · left
      refine ⟨fun hrefused => ?_, ?_⟩
      · obtain ⟨input', c, -, hfound, -⟩ := hrefused
        exact hload ⟨c, hfound⟩
      · obtain ⟨error, -, hrefused⟩ := resume_eq_refused (not_exists.1 hload) input memory (w := w)
        rw [hrefused]
        exact Call.announced_of_concat (List.nil_append _).symm (List.forall_mem_nil _) rfl

/-- A call ends with its one terminal event, of the kind that the result asks for, unless it is a
resume that completes the run and may not delete the checkpoint.  That one returns the store's error
and has no terminal event. -/
theorem Runner.announced_iff (r : Runner τ) (w : Workflow σ) (id : String) (q : Request) (memory : σ)
    (content : τ) :
    ((r.answer w id q memory content).Announced ↔ ¬ r.DeletionRefused w id q memory content) ∧
      (r.DeletionRefused w id q memory content → (r.answer w id q memory content).Silent) := by
  rcases r.announced_or_silent w id q memory content with
    ⟨hdeleted, hannounced⟩ | ⟨hrefused, hsilent⟩
  · exact ⟨iff_of_true hannounced hdeleted, fun hrefused => absurd hrefused hdeleted⟩
  · exact ⟨iff_of_false hsilent.not_announced (not_not_intro hrefused), fun _ => hsilent⟩

/-! ## A resume that ends in silence -/

/-- The question is answered and its run completes, but no event says that the checkpoint stays. -/
theorem not_announced_questionRefused :
    question.compile Registry.idle.counted = .ok questionCounted ∧
      questionRefused.stream.map (·.kind) = [.start, .progress, .progress] ∧
      questionRefused.result = .error (.store (.other "refused")) ∧ ¬ questionRefused.Announced := by
  have hkinds : questionRefused.stream.map (·.kind) = [.start, .progress, .progress] := by
    decide +kernel
  have hresult : questionRefused.result = .error (.store (.other "refused")) := by decide +kernel
  refine ⟨Graph.compile_of_plan (by decide +kernel) rfl, hkinds, hresult, ?_⟩
  have hsilent : questionRefused.Silent := by
    refine ⟨fun e he => ?_, _, hresult⟩
    have hkind : e.kind ∈ questionRefused.stream.map (·.kind) := List.mem_map_of_mem he
    rw [hkinds] at hkind
    simp only [List.mem_cons, List.not_mem_nil, or_false, or_self] at hkind
    rcases hkind with hkind | hkind
    · rw [hkind]
      rfl
    · rw [hkind]
      rfl
  exact hsilent.not_announced

end Flowgraph
