import Flowgraph.Event.Bus

/-!
# What the event bus delivers

The bus is taken through its steps in any order: publishing, adding sinks,
listening, delivering one event, stopping.  What one step hands to the sinks and
what still waits make up what was published (`Step.queue`), and a sink takes what
is handed out from the moment it is added (`Step.sinks`).  Over a whole course
from a bus that starts empty:

    Course { sinks } log b → dispatched log ++ b.queue = published log     (Course.queue)
    Course { sinks } log b → b.sinks = (attended sinks log).map received   (Course.sinks)
-/

namespace Flowgraph

/-! ## Sinks -/

namespace Sink

/-- The sink after it was handed some events, one by one. -/
def receive (s : Sink) (es : List Event) : Sink := es.foldl (fun s e => s.handle e) s

@[simp] theorem receive_nil (s : Sink) : s.receive [] = s := rfl

theorem receive_append (s : Sink) (es es' : List Event) :
    s.receive (es ++ es') = (s.receive es).receive es' :=
  List.foldl_append

theorem receive_memory (held es : List Event) :
    (memory held).receive es = memory (held ++ es) := by
  induction es generalizing held with
  | nil => simp
  | cons e es ih =>
    calc (memory held).receive (e :: es) = (memory (held ++ [e])).receive es := rfl
      _ = memory (held ++ e :: es) := by rw [ih, List.append_assoc, List.singleton_append]

theorem receive_channel (received es : List Event) (isOpen : Bool) :
    (channel received isOpen).receive es =
      channel (received ++ if isOpen then es else []) isOpen := by
  induction es generalizing received with
  | nil => simp
  | cons e es ih =>
    cases isOpen with
    | true =>
      calc (channel received true).receive (e :: es)
          = (channel (received ++ [e]) true).receive es := rfl
        _ = channel (received ++ e :: es) true := by simp [ih]
    | false => exact ih received

theorem receive_failing (es : List Event) : failing.receive es = failing := by
  induction es with
  | nil => rfl
  | cons e es ih => exact ih

/-- A sink keeps its sort: only a memory sink comes to be one. -/
theorem receive_eq_memory_iff {s : Sink} {es kept : List Event} :
    s.receive es = memory kept ↔ ∃ held, s = memory held ∧ kept = held ++ es := by
  cases s with
  | memory held => simp [receive_memory, eq_comm]
  | channel received isOpen => simp [receive_channel]
  | failing => simp [receive_failing]

end Sink

namespace Bus

/-! ## Steps -/

/-- What producers, owners and the listener of a bus do. -/
inductive Action where
  | publish (e : Event)
  | addSink (s : Sink)
  | listen
  | deliver
  | stop
deriving DecidableEq

/-- A step of the bus with the events it hands to the sinks.  Only a listening bus
with an event that waits delivers one. -/
inductive Step (b : Bus) : Action → List Event → Bus → Prop where
  | publish (e : Event) : Step b (.publish e) [] (b.publish e)
  | addSink (s : Sink) : Step b (.addSink s) [] (b.addSink s)
  | listen : Step b .listen [] b.listen
  | deliver {e : Event} {queue : List Event} (hl : b.listening = true) (hq : b.queue = e :: queue) :
      Step b .deliver [e] b.deliver
  | stop (hl : b.listening = true) : Step b .stop b.queue b.stop
  | idle (hl : b.listening = false) : Step b .stop [] b.stop

/-- The steps of a course, each with the events it handed out. -/
abbrev Log := List (Action × List Event)

/-- Steps in any order and number; the log grows at its end. -/
inductive Course (start : Bus) : Log → Bus → Prop where
  | refl : Course start [] start
  | step {log : Log} {b b' : Bus} {a : Action} {es : List Event} (hc : Course start log b)
      (hs : b.Step a es b') : Course start (log ++ [(a, es)]) b'

namespace Action

/-- The event an action puts on the queue. -/
def event? : Action → Option Event
  | publish e => some e
  | _ => none

/-- The sink an action adds. -/
def sink? : Action → Option Sink
  | addSink s => some s
  | _ => none

end Action

def published (log : Log) : List Event := log.filterMap (·.1.event?)

def dispatched (log : Log) : List Event := log.flatMap (·.2)

/-- The sinks added, each with what was handed out after it came. -/
def added : Log → List (Sink × List Event)
  | [] => []
  | (a, _) :: log => (a.sink?.map (·, dispatched log)).toList ++ added log

/-- The sinks of a bus in their order, each with what was handed out since it is there. -/
def attended (sinks : List Sink) (log : Log) : List (Sink × List Event) :=
  sinks.map (·, dispatched log) ++ added log

@[simp] theorem published_append (log log' : Log) :
    published (log ++ log') = published log ++ published log' :=
  List.filterMap_append

theorem added_append_singleton (log : Log) (a : Action) (es : List Event) :
    added (log ++ [(a, es)]) =
      (added log).map (fun p => (p.1, p.2 ++ es)) ++ a.sink?.toList.map (·, []) := by
  induction log with
  | nil => cases ha : a.sink? <;> simp [added, dispatched, ha]
  | cons x log ih =>
    obtain ⟨a', es'⟩ := x
    simp only [List.cons_append, added, ih]
    cases a'.sink? <;> simp [dispatched]

theorem attended_append_singleton (sinks : List Sink) (log : Log) (a : Action) (es : List Event) :
    attended sinks (log ++ [(a, es)]) =
      (attended sinks log).map (fun p => (p.1, p.2 ++ es)) ++ a.sink?.toList.map (·, []) := by
  simp [attended, added_append_singleton, dispatched]

/-! ## What one step does -/

/-- Handing out events one after the other reaches every sink with all of them. -/
theorem foldl_dispatch (es : List Event) (sinks : List Sink) :
    es.foldl (fun sinks e => dispatch e sinks) sinks = sinks.map (·.receive es) := by
  induction es generalizing sinks with
  | nil => simp
  | cons e es ih =>
    calc (e :: es).foldl (fun sinks e => dispatch e sinks) sinks
        = (dispatch e sinks).map (·.receive es) := ih (dispatch e sinks)
      _ = sinks.map (·.receive (e :: es)) := List.map_map

namespace Step

variable {b b' : Bus} {a : Action} {es : List Event}

/-- What is handed out comes off the front of the queue, what is published goes to its end. -/
theorem queue (h : b.Step a es b') : b.queue ++ a.event?.toList = es ++ b'.queue := by
  cases h with
  | publish e => rfl
  | addSink s => simp [Action.event?, Bus.addSink]
  | listen => simp [Action.event?, Bus.listen]
  | deliver hl hq => simp [Action.event?, Bus.deliver, hl, hq]
  | stop hl => simp [Action.event?, Bus.stop, hl]
  | idle hl => simp [Action.event?, Bus.stop, hl]

/-- Every sink takes all that is handed out, and an added one comes last with nothing. -/
theorem sinks (h : b.Step a es b') :
    b'.sinks = b.sinks.map (·.receive es) ++ a.sink?.toList := by
  cases h with
  | publish e => simp [Action.sink?, Bus.publish]
  | addSink s => simp [Action.sink?, Bus.addSink]
  | listen => simp [Action.sink?, Bus.listen]
  | deliver hl hq => simp [Action.sink?, Bus.deliver, hl, hq, dispatch, Sink.receive]
  | stop hl => simp [Action.sink?, Bus.stop, hl, foldl_dispatch]
  | idle hl => simp [Action.sink?, Bus.stop, hl]

/-- A stop that ends a listener leaves nothing behind. -/
theorem stopped (h : b.Step .stop es b') (hl : b.listening = true) :
    es = b.queue ∧ b'.queue = [] ∧ b'.listening = false := by
  cases h with
  | stop _ => simp [Bus.stop, hl]
  | idle hl' => simp [hl] at hl'

end Step

/-! ## What a course of steps delivers -/

namespace Course

variable {initial : List Sink} {log : Log} {b : Bus}

theorem queue (h : Course { sinks := initial } log b) : dispatched log ++ b.queue = published log := by
  induction h with
  | refl => rfl
  | @step log b b' a es hc hs ih =>
    calc dispatched (log ++ [(a, es)]) ++ b'.queue
        = dispatched log ++ (es ++ b'.queue) := by simp [dispatched]
      _ = dispatched log ++ b.queue ++ a.event?.toList := by rw [← hs.queue, List.append_assoc]
      _ = published (log ++ [(a, es)]) := by
        rw [ih, published_append]
        cases he : a.event? <;> simp [published, he]

theorem sinks (h : Course { sinks := initial } log b) :
    b.sinks = (attended initial log).map fun p => p.1.receive p.2 := by
  induction h with
  | refl => simp [attended, dispatched, added, Function.comp_def]
  | @step log b b' a es hc hs ih =>
    rw [hs.sinks, ih, attended_append_singleton]
    simp [Function.comp_def, Sink.receive_append]

/-- A bus that starts with an empty queue, whatever is done to it in whatever order,
loses no event, hands out none twice and keeps their order: what it handed out and
what waits are what was published.  A memory sink has kept what was handed out since
it was added, next to whatever other sinks.  A stop that ends a listener leaves
nothing waiting. -/
theorem delivery (h : Course { sinks := initial } log b) :
    dispatched log ++ b.queue = published log ∧
    (∀ (i : Nat) kept, b.sinks[i]? = some (Sink.memory kept) ↔
      ∃ held es, (attended initial log)[i]? = some (Sink.memory held, es) ∧ kept = held ++ es) ∧
    ∀ es b', b.listening = true → b.Step .stop es b' →
      b'.queue = [] ∧ b'.listening = false ∧ dispatched log ++ es = published log := by
  refine ⟨h.queue, fun i kept => ?_, fun es b' hl hs => ?_⟩
  · rw [h.sinks, List.getElem?_map, Option.map_eq_some_iff]
    constructor
    · rintro ⟨⟨s, es⟩, hi, hr⟩
      obtain ⟨held, rfl, rfl⟩ := Sink.receive_eq_memory_iff.1 hr
      exact ⟨held, es, hi, rfl⟩
    · rintro ⟨held, es, hi, rfl⟩
      exact ⟨_, hi, Sink.receive_memory held es⟩
  · obtain ⟨rfl, hq, hl'⟩ := hs.stopped hl
    exact ⟨hq, hl', h.queue⟩

private def tick (k : UInt64) : Event := .node ⟨"p", k, "load", "tick"⟩

/-- A message waits before anyone listens, a sink comes in between, and the bus is
stopped, filled and listened to again, all next to a sink that fails. -/
theorem delivery_of_late_sink :
    ∃ log b, Course { sinks := [.failing, .memory []] } log b ∧
      dispatched log ++ b.queue = [tick 1, tick 2, tick 3, tick 4] ∧
      b.sinks[1]? = some (Sink.memory [tick 1, tick 2, tick 3]) ∧
      b.sinks[2]? = some (Sink.memory [tick 2, tick 3]) ∧
      b.listening = true ∧ b.Step .stop [tick 4] b.stop ∧ b.stop.queue = [] := by
  have h : Course { sinks := [.failing, .memory []] } _ _ :=
    ((((((((Course.refl.step (.publish (tick 1))).step .listen).step (.deliver rfl rfl)).step
      (.publish (tick 2))).step (.addSink (.memory []))).step (.publish (tick 3))).step
      (.stop rfl)).step (.publish (tick 4))).step .listen
  obtain ⟨hqueue, hkept, hstop⟩ := delivery h
  exact ⟨_, _, h, hqueue, (hkept 1 _).2 ⟨[], _, rfl, rfl⟩, (hkept 2 _).2 ⟨[], _, rfl, rfl⟩, rfl,
    .stop rfl, (hstop _ _ rfl (.stop rfl)).1⟩

end Course

end Bus

end Flowgraph
