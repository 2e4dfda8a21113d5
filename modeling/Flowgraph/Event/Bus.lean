import Flowgraph.Event.Basic

/-!
# The event bus

Published events wait in a queue while nobody listens.  A listening bus delivers
them to all its sinks in the order they were published, and stopping it delivers
what still waits.  A sink that fails keeps no other sink from its events.
-/

namespace Flowgraph

/-- Where events are delivered to. -/
inductive Sink where
  /-- Keeps every event. -/
  | memory (log : List Event)
  /-- Hands events on to a receiver, which may be gone. -/
  | channel (received : List Event) (isOpen : Bool)
  /-- Fails on every event. -/
  | failing
deriving DecidableEq

namespace Sink

/-- The sink after it was handed an event; none where it fails. -/
def handle? (e : Event) : Sink → Option Sink
  | memory log => some (memory (log ++ [e]))
  | channel received true => some (channel (received ++ [e]) true)
  | channel _ false => none
  | failing => none

/-- A sink that fails stays as it is. -/
def handle (e : Event) (s : Sink) : Sink := (s.handle? e).getD s

/-- The events of the lifecycle of runs, in the order they arrived. -/
def runEvents : Sink → List RunEvent
  | memory log => log.filterMap Event.run?
  | _ => []

/-- Forgets what a memory sink has kept. -/
def clear : Sink → Sink
  | memory _ => memory []
  | s => s

/-- Takes out what a receiver has been handed. -/
def drain : Sink → List Event × Sink
  | channel received isOpen => (received, channel [] isOpen)
  | s => ([], s)

end Sink

structure Bus where
  queue : List Event := []
  sinks : List Sink := []
  listening : Bool := false
deriving DecidableEq

namespace Bus

def publish (b : Bus) (e : Event) : Bus := { b with queue := b.queue ++ [e] }

def addSink (b : Bus) (s : Sink) : Bus := { b with sinks := b.sinks ++ [s] }

def listen (b : Bus) : Bus := { b with listening := true }

/-- Hands one event to every sink. -/
def dispatch (e : Event) (sinks : List Sink) : List Sink := sinks.map (·.handle e)

/-- Delivers the first event that waits, if the bus is listening. -/
def deliver (b : Bus) : Bus :=
  match b.listening, b.queue with
  | true, e :: queue => { b with queue, sinks := dispatch e b.sinks }
  | _, _ => b

/-- Delivers what waits and stops listening; a bus that is not listening stays as it is. -/
def stop (b : Bus) : Bus :=
  if b.listening then
    { queue := [], sinks := b.queue.foldl (fun sinks e => dispatch e sinks) b.sinks,
      listening := false }
  else b

end Bus

end Flowgraph
