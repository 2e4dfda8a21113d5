import Flowgraph.Event.Basic

/-!
# Formats of events

An event rendered for a log: plain, in colour, or as a line of JSON.  Every format
gives one line, with the event's label as its context.
-/

namespace Flowgraph

inductive EventFormat where
  | plain
  | coloured
  | jsonLines
deriving DecidableEq

/-- A rendered event. -/
structure Rendering where
  context : String
  lines : List String
deriving DecidableEq

namespace EventFormat

def green : String := "\x1b[32m"
def magenta : String := "\x1b[35m"
def reset : String := "\x1b[0m"

def line (format : EventFormat) (e : Event) : String :=
  match format with
  | plain => "[" ++ e.label ++ "] " ++ e.display ++ "\n"
  | coloured =>
    green ++ "[" ++ e.label ++ "]" ++ reset ++ " " ++ magenta ++ e.display ++ reset ++ "\n"
  | jsonLines => e.toJson.compact ++ "\n"

def render (format : EventFormat) (e : Event) : Rendering := ⟨e.label, [format.line e]⟩

end EventFormat

end Flowgraph
