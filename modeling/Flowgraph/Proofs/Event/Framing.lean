import Flowgraph.Event.Format
import Flowgraph.Proofs.Json.Inline

/-!
# Frames and lines of events

The text of an event stays on its line, whatever the event carries.  So a stream of frames, read line by
line and cut at the blank lines, gives one frame for each event, a single line with the text of the event
behind `data: `; and a log of JSON lines has one line for each, with its text:

    frames (String.join (events.map RunEvent.frame)).toList =
      events.map fun e => ["data: ".toList ++ e.toJson.text]                                (framed)
-/

namespace Flowgraph

open Text (Inline inline_append_iff inline_cons_iff)

/-! ## Lines and frames -/

namespace EventStream

/-- The lines of a text, and what stands behind its last line break.  A line ends at CR and LF
together, or at one of them. -/
def lines : List Char → List (List Char)
  | [] => [[]]
  | '\r' :: '\n' :: cs => [] :: lines cs
  | c :: cs =>
    if c = '\n' ∨ c = '\r' then [] :: lines cs
    else match lines cs with
      | [] => [[c]]
      | line :: rest => (c :: line) :: rest

/-- What stands between blank lines, line by line. -/
def frames (cs : List Char) : List (List (List Char)) :=
  ((lines cs).splitOn []).filter (!·.isEmpty)

theorem lines_break (cs : List Char) : lines ('\n' :: cs) = [] :: lines cs := by
  rw [lines]
  · rfl
  · exact nofun

theorem lines_cons {c : Char} (hc : 0x20 ≤ c.toNat) {cs line : List Char} {rest : List (List Char)}
    (h : lines cs = line :: rest) : lines (c :: cs) = (c :: line) :: rest := by
  have hbreak : ¬ (c = '\n' ∨ c = '\r') := by
    rintro (rfl | rfl)
    · exact absurd hc (by decide)
    · exact absurd hc (by decide)
  rw [lines, if_neg hbreak, h]
  rintro ds rfl -
  exact hbreak (.inr rfl)

/-- A text that stays on its line is the line up to the next break. -/
theorem lines_inline {cs : List Char} (h : Inline cs) (more : List Char) :
    lines (cs ++ '\n' :: more) = cs :: lines more := by
  induction cs with
  | nil => exact lines_break more
  | cons c cs ih =>
    obtain ⟨hc, hcs⟩ := inline_cons_iff.1 h
    exact lines_cons hc (ih hcs)

/-- A line with a blank line behind it is a frame. -/
theorem frames_line {cs : List Char} (h : Inline cs) (hne : cs ≠ []) (more : List Char) :
    frames (cs ++ '\n' :: '\n' :: more) = [cs] :: frames more := by
  have hcut : (cs :: [] :: lines more).splitOn [] = [cs] :: (lines more).splitOn [] := by
    have hmem : ([] : List Char) ∉ [cs] := by
      simpa using Ne.symm hne
    exact List.splitOn_append_cons_self_of_not_mem hmem (lines more)
  rw [frames, lines_inline h, lines_break, hcut]
  rfl

end EventStream

/-! ## Written events -/

namespace RunEvent

/-- The line that a frame consists of. -/
def dataLine (e : RunEvent) : List Char := "data: ".toList ++ e.toJson.text

theorem inline_dataLine (e : RunEvent) : Inline e.dataLine :=
  inline_append_iff.2 ⟨by decide, e.toJson.inline_text⟩

theorem toList_frame (e : RunEvent) : e.frame.toList = e.dataLine ++ ['\n', '\n'] := by
  rw [frame, String.toList_append, String.toList_append, Json.toList_compact]
  rfl

/-- Frames one behind the other, whatever the events carry, are cut where they were put together. -/
theorem frames_join (events : List RunEvent) :
    EventStream.frames (String.join (events.map frame)).toList = events.map fun e => [e.dataLine] := by
  rw [String.toList_join]
  induction events with
  | nil => rfl
  | cons e events ih =>
    rw [List.map_cons, List.flatMap_cons, List.map_cons, toList_frame, List.append_assoc]
    have hframe := EventStream.frames_line e.inline_dataLine (List.cons_ne_nil _ _)
      ((events.map frame).flatMap String.toList)
    exact hframe.trans (congrArg _ ih)

end RunEvent

namespace EventFormat

theorem toList_line_jsonLines (e : Event) :
    (jsonLines.line e).toList = e.toJson.text ++ ['\n'] := by
  rw [line, String.toList_append, Json.toList_compact]
  rfl

theorem lines_join (log : List Event) :
    EventStream.lines (String.join (log.map fun e => jsonLines.line e)).toList =
      log.map (·.toJson.text) ++ [[]] := by
  rw [String.toList_join]
  induction log with
  | nil => rfl
  | cons e log ih =>
    rw [List.map_cons, List.flatMap_cons, List.map_cons, toList_line_jsonLines, List.append_assoc]
    have hline := EventStream.lines_inline e.toJson.inline_text
      ((log.map fun e => jsonLines.line e).flatMap String.toList)
    exact hline.trans (congrArg _ ih)

end EventFormat

/-- **Framing.**  A stream of frames, cut at its blank lines, gives one frame for each event in order, a
single line with the text of the event behind `data: `.  No line break stands in that text, whatever the
event carries; and in a log of JSON lines every event is one line that holds its text. -/
theorem EventStream.framed (events : List RunEvent) (log : List Event) :
    EventStream.frames (String.join (events.map RunEvent.frame)).toList =
        events.map (fun e => ["data: ".toList ++ e.toJson.text]) ∧
      (∀ e : Event, '\n' ∉ e.toJson.compact.toList ∧ '\r' ∉ e.toJson.compact.toList) ∧
      (∀ e : Event, (EventFormat.jsonLines.render e).lines = [e.toJson.compact ++ "\n"]) ∧
      EventStream.lines (String.join (log.map fun e => EventFormat.jsonLines.line e)).toList =
        log.map (·.toJson.text) ++ [[]] := by
  refine ⟨RunEvent.frames_join events, fun e => ?_, fun _ => rfl, EventFormat.lines_join log⟩
  rw [Json.toList_compact]
  exact e.toJson.inline_text.break_not_mem

end Flowgraph
