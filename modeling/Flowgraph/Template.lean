import Flowgraph.Json.Order
import Flowgraph.State.Basic

/-!
# Templates

A placeholder is a dotted path between double braces, with blanks allowed around
the path.  A template is a row of characters and placeholders; rendering replaces
every placeholder by the display form of the value its path denotes in the state,
or by nothing where there is none, and expands no value again.
-/

namespace Flowgraph

namespace Text

/-- An identifier followed by segments of word characters, with dots between them. -/
def isDottedPath (cs : List Char) : Bool :=
  match splitAt '.' cs with
  | (c :: cs) :: rest =>
    isWordStart c && cs.all isWordChar && rest.all fun s => !s.isEmpty && s.all isWordChar
  | _ => false

end Text

namespace Template

/-- A part of a template. -/
inductive Part where
  | char (c : Char)
  | placeholder (path : List Char)
deriving DecidableEq

def isPathChar (c : Char) : Bool := Text.isWordChar c || c == '.'

/-- The path of a placeholder that opens the text, and what follows it. -/
def placeholder? : List Char → Option (List Char × List Char)
  | '\x7b' :: '\x7b' :: cs =>
    let cs := Text.trimStart cs
    let path := cs.takeWhile isPathChar
    match Text.isDottedPath path, Text.trimStart (cs.dropWhile isPathChar) with
    | true, '\x7d' :: '\x7d' :: rest => some (path, rest)
    | _, _ => none
  | _ => none

/-- The parts of a text after its first `skip` characters. -/
def partsFrom : (skip : Nat) → List Char → List Part
  | _, [] => []
  | skip + 1, _ :: cs => partsFrom skip cs
  | 0, c :: cs =>
    match placeholder? (c :: cs) with
    | some (path, rest) => .placeholder path :: partsFrom (cs.length - rest.length) cs
    | none => .char c :: partsFrom 0 cs

/-- The parts of a template, from left to right. -/
def parts (cs : List Char) : List Part := partsFrom 0 cs

/-- Skipping characters is dropping them. -/
theorem partsFrom_eq_parts_drop (skip : Nat) (cs : List Char) :
    partsFrom skip cs = parts (cs.drop skip) := by
  induction cs generalizing skip with
  | nil => cases skip <;> simp [parts, partsFrom]
  | cons c cs ih =>
    cases skip with
    | zero => rfl
    | succ skip => simpa [partsFrom] using ih skip

/-- The path without a leading `state.`, if it has one. -/
def afterState? : List Char → Option (List Char)
  | 's' :: 't' :: 'a' :: 't' :: 'e' :: '.' :: path => some path
  | _ => none

/-- The value of a path: the state's own, or else that of the path after a leading `state.`. -/
def lookup (s : State) (path : List Char) : Option Json :=
  (s.atPath? (String.ofList path)).or
    ((afterState? path).bind fun p => s.atPath? (String.ofList p))

def renderPart (s : State) : Part → List Char
  | .char c => [c]
  | .placeholder path => ((lookup s path).map Json.display).getD []

/-- The text of a template in a state. -/
def render (s : State) (cs : List Char) : List Char := (parts cs).flatMap (renderPart s)

/-- The text of a template in a state. -/
def renderString (s : State) (t : String) : String := String.ofList (render s t.toList)

/-- A string that is one placeholder, blanks around it aside, becomes the value itself; other
strings are rendered. -/
def renderLeaf (s : State) (t : String) : Json :=
  match parts (Text.trim t.toList) with
  | [.placeholder path] =>
    match lookup s path with
    | some v => v
    | none => .str (renderString s t)
  | _ => .str (renderString s t)

mutual

/-- A value with every string in it rendered; keys stand as they are. -/
def renderValue (s : State) : Json → Json
  | .str t => renderLeaf s t
  | .arr items => .arr (renderItems s items)
  | .obj fields => .obj (renderFields s fields)
  | v => v

def renderItems (s : State) : List Json → List Json
  | [] => []
  | v :: vs => renderValue s v :: renderItems s vs

def renderFields (s : State) : Fields → Fields
  | [] => []
  | (k, v) :: fs => (k, renderValue s v) :: renderFields s fs

end

/-- The name at the head of a path, after an optional leading `state.`. -/
def root (path : List Char) : String :=
  String.ofList (((afterState? path).getD path).takeWhile (· != '.'))

/-- The names that a template refers to. -/
def roots (cs : List Char) : NameSet :=
  NameSet.ofList ((parts cs).filterMap fun
    | .char _ => none
    | .placeholder path => some (root path))

end Template

end Flowgraph
