import Flowgraph.Json.Compact
import Flowgraph.Text.Quoted

/-!
# Reading typed values

A decoder reads a typed value from a JSON value and names the first thing that is
wrong.  A record is read from an object, whose fields are visited in their order
and of which unknown ones are ignored, or from an array of its fields in the order
of their declaration.
-/

namespace Flowgraph

/-- Why a value is no typed value. -/
inductive DecodeError where
  | invalidType (found : Json) (expected : String)
  | invalidValue (found : Json) (expected : String)
  | missingField (name : String)
  | duplicateField (name : String)
  | invalidLength (length : Nat) (expected : String)
deriving DecidableEq

/-- A value as messages show what was found. -/
def Json.found : Json → String
  | .null => "null"
  | .bool b => "boolean `" ++ (Json.bool b).compact ++ "`"
  | .num (.whole n) => "integer `" ++ (Json.num (.whole n)).compact ++ "`"
  | .num n => "floating point `" ++ (Json.num n).compact ++ "`"
  | .str s => "string " ++ Text.quoted s
  | .arr _ => "sequence"
  | .obj _ => "map"

def DecodeError.message : DecodeError → String
  | invalidType found expected => "invalid type: " ++ found.found ++ ", expected " ++ expected
  | invalidValue found expected => "invalid value: " ++ found.found ++ ", expected " ++ expected
  | missingField name => "missing field `" ++ name ++ "`"
  | duplicateField name => "duplicate field `" ++ name ++ "`"
  | invalidLength length expected =>
    "invalid length " ++ toString length ++ ", expected " ++ expected

abbrev Decoder (α : Type) := Json → Except DecodeError α

namespace Decoder

/-! ## Plain values -/

def text : Decoder String
  | .str s => .ok s
  | v => .error (.invalidType v "a string")

def flag : Decoder Bool
  | .bool b => .ok b
  | v => .error (.invalidType v "a boolean")

def word : Decoder UInt64
  | .num n =>
    match n.word? with
    | some w => .ok w
    | none => .error (.invalidValue (.num n) "u64")
  | v => .error (.invalidType v "u64")

def fields : Decoder Fields
  | .obj fields => .ok fields
  | v => .error (.invalidType v "a map")

def items {α : Type} (item : Decoder α) : Decoder (List α)
  | .arr items => items.mapM item
  | v => .error (.invalidType v "a sequence")

/-- Null stands for an absent value. -/
def optional {α : Type} (value : Decoder α) : Decoder (Option α)
  | .null => .ok none
  | v => (value v).map some

/-! ## Records -/

/-- A record being read: what its fields gave so far, and how a field that is still missing is
reported. -/
structure Draft (δ : Type) where
  value : δ
  missing : String → DecodeError

/-- The declared field that a key spells. -/
def declared? (spellings : List (List String)) (key : String) : Option String :=
  (spellings.find? (key ∈ ·)).bind List.head?

/-- The fields of an object, in their order. -/
def visitFields {δ : Type} (spellings : List (List String))
    (visit : δ → String → Json → Except DecodeError δ) :
    (seen : List String) → δ → Fields → Except DecodeError δ
  | _, d, [] => .ok d
  | seen, d, (key, v) :: rest =>
    match declared? spellings key with
    | none => visitFields spellings visit seen d rest
    | some name =>
      if name ∈ seen then .error (.duplicateField name)
      else match visit d name v with
        | .error e => .error e
        | .ok d => visitFields spellings visit (name :: seen) d rest

/-- The fields of an array, in the order of their declaration. -/
def visitItems {δ : Type} (visit : δ → String → Json → Except DecodeError δ) :
    δ → List String → List Json → Except DecodeError δ
  | d, name :: names, v :: vs =>
    match visit d name v with
    | .error e => .error e
    | .ok d => visitItems visit d names vs
  | d, _, _ => .ok d

/-- The number of elements in words. -/
def elements (n : Nat) : String := toString n ++ (if n = 1 then " element" else " elements")

/-- Reads a record.  `what` names it, `spellings` lists its fields with the spellings of each, and
`visit` adds the value of one field. -/
def record {δ : Type} (what : String) (spellings : List (List String)) (start : δ)
    (visit : δ → String → Json → Except DecodeError δ) : Decoder (Draft δ)
  | .obj fields =>
    (visitFields spellings visit [] start fields).map fun d => ⟨d, .missingField⟩
  | .arr items => do
    let d ← visitItems visit start (spellings.filterMap List.head?) items
    if spellings.length < items.length then
      .error (.invalidLength items.length "fewer elements in array")
    else
      .ok ⟨d, fun _ => .invalidLength items.length (what ++ " with " ++ elements spellings.length)⟩
  | v => .error (.invalidType v what)

/-- The value of a field that a record cannot do without. -/
def Draft.require {δ α : Type} (d : Draft δ) (name : String) (value : δ → Option α) :
    Except DecodeError α :=
  match value d.value with
  | some a => .ok a
  | none => .error (d.missing name)

end Decoder

end Flowgraph
