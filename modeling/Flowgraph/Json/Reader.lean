import Flowgraph.Json.Basic
import Flowgraph.Number.Scaled

/-!
# Reading JSON text

Texts are read strictly: no byte-order mark, no trailing comma, no raw control in
a string, no lone surrogate escape, nothing but blanks after the value, and at
most 127 arrays and objects inside one another.  Of the fields of one key the last
one counts, and the fields of an object that is read ascend by key.
-/

namespace Flowgraph.Json

def isLayout (c : Char) : Bool := c == ' ' || c == '\t' || c == '\n' || c == '\r'

def skipLayout (cs : List Char) : List Char := cs.dropWhile isLayout

/-! ## Strings -/

def hexDigit? (c : Char) : Option Nat :=
  if '0' ≤ c ∧ c ≤ '9' then some (c.toNat - '0'.toNat)
  else if 'a' ≤ c ∧ c ≤ 'f' then some (c.toNat - 'a'.toNat + 10)
  else if 'A' ≤ c ∧ c ≤ 'F' then some (c.toNat - 'A'.toNat + 10)
  else none

/-- The number of four hexadecimal digits. -/
def hexUnit? (a b c d : Char) : Option Nat := do
  let a ← hexDigit? a
  let b ← hexDigit? b
  let c ← hexDigit? c
  let d ← hexDigit? d
  return ((a * 16 + b) * 16 + c) * 16 + d

/-- The character that a one-letter escape stands for. -/
def shortEscape? : Char → Option Char
  | '"' => some '"'
  | '\\' => some '\\'
  | '/' => some '/'
  | 'b' => some '\x08'
  | 'f' => some '\x0c'
  | 'n' => some '\n'
  | 'r' => some '\r'
  | 't' => some '\t'
  | _ => none

def isHighSurrogate (u : Nat) : Bool := 0xD800 ≤ u && u ≤ 0xDBFF
def isLowSurrogate (u : Nat) : Bool := 0xDC00 ≤ u && u ≤ 0xDFFF

/-- The character of a surrogate pair. -/
def pairChar (high low : Nat) : Char :=
  Char.ofNat (0x10000 + (high - 0xD800) * 0x400 + (low - 0xDC00))

/-- A part of a string: a character, or a 16-bit unit written by its number. -/
inductive StringPart where
  | char (c : Char)
  | unit (u : Nat)

/-- The parts of a string up to its closing quote, and what follows the quote. -/
def readParts : List Char → Option (List StringPart × List Char)
  | '"' :: rest => some ([], rest)
  | '\\' :: 'u' :: a :: b :: c :: d :: rest => do
    let u ← hexUnit? a b c d
    let (ps, rest) ← readParts rest
    return (.unit u :: ps, rest)
  | '\\' :: c :: rest => do
    let e ← shortEscape? c
    let (ps, rest) ← readParts rest
    return (.char e :: ps, rest)
  | c :: rest =>
    if c.toNat < 0x20 ∨ c = '\\' then none
    else do
      let (ps, rest) ← readParts rest
      return (.char c :: ps, rest)
  | [] => none

/-- The characters that parts make up; a high surrogate stands before a low one, and only so. -/
def joinParts : List StringPart → Option (List Char)
  | [] => some []
  | .char c :: ps => do return c :: (← joinParts ps)
  | .unit u :: ps =>
    if isHighSurrogate u then
      match ps with
      | .unit w :: ps =>
        if isLowSurrogate w then do return pairChar u w :: (← joinParts ps) else none
      | _ => none
    else if isLowSurrogate u then none
    else do return Char.ofNat u :: (← joinParts ps)

/-- The characters of a string up to its closing quote, and what follows the quote. -/
def readString (cs : List Char) : Option (List Char × List Char) := do
  let (ps, rest) ← readParts cs
  let s ← joinParts ps
  return (s, rest)

/-! ## Numbers -/

/-- The whole part of a numeral: `0`, or digits of which the first is not `0`. -/
def readWhole (cs : List Char) : Option (List Char × List Char) :=
  match Decimal.spanDigits cs with
  | ([], _) => none
  | (ds, rest) => if ds.head? = some '0' ∧ ds.length ≠ 1 then none else some (ds, rest)

/-- The digits after a point; without a point there are none, and a point needs some. -/
def readFraction : List Char → Option (Option (List Char) × List Char)
  | '.' :: cs =>
    match Decimal.spanDigits cs with
    | ([], _) => none
    | (ds, rest) => some (some ds, rest)
  | cs => some (none, cs)

def opensExponent (cs : List Char) : Bool :=
  match cs with
  | c :: _ => c == 'e' || c == 'E'
  | [] => false

/-- The number of a numeral: whole where it is written without point and exponent, is not `-0`
and fits a word; otherwise the double that its leading digits come to in steps, which need not be
the nearest one, and none where that is infinite. -/
def numberOf (neg : Bool) (before : List Char) (after : Option (List Char)) (mark : Bool)
    (exponent : Int) : Option Number :=
  let n := Decimal.valueOf before
  let plain := after = none ∧ mark = false ∧ ¬ (neg = true ∧ n = 0)
  match (if plain then Whole.ofInt? (if neg then -(n : Int) else n) else none) with
  | some w => some (.whole w)
  | none =>
    let x := Double.scaled (.ofLeading neg before (after.getD []) exponent)
    if h : x.isFinite then some (.real x h) else none

def readNumber (cs : List Char) : Option (Number × List Char) := do
  let (neg, cs) := match cs with
    | '-' :: cs => (true, cs)
    | cs => (false, cs)
  let (before, cs) ← readWhole cs
  let (after, cs) ← readFraction cs
  let (exponent, rest) ← Decimal.readExponent cs
  let n ← numberOf neg before after (opensExponent cs) exponent
  return (n, rest)

/-! ## Values -/

/-- The items after one item of an array, up to its closing bracket.  The first argument bounds
the number of items and need be no more than the length of the text. -/
def readItems (value : List Char → Option (Json × List Char)) :
    Nat → List Char → Option (List Json × List Char)
  | 0, _ => none
  | n + 1, cs =>
    match skipLayout cs with
    | ']' :: rest => some ([], rest)
    | ',' :: rest => do
      let (v, rest) ← value rest
      let (vs, rest) ← readItems value n rest
      return (v :: vs, rest)
    | _ => none

/-- A key, a colon and a value. -/
def readField (value : List Char → Option (Json × List Char)) (cs : List Char) :
    Option ((String × Json) × List Char) :=
  match skipLayout cs with
  | '"' :: rest => do
    let (key, rest) ← readString rest
    match skipLayout rest with
    | ':' :: rest => do
      let (v, rest) ← value rest
      return ((String.ofList key, v), rest)
    | _ => none
  | _ => none

/-- The fields after one field of an object, up to its closing brace. -/
def readFields (value : List Char → Option (Json × List Char)) :
    Nat → List Char → Option (Fields × List Char)
  | 0, _ => none
  | n + 1, cs =>
    match skipLayout cs with
    | '\x7d' :: rest => some ([], rest)
    | ',' :: rest => do
      let (f, rest) ← readField value rest
      let (fs, rest) ← readFields value n rest
      return (f :: fs, rest)
    | _ => none

/-- What stands after an opening bracket. -/
def readArray (value : List Char → Option (Json × List Char)) (cs : List Char) :
    Option (Json × List Char) :=
  match skipLayout cs with
  | ']' :: rest => some (.arr [], rest)
  | _ => do
    let (v, rest) ← value cs
    let (vs, rest) ← readItems value (rest.length + 1) rest
    return (.arr (v :: vs), rest)

/-- What stands after an opening brace. -/
def readObject (value : List Char → Option (Json × List Char)) (cs : List Char) :
    Option (Json × List Char) :=
  match skipLayout cs with
  | '\x7d' :: rest => some (.obj [], rest)
  | _ => do
    let (f, rest) ← readField value cs
    let (fs, rest) ← readFields value (rest.length + 1) rest
    return (object (f :: fs), rest)

/-- A value that is no array and no object. -/
def readScalar : List Char → Option (Json × List Char)
  | 'n' :: 'u' :: 'l' :: 'l' :: rest => some (.null, rest)
  | 't' :: 'r' :: 'u' :: 'e' :: rest => some (.bool true, rest)
  | 'f' :: 'a' :: 'l' :: 's' :: 'e' :: rest => some (.bool false, rest)
  | '"' :: rest => do
    let (s, rest) ← readString rest
    return (.str (String.ofList s), rest)
  | cs => do
    let (n, rest) ← readNumber cs
    return (.num n, rest)

/-- A value with at most `depth` arrays and objects inside one another. -/
def readValue : (depth : Nat) → List Char → Option (Json × List Char)
  | 0, cs =>
    match skipLayout cs with
    | '[' :: _ => none
    | '\x7b' :: _ => none
    | cs => readScalar cs
  | depth + 1, cs =>
    match skipLayout cs with
    | '[' :: rest => readArray (readValue depth) rest
    | '\x7b' :: rest => readObject (readValue depth) rest
    | cs => readScalar cs

/-- How many arrays and objects may stand inside one another. -/
def depthLimit : Nat := 127

/-- The value that a whole text denotes. -/
def ofText? (cs : List Char) : Option Json := do
  let (v, rest) ← readValue depthLimit cs
  if skipLayout rest = [] then some v else none

/-- The value that a whole text denotes. -/
def ofString? (s : String) : Option Json := ofText? s.toList

end Flowgraph.Json
