import Flowgraph.Number.Decimal
import Flowgraph.Text.Blank

/-!
# Points in time

Instants in universal time by their calendar parts, down to the nanosecond.  They
are written with the fewest fraction digits of none, 3, 6 and 9 that are exact, and
read with any offset from universal time; blanks between the parts, single digits
and a blank in place of the `T` are allowed.
-/

namespace Flowgraph

def isLeapYear (y : Int) : Bool := (y % 4 == 0 && y % 100 != 0) || y % 400 == 0

def daysInMonth (y : Int) (m : Nat) : Nat :=
  if m = 2 then (if isLeapYear y then 29 else 28)
  else if m = 4 ∨ m = 6 ∨ m = 9 ∨ m = 11 then 30
  else 31

/-- An instant in universal time; the second 60 is a leap second. -/
structure Timestamp where
  year : Int
  month : Nat
  day : Nat
  hour : Nat
  minute : Nat
  second : Nat
  nano : Nat
  valid : (-262143 ≤ year ∧ year ≤ 262142) ∧ (1 ≤ month ∧ month ≤ 12) ∧
    (1 ≤ day ∧ day ≤ daysInMonth year month) ∧ hour < 24 ∧ minute < 60 ∧ second ≤ 60 ∧
    nano < 1000000000
deriving DecidableEq

namespace Timestamp

def ofParts? (year : Int) (month day hour minute second nano : Nat) : Option Timestamp :=
  if h : _ then some ⟨year, month, day, hour, minute, second, nano, h⟩ else none

/-- The first instant of the year 1970. -/
def epoch : Timestamp := ⟨1970, 1, 1, 0, 0, 0, 0, by decide⟩

/-! ## Writing -/

/-- A number in digits, padded with zeros to a width. -/
def padded (width n : Nat) : List Char :=
  let ds := Decimal.digitsOf n
  List.replicate (width - ds.length) '0' ++ ds

/-- Years beyond four digits carry a sign. -/
def yearText (y : Int) : List Char :=
  if 0 ≤ y ∧ y ≤ 9999 then padded 4 y.toNat
  else (if y < 0 then '-' else '+') :: padded 4 y.natAbs

def fractionText (nano : Nat) : List Char :=
  if nano = 0 then []
  else if nano % 1000000 = 0 then '.' :: padded 3 (nano / 1000000)
  else if nano % 1000 = 0 then '.' :: padded 6 (nano / 1000)
  else '.' :: padded 9 nano

/-- The text of an instant before its offset. -/
def localText (t : Timestamp) : List Char :=
  yearText t.year ++ '-' :: padded 2 t.month ++ '-' :: padded 2 t.day ++ 'T' :: padded 2 t.hour ++
    ':' :: padded 2 t.minute ++ ':' :: padded 2 t.second ++ fractionText t.nano

/-- The text with the offset spelled `Z`. -/
def text (t : Timestamp) : String := String.ofList (t.localText ++ ['Z'])

/-- The text with the offset spelled `+00:00`. -/
def offsetText (t : Timestamp) : String :=
  String.ofList (t.localText ++ ['+', '0', '0', ':', '0', '0'])

/-! ## Reading -/

/-- A number of one to `width` digits, blanks before it aside. -/
def readNumber (width : Nat) (cs : List Char) : Option (Nat × List Char) :=
  let cs := Text.trimStart cs
  match (cs.take width).takeWhile Char.isDigit with
  | [] => none
  | ds => some (Decimal.valueOf ds, cs.drop ds.length)

/-- A year of up to four digits, or a signed one of any length. -/
def readYear (cs : List Char) : Option (Int × List Char) :=
  match Text.trimStart cs with
  | '-' :: cs => match Decimal.spanDigits cs with
    | ([], _) => none
    | (ds, rest) => some (-(Decimal.valueOf ds : Int), rest)
  | '+' :: cs => match Decimal.spanDigits cs with
    | ([], _) => none
    | (ds, rest) => some (Decimal.valueOf ds, rest)
  | cs => do
    let (n, rest) ← readNumber 4 cs
    return (n, rest)

/-- A mark, blanks before it aside. -/
def readMark (mark : Char) (cs : List Char) : Option (List Char) :=
  match Text.trimStart cs with
  | c :: rest => if c = mark then some rest else none
  | [] => none

/-- The nanoseconds after a point; digits beyond the ninth are dropped. -/
def readNanos : List Char → Option (Nat × List Char)
  | '.' :: cs =>
    match Decimal.spanDigits cs with
    | ([], _) => none
    | (ds, rest) =>
      let ds := ds.take 9
      some (Decimal.valueOf ds * Nat.pow 10 (9 - ds.length), rest)
  | cs => some (0, cs)

/-- Two digits. -/
def readPair : List Char → Option (Nat × List Char)
  | a :: b :: rest =>
    if a.isDigit ∧ b.isDigit then some (Decimal.valueOf [a, b], rest) else none
  | _ => none

/-- An offset in minutes: the name or letter of universal time, or signed hours and minutes. -/
def readOffset (cs : List Char) : Option (Int × List Char) :=
  match cs with
  | a :: rest =>
    if (cs.take 3).map Char.toLower = ['u', 't', 'c'] then some (0, cs.drop 3)
    else if a = 'Z' ∨ a = 'z' then some (0, rest)
    else if a = '+' ∨ a = '-' ∨ a = '−' then do
      let (hours, rest) ← readPair rest
      let (minutes, rest) ← readPair (rest.dropWhile fun c => c == ':' || Text.isBlank c)
      if minutes < 60 ∧ hours < 24 then
        let offset : Int := hours * 60 + minutes
        return (if a = '+' then offset else -offset, rest)
      else none
    else none
  | [] => none

/-! ## Offsets -/

def nextDay (y : Int) (m d : Nat) : Int × Nat × Nat :=
  if d < daysInMonth y m then (y, m, d + 1)
  else if m < 12 then (y, m + 1, 1)
  else (y + 1, 1, 1)

def previousDay (y : Int) (m d : Nat) : Int × Nat × Nat :=
  if 1 < d then (y, m, d - 1)
  else if 1 < m then (y, m - 1, daysInMonth y (m - 1))
  else (y - 1, 12, 31)

/-- The instant that is so many minutes, less than a day, earlier. -/
def earlier? (t : Timestamp) (minutes : Int) : Option Timestamp :=
  let m : Int := t.hour * 60 + t.minute - minutes
  let (year, month, day) :=
    if m < 0 then previousDay t.year t.month t.day
    else if 1440 ≤ m then nextDay t.year t.month t.day
    else (t.year, t.month, t.day)
  let m := (m % 1440).toNat
  ofParts? year month day (m / 60) (m % 60) t.second t.nano

/-- The instant that a whole text denotes. -/
def ofText? (cs : List Char) : Option Timestamp := do
  let (year, cs) ← readYear cs
  let cs ← readMark '-' cs
  let (month, cs) ← readNumber 2 cs
  let cs ← readMark '-' cs
  let (day, cs) ← readNumber 2 cs
  let cs ← match cs with
    | c :: cs => if c = 'T' ∨ c = 't' ∨ c = ' ' then some cs else none
    | [] => none
  let (hour, cs) ← readNumber 2 cs
  let cs ← readMark ':' cs
  let (minute, cs) ← readNumber 2 cs
  let cs ← readMark ':' cs
  let (second, cs) ← readNumber 2 cs
  let (nano, cs) ← readNanos cs
  let (offset, cs) ← readOffset (Text.trimStart cs)
  if Text.trimStart cs = [] then
    (← ofParts? year month day hour minute second nano).earlier? offset
  else none

def ofString? (s : String) : Option Timestamp := ofText? s.toList

end Timestamp

end Flowgraph
