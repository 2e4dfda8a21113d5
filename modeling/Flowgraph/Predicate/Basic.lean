import Flowgraph.Json.Reader
import Flowgraph.Template

/-!
# Predicates

A predicate is an operand, or two operands with a comparison between them.  An
operand is a literal or a path into the state: quoted text, `True`, `False` or
`None`, JSON text, `state` with accessors, or a dotted path, tried in this order.
-/

namespace Flowgraph.Predicate

inductive Operator where
  | eq | ne | gt | ge | lt | le
deriving DecidableEq

namespace Operator

def text : Operator → String
  | eq => "=="
  | ne => "!="
  | gt => ">"
  | ge => ">="
  | lt => "<"
  | le => "<="

/-- The operator that opens a text, the longest one where two do, and what follows it. -/
def read? : List Char → Option (Operator × List Char)
  | '=' :: '=' :: rest => some (eq, rest)
  | '!' :: '=' :: rest => some (ne, rest)
  | '>' :: '=' :: rest => some (ge, rest)
  | '<' :: '=' :: rest => some (le, rest)
  | '>' :: rest => some (gt, rest)
  | '<' :: rest => some (lt, rest)
  | _ => none

end Operator

inductive Operand where
  | literal (v : Json)
  | path (segments : List String)
deriving DecidableEq

/-! ## Splitting at the comparison -/

def isQuote (c : Char) : Bool := c == '\'' || c == '"'
def isOpening (c : Char) : Bool := c == '[' || c == '\x7b'
def isClosing (c : Char) : Bool := c == ']' || c == '\x7d'
def opensOperator (c : Char) : Bool := c == '=' || c == '!' || c == '<' || c == '>'

/-- The texts on the two sides of the first comparison outside quotes and brackets, given the
quote and the number of brackets that are open.  A lone `=` or `!` there ends the search. -/
def splitFrom : (quote : Option Char) → (depth : Nat) → List Char →
    Option (List Char × Operator × List Char)
  | _, _, [] => none
  | some q, depth, c :: cs =>
    (splitFrom (if c = q then none else some q) depth cs).map fun (l, r) => (c :: l, r)
  | none, depth, c :: cs =>
    if isQuote c then (splitFrom (some c) depth cs).map fun (l, r) => (c :: l, r)
    else if isOpening c then (splitFrom none (depth + 1) cs).map fun (l, r) => (c :: l, r)
    else if isClosing c then (splitFrom none (depth - 1) cs).map fun (l, r) => (c :: l, r)
    else if opensOperator c ∧ depth = 0 then
      (Operator.read? (c :: cs)).map fun (op, rest) => ([], op, rest)
    else (splitFrom none depth cs).map fun (l, r) => (c :: l, r)

/-- The two operand texts of a comparison, trimmed, and its operator. -/
def splitComparison (cs : List Char) : Option (List Char × Operator × List Char) :=
  (splitFrom none 0 cs).map fun (l, op, r) => (Text.trim l, op, Text.trim r)

/-! ## Operands -/

/-- The key between brackets: quoted text without its quotes, or digits. -/
def bracketKey? (inner : List Char) : Option (List Char) :=
  match Text.trim inner with
  | [] => none
  | c :: cs =>
    if isQuote c ∧ cs.getLast? = some c then some cs.dropLast
    else if (c :: cs).all Char.isDigit then some (c :: cs)
    else none

/-- The segments of a row of accessors such as `.a['b'][0]`.  The first argument bounds their
number and need be no more than the length of the text. -/
def readAccessors : Nat → List Char → Option (List (List Char))
  | _, [] => some []
  | 0, _ => none
  | n + 1, '.' :: cs =>
    match cs.takeWhile Text.isWordChar with
    | [] => none
    | name => (readAccessors n (cs.dropWhile Text.isWordChar)).map (name :: ·)
  | n + 1, '[' :: cs =>
    match cs.dropWhile (· != ']') with
    | [] => none
    | _ :: rest => do
      let key ← bracketKey? (cs.takeWhile (· != ']'))
      let keys ← readAccessors n rest
      return key :: keys
  | _ + 1, _ => none

/-- The segments of `state` followed by at least one accessor. -/
def statePath? : List Char → Option (List String)
  | 's' :: 't' :: 'a' :: 't' :: 'e' :: cs =>
    match readAccessors cs.length cs with
    | some (key :: keys) => some ((key :: keys).map String.ofList)
    | _ => none
  | _ => none

/-- The text between single quotes, if the whole text stands between them. -/
def singleQuoted? : List Char → Option (List Char)
  | '\'' :: cs => if cs.getLast? = some '\'' then some cs.dropLast else none
  | _ => none

/-- The words for the truth values and for null. -/
def word? (cs : List Char) : Option Json :=
  if cs = ['T', 'r', 'u', 'e'] then some (.bool true)
  else if cs = ['F', 'a', 'l', 's', 'e'] then some (.bool false)
  else if cs = ['N', 'o', 'n', 'e'] then some .null
  else none

/-- The operand that a trimmed text denotes. -/
def operand? (cs : List Char) : Option Operand :=
  if cs = [] then none
  else match singleQuoted? cs with
    | some s => some (.literal (.str (String.ofList s)))
    | none =>
      match (word? cs).or (Json.ofText? cs) with
      | some v => some (.literal v)
      | none =>
        match statePath? cs with
        | some segments => some (.path segments)
        | none =>
          if Text.isDottedPath cs then some (.path ((Text.splitAt '.' cs).map String.ofList))
          else none

end Flowgraph.Predicate
