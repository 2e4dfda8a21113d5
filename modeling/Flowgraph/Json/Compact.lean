import Flowgraph.Json.Basic

/-!
# Compact text of a value

No blank stands between the parts.  In strings the quote, the backslash and the
controls below U+0020 are escaped, so the text has no line break of its own; all
else stands as it is.
-/

namespace Flowgraph.Json

/-- A control character by its number, four hexadecimal digits. -/
def controlEscape (c : Char) : List Char :=
  let ds := Nat.toDigits 16 c.toNat
  '\\' :: 'u' :: (List.replicate (4 - ds.length) '0' ++ ds)

/-- A character as it stands inside a string. -/
def escapeChar (c : Char) : List Char :=
  if c = '"' then ['\\', '"']
  else if c = '\\' then ['\\', '\\']
  else if c = '\n' then ['\\', 'n']
  else if c = '\r' then ['\\', 'r']
  else if c = '\t' then ['\\', 't']
  else if c = '\x08' then ['\\', 'b']
  else if c = '\x0c' then ['\\', 'f']
  else if c.toNat < 0x20 then controlEscape c
  else [c]

def stringText (s : List Char) : List Char := '"' :: (s.flatMap escapeChar ++ ['"'])

mutual

/-- The compact text. -/
def text : Json → List Char
  | .null => ['n', 'u', 'l', 'l']
  | .bool true => ['t', 'r', 'u', 'e']
  | .bool false => ['f', 'a', 'l', 's', 'e']
  | .num n => n.text
  | .str s => stringText s.toList
  | .arr items => '[' :: itemsText items
  | .obj fields => '\x7b' :: fieldsText fields

/-- The items up to and with the closing bracket. -/
def itemsText : List Json → List Char
  | [] => [']']
  | a :: l => text a ++ moreItemsText l

def moreItemsText : List Json → List Char
  | [] => [']']
  | a :: l => ',' :: (text a ++ moreItemsText l)

/-- The fields up to and with the closing brace. -/
def fieldsText : Fields → List Char
  | [] => ['\x7d']
  | (k, a) :: l => stringText k.toList ++ ':' :: (text a ++ moreFieldsText l)

def moreFieldsText : Fields → List Char
  | [] => ['\x7d']
  | (k, a) :: l => ',' :: (stringText k.toList ++ ':' :: (text a ++ moreFieldsText l))

end

/-- The compact text as a string. -/
def compact (v : Json) : String := String.ofList v.text

end Flowgraph.Json
