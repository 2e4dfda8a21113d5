import Flowgraph.Names.Map
import Flowgraph.Number.Basic

/-!
# JSON values

The dynamic values that states, configurations and payloads are made of.  The
fields of an object are a list, ascending by key wherever this library makes one;
a lookup takes the first field of its key.  `same` is structural equality, under
which the two zeros are one number; `beq_iff_eq` gives decidable equality proper.
-/

namespace Flowgraph

inductive Json where
  | null
  | bool (b : Bool)
  | num (n : Number)
  | str (s : String)
  | arr (items : List Json)
  | obj (fields : List (String × Json))

instance : Inhabited Json := ⟨.null⟩

/-- The fields of an object. -/
abbrev Fields := List (String × Json)

namespace Json

/-! ## Making values -/

/-- The object of the given fields; of fields with one key the last one counts. -/
def object (fields : Fields) : Json := .obj (NameMap.ofList fields).toList

def ofNames (names : List String) : Json := .arr (names.map .str)

def ofWord (w : UInt64) : Json := .num (.whole (.ofWord w))

/-! ## Looking into values -/

/-- The name of a value's type, as messages give it. -/
def typeName : Json → String
  | .null => "null"
  | .bool _ => "boolean"
  | .num _ => "number"
  | .str _ => "string"
  | .arr _ => "array"
  | .obj _ => "object"

def string? : Json → Option String
  | .str s => some s
  | _ => none

def fields? : Json → Option Fields
  | .obj fields => some fields
  | _ => none

def items? : Json → Option (List Json)
  | .arr items => some items
  | _ => none

/-- The value of a field; a value that is no object has none. -/
def field? (v : Json) (key : String) : Option Json :=
  match v with
  | .obj fields => fields.lookup key
  | _ => none

def isObject : Json → Bool
  | .obj _ => true
  | _ => false

/-! ## Equality -/

mutual

/-- Equality of values, given one of numbers. -/
def equalBy (number : Number → Number → Bool) : Json → Json → Bool
  | .null, .null => true
  | .bool a, .bool b => a == b
  | .num a, .num b => number a b
  | .str a, .str b => a == b
  | .arr l, .arr m => equalItems number l m
  | .obj l, .obj m => equalFields number l m
  | _, _ => false

def equalItems (number : Number → Number → Bool) : List Json → List Json → Bool
  | [], [] => true
  | a :: l, b :: m => equalBy number a b && equalItems number l m
  | _, _ => false

def equalFields (number : Number → Number → Bool) : Fields → Fields → Bool
  | [], [] => true
  | (j, a) :: l, (k, b) :: m => j == k && equalBy number a b && equalFields number l m
  | _, _ => false

end

/-- Structural equality. -/
def same (a b : Json) : Bool := equalBy Number.same a b

instance : BEq Json := ⟨equalBy (· == ·)⟩

mutual

theorem eq_of_equalBy : ∀ {a b : Json}, equalBy (· == ·) a b = true → a = b
  | .null, b, h => by cases b <;> simp_all [equalBy]
  | .bool _, b, h => by cases b <;> simp_all [equalBy]
  | .num _, b, h => by cases b <;> simp_all [equalBy]
  | .str _, b, h => by cases b <;> simp_all [equalBy]
  | .arr l, b, h => by
    cases b <;> simp only [equalBy, Bool.false_eq_true] at h
    rw [eq_of_equalItems h]
  | .obj l, b, h => by
    cases b <;> simp only [equalBy, Bool.false_eq_true] at h
    rw [eq_of_equalFields h]

theorem eq_of_equalItems : ∀ {l m : List Json}, equalItems (· == ·) l m = true → l = m
  | [], m, h => by cases m <;> simp_all [equalItems]
  | a :: l, m, h => by
    cases m <;> simp only [equalItems, Bool.false_eq_true, Bool.and_eq_true] at h
    rw [eq_of_equalBy h.1, eq_of_equalItems h.2]

theorem eq_of_equalFields : ∀ {l m : Fields}, equalFields (· == ·) l m = true → l = m
  | [], m, h => by cases m <;> simp_all [equalFields]
  | (k, a) :: l, m, h => by
    cases m <;> simp only [equalFields, Bool.false_eq_true, Bool.and_eq_true, beq_iff_eq] at h
    rw [h.1.1, eq_of_equalBy h.1.2, eq_of_equalFields h.2]

end

mutual

theorem equalBy_refl : ∀ a : Json, equalBy (· == ·) a a = true
  | .null => rfl
  | .bool _ => by simp [equalBy]
  | .num _ => by simp [equalBy]
  | .str _ => by simp [equalBy]
  | .arr l => by rw [equalBy]; exact equalItems_refl l
  | .obj l => by rw [equalBy]; exact equalFields_refl l

theorem equalItems_refl : ∀ l : List Json, equalItems (· == ·) l l = true
  | [] => rfl
  | a :: l => by rw [equalItems, equalBy_refl a, equalItems_refl l]; rfl

theorem equalFields_refl : ∀ l : Fields, equalFields (· == ·) l l = true
  | [] => rfl
  | (k, a) :: l => by rw [equalFields, equalBy_refl a, equalFields_refl l]; simp

end

instance : LawfulBEq Json where
  eq_of_beq h := eq_of_equalBy h
  rfl := equalBy_refl _

instance : DecidableEq Json := fun a b =>
  decidable_of_iff ((a == b) = true) beq_iff_eq

end Json

end Flowgraph
