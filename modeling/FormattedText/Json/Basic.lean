import FormattedText.Number.Binary64

/-!
# JSON values

A JSON value as data: numbers are exact integers or floating-point numbers, and
the members of an object have an order. Values that were read from a text have
their members sorted by key.
-/

namespace FormattedText

namespace Json

/-- A JSON number. -/
inductive Number where
  /-- A number written without fraction and exponent that fits 64 bits. -/
  | integer (n : Int)
  /-- Any other number. -/
  | float (v : Binary64)
  deriving DecidableEq, Repr

end Json

/-- A JSON value. -/
inductive Json where
  | null
  | bool (b : Bool)
  | number (n : Json.Number)
  | string (s : String)
  | array (elements : List Json)
  | object (members : List (String × Json))
  deriving Repr, Inhabited

namespace Json

/-- The value of an integer. -/
def integer (n : Int) : Json := .number (.integer n)

/-- A value that may be absent; `null` stands for its absence. -/
def ofOption {α : Type} (f : α → Json) : Option α → Json
  | none => .null
  | some a => f a

/-- The text of a string. -/
def string? : Json → Option String
  | .string s => some s
  | _ => none

/-- The elements of an array. -/
def array? : Json → Option (List Json)
  | .array elements => some elements
  | _ => none

/-- The value of a number without fraction and exponent. -/
def integer? : Json → Option Int
  | .number (.integer n) => some n
  | _ => none

/-- The value of an integer from `low` to `high`. -/
def integerWithin? (low high : Int) (j : Json) : Option Int :=
  j.integer?.filter fun n => low ≤ n ∧ n ≤ high

/-- The value of a natural number below `bound`. -/
def natBelow? (bound : Nat) (j : Json) : Option Nat :=
  (j.integerWithin? 0 (bound - 1)).map Int.toNat

/-- Reads a value that may be `null`. -/
def orNull? {α : Type} (read : Json → Option α) : Json → Option (Option α)
  | .null => some none
  | j => (read j).map some

/-- The value of a member of an object. -/
def member? (j : Json) (key : String) : Option Json :=
  match j with
  | .object members => members.lookup key
  | _ => none

/-- The fields of a record, each present or not. An object gives them by their
names, and other members do not count; an array gives the first ones in order. -/
def fields? (names : List String) : Json → Option (List (Option Json))
  | .object members => some (names.map fun name => members.lookup name)
  | .array elements =>
      if elements.length ≤ names.length then
        some ((List.range names.length).map fun i => elements[i]?)
      else none
  | _ => none

end Json

end FormattedText
