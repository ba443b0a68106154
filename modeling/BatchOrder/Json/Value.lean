/-!
# JSON values

A JSON text denotes a tree of scalars, arrays and objects. The tree keeps what a reader may care
about: the digits of a number as they were written, the members of an object in order and with
repetitions, and whether a string denotes a text at all.
-/

namespace BatchOrder

/-- A value without parts. -/
inductive Scalar where
  | null
  | bool (b : Bool)
  /-- A number as it is written. -/
  | number (lexeme : List Char)
  /-- A string; `none` if its escapes leave half of a surrogate pair, so that it denotes no text. -/
  | text (s : Option String)
deriving DecidableEq, Inhabited

/-- A JSON value. The names of members are strings, and like these may denote no text. -/
inductive Json where
  | scalar (s : Scalar)
  | array (items : List Json)
  | object (members : List (Option String × Json))
deriving Inhabited

namespace Json

/-- The value that stands for nothing. -/
def null : Json := scalar .null

/-- A truth value. -/
def bool (b : Bool) : Json := scalar (.bool b)

/-- A text. -/
def text (s : String) : Json := scalar (.text (some s))

/-- A natural number, in decimal. -/
def number (n : Nat) : Json := scalar (.number (Nat.toDigits 10 n))

end Json

end BatchOrder
