import BatchOrder.Json.Number
import BatchOrder.Json.Text
import BatchOrder.Json.Value

/-!
# JSON tokens

The smallest parts of a JSON text that mean something: scalars, brackets, commas and colons. Blanks
between them mean nothing.

Main results:

- Theorem `Token.length_lt_of_scan?`: reading a token leaves less to read.
-/

namespace BatchOrder

/-- A scalar or a mark of punctuation. -/
inductive Token where
  | scalar (s : Scalar)
  | comma
  | colon
  | openArray
  | closeArray
  | openObject
  | closeObject
deriving DecidableEq

namespace Token

/-- A scalar as it is written. A string that denotes no text has no written form of its own. -/
def scalarChars : Scalar → List Char
  | .null => ['n', 'u', 'l', 'l']
  | .bool true => ['t', 'r', 'u', 'e']
  | .bool false => ['f', 'a', 'l', 's', 'e']
  | .number lexeme => lexeme
  | .text s => Text.literal (s.getD "")

/-- A token as it is written. -/
def chars : Token → List Char
  | scalar s => scalarChars s
  | comma => [',']
  | colon => [':']
  | openArray => ['[']
  | closeArray => [']']
  | openObject => ['\x7b']
  | closeObject => ['\x7d']

/-- Read a token at the head of a text that does not start with a blank. -/
def scan? : List Char → Option (Token × List Char)
  | [] => none
  | ',' :: rest => some (comma, rest)
  | ':' :: rest => some (colon, rest)
  | '[' :: rest => some (openArray, rest)
  | ']' :: rest => some (closeArray, rest)
  | '\x7b' :: rest => some (openObject, rest)
  | '\x7d' :: rest => some (closeObject, rest)
  | '"' :: rest => (Text.scan? rest).map fun (s, rest) => (scalar (.text s), rest)
  | 'n' :: 'u' :: 'l' :: 'l' :: rest => some (scalar .null, rest)
  | 't' :: 'r' :: 'u' :: 'e' :: rest => some (scalar (.bool true), rest)
  | 'f' :: 'a' :: 'l' :: 's' :: 'e' :: rest => some (scalar (.bool false), rest)
  | cs => (Number.scan? cs).map fun (lexeme, rest) => (scalar (.number lexeme), rest)

/-- Every token takes a part of the text. -/
theorem length_lt_of_scan? {cs rest : List Char} {t : Token} (h : scan? cs = some (t, rest)) :
    rest.length < cs.length := by
  unfold scan? at h
  split at h
  case h_1 => cases h
  case h_8 =>
    obtain ⟨⟨_, _⟩, hs, h⟩ := Option.map_eq_some_iff.1 h
    cases h
    have := Text.length_lt_of_scan? hs
    simp only [List.length_cons]; omega
  case h_12 =>
    obtain ⟨⟨_, _⟩, hs, h⟩ := Option.map_eq_some_iff.1 h
    cases h
    exact Number.length_lt_of_scan? hs
  all_goals
    cases h
    simp only [List.length_cons]
    omega

end Token

end BatchOrder
