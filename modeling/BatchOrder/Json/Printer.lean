import BatchOrder.Json.Token

/-!
# Writing JSON

A value is written without blanks, items and members in the order in which they are held.
-/

namespace BatchOrder.Json

/-! ## Tokens of a value -/

mutual

/-- The tokens of a value. -/
def tokens : Json → List Token
  | scalar s => [.scalar s]
  | array items => .openArray :: itemTokens items ++ [.closeArray]
  | object members => .openObject :: memberTokens members ++ [.closeObject]

/-- The tokens of the items of an array, with commas between the items. -/
def itemTokens : List Json → List Token
  | [] => []
  | [v] => tokens v
  | v :: w :: rest => tokens v ++ .comma :: itemTokens (w :: rest)

/-- The tokens of the members of an object, with commas between the members. -/
def memberTokens : List (Option String × Json) → List Token
  | [] => []
  | [(name, v)] => .scalar (.text name) :: .colon :: tokens v
  | (name, v) :: m :: rest =>
    .scalar (.text name) :: .colon :: tokens v ++ .comma :: memberTokens (m :: rest)

end

/-- The written form of a value. -/
def render (v : Json) : String := String.ofList (v.tokens.flatMap Token.chars)

end BatchOrder.Json
