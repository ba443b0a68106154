import BatchOrder.Json.Token

/-!
# Reading JSON

A text is read token by token by a machine that keeps the arrays and objects it is inside of on a
stack. The depth of a value is therefore bounded by nothing but the text.

Main results:

- Theorem `Token.length_lt_of_scan?`, in `BatchOrder.Json.Token`: every token takes a part of the
  text, so that reading ends.
-/

namespace BatchOrder

/-- An array or object that waits for a value: what it holds so far, the latest first, and the name
of the member whose value is to come. -/
inductive Frame where
  | array (items : List Json)
  | member (members : List (Option String × Json)) (name : Option String)

/-- What has been read of a value, by what may come next. The stacks hold what the value at hand is
inside of, the innermost first. -/
inductive Reading where
  /-- A value. -/
  | value (stack : List Frame)
  /-- The first item of an array, or its end. -/
  | firstItem (stack : List Frame)
  /-- A comma or the end of an array. -/
  | afterItem (items : List Json) (stack : List Frame)
  /-- The first name in an object, or its end. -/
  | firstName (stack : List Frame)
  /-- A name in an object. -/
  | nextName (members : List (Option String × Json)) (stack : List Frame)
  /-- The colon after a name. -/
  | colon (members : List (Option String × Json)) (name : Option String) (stack : List Frame)
  /-- A comma or the end of an object. -/
  | afterMember (members : List (Option String × Json)) (stack : List Frame)
  /-- Nothing. -/
  | done (v : Json)

namespace Reading

/-- Hand a complete value to what it is inside of. -/
def give (v : Json) : List Frame → Reading
  | [] => done v
  | .array items :: stack => afterItem (v :: items) stack
  | .member members name :: stack => afterMember ((name, v) :: members) stack

/-- Start a value with a token. -/
def start? (stack : List Frame) : Token → Option Reading
  | .scalar s => some (give (.scalar s) stack)
  | .openArray => some (firstItem stack)
  | .openObject => some (firstName stack)
  | _ => none

/-- Read one token. -/
def step? : Reading → Token → Option Reading
  | value stack, t => start? stack t
  | firstItem stack, .closeArray => some (give (.array []) stack)
  | firstItem stack, t => start? (.array [] :: stack) t
  | afterItem items stack, .comma => some (value (.array items :: stack))
  | afterItem items stack, .closeArray => some (give (.array items.reverse) stack)
  | firstName stack, .closeObject => some (give (.object []) stack)
  | firstName stack, .scalar (.text s) => some (colon [] s stack)
  | nextName members stack, .scalar (.text s) => some (colon members s stack)
  | colon members s stack, .colon => some (value (.member members s :: stack))
  | afterMember members stack, .comma => some (nextName members stack)
  | afterMember members stack, .closeObject => some (give (.object members.reverse) stack)
  | _, _ => none

/-- Read the rest of a text. -/
def finish? (r : Reading) (cs : List Char) : Option Reading :=
  match _hd : cs.dropWhile isBlank with
  | [] => some r
  | c :: rest =>
    match _hs : Token.scan? (c :: rest) with
    | none => none
    | some (t, after) => (r.step? t).bind (finish? · after)
termination_by cs.length
decreasing_by
  have := Token.length_lt_of_scan? _hs
  have := congrArg List.length (List.takeWhile_append_dropWhile (p := isBlank) (l := cs))
  rw [_hd, List.length_append] at this
  omega

end Reading

/-- The value that a text denotes: one value, with nothing but blanks around it. -/
def Json.parse? (text : String) : Option Json :=
  match (Reading.value []).finish? text.toList with
  | some (.done v) => some v
  | _ => none

end BatchOrder
