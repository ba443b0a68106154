import BatchOrder.Octets

/-!
# JSON strings

A string is written between quotes. A backslash escapes a quote, a backslash and the control
characters, and introduces units of UTF-16 by four hexadecimal digits; two units may make one
character. Anything else stands for itself.

Main results:

- Theorem `length_lt_of_scan?`: a string takes a part of the text.
- Theorem `Text.scan?_flatMap_escape`, in `BatchOrder.Proofs.Json.Scanning`: a written text is read
  back up to its closing quote.
-/

namespace BatchOrder.Text

/-! ## Writing -/

/-- A character as it is written between the quotes. -/
def escape (c : Char) : List Char :=
  if c = '"' then ['\\', '"']
  else if c = '\\' then ['\\', '\\']
  else if c = '\x08' then ['\\', 'b']
  else if c = '\t' then ['\\', 't']
  else if c = '\n' then ['\\', 'n']
  else if c = '\x0c' then ['\\', 'f']
  else if c = '\x0d' then ['\\', 'r']
  else if c < ' ' then ['\\', 'u'] ++ (digits 16 4 c.toNat).map Nat.digitChar
  else [c]

/-- The characters of a text between quotes. -/
def literal (s : String) : List Char := '"' :: s.toList.flatMap escape ++ ['"']

/-! ## Reading -/

/-- What a string is made of: characters, and units of UTF-16 that were written by their numbers. -/
inductive Piece where
  | char (c : Char)
  | unit (u : Nat)
deriving DecidableEq

/-- The character that a backslash and a letter stand for. -/
def unescape? (c : Char) : Option Char :=
  if c = '"' || c = '\\' || c = '/' then some c
  else if c = 'b' then some '\x08'
  else if c = 't' then some '\t'
  else if c = 'n' then some '\n'
  else if c = 'f' then some '\x0c'
  else if c = 'r' then some '\x0d'
  else none

/-- Read up to the closing quote: the pieces of the string, and what comes after it. -/
def pieces? : List Char → Option (List Piece × List Char)
  | [] => none
  | '"' :: rest => some ([], rest)
  | '\\' :: 'u' :: a :: b :: c :: d :: rest => do
    let u ← [a, b, c, d].mapM hexValue?
    let (ps, rest) ← pieces? rest
    return (.unit (ofDigits 16 u) :: ps, rest)
  | '\\' :: c :: rest => do
    let c ← unescape? c
    let (ps, rest) ← pieces? rest
    return (.char c :: ps, rest)
  | c :: rest =>
    if c < ' ' then none
    else do
      let (ps, rest) ← pieces? rest
      return (.char c :: ps, rest)

/-- Whether a unit is the first half of a surrogate pair. -/
def leads (u : Nat) : Bool := 0xD800 ≤ u && u < 0xDC00

/-- Whether a unit is the second half of a surrogate pair. -/
def trails (u : Nat) : Bool := 0xDC00 ≤ u && u < 0xE000

/-- The characters that pieces make up; `none` if half of a surrogate pair stands alone. -/
def assemble? : List Piece → Option (List Char)
  | [] => some []
  | .char c :: rest => (assemble? rest).map (c :: ·)
  | .unit u :: rest =>
    if leads u then
      match rest with
      | .unit w :: rest =>
        if trails w then
          (assemble? rest).map (Char.ofNat (0x10000 + (u - 0xD800) * 0x400 + (w - 0xDC00)) :: ·)
        else none
      | _ => none
    else if trails u then none
    else (assemble? rest).map (Char.ofNat u :: ·)

/-- Read a string whose opening quote has been read: the text that it denotes, if it denotes one,
and what comes after it. -/
def scan? (cs : List Char) : Option (Option String × List Char) := do
  let (ps, rest) ← pieces? cs
  return ((assemble? ps).map String.ofList, rest)

/-- The pieces of a string take a part of the text, at least the closing quote. -/
theorem length_lt_of_pieces? {cs rest : List Char} {ps : List Piece}
    (h : pieces? cs = some (ps, rest)) : rest.length < cs.length := by
  fun_induction pieces? cs generalizing ps with
  | case1 => cases h
  | case2 rest' => cases h; simp
  | case3 a b c d rest' ih =>
    simp only [Option.bind_eq_bind, Option.bind_eq_some_iff] at h
    obtain ⟨_, _, ⟨qs, r⟩, hr, h⟩ := h
    cases h
    have : r.length < rest'.length := ih hr
    simp only [List.length_cons]; omega
  | case4 c rest' _ ih =>
    simp only [Option.bind_eq_bind, Option.bind_eq_some_iff] at h
    obtain ⟨_, _, ⟨qs, r⟩, hr, h⟩ := h
    cases h
    have : r.length < rest'.length := ih hr
    simp only [List.length_cons]; omega
  | case5 => cases h
  | case6 c rest' _ _ _ _ ih =>
    simp only [Option.bind_eq_bind, Option.bind_eq_some_iff] at h
    obtain ⟨⟨qs, r⟩, hr, h⟩ := h
    cases h
    have : r.length < rest'.length := ih hr
    simp only [List.length_cons]; omega

/-- A string takes a part of the text. -/
theorem length_lt_of_scan? {cs rest : List Char} {s : Option String}
    (h : scan? cs = some (s, rest)) : rest.length < cs.length := by
  simp only [scan?, Option.bind_eq_bind, Option.bind_eq_some_iff] at h
  obtain ⟨⟨ps, r⟩, hr, h⟩ := h
  cases h
  exact length_lt_of_pieces? hr

end BatchOrder.Text
