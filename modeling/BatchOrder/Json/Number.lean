/-!
# JSON numbers

A number is an optional minus sign, a whole part without needless zeros, an optional fraction and an
optional exponent. The longest number at the head of a text is split off as it is written.
-/

namespace BatchOrder.Number

/-- Split off one digit or more. -/
def digits? (cs : List Char) : Option (List Char × List Char) :=
  match cs.takeWhile Char.isDigit with
  | [] => none
  | d :: ds => some (d :: ds, cs.dropWhile Char.isDigit)

/-- Split off a minus sign, if there is one. -/
def minus : List Char → List Char × List Char
  | '-' :: rest => (['-'], rest)
  | cs => ([], cs)

/-- Split off a whole part: a zero alone, or digits that do not start with one. -/
def whole? : List Char → Option (List Char × List Char)
  | '0' :: rest => some (['0'], rest)
  | cs => digits? cs

/-- Split off a fraction, if there is a point. -/
def fraction? : List Char → Option (List Char × List Char)
  | '.' :: rest => (digits? rest).map fun (ds, rest) => ('.' :: ds, rest)
  | cs => some ([], cs)

/-- Split off a sign, if there is one. -/
def sign : List Char → List Char × List Char
  | '+' :: rest => (['+'], rest)
  | cs => minus cs

/-- Split off an exponent, if there is an exponent letter. -/
def exponent? : List Char → Option (List Char × List Char)
  | [] => some ([], [])
  | c :: rest =>
    if c = 'e' || c = 'E' then
      (digits? (sign rest).2).map fun (ds, after) => (c :: (sign rest).1 ++ ds, after)
    else some ([], c :: rest)

/-- Split off a number. -/
def scan? (cs : List Char) : Option (List Char × List Char) := do
  let (minus, cs) := minus cs
  let (whole, cs) ← whole? cs
  let (fraction, cs) ← fraction? cs
  let (exponent, cs) ← exponent? cs
  return (minus ++ whole ++ fraction ++ exponent, cs)

/-! ## What is left is shorter -/

/-- Digits take a part of the text. -/
theorem length_lt_of_digits? {cs ds rest : List Char} (h : digits? cs = some (ds, rest)) :
    rest.length < cs.length := by
  unfold digits? at h
  split at h
  · cases h
  · next d ds' hds =>
    cases h
    have := congrArg List.length (List.takeWhile_append_dropWhile (p := Char.isDigit) (l := cs))
    rw [hds, List.length_append, List.length_cons] at this
    omega

/-- A minus sign leaves no more of the text than there was. -/
theorem length_minus_le (cs : List Char) : (minus cs).2.length ≤ cs.length := by
  unfold minus
  split <;> simp

/-- A sign of either kind leaves no more of the text than there was. -/
theorem length_sign_le (cs : List Char) : (sign cs).2.length ≤ cs.length := by
  unfold sign
  split
  · simp
  · exact length_minus_le _

/-- A whole part takes a part of the text. -/
theorem length_lt_of_whole? {cs ds rest : List Char} (h : whole? cs = some (ds, rest)) :
    rest.length < cs.length := by
  unfold whole? at h
  split at h
  · cases h; simp
  · exact length_lt_of_digits? h

/-- A fraction leaves no more of the text than there was. -/
theorem length_le_of_fraction? {cs ds rest : List Char} (h : fraction? cs = some (ds, rest)) :
    rest.length ≤ cs.length := by
  unfold fraction? at h
  split at h
  · obtain ⟨⟨_, _⟩, hd, h⟩ := Option.map_eq_some_iff.1 h
    cases h
    have := length_lt_of_digits? hd
    simp only [List.length_cons]; omega
  · cases h; exact Nat.le_refl _

/-- An exponent leaves no more of the text than there was. -/
theorem length_le_of_exponent? {cs ds rest : List Char} (h : exponent? cs = some (ds, rest)) :
    rest.length ≤ cs.length := by
  unfold exponent? at h
  split at h
  · cases h; exact Nat.le_refl _
  · next c after =>
    split at h
    · obtain ⟨⟨_, _⟩, hd, h⟩ := Option.map_eq_some_iff.1 h
      cases h
      have := length_lt_of_digits? hd
      have := length_sign_le after
      simp only [List.length_cons]; omega
    · cases h; exact Nat.le_refl _

/-- A number takes a part of the text, as its whole part is never empty. -/
theorem length_lt_of_scan? {cs lexeme rest : List Char} (h : scan? cs = some (lexeme, rest)) :
    rest.length < cs.length := by
  simp only [scan?, Option.bind_eq_bind, Option.bind_eq_some_iff] at h
  obtain ⟨⟨_, cs₁⟩, hw, ⟨_, cs₂⟩, hf, ⟨_, cs₃⟩, he, h⟩ := h
  cases h
  calc cs₃.length
    _ ≤ cs₂.length := length_le_of_exponent? he
    _ ≤ cs₁.length := length_le_of_fraction? hf
    _ < (minus cs).2.length := length_lt_of_whole? hw
    _ ≤ cs.length := length_minus_le cs

end BatchOrder.Number
