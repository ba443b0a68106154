import BatchOrder.Json.Token

/-!
# Written tokens are read back

A token is read where it was written, whatever stands behind it; only a number has to come to an end
there.  A numeral has neither sign nor point nor exponent, and it starts with a zero only if it is
one.  Every character of a text is written in one of three ways, with a letter, by its number, or as
it is, and each of them is read as a piece that stands for the character.

Main results:

- Theorem `Number.scan?_toDigits`: a numeral is split off from what does not continue it.
- Theorem `Text.scan?_flatMap_escape`: a text is read back up to its closing quote.
- Theorem `Token.scan?_chars_append`: so is every token that has a written form of its own.
-/

namespace BatchOrder

/-! ## Numbers -/

namespace Number

/-- Nothing at the head of a text continues a number. -/
def Ends (cs : List Char) : Prop :=
  ∀ c ∈ cs.head?, c.isDigit = false ∧ c ≠ '.' ∧ c ≠ 'e' ∧ c ≠ 'E'

theorem ends_nil : Ends [] := by simp [Ends]

variable {rest : List Char}

/-- A numeral consists of digits. -/
theorem isDigit_of_mem_toDigits {n : Nat} {d : Char} (hd : d ∈ Nat.toDigits 10 n) : d.isDigit :=
  Nat.isDigit_of_mem_toDigits (by decide) (by decide) hd

/-- A numeral starts with a digit. -/
theorem exists_toDigits_eq_cons (n : Nat) :
    ∃ d ds, Nat.toDigits 10 n = d :: ds ∧ d.isDigit := by
  cases hds : Nat.toDigits 10 n with
  | nil => exact absurd hds Nat.toDigits_ne_nil
  | cons d ds => exact ⟨d, ds, rfl, isDigit_of_mem_toDigits (n := n) (hds ▸ List.mem_cons_self)⟩

/-- The numeral of a positive number does not start with a zero. -/
theorem head?_toDigits_ne_zero {n : Nat} (hn : 0 < n) : (Nat.toDigits 10 n).head? ≠ some '0' := by
  induction n using Nat.strongRecOn with
  | _ n ih =>
      rw [Nat.toDigits_eq_if (by decide)]
      split
      · simp only [List.head?_cons, ne_eq, Option.some.injEq, Nat.digitChar_eq_zero]
        omega
      · have hfront := ih (n / 10) (by omega) (by omega)
        rcases exists_toDigits_eq_cons (n / 10) with ⟨d, ds, hds, _⟩
        rwa [hds] at hfront ⊢

/-- All digits at the head of a text are split off. -/
theorem digits?_append {ds : List Char} (hne : ds ≠ []) (hds : ∀ d ∈ ds, d.isDigit)
    (hrest : Ends rest) : digits? (ds ++ rest) = some (ds, rest) := by
  have hstop : rest.takeWhile Char.isDigit = [] ∧ rest.dropWhile Char.isDigit = rest := by
    cases rest with
    | nil => exact ⟨rfl, rfl⟩
    | cons c cs =>
        have hc : ¬ c.isDigit := by simp [(hrest c rfl).1]
        exact ⟨List.takeWhile_cons_of_neg hc, List.dropWhile_cons_of_neg hc⟩
  unfold digits?
  rw [List.takeWhile_append_of_pos hds, List.dropWhile_append_of_pos hds, hstop.1, hstop.2,
    List.append_nil]
  cases ds with
  | nil => exact absurd rfl hne
  | cons d ds => rfl

/-- A numeral has no minus sign. -/
theorem minus_toDigits_append (n : Nat) (rest : List Char) :
    minus (Nat.toDigits 10 n ++ rest) = ([], Nat.toDigits 10 n ++ rest) := by
  rcases exists_toDigits_eq_cons n with ⟨d, ds, hds, hd⟩
  rw [hds]
  unfold minus
  split
  · next heq =>
    injection heq with hminus
    rw [hminus] at hd
    cases hd
  · rfl

/-- A numeral is a whole part, up to what does not continue it. -/
theorem whole?_toDigits_append (n : Nat) (hrest : Ends rest) :
    whole? (Nat.toDigits 10 n ++ rest) = some (Nat.toDigits 10 n, rest) := by
  rcases Nat.eq_zero_or_pos n with rfl | hn
  · rfl
  · unfold whole?
    split
    · next heq =>
      have hhead := head?_toDigits_ne_zero hn
      rcases exists_toDigits_eq_cons n with ⟨d, ds, hds, _⟩
      rw [hds] at heq hhead
      injection heq with hzero
      exact absurd (congrArg some hzero) hhead
    · exact digits?_append Nat.toDigits_ne_nil (fun _ => isDigit_of_mem_toDigits) hrest

/-- What does not continue a number is no fraction. -/
theorem fraction?_of_ends (hrest : Ends rest) : fraction? rest = some ([], rest) := by
  unfold fraction?
  split
  · exact absurd rfl (hrest '.' rfl).2.1
  · rfl

/-- What does not continue a number is no exponent. -/
theorem exponent?_of_ends (hrest : Ends rest) : exponent? rest = some ([], rest) := by
  cases rest with
  | nil => rfl
  | cons c cs => simp [exponent?, (hrest c rfl).2.2]

/-- A numeral is split off from what does not continue it. -/
theorem scan?_toDigits (n : Nat) (hrest : Ends rest) :
    scan? (Nat.toDigits 10 n ++ rest) = some (Nat.toDigits 10 n, rest) := by
  simp [scan?, minus_toDigits_append, whole?_toDigits_append n hrest, fraction?_of_ends hrest,
    exponent?_of_ends hrest]

end Number

/-! ## Texts -/

namespace Text

/-- The pieces that stand for a character: itself, and its number if it is a control character. -/
inductive Stands (c : Char) : Piece → Prop
  | char : Stands c (.char c)
  | unit (hc : c < ' ') : Stands c (.unit c.toNat)

/-- A piece that stands for a character contributes it.  If the piece is a unit, the character is a
control character, and so the unit is no half of a surrogate pair. -/
theorem assemble?_cons_of_stands {c : Char} {p : Piece} (h : Stands c p) (ps : List Piece) :
    assemble? (p :: ps) = (assemble? ps).map (c :: ·) := by
  cases h with
  | char => rfl
  | unit hc =>
      have hlt : c.toNat < 32 := hc
      have hleads : leads c.toNat = false := by
        simp only [leads, Bool.and_eq_false_iff, decide_eq_false_iff_not]
        omega
      have htrails : trails c.toNat = false := by
        simp only [trails, Bool.and_eq_false_iff, decide_eq_false_iff_not]
        omega
      rw [assemble?.eq_def]
      simp [hleads, htrails]

theorem digits_sixteen_four (x : Nat) :
    digits 16 4 x = [x / 16 / 16 / 16 % 16, x / 16 / 16 % 16, x / 16 % 16, x % 16] := rfl

/-- Four hexadecimal digits are read as a unit. -/
theorem pieces?_numbered {x : Nat} (hx : x < UInt16.size) (cs : List Char) :
    pieces? ('\\' :: 'u' :: ((digits 16 4 x).map Nat.digitChar ++ cs)) =
      (pieces? cs).map fun r => (.unit x :: r.1, r.2) := by
  have hvalue (y : Nat) : hexValue? (y % 16).digitChar = some (y % 16) :=
    (Octets.hexValue?_digitChar (Nat.mod_lt y (by decide))).1
  have hread : ofDigits 16 [x / 16 / 16 / 16 % 16, x / 16 / 16 % 16, x / 16 % 16, x % 16] = x := by
    rw [← digits_sixteen_four, ofDigits_digits]
    exact Nat.mod_eq_of_lt hx
  rw [digits_sixteen_four]
  simp only [List.map_cons, List.map_nil, List.cons_append, List.nil_append, pieces?,
    List.mapM_cons, List.mapM_nil, hvalue, Option.bind_eq_bind, Option.bind_some, Option.pure_def,
    hread]
  cases pieces? cs <;> rfl

/-- A backslash and a letter are read as the character that the letter stands for. -/
theorem pieces?_lettered {c letter : Char} (hletter : unescape? letter = some c) (cs : List Char) :
    pieces? ('\\' :: letter :: cs) = (pieces? cs).map fun r => (.char c :: r.1, r.2) := by
  have hu : letter ≠ 'u' := by
    rintro rfl
    cases hletter
  rw [pieces?, hletter]
  · cases pieces? cs <;> rfl
  · exact fun _ _ _ _ _ h => absurd h hu

/-- A character that needs no escape stands for itself. -/
theorem pieces?_plain {c : Char} (hquote : c ≠ '"') (hslash : c ≠ '\\') (hc : ¬ c < ' ')
    (cs : List Char) : pieces? (c :: cs) = (pieces? cs).map fun r => (.char c :: r.1, r.2) := by
  rw [pieces?, if_neg hc]
  · cases pieces? cs <;> rfl
  all_goals simp_all

/-- A character is written with a letter, by its number, or as it is. -/
theorem escape_cases (c : Char) :
    (∃ letter, unescape? letter = some c ∧ escape c = ['\\', letter]) ∨
      (c < ' ' ∧ escape c = '\\' :: 'u' :: (digits 16 4 c.toNat).map Nat.digitChar) ∨
      (c ≠ '"' ∧ c ≠ '\\' ∧ ¬ c < ' ' ∧ escape c = [c]) := by
  unfold escape
  iterate 7
    split
    · next h => exact .inl ⟨_, by rw [h]; rfl, rfl⟩
  split
  · next h => exact .inr (.inl ⟨h, rfl⟩)
  · next h => exact .inr (.inr ⟨‹_›, ‹_›, h, rfl⟩)

/-- A written character is read as a piece that stands for it. -/
theorem pieces?_escape_append (c : Char) (cs : List Char) :
    ∃ p, Stands c p ∧ pieces? (escape c ++ cs) = (pieces? cs).map fun r => (p :: r.1, r.2) := by
  rcases escape_cases c with ⟨letter, hletter, heq⟩ | ⟨hc, heq⟩ | ⟨hquote, hslash, hc, heq⟩
  · exact ⟨.char c, .char, heq ▸ pieces?_lettered hletter cs⟩
  · exact ⟨.unit c.toNat, .unit hc, heq ▸ pieces?_numbered (Nat.lt_trans hc (by decide)) cs⟩
  · exact ⟨.char c, .char, heq ▸ pieces?_plain hquote hslash hc cs⟩

/-- What is written between the quotes is read as pieces that make up the text. -/
theorem pieces?_flatMap_escape (cs rest : List Char) :
    ∃ ps, pieces? (cs.flatMap escape ++ '"' :: rest) = some (ps, rest) ∧
      assemble? ps = some cs := by
  induction cs with
  | nil => exact ⟨[], rfl, rfl⟩
  | cons c cs ih =>
      rcases ih with ⟨ps, hps, hcs⟩
      rcases pieces?_escape_append c (cs.flatMap escape ++ '"' :: rest) with ⟨p, hp, hread⟩
      refine ⟨p :: ps, ?_, ?_⟩
      · rw [List.flatMap_cons, List.append_assoc, hread, hps]
        rfl
      · rw [assemble?_cons_of_stands hp, hcs]
        rfl

/-- A text is read back up to its closing quote. -/
theorem scan?_flatMap_escape (s : String) (rest : List Char) :
    scan? (s.toList.flatMap escape ++ '"' :: rest) = some (some s, rest) := by
  rcases pieces?_flatMap_escape s.toList rest with ⟨ps, hps, hs⟩
  simp [scan?, hps, hs]

end Text

/-! ## Tokens -/

/-- A scalar with a written form of its own: its number, if it is one, is a numeral, and its string
denotes a text. -/
def Scalar.Plain : Scalar → Prop
  | .number lexeme => ∃ n, lexeme = Nat.toDigits 10 n
  | .text s => s.isSome
  | _ => True

namespace Token

/-- A token whose scalar has a written form of its own. -/
def Plain : Token → Prop
  | scalar s => s.Plain
  | _ => True

/-- What may stand behind a token: behind a number nothing that continues it, else anything. -/
def Precedes : Token → List Char → Prop
  | scalar (.number _), rest => Number.Ends rest
  | _, _ => True

/-- What does not continue a number may stand behind any token. -/
theorem precedes_of_ends (t : Token) {rest : List Char} (h : Number.Ends rest) :
    t.Precedes rest := by
  unfold Precedes
  split
  · exact h
  · trivial

/-- A token that starts with a digit is a number. -/
theorem scan?_of_isDigit {c : Char} (hc : c.isDigit) (cs : List Char) : scan? (c :: cs) =
    (Number.scan? (c :: cs)).map fun (lexeme, rest) => (scalar (.number lexeme), rest) := by
  unfold scan?
  split
  case h_1 h => cases h
  case h_12 => rfl
  all_goals
    rename_i h
    cases h
    cases hc

/-- A written token is read back. -/
theorem scan?_chars_append {t : Token} (ht : t.Plain) {rest : List Char}
    (hrest : t.Precedes rest) : scan? (t.chars ++ rest) = some (t, rest) := by
  cases t with
  | scalar s =>
      cases s with
      | null => rfl
      | bool b => cases b <;> rfl
      | number lexeme =>
          rcases ht with ⟨n, rfl⟩
          have hscan := Number.scan?_toDigits n hrest
          rcases Number.exists_toDigits_eq_cons n with ⟨d, ds, hds, hd⟩
          simp only [chars, scalarChars, hds, List.cons_append] at hscan ⊢
          rw [scan?_of_isDigit hd, hscan]
          rfl
      | text s =>
          rcases Option.isSome_iff_exists.1 ht with ⟨s, rfl⟩
          simp only [chars, scalarChars, Text.literal, Option.getD_some, List.cons_append,
            List.append_assoc, List.nil_append, scan?, Text.scan?_flatMap_escape]
          rfl
  | _ => rfl

/-- A written token does not start with a blank. -/
theorem exists_chars_eq_cons {t : Token} (ht : t.Plain) :
    ∃ c cs, t.chars = c :: cs ∧ isBlank c = false := by
  cases t with
  | scalar s =>
      cases s with
      | bool b => cases b <;> exact ⟨_, _, rfl, rfl⟩
      | number lexeme =>
          rcases ht with ⟨n, rfl⟩
          rcases Number.exists_toDigits_eq_cons n with ⟨d, ds, hds, hd⟩
          refine ⟨d, ds, hds, ?_⟩
          rw [Bool.eq_false_iff]
          intro hblank
          simp only [isBlank, Bool.or_eq_true, decide_eq_true_eq] at hblank
          rcases hblank with ((rfl | rfl) | rfl) | rfl <;> cases hd
      | _ => exact ⟨_, _, rfl, rfl⟩
  | _ => exact ⟨_, _, rfl, rfl⟩

end Token

end BatchOrder
