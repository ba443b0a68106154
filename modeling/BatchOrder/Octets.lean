import BatchOrder.Digits

/-!
# Byte strings of a fixed length

An identifier of `n` bytes is kept as one number of `8 * n` bits, so that comparing two identifiers
byte by byte from the left is comparing two numbers. The module gives the two written forms, a list
of bytes and a string of hexadecimal digits.

Main results:

- Theorem `Octets.ofBytes?_toBytes`: the bytes of an identifier read back.
- Theorem `Octets.ofHex?_toHex`: so does its hexadecimal text.
-/

namespace BatchOrder

/-- The value of a hexadecimal digit in either case. -/
def hexValue? (c : Char) : Option Nat :=
  if '0' ≤ c ∧ c ≤ '9' then some (c.toNat - '0'.toNat)
  else if 'a' ≤ c ∧ c ≤ 'f' then some (c.toNat - 'a'.toNat + 10)
  else if 'A' ≤ c ∧ c ≤ 'F' then some (c.toNat - 'A'.toNat + 10)
  else none

/-- Space, tab, line feed and carriage return: the blanks of hexadecimal text and of JSON. -/
def isBlank (c : Char) : Bool :=
  c = ' ' || c = '\t' || c = '\n' || c = '\x0d'

/-- A string of `n` bytes, as the number it denotes with the first byte most significant. -/
structure Octets (n : Nat) where
  value : BitVec (8 * n)
deriving DecidableEq, Hashable

namespace Octets

variable {n : Nat}

/-- The bytes of a number, leading zeros included; a number too large keeps its low bytes. -/
def ofNat (n x : Nat) : Octets n := ⟨BitVec.ofNat _ x⟩

/-- The number that the bytes denote. -/
def toNat (o : Octets n) : Nat := o.value.toNat

instance : Inhabited (Octets n) := ⟨ofNat n 0⟩

/-- Bytes are compared from left to right, which is the order of the numbers they denote. -/
instance : Ord (Octets n) := ⟨compareOn Octets.value⟩

instance : Std.TransOrd (Octets n) :=
  inferInstanceAs (Std.TransCmp (compareOn Octets.value))

instance : Std.LawfulEqOrd (Octets n) where
  eq_of_compare := by
    rintro ⟨a⟩ ⟨b⟩ h
    exact congrArg mk (Std.LawfulEqOrd.eq_of_compare (a := a) (b := b) h)

/-- A byte string denotes a number of as many bytes. -/
theorem toNat_lt (o : Octets n) : o.toNat < Nat.pow 256 n := by
  have := o.value.isLt
  rwa [Nat.pow_mul] at this

/-- A byte string is that of the number that it denotes. -/
@[simp] theorem ofNat_toNat (o : Octets n) : ofNat n o.toNat = o := by
  simp [ofNat, toNat]

/-! ## The list of bytes -/

/-- The bytes from left to right. -/
def toBytes (o : Octets n) : List UInt8 :=
  (digits 256 n o.toNat).map UInt8.ofNat

/-- The byte string with the given bytes, if there are exactly `n` of them. -/
def ofBytes? (n : Nat) (bytes : List UInt8) : Option (Octets n) :=
  if bytes.length = n then some (ofNat n (ofDigits 256 (bytes.map UInt8.toNat))) else none

@[simp] theorem length_toBytes (o : Octets n) : o.toBytes.length = n := by
  simp [toBytes]

/-- The bytes of an identifier read back. -/
theorem ofBytes?_toBytes (o : Octets n) : ofBytes? n o.toBytes = some o := by
  have h : (o.toBytes.map UInt8.toNat) = digits 256 n o.toNat := by
    rw [toBytes, List.map_map]
    refine (List.map_congr_left fun d hd => ?_).trans (List.map_id _)
    exact UInt8.toNat_ofNat_of_lt' (lt_of_mem_digits (by decide) hd)
  rw [ofBytes?, if_pos (length_toBytes o), h, ofDigits_digits, Nat.mod_eq_of_lt o.toNat_lt,
    ofNat_toNat]

/-! ## Hexadecimal text -/

/-- The `2 * n` lower-case hexadecimal digits. -/
def toHex (o : Octets n) : String :=
  String.ofList ((digits 16 (2 * n) o.toNat).map Nat.digitChar)

/-- The values of the digits in hexadecimal text, blanks left out; `none` if another character
stands in it. -/
def hexValues? (text : List Char) : Option (List Nat) :=
  (text.filter fun c => !isBlank c).mapM hexValue?

/-- Read `2 * n` characters of hexadecimal text. Blanks between the digits are passed over; the
digits fill bytes from the left in pairs, a last digit without a partner is dropped, and the bytes
that no pair fills are zero. -/
def ofHex? (n : Nat) (text : List Char) : Option (Octets n) := do
  guard (text.length = 2 * n)
  let values ← hexValues? text
  let filled := values.take (values.length / 2 * 2)
  return ofNat n (ofDigits 16 (filled ++ List.replicate (2 * n - filled.length) 0))

/-- A hexadecimal digit that is written is read with its value, and it is no blank. -/
theorem hexValue?_digitChar {d : Nat} (h : d < 16) :
    hexValue? d.digitChar = some d ∧ isBlank d.digitChar = false := by
  revert d; decide

/-- Written hexadecimal digits are read with their values. -/
private theorem hexValues?_digitChars {ds : List Nat} (h : ∀ d ∈ ds, d < 16) :
    hexValues? (ds.map Nat.digitChar) = some ds := by
  induction ds with
  | nil => rfl
  | cons d ds ih =>
    have ⟨hv, hb⟩ := hexValue?_digitChar (h d (by simp))
    have ih := ih fun e he => h e (List.mem_cons_of_mem _ he)
    rw [hexValues?] at ih ⊢
    simp [hb, hv, ih]

/-- The hexadecimal text of an identifier reads back. -/
theorem ofHex?_toHex (o : Octets n) : ofHex? n o.toHex.toList = some o := by
  have hlt : o.toNat < 16 ^ (2 * n) := by
    rw [Nat.pow_mul]; exact o.toNat_lt
  have hguard : (guard (o.toHex.toList.length = 2 * n) : Option Unit) = some () :=
    if_pos (by simp [toHex])
  have htake : (digits 16 (2 * n) o.toNat).take (2 * n) = digits 16 (2 * n) o.toNat :=
    List.take_of_length_le (Nat.le_of_eq (length_digits ..))
  rw [ofHex?, hguard]
  simp [toHex, hexValues?_digitChars fun d hd => lt_of_mem_digits (by decide) hd, htake,
    Nat.mul_comm n 2, ofDigits_digits, Nat.mod_eq_of_lt hlt]

end Octets

end BatchOrder
