import BatchOrder.Json.Parser
import BatchOrder.Json.Printer

/-!
# Codecs

A codec pairs the JSON value that is written for a datum with the reading of such values. Codecs of
larger data are put together from codecs of their parts. A record is written as an object with its
fields in their order; it is read from an object in any order, passing over members of other names,
or from an array of its fields.

Main results:

- Theorem `Codec.Lawful.roundTrips`, in `BatchOrder.Proofs.Json.Codec`: a lawful codec reads what it
  has written.
-/

namespace BatchOrder

/-- The writing of data as JSON values and the reading of such values. -/
structure Codec (α : Type) where
  encode : α → Json
  decode? : Json → Option α

namespace Codec

variable {α β : Type}

/-- The text of a datum. -/
def write (c : Codec α) (x : α) : String := (c.encode x).render

/-- The datum that a text stands for. -/
def read? (c : Codec α) (text : String) : Option α := (Json.parse? text).bind c.decode?

/-- A codec for data that correspond to the data of another. -/
def xmap (c : Codec α) (f : α → β) (g : β → α) : Codec β where
  encode y := c.encode (g y)
  decode? v := (c.decode? v).map f

/-! ## Scalars -/

/-- Truth values. -/
def bool : Codec Bool where
  encode := Json.bool
  decode?
    | .scalar (.bool b) => some b
    | _ => none

/-- Texts. A string that denotes no text is not one. -/
def text : Codec String where
  encode := Json.text
  decode?
    | .scalar (.text s) => s
    | _ => none

/-- Natural numbers below a bound: digits alone, without sign, fraction or exponent. -/
def natBelow (bound : Nat) : Codec Nat where
  encode := Json.number
  decode?
    | .scalar (.number lexeme) =>
      if lexeme.all Char.isDigit then
        let n := Nat.ofDigitChars 10 lexeme 0
        if n < bound then some n else none
      else none
    | _ => none

/-- Counts of at most 64 bits. -/
def count : Codec Nat := natBelow UInt64.size

/-- Bytes. -/
def byte : Codec UInt8 := (natBelow UInt8.size).xmap UInt8.ofNat UInt8.toNat

/-- Words of 32 bits. -/
def word32 : Codec UInt32 := (natBelow UInt32.size).xmap UInt32.ofNat UInt32.toNat

/-- Words of 64 bits. -/
def word64 : Codec UInt64 := (natBelow UInt64.size).xmap UInt64.ofNat UInt64.toNat

/-- A datum or its absence, which is written as null. -/
def option (c : Codec α) : Codec (Option α) where
  encode
    | none => Json.null
    | some x => c.encode x
  decode?
    | .scalar .null => some none
    | v => (c.decode? v).map some

/-! ## Arrays -/

/-- Lists, as arrays. -/
def list (c : Codec α) : Codec (List α) where
  encode xs := .array (xs.map c.encode)
  decode?
    | .array items => items.mapM c.decode?
    | _ => none

/-- Pairs, as arrays of two. -/
def pair (c : Codec α) (d : Codec β) : Codec (α × β) where
  encode p := .array [c.encode p.1, d.encode p.2]
  decode?
    | .array [v, w] => do return (← c.decode? v, ← d.decode? w)
    | _ => none

/-- Byte strings of a fixed length, as arrays of bytes. -/
def octets (n : Nat) : Codec (Octets n) where
  encode o := (list byte).encode o.toBytes
  decode? v := ((list byte).decode? v).bind (Octets.ofBytes? n)

/-! ## Records -/

/-- A field of a record: its name, and the value that stands for the field where it is missing. -/
structure FieldSpec where
  name : String
  missing : Option Json

/-- The value of a field among the members of an object: of the one member with its name, or what
stands for a missing field. Two members with the name are one too many. -/
def FieldSpec.find? (f : FieldSpec) (members : List (Option String × Json)) : Option Json :=
  match members.filter fun m => m.1 == some f.name with
  | [] => f.missing
  | [m] => some m.2
  | _ => none

/-- Fields of a record, and how the tuple of their data is written and read, value by value. -/
structure Fields (α : Type) where
  specs : List FieldSpec
  encode : α → List Json
  decode? : List Json → Option α

/-- No fields. -/
def Fields.nil : Fields Unit where
  specs := []
  encode _ := []
  decode?
    | [] => some ()
    | _ => none

/-- A field, with what stands for it where it is missing, before others. -/
def Fields.consWith (name : String) (missing : Option Json) (c : Codec α) (rest : Fields β) :
    Fields (α × β) where
  specs := ⟨name, missing⟩ :: rest.specs
  encode x := c.encode x.1 :: rest.encode x.2
  decode?
    | [] => none
    | v :: vs => do return (← c.decode? v, ← rest.decode? vs)

/-- A field that must not be missing, before others. -/
def Fields.cons (name : String) (c : Codec α) (rest : Fields β) : Fields (α × β) :=
  .consWith name none c rest

/-- The values of fields in their order, from an object or an array. An object with a name that
denotes no text is no record. -/
def Fields.values? (specs : List FieldSpec) : Json → Option (List Json)
  | .object members =>
    if members.any fun m => m.1.isNone then none else specs.mapM fun f => f.find? members
  | .array items => if items.length = specs.length then some items else none
  | .scalar _ => none

/-- Records with the given fields. -/
def record (fields : Fields α) : Codec α where
  encode x := .object ((fields.specs.map fun f => some f.name).zip (fields.encode x))
  decode? v := (Fields.values? fields.specs v).bind fields.decode?

end Codec

end BatchOrder
