import BatchOrder.Report

/-!
# Settings

The limits on a request and the way clusters are sorted, with the rules by which environment
variables set them.
-/

namespace BatchOrder

/-- How requests are bounded and clusters are sorted. -/
structure Settings where
  /-- The number of transactions that a request may hold. -/
  maxBatchSize : Nat := 10000
  /-- Whether clusters may be sorted apart from each other. -/
  parallelSorting : Bool := true
  /-- The number of clusters from which on they are sorted apart. -/
  parallelThreshold : Nat := 4
deriving DecidableEq, Inhabited

namespace Settings

/-- The usual settings with clusters always sorted in turn. -/
def sequential : Settings := { parallelSorting := false }

/-- Refuse limits of zero. -/
def check (s : Settings) : Except Refusal Unit :=
  if s.maxBatchSize = 0 then throw (.invalidSettings "max_batch_size must be positive")
  else if s.parallelThreshold = 0 then
    throw (.invalidSettings "parallel_threshold must be positive")
  else pure ()

/-- Whether a batch with so many clusters has them sorted apart from each other. -/
def sortsApart (s : Settings) (clusters : Nat) : Bool :=
  s.parallelSorting && s.parallelThreshold ≤ clusters

/-! ## Environment variables -/

/-- The bytes of every environment variable that is set. -/
abbrev Environment := String → Option ByteArray

/-- The text of a variable that is set to valid UTF-8. -/
def Environment.text? (env : Environment) (name : String) : Option String :=
  (env name).bind String.fromUTF8?

/-- Read a 64-bit count: decimal digits, with at most one plus sign in front and no blanks. -/
def count? (text : String) : Option Nat :=
  let digits := match text.toList with
    | '+' :: digits => digits
    | digits => digits
  if digits.isEmpty || !digits.all Char.isDigit then none
  else
    let n := Nat.ofDigitChars 10 digits 0
    if n < UInt64.size then some n else none

/-- Whether the text of a switch turns it on: only a zero and the word false, in any case, turn it
off. Only letters of ASCII have a letter of that word as their lower case. -/
def switchOn (text : String) : Bool :=
  text.toLower != "false" && text != "0"

/-- The settings that an environment asks for. A variable that is absent, that is not valid UTF-8 or
that does not hold a count where one is wanted leaves the usual setting in place. -/
def ofEnvironment (env : Environment) : Settings :=
  let usual : Settings := {}
  { maxBatchSize := ((env.text? "SCHED_MAX_BATCH_SIZE").bind count?).getD usual.maxBatchSize
    parallelSorting :=
      ((env.text? "SCHED_PARALLEL_SORTING").map switchOn).getD usual.parallelSorting
    parallelThreshold :=
      ((env.text? "SCHED_PARALLEL_THRESHOLD").bind count?).getD usual.parallelThreshold }

end Settings

end BatchOrder
