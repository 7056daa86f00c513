import Multistage.Error

/-!
# Numbers as bytes, and reading them back

Numbers are stored with their lowest byte first.

* `Wire.number` — a number as a given count of bytes.
* `Decoder` — a reader: it takes bytes from the front, and fails or leaves the rest.
* `Decoder.byte`, `Decoder.number`, `Decoder.many` — one byte, a number, a row of things.
* `Decoder.loaded` — a check of what was read.
-/

namespace Multistage

/-- The `size` low bytes of a number, the lowest first. -/
def Wire.number : (size n : Nat) → List UInt8
  | 0, _ => []
  | size + 1, n => UInt8.ofNat (n % 256) :: Wire.number size (n / 256)

@[simp]
theorem Wire.length_number (size n : Nat) : (Wire.number size n).length = size := by
  induction size generalizing n with
  | zero => rfl
  | succ size ih => simp [Wire.number, ih]

/-- A reader of bytes: what was read and the bytes that are left, or why they cannot be read. -/
abbrev Decoder := StateT (List UInt8) (Except Error)

namespace Decoder

/-- The data do not have the expected form. -/
def malformed {α : Type} (cause : FormatCause) : Decoder α :=
  fun _ => .error (.format cause)

/-- What was read is put together, and an error of that is an error in the data. -/
def loaded {α : Type} (result : Except Error α) : Decoder α :=
  fun bytes =>
    match result with
    | .error e => .error e.whenLoading
    | .ok a => .ok (a, bytes)

/-- What was read is put together, and an error of that stays what it is. -/
def checked {α : Type} (result : Except Error α) : Decoder α :=
  fun bytes =>
    match result with
    | .error e => .error e
    | .ok a => .ok (a, bytes)

/-- The next byte. -/
def byte : Decoder UInt8
  | [] => .error (.format .truncated)
  | b :: rest => .ok (b, rest)

/-- A number of `size` bytes, the lowest first. -/
def number : (size : Nat) → Decoder Nat
  | 0 => pure 0
  | size + 1 => do
    let low ← byte
    let high ← number size
    return low.toNat + 256 * high

/-- Read `count` more things with the same reader. -/
@[specialize]
def manyFrom {α : Type} (item : Decoder α) : (count : Nat) → Array α → Decoder (Array α)
  | 0, acc, bytes => .ok (acc, bytes)
  | count + 1, acc, bytes =>
    match item bytes with
    | .error e => .error e
    | .ok (a, rest) => manyFrom item count (acc.push a) rest

/-- Read `count` things with the same reader. -/
@[specialize]
def many {α : Type} (count : Nat) (item : Decoder α) : Decoder (Array α) :=
  manyFrom item count #[]

/-- Four bytes that say what follows, and the version of the format. -/
def header (magic : List UInt8) (version : Nat) : Decoder Unit := do
  let found ← many 4 byte
  if found.toList ≠ magic then
    malformed (.magic found.toList)
  else
    let v ← number 2
    if v ≠ version then malformed (.version v version) else return ()

/-- A byte that is zero or one; any other is malformed. -/
def flag (cause : Nat → FormatCause) : Decoder Bool := do
  match ← number 1 with
  | 0 => return false
  | 1 => return true
  | other => malformed (cause other)

end Decoder

end Multistage
