/-!
# Kinds of property

How the number stored for a code point is to be read: as a truth value, as the ordinal of an
enumeration, as a signed distance, or as the number of a record in a side table.
-/

namespace Multistage

inductive Kind where
  /-- Zero is false, anything else is true. -/
  | boolean
  /-- The ordinal of an enumeration. -/
  | enumeration
  /-- A signed distance between code points. -/
  | signedDelta
  /-- The number of a record of code points. -/
  | codepointList
  deriving DecidableEq, Repr

namespace Kind

/-- The byte that stands for the kind in stored data. -/
def tag : Kind → Nat
  | boolean => 0
  | enumeration => 1
  | signedDelta => 2
  | codepointList => 3

/-- The kind a stored byte stands for. -/
def ofTag? : Nat → Option Kind
  | 0 => some boolean
  | 1 => some enumeration
  | 2 => some signedDelta
  | 3 => some codepointList
  | _ => none

theorem ofTag?_tag (k : Kind) : ofTag? k.tag = some k := by
  cases k <;> rfl

theorem tag_of_ofTag? {n : Nat} {k : Kind} (h : ofTag? n = some k) : k.tag = n := by
  unfold ofTag? at h
  split at h <;> cases h <;> rfl

/-- The name of the kind in messages. -/
def name : Kind → String
  | boolean => "Boolean"
  | enumeration => "Enumeration"
  | signedDelta => "SignedDelta"
  | codepointList => "CodepointList"

end Kind

end Multistage
