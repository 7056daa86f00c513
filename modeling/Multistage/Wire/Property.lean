import Multistage.Property.Basic
import Multistage.Wire.SideTable

/-!
# Properties as bytes

A property is stored as the length of its name, two bytes, the name in UTF-8, the tag of its kind, one
byte, its table, and its side table.  Statistics are not stored.

* `Property.encode`, `Property.decode` — a property as bytes, and back.
-/

namespace Multistage

/-- Most bytes of a name. -/
def Wire.maxNameBytes : Nat := 0xFFFF

/-- The kind a stored byte stands for, or that it stands for none. -/
def Kind.ofTag (tag : Nat) : Except Error Kind :=
  match ofTag? tag with
  | some kind => .ok kind
  | none => .error (.format (.kindTag tag))

namespace Property

/-- The bytes of the name. -/
def nameBytes (p : Property) : List UInt8 :=
  p.name.toUTF8.data.toList

/-- The bytes of a property; a name that is too long has none. -/
def encode (p : Property) : Except Error (List UInt8) :=
  let length := p.nameBytes.length
  if Wire.maxNameBytes < length then .error (.format (.nameLength length))
  else
    .ok (Wire.number 2 length ++ p.nameBytes ++ Wire.number 1 p.kind.tag ++ p.table.encode ++
      SideTable.encode p.sideTable)

/-- Read a name. -/
def decodeName : Decoder String := do
  let length ← Decoder.number 2
  let bytes ← Decoder.many length Decoder.byte
  match String.fromUTF8? ⟨bytes⟩ with
  | some name => return name
  | none => Decoder.malformed .nameEncoding

/-- Read the tag of a kind. -/
def decodeKind : Decoder Kind := do
  let tag ← Decoder.number 1
  Decoder.checked (Kind.ofTag tag)

/-- Read a property. -/
def decode : Decoder Property := do
  let name ← decodeName
  let kind ← decodeKind
  let table ← Table.decode
  let side ← SideTable.decode
  Decoder.loaded (ofParts name kind table side {})

end Property

end Multistage
