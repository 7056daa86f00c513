import Multistage.Catalog
import Multistage.Wire.Property

/-!
# Catalogs as bytes

A catalog is stored as the letters `CPCT`, the version of the format, two bytes, the number of
properties, four bytes, and the properties.

* `Catalog.encode`, `Catalog.decode` — a catalog as bytes, and back.
* `Catalog.ofBytes` — the catalog that some bytes hold, and nothing after it.
-/

namespace Multistage

/-- The letters in front of a catalog. -/
def Wire.catalogMark : List UInt8 := [0x43, 0x50, 0x43, 0x54]

namespace Catalog

/-- The bytes of properties, one after the other. -/
def encodeAll : List Property → Except Error (List UInt8)
  | [] => .ok []
  | p :: rest =>
    match p.encode with
    | .error e => .error e
    | .ok bytes =>
      match encodeAll rest with
      | .error e => .error e
      | .ok more => .ok (bytes ++ more)

/-- The bytes of a catalog. -/
def encode (c : Catalog) : Except Error (List UInt8) :=
  match encodeAll c.properties.toList with
  | .error e => .error e
  | .ok bytes =>
    .ok (Wire.catalogMark ++ Wire.number 2 Wire.version ++ Wire.number 4 c.size ++ bytes)

/-- Read `count` properties into a catalog. -/
def decodeAll : (count : Nat) → Catalog → Decoder Catalog
  | 0, c => pure c
  | count + 1, c => do
    let p ← Property.decode
    let c ← Decoder.loaded (c.insert p)
    decodeAll count c

/-- Read a catalog. -/
def decode : Decoder Catalog := do
  Decoder.header Wire.catalogMark Wire.version
  let count ← Decoder.number 4
  decodeAll count empty

/-- The catalog that the bytes hold; bytes after it are malformed. -/
def ofBytes (bytes : List UInt8) : Except Error Catalog :=
  match decode bytes with
  | .error e => .error e
  | .ok (c, []) => .ok c
  | .ok (_, rest) => .error (.format (.trailing rest.length))

end Catalog

end Multistage
