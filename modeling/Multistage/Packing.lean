import Multistage.Arith

/-!
# Packing narrow values into bytes

A byte has room for `8 / bits` values of `bits` bits each.  The first value has the lowest bits.  Only
the low bits of a value are kept.

* `Packing.pack`, `Packing.unpack` — one byte from its values and back.
* `Packing.packAll?` — the bytes of a row of values.
* `Packing.get?` — one value out of a row of bytes.
-/

namespace Multistage.Packing

/-- Number of values that have room in a byte. -/
def capacity (bits : Nat) : Nat :=
  8 / bits

/-- Values below `base` as the digits of a number, the first one lowest. -/
def join (base : Nat) : List UInt32 → Nat
  | [] => 0
  | v :: rest => v.toNat % base + base * join base rest

/-- The byte that holds the values. -/
def pack (bits : Nat) (values : List UInt32) : UInt8 :=
  UInt8.ofNat (join (2 ^ bits) values)

/-- The digits of a number, as many as given, the lowest first. -/
def digits (base : Nat) : (count n : Nat) → List UInt32
  | 0, _ => []
  | count + 1, n => UInt32.ofNat (n % base) :: digits base count (n / base)

/-- All values of a byte. -/
def unpack (bits : Nat) (byte : UInt8) : List UInt32 :=
  digits (2 ^ bits) (capacity bits) byte.toNat

/-- As `unpack`, but values without bits are refused. -/
def unpack? (bits : Nat) (byte : UInt8) : Option (List UInt32) :=
  if bits = 0 then none else some (unpack bits byte)

/-- Pack `count` bytes from the values at `start` on. -/
def packBytes (bits : Nat) (values : Array UInt32) : Nat → Nat → Array UInt8 → Array UInt8
  | 0, _, bytes => bytes
  | count + 1, start, bytes =>
    let stop := start + capacity bits
    packBytes bits values count stop (bytes.push (pack bits (values.extract start stop).toList))

/-- The bytes of a row of values, the last one filled up with zeros. -/
def packAll (bits : Nat) (values : Array UInt32) : Array UInt8 :=
  packBytes bits values ((values.size + capacity bits - 1) / capacity bits) 0 #[]

/-- As `packAll`, but a width of which no value has room in a byte is refused. -/
def packAll? (bits : Nat) (values : Array UInt32) : Option (Array UInt8) :=
  if capacity bits = 0 then none else some (packAll bits values)

/-- The value in a slot of a byte. -/
def slot (bits : Nat) (byte : UInt8) (index : Nat) : UInt32 :=
  UInt32.ofNat (byte.toNat >>> (index * bits) % 2 ^ bits)

/-- The value with the given number in a row of bytes. -/
def get? (bits : Nat) (bytes : Array UInt8) (index : Nat) : Option UInt32 :=
  if capacity bits = 0 then none
  else bytes[index / capacity bits]?.map fun byte => slot bits byte (index % capacity bits)

end Multistage.Packing
