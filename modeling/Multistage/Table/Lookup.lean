import Multistage.Table.Check

/-!
# Lookup

The key is cut into fields from its highest bits down.  At each stage the field selects a cell of the
current block; its page number is the block of the next level.  The last field selects a value.

* `Step` — a stage, with the number of keys of a block and of a cell.
* `stepsOf` — the steps of some stages, from the top.
* `follow` — the block of the level below some steps, and what is left of the key.
* `Route` — the steps of a table with its leaves, prepared once for many keys.
* `Table.get` — the value of a code point, the default for those outside the table.
-/

namespace Multistage

/-- A stage as lookup sees it. -/
structure Step where
  pages : Array Nat
  /-- Cells of a block. -/
  blockSize : Nat
  /-- Keys that share a cell. -/
  span : Nat

/-- The steps of stages under a key of `bits` bits. -/
def stepsOf : List Stage → (bits : Nat) → List Step
  | [], _ => []
  | s :: rest, bits => ⟨s.pages, 2 ^ s.bits, 2 ^ (bits - s.bits)⟩ :: stepsOf rest (bits - s.bits)

/-- From a block of the first step go down all steps.  The answer is the block reached and the key
left for it. -/
def follow : List Step → (block key : Nat) → Option (Nat × Nat)
  | [], block, key => some (block, key)
  | s :: rest, block, key =>
    match s.pages[block * s.blockSize + key / s.span]? with
    | none => none
    | some page => follow rest page (key % s.span)

/-- The way from a key to its value. -/
structure Route where
  steps : List Step
  leaf : Leaf
  /-- Values of a block of leaves. -/
  leafSize : Nat
  /-- Number of keys. -/
  keys : Nat

/-- The value a key leads to. -/
def Route.find? (r : Route) (key : Nat) : Option UInt32 :=
  match follow r.steps 0 key with
  | none => none
  | some (block, rest) => r.leaf.get? (block * r.leafSize + rest)

/-- The value of a code point, or the default for those outside. -/
def Route.get (r : Route) (default code : UInt32) : UInt32 :=
  if code.toNat < r.keys then (r.find? code.toNat).getD default else default

namespace Table

/-- The way from keys to values. -/
def route (t : Table) : Route :=
  ⟨stepsOf t.stages t.layout.keyBits, t.leaf, 2 ^ t.leaf.bits, 2 ^ t.layout.keyBits⟩

/-- The value of a code point. -/
def get (t : Table) (code : UInt32) : UInt32 :=
  t.route.get t.default code

end Table

end Multistage
