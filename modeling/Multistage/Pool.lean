import Std.Data.HashMap
import Multistage.Arith

/-!
# Pools of shared blocks

A pool holds blocks of one size, each content once.  Blocks are numbered from zero in the order in
which their contents first came in.

* `Pool.add` — the number of a block, which is added if its content is new.
* `Pool.add?` — the same for a block that may have the wrong size.
* `Pool.shareBlocks` — the pool of the blocks of an array, and the number of each block.
* `Pool.share?` — the distinct blocks of an array of whole blocks, and the number of each block.
-/

namespace Multistage

/-- Distinct blocks of `blockSize` cells, and the number of each. -/
structure Pool (α : Type) [BEq α] [Hashable α] where
  blockSize : Nat
  /-- The number of each block by its content. -/
  index : Std.HashMap (Array α) Nat
  /-- The cells of all blocks in the order of their numbers. -/
  cells : Array α

namespace Pool

variable {α : Type} [BEq α] [Hashable α]

/-- A pool without blocks. -/
def empty (blockSize : Nat) : Pool α :=
  ⟨blockSize, ∅, #[]⟩

/-- Number of distinct blocks. -/
def blockCount (p : Pool α) : Nat :=
  p.index.size

/-- The number of a block and the pool that holds it. -/
@[specialize]
def add (p : Pool α) (block : Array α) : Nat × Pool α :=
  match p.index[block]? with
  | some number => (number, p)
  | none =>
    let number := p.index.size
    (number, ⟨p.blockSize, p.index.insert block number, p.cells ++ block⟩)

/-- As `add`, but a block of the wrong size is refused. -/
@[specialize]
def add? (p : Pool α) (block : Array α) : Option (Nat × Pool α) :=
  if block.size = p.blockSize then some (p.add block) else none

/-- Add the `count` blocks of `cells` from index `start` on, and their numbers to `refs`. -/
@[specialize]
def addBlocks (cells : Array α) : Nat → Nat → Pool α → Array Nat → Pool α × Array Nat
  | 0, _, p, refs => (p, refs)
  | count + 1, start, p, refs =>
    let stop := start + p.blockSize
    let (number, p) := p.add (cells.extract start stop)
    addBlocks cells count stop p (refs.push number)

/-- The pool of the blocks of `size` cells, and the number of each block in turn. -/
@[specialize]
def shareBlocks (size : Nat) (cells : Array α) : Pool α × Array Nat :=
  addBlocks cells (cells.size / size) 0 (empty size) #[]

/-- The distinct blocks of `2 ^ bits` cells in the order of their first appearance, and the number of
each block in turn. -/
@[specialize]
def share (bits : Nat) (cells : Array α) : Array α × Array Nat :=
  let (pool, refs) := shareBlocks (2 ^ bits) cells
  (pool.cells, refs)

end Pool

end Multistage
