import Multistage.Table.Lookup

/-!
# The ranges of a table

`Table.ranges` lists the values of the whole domain as ranges.  The table is walked from the top, a
block as often as it is referred to, so that the values of the leaves come in the order of their code
points.  Each range is as long as it can be: neighbours have different values.

* `CodeRange.extend` — one more code point after some ranges.
* `Table.walkCells` — the cells of a block, up to the end of the domain.
* `Table.walk` — all code points that go through a block.
-/

namespace Multistage

/-- One more code point after ranges that are listed last first: it continues the range that ends
right before it if the values agree. -/
def CodeRange.extend (code value : UInt32) : List CodeRange → List CodeRange
  | [] => [⟨code, code, value⟩]
  | r :: rest =>
    if r.value = value ∧ r.last + 1 = code then { r with last := code } :: rest
    else ⟨code, code, value⟩ :: r :: rest

namespace Table

/-- Visit the `count` cells of a block with their first code points: `base` for the first cell, and
`span` more for each further one.  Cells that start past the last code point are left out. -/
@[specialize]
def walkCells (last span count base : Nat)
    (visit : (cell first : Nat) → List CodeRange → List CodeRange) (ranges : List CodeRange) :
    List CodeRange :=
  (List.range count).foldl
    (fun ranges cell =>
      let first := base + cell * span
      if last < first then ranges else visit cell first ranges)
    ranges

/-- Extend the ranges by the code points from `base` to `last` that go through a block. -/
def walk (leaf : Leaf) (last : Nat) :
    List Step → (block base : Nat) → List CodeRange → List CodeRange
  | [], block, base, ranges =>
    walkCells last 1 (2 ^ leaf.bits) base
      (fun cell first ranges =>
        match leaf.get? (block * 2 ^ leaf.bits + cell) with
        | none => ranges
        | some value => CodeRange.extend (UInt32.ofNat first) value ranges)
      ranges
  | s :: rest, block, base, ranges =>
    walkCells last s.span s.blockSize base
      (fun cell first ranges =>
        match s.pages[block * s.blockSize + cell]? with
        | none => ranges
        | some page => walk leaf last rest page first ranges)
      ranges

/-- The ranges of the domain in order, neighbours of equal value joined. -/
def ranges (t : Table) : List CodeRange :=
  (walk t.leaf (2 ^ t.layout.domainBits - 1) t.route.steps 0 0 []).reverse

end Table

end Multistage
