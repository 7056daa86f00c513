import Multistage.Pattern.Normal
import Multistage.Pattern.ByteRange

/-!
# Sizes of patterns

A pattern is searched for by a machine that reads a text byte by byte, forward to find where a part
ends and backward to find where it starts.  The machine has a node for each step, with repetitions
written out, and takes so many bytes for each node and for each way that a node divides into.

* `Pattern.size` — the bytes of the nodes for a pattern.
* `Pattern.machineSize` — the same with the nodes that find a part anywhere in a text.
-/

namespace Multistage.Pattern

/-- The way in which a text is read. -/
inductive Direction where
  | forward
  | backward
  deriving DecidableEq, Repr

/-- The bytes of a node. -/
def nodeBytes : Nat := 32

/-- The bytes of a node that divides by the next byte of the text, in so many ways. -/
def switchBytes (ways : Nat) : Nat := nodeBytes + 8 * ways

/-- The bytes of a node that divides without reading, in so many ways. -/
def forkBytes (ways : Nat) : Nat := nodeBytes + 4 * ways

/-! ## Sets -/

/-- Sequences that follow each other and begin with the same range. -/
def byHead (seqs : List (List ByteRange)) : List (List (List ByteRange)) :=
  seqs.splitBy fun a b => a.head? == b.head?

/-- What is still to be read at each node, if sequences are read from the front. -/
def rests : (length : Nat) → List (List ByteRange) → List (List (List ByteRange))
  | 0, _ => []
  | length + 1, seqs =>
    seqs :: (byHead seqs).flatMap fun same =>
      let tails := same.map List.tail
      if tails == [[]] then [] else rests length tails

/-- The fronts of a sequence that are not empty. -/
def fronts : List ByteRange → List (List ByteRange)
  | [] => []
  | r :: rest => [r] :: (fronts rest).map (r :: ·)

/-- The bytes of one character of a set.  Forward, nodes from which the same is to be read are one;
backward, those from which the same has been read. -/
def setSize (direction : Direction) (members : List Interval) : Nat :=
  if members.all (·.last < 0x80) then nodeBytes + switchBytes members.length
  else
    let seqs := members.flatMap ByteRange.sequences
    match direction with
    | .forward =>
      let nodes := (rests 4 seqs).eraseDups
      nodeBytes + (nodes.map fun seqs => switchBytes (byHead seqs).length).sum
    | .backward => nodeBytes + forkBytes seqs.length + nodeBytes * (seqs.flatMap fronts).eraseDups.length

/-! ## Words -/

/-- Words divided at those that are empty. -/
def atEmpty : List (List UInt8) → List (List (List UInt8))
  | [] => [[]]
  | [] :: words => [] :: atEmpty words
  | word :: words =>
    match atEmpty words with
    | [] => [[word]]
    | front :: more => (word :: front) :: more

/-- Words that begin with the same byte, without it. -/
def byFirst (words : List (List UInt8)) : List (List (List UInt8)) :=
  (words.filterMap List.head?).eraseDups.map fun byte =>
    (words.filter (·.head? == some byte)).map List.tail

/-- The bytes of a tree of words: those that begin with the same byte share a node, but a word that
ends at a node comes before all words that follow it. -/
def treeSize : (length : Nat) → List (List UInt8) → Nat
  | 0, _ => 0
  | length + 1, words =>
    if words.all List.isEmpty then 0
    else
      let words := match words with
        | [] :: words => [] :: words.dropWhile List.isEmpty
        | words => words
      let runs := atEmpty words
      let switches := (runs.filter (! ·.isEmpty)).map byFirst
      let ways := switches.length + (runs.length - 1)
      forkBytes ways +
        (switches.map fun rests =>
          (if rests.length = 1 then nodeBytes else switchBytes rests.length) +
            (rests.map (treeSize length)).sum).sum

/-- The bytes of a text. -/
def utf8 (text : List Char) : List UInt8 :=
  text.flatMap String.utf8EncodeChar

/-- The texts of alternatives that are all literals. -/
def literals? : Pattern → Option (List (List Char))
  | alt (literal text) b => (literals? b).map (text :: ·)
  | literal text => some [text]
  | _ => none

/-- The bytes of one of some words. -/
def wordsSize (direction : Direction) (texts : List (List Char)) : Nat :=
  let words := match direction with
    | .forward => texts.map utf8
    | .backward => texts.map fun text => (utf8 text).reverse
  nodeBytes + treeSize ((words.map List.length).foldl max 0) words

/-! ## Patterns -/

/-- The bytes of the way to one of several alternatives. -/
def wayTo (several : Bool) : Nat := if several then 4 else 0

/-- The fewest bytes of a part; nothing if the pattern has a set without members in it. -/
def leastBytes? : Pattern → Option Nat
  | empty | edge _ => some 0
  | literal text => some (utf8 text).length
  | set _ [] => none
  | set _ (i :: _) => some (Char.ofNat i.first).utf8Size
  | seq a b =>
    match a.leastBytes?, b.leastBytes? with
    | some m, some n => some (m + n)
    | _, _ => none
  | alt a b =>
    match a.leastBytes?, b.leastBytes? with
    | some m, some n => some (min m n)
    | _, _ => none
  | times p least _ _ => p.leastBytes?.map (least * ·)
  | group _ p => p.leastBytes?

/-- The bytes of a part that takes `size` bytes once, repeated.  A part that can be empty must not
lead back to itself without reading. -/
def timesSize (size : Nat) (canBeEmpty : Bool) : (least : Nat) → (most : Option Nat) → Nat
  | 0, some 1 => size + forkBytes 2 + nodeBytes
  | 0, none => size + (if canBeEmpty then 2 * forkBytes 2 + nodeBytes else forkBytes 2)
  | least, none => least * size + forkBytes 2
  | least, some most =>
    let first := if least = 0 then nodeBytes else least * size
    if least = most then first else first + nodeBytes + (most - least) * (forkBytes 2 + size)

/-- The bytes of a pattern, with those of the way to it if it is one of several alternatives. -/
def sizeAmong (direction : Direction) : (several : Bool) → Pattern → Nat
  | several, empty | several, edge _ => wayTo several + nodeBytes
  | several, literal text => wayTo several + nodeBytes * (utf8 text).length
  | several, set _ members => wayTo several + setSize direction members
  | several, seq a b => wayTo several + sizeAmong direction false a + sizeAmong direction false b
  | several, times p least most _ =>
    wayTo several + timesSize (sizeAmong direction false p) (p.leastBytes?.getD 0 == 0) least most
  | several, group _ p =>
    wayTo several + sizeAmong direction false p + if direction = .forward then 2 * nodeBytes else 0
  | several, alt a b =>
    let ways := sizeAmong direction true a + sizeAmong direction true b
    if several then ways
    else
      match (alt a b).literals? with
      | some texts => wordsSize direction texts
      | none => forkBytes 0 + ways + nodeBytes

/-- The bytes of a pattern. -/
def size (direction : Direction) (p : Pattern) : Nat :=
  sizeAmong direction false p

/-! ## Machines -/

/-- All parts start at the start of the text, as the pattern says. -/
def startsText : Pattern → Bool
  | edge e => e == .textStart
  | seq a b => a.startsText || a.neverConsumes && b.startsText
  | alt a b => a.startsText && b.startsText
  | times p least _ _ => 0 < least && p.startsText
  | group _ p => p.startsText
  | empty | literal _ | set _ _ => false

/-- All parts end at the end of the text, as the pattern says. -/
def endsText : Pattern → Bool
  | edge e => e == .textEnd
  | seq a b => b.endsText || b.neverConsumes && a.endsText
  | alt a b => a.endsText && b.endsText
  | times p least _ _ => 0 < least && p.endsText
  | group _ p => p.endsText
  | empty | literal _ | set _ _ => false

/-- The bytes of what stands in front of a pattern: a node, or a loop over any bytes. -/
def frontSize (anchored : Bool) : Nat :=
  if anchored then nodeBytes else forkBytes 2 + nodeBytes + switchBytes 1

/-- The bytes of the machine that searches for a pattern.  Forward it keeps where the part starts and
ends; both ways it has a node that tells that a part has been found. -/
def machineSize (p : Pattern) : Direction → Nat
  | .forward => frontSize p.startsText + 2 * nodeBytes + size .forward p + nodeBytes
  | .backward => frontSize p.endsText + size .backward p + nodeBytes

end Multistage.Pattern
