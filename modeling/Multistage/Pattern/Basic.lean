import Multistage.Arith
import Multistage.Pattern.CharSet

/-!
# Patterns

A pattern describes parts of a text.  The places of a text, before its first character, between two
characters and after its last, are numbered from zero, and a set of places is a number whose bits are
the places.  A pattern leads from a set of places to the places where a part can end that starts in
one of them.

* `Pattern.reach` — the places a pattern leads to.
* `Pattern.occursIn` — some part of the text is as the pattern describes.
-/

namespace Multistage

/-- What the characters on both sides of a place have to do with words. -/
inductive WordEdge where
  | edge
  | noEdge
  | start
  | finish
  | noWordBefore
  | noWordAfter
  deriving DecidableEq, Repr

/-- A condition on the characters before and after a place. -/
inductive Edge where
  | textStart
  | textEnd
  /-- A line ends with a line feed, or, with `returns`, also with a carriage return. -/
  | lineStart (returns : Bool)
  | lineEnd (returns : Bool)
  | word (alphabet : Alphabet) (e : WordEdge)
  deriving DecidableEq, Repr

namespace Edge

/-- There is a character, and it belongs to a word. -/
def inWord : Option Char → Bool
  | none => false
  | some c => CharSet.word.contains c.toNat

/-- The condition holds between two characters; there is none at the ends of the text. -/
def holds (before after : Option Char) : Edge → Bool
  | textStart => before.isNone
  | textEnd => after.isNone
  | lineStart returns =>
    before.isNone || before == some '\n' || returns && before == some '\r' && after != some '\n'
  | lineEnd returns =>
    after.isNone || after == some '\n' && ! (returns && before == some '\r') ||
      returns && after == some '\r'
  | word _ .edge => inWord before != inWord after
  | word _ .noEdge => inWord before == inWord after
  | word _ .start => ! inWord before && inWord after
  | word _ .finish => inWord before && ! inWord after
  | word _ .noWordBefore => ! inWord before
  | word _ .noWordAfter => ! inWord after

/-- The condition can be decided.  Without tables of characters, words are known for bytes only. -/
def isKnown : Edge → Bool
  | word .characters _ => false
  | _ => true

end Edge

inductive Pattern where
  /-- The empty part. -/
  | empty
  /-- These characters. -/
  | literal (text : List Char)
  /-- One character of a set. -/
  | set (alphabet : Alphabet) (members : List Interval)
  /-- The empty part at places with a condition. -/
  | edge (e : Edge)
  /-- One part, then another. -/
  | seq (a b : Pattern)
  /-- The one or the other. -/
  | alt (a b : Pattern)
  /-- At least so many parts one after the other, and at most so many; many or few are preferred. -/
  | times (p : Pattern) (least : Nat) (most : Option Nat) (many : Bool)
  /-- A numbered group. -/
  | group (number : Nat) (p : Pattern)
  deriving DecidableEq, Repr

namespace Pattern

/-- The places before the characters with a property. -/
def charPlaces (p : Char → Bool) : List Char → Nat
  | [] => 0
  | c :: cs => (p c).toNat + 2 * charPlaces p cs

/-- The places where a condition holds, after the given character. -/
def edgePlaces (e : Edge) : Option Char → List Char → Nat
  | before, [] => (e.holds before none).toNat
  | before, c :: cs => (e.holds before (some c)).toNat + 2 * edgePlaces e (some c) cs

/-- The places after characters with a property that come at one of the given places. -/
def step (p : Char → Bool) (text : List Char) (s : Nat) : Nat :=
  if s = 0 then 0 else 2 * (s &&& charPlaces p text)

/-- Take a step a number of times, or until it changes nothing. -/
def advance (next : Nat → Nat) : Nat → Nat → Nat
  | 0, s => s
  | k + 1, s =>
    let t := next s
    if t = s then s else advance next k t

/-- The places a pattern leads to.  A part takes no place back, so a text of `n` characters has room
for `n` parts that are not empty, and to go on beyond `n + 1` repetitions leads nowhere else. -/
def reach (text : List Char) : Pattern → Nat → Nat
  | empty, s => s
  | literal cs, s => cs.foldl (fun s c => step (· == c) text s) s
  | set _ members, s => step (fun c => members.any (·.contains c.toNat)) text s
  | edge e, s => s &&& edgePlaces e none text
  | seq a b, s => b.reach text (a.reach text s)
  | alt a b, s => a.reach text s ||| b.reach text s
  | times p least most _, s =>
    let limit := text.length + 1
    let more := match most with
      | none => limit
      | some most => min (most - least) limit
    advance (fun s => s ||| p.reach text s) more (advance (p.reach text) (min least limit) s)
  | group _ p, s => p.reach text s

/-- Some part of the text is as the pattern describes. -/
def occursIn (p : Pattern) (text : String) : Bool :=
  p.reach text.toList (2 ^ (text.length + 1) - 1) != 0

/-- All conditions can be decided. -/
def isKnown : Pattern → Bool
  | edge e => e.isKnown
  | seq a b | alt a b => a.isKnown && b.isKnown
  | times p _ _ _ | group _ p => p.isKnown
  | empty | literal _ | set _ _ => true

end Pattern

end Multistage
