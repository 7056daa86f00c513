/-!
# Sets of characters

A set of characters is a list of intervals of numbers, in order and apart from each other.  It also
says whether it is known to have with each letter the other case of it.

* `CharSet.contains` — the set has the character with the given number.
* `CharSet.union`, `CharSet.inter`, `CharSet.diff`, `CharSet.differ`, `CharSet.compl` — the operations
  on sets.
* `CharSet.named?` — the sets of ASCII characters that have a name.
-/

namespace Multistage

/-- What a pattern is about. -/
inductive Alphabet where
  | bytes
  | characters
  deriving DecidableEq, Repr

namespace Alphabet

/-- The greatest number. -/
def top : Alphabet → Nat
  | bytes => 0xFF
  | characters => 0x10FFFF

/-- The number of the next character; the surrogates are none. -/
def next (c : Nat) : Nat :=
  if c = 0xD7FF then 0xE000 else c + 1

/-- The number of the character before. -/
def previous (c : Nat) : Nat :=
  if c = 0xE000 then 0xD7FF else c - 1

end Alphabet

/-- The numbers from `first` to `last`, both included. -/
structure Interval where
  first : Nat
  last : Nat
  deriving DecidableEq, Repr

namespace Interval

/-- The interval has the number. -/
def contains (i : Interval) (c : Nat) : Bool :=
  i.first ≤ c && c ≤ i.last

/-- How many numbers there are from the first to the last. -/
def size (i : Interval) : Nat :=
  i.last + 1 - i.first

/-- The interval between two numbers, in whichever order. -/
def between (a b : Nat) : Interval :=
  ⟨min a b, max a b⟩

/-- What two intervals have in common. -/
def inter? (i j : Interval) : Option Interval :=
  let first := max i.first j.first
  let last := min i.last j.last
  if first ≤ last then some ⟨first, last⟩ else none

/-- What is in the first interval only. -/
def minus (i j : Interval) : List Interval :=
  if (i.inter? j).isNone then [i]
  else
    (if i.first < j.first then [⟨i.first, Alphabet.previous j.first⟩] else []) ++
      (if j.last < i.last then [⟨Alphabet.next j.last, i.last⟩] else [])

/-- One more interval in a list; those that it meets or touches become one with it. -/
def insert (i : Interval) : List Interval → List Interval
  | [] => [i]
  | j :: rest =>
    if i.last + 1 < j.first then i :: j :: rest
    else if j.last + 1 < i.first then j :: insert i rest
    else insert ⟨min i.first j.first, max i.last j.last⟩ rest

/-- What lies after an interval and outside of those that follow it. -/
def gaps (top : Nat) (i : Interval) : List Interval → List Interval
  | [] => if i.last < top then [⟨Alphabet.next i.last, top⟩] else []
  | j :: rest =>
    between (Alphabet.next i.last) (Alphabet.previous j.first) :: gaps top j rest

/-- The other case of the letters in an interval. -/
def otherCase (i : Interval) : List Interval :=
  ((i.inter? ⟨0x61, 0x7A⟩).map fun j => ⟨j.first - 0x20, j.last - 0x20⟩).toList ++
    ((i.inter? ⟨0x41, 0x5A⟩).map fun j => ⟨j.first + 0x20, j.last + 0x20⟩).toList

end Interval

structure CharSet where
  intervals : List Interval
  /-- With each letter the other case of it is in the set. -/
  folded : Bool
  deriving DecidableEq, Repr

namespace CharSet

/-- The character with the number is in the set. -/
def contains (s : CharSet) (c : Nat) : Bool :=
  s.intervals.any (·.contains c)

/-- The set without characters. -/
def empty : CharSet :=
  ⟨[], true⟩

def isEmpty (s : CharSet) : Bool :=
  s.intervals.isEmpty

/-- One more interval. -/
def insert (i : Interval) (s : CharSet) : CharSet :=
  ⟨i.insert s.intervals, false⟩

/-- The set of intervals in any order. -/
def ofIntervals (is : List Interval) : CharSet :=
  is.foldl (fun s i => s.insert i) empty

/-- No character beyond ASCII is in the set. -/
def isAscii (s : CharSet) : Bool :=
  s.intervals.all (·.last < 0x80)

/-- What is in one of the two sets. -/
def union (a b : CharSet) : CharSet :=
  if b.isEmpty || a.intervals == b.intervals then a
  else ⟨b.intervals.foldl (fun is i => i.insert is) a.intervals, a.folded && b.folded⟩

/-- What is in both sets. -/
def inter (a b : CharSet) : CharSet :=
  if a.isEmpty then a
  else if b.isEmpty then empty
  else ⟨a.intervals.flatMap fun i => b.intervals.filterMap i.inter?, a.folded && b.folded⟩

/-- What is in the first set only. -/
def diff (a b : CharSet) : CharSet :=
  if a.isEmpty || b.isEmpty then a
  else ⟨b.intervals.foldl (fun is j => is.flatMap (·.minus j)) a.intervals, a.folded && b.folded⟩

/-- What is in one of the two sets, and not in both. -/
def differ (a b : CharSet) : CharSet :=
  (a.union b).diff (a.inter b)

/-- What is outside of the set.  Between the characters on both sides of the surrogates there is
none, and the interval of the two stands for the gap. -/
def compl (alphabet : Alphabet) (s : CharSet) : CharSet :=
  match s.intervals with
  | [] => ⟨[⟨0, alphabet.top⟩], true⟩
  | i :: rest =>
    let front := if 0 < i.first then [⟨0, Alphabet.previous i.first⟩] else []
    ⟨front ++ i.gaps alphabet.top rest, s.folded⟩

/-- The set with both cases of its letters.  There are no tables of letters beyond ASCII, so of a set
of characters this is known only if it is empty or has been completed before. -/
def bothCases? (alphabet : Alphabet) (s : CharSet) : Option CharSet :=
  if s.folded then some s
  else match alphabet with
    | .bytes =>
      let others := s.intervals.flatMap (·.otherCase)
      some ⟨others.foldl (fun is i => i.insert is) s.intervals, true⟩
    | .characters => if s.isEmpty then some ⟨[], true⟩ else none

/-- Digits. -/
def digit : CharSet := ofIntervals [⟨0x30, 0x39⟩]

/-- Letters, digits and the low line. -/
def word : CharSet := ofIntervals [⟨0x30, 0x39⟩, ⟨0x41, 0x5A⟩, ⟨0x5F, 0x5F⟩, ⟨0x61, 0x7A⟩]

/-- Space and the control characters that move the place of writing. -/
def space : CharSet := ofIntervals [⟨0x09, 0x0D⟩, ⟨0x20, 0x20⟩]

/-- The ASCII characters that have a name. -/
def named? : String → Option CharSet
  | "alnum" => some (ofIntervals [⟨0x30, 0x39⟩, ⟨0x41, 0x5A⟩, ⟨0x61, 0x7A⟩])
  | "alpha" => some (ofIntervals [⟨0x41, 0x5A⟩, ⟨0x61, 0x7A⟩])
  | "ascii" => some (ofIntervals [⟨0x00, 0x7F⟩])
  | "blank" => some (ofIntervals [⟨0x09, 0x09⟩, ⟨0x20, 0x20⟩])
  | "cntrl" => some (ofIntervals [⟨0x00, 0x1F⟩, ⟨0x7F, 0x7F⟩])
  | "digit" => some digit
  | "graph" => some (ofIntervals [⟨0x21, 0x7E⟩])
  | "lower" => some (ofIntervals [⟨0x61, 0x7A⟩])
  | "print" => some (ofIntervals [⟨0x20, 0x7E⟩])
  | "punct" => some (ofIntervals [⟨0x21, 0x2F⟩, ⟨0x3A, 0x40⟩, ⟨0x5B, 0x60⟩, ⟨0x7B, 0x7E⟩])
  | "space" => some space
  | "upper" => some (ofIntervals [⟨0x41, 0x5A⟩])
  | "word" => some word
  | "xdigit" => some (ofIntervals [⟨0x30, 0x39⟩, ⟨0x41, 0x46⟩, ⟨0x61, 0x66⟩])
  | _ => none

end CharSet

end Multistage
