import Multistage.Pattern.Size

/-!
# Patterns of a few words

Some patterns describe a few words and nothing else.  Such words can be searched for as they are; but
if they begin alike or are many, then it is their beginnings that are searched for.

* `Pattern.words?` — the words of a pattern, if they are few and short.
* `Pattern.isWordList` — the pattern only says which words, and they are searched for as they are.
-/

namespace Multistage.Pattern

/-- Most words of a pattern. -/
def maxWords : Nat := 250

/-- Most bytes of a word. -/
def maxWordBytes : Nat := 100

/-- Most members of a set that are taken as words. -/
def maxMembers : Nat := 10

/-- Most repetitions that are written out. -/
def maxRepeats : Nat := 10

/-- Words, unless they are too many or too long. -/
def few? (words : List (List Char)) : Option (List (List Char)) :=
  if words.length ≤ maxWords && words.all fun word => (utf8 word).length ≤ maxWordBytes then
    some words.eraseReps
  else none

/-- A word of the first, followed by a word of the second.  Nothing follows if there are no words. -/
def crossed? : List (List Char) → Option (List (List Char)) → Option (List (List Char))
  | [], _ => some []
  | _, none => none
  | as, some bs =>
    if as.length * bs.length ≤ maxWords then few? (as.flatMap fun a => bs.map (a ++ ·)) else none

/-- So many words, one after the other. -/
def power? (words : List (List Char)) : Nat → Option (List (List Char))
  | 0 => some [[]]
  | n + 1 => (power? words n).bind fun front => crossed? front (some words)

/-- The words of the members of a set. -/
def memberWords? (members : List Interval) : Option (List (List Char)) :=
  if (members.map (·.size)).sum ≤ maxMembers then
    some (members.flatMap fun i => (List.range i.size).map fun k => [Char.ofNat (i.first + k)])
  else none

/-- The words of a part that has the given words, repeated.  Without any it can only be left out. -/
def timesWords? (least : Nat) (most : Option Nat) (many : Bool) :
    List (List Char) → Option (List (List Char))
  | [] => some (if least = 0 then [[]] else [])
  | words =>
    if least = 0 then
      if most = some 1 then few? (if many then words ++ [[]] else [] :: words) else none
    else if most = some least && least ≤ maxRepeats then power? words least
    else none

/-- One of the words of `front`, followed by a word of the pattern. -/
def wordsAfter? (front : List (List Char)) : Pattern → Option (List (List Char))
  | empty | edge _ => some front
  | literal text => crossed? front (few? [text])
  | set _ members => crossed? front (memberWords? members)
  | seq a b => (a.wordsAfter? front).bind (b.wordsAfter? ·)
  | alt a b =>
    crossed? front <|
      match a.wordsAfter? [[]], b.wordsAfter? [[]] with
      | some as, some bs => few? (as ++ bs)
      | _, _ => none
  | times p least most many =>
    crossed? front ((p.wordsAfter? [[]]).bind (timesWords? least most many))
  | group _ p => crossed? front (p.wordsAfter? [[]])

/-- The words of a pattern. -/
def words? (p : Pattern) : Option (List (List Char)) :=
  p.wordsAfter? [[]]

/-! ## How words are searched for -/

/-- Words without those that begin with a word before them. -/
def leading (words : List (List UInt8)) : List (List UInt8) :=
  words.foldl (fun kept word => if kept.any (·.isPrefixOf word) then kept else kept ++ [word]) []

/-- What two words begin with. -/
def commonStart : List UInt8 → List UInt8 → List UInt8
  | a :: as, b :: bs => if a = b then a :: commonStart as bs else []
  | _, _ => []

/-- What all words begin with. -/
def sharedStart : List (List UInt8) → List UInt8
  | [] => []
  | [word] => word
  | word :: words => commonStart word (sharedStart words)

/-- The byte is frequent in texts. -/
def isFrequent (byte : UInt8) : Bool :=
  0x80 ≤ byte || (utf8 "\n\r (),-./0129:_abcdefghilmnoprstuvxy|".toList).contains byte

/-- Shorten words until they are not too many, given lengths to shorten to and how many are not too
many for each. -/
def shortened : List (Nat × Nat) → List (List UInt8) → List (List UInt8)
  | [], words => words
  | (length, enough) :: more, words =>
    if words.length ≤ enough then words
    else shortened more (leading (words.map (·.take length)))

/-- The words are searched for as they are.  Words that share a short start with a rare first byte, or
a long start, are searched for by the start, and many words by their first bytes, unless there are
still many or some are too short to tell. -/
def searchedWhole (words : List (List UInt8)) : Bool :=
  let kept := leading words
  let start := sharedStart kept
  let rare := start.head?.any (! isFrequent ·)
  if 1 < words.length && rare && start.length ≤ 3 then kept.all (·.length ≤ 1)
  else if 4 < start.length || 1 < start.length && 16 < kept.length then kept.length ≤ 1
  else
    let short := shortened [(5, 10), (4, 10), (3, 64), (2, 64), (1, 10)] kept
    short == kept || short.any (·.length ≤ 2) || 64 < short.length

/-- There are no conditions and no groups. -/
def isBare : Pattern → Bool
  | empty | literal _ | set _ _ => true
  | edge _ | group _ _ => false
  | seq a b | alt a b => a.isBare && b.isBare
  | times p _ _ _ => p.isBare

/-- The pattern only says which words, there are some, none of them empty, and they are searched for as
they are. -/
def isWordList (p : Pattern) : Bool :=
  p.isBare &&
    match p.words? with
    | none | some [] => false
    | some words => words.all (! ·.isEmpty) && searchedWhole (words.map utf8)

end Multistage.Pattern
