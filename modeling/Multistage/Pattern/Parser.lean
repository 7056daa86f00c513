import Multistage.Pattern.Bracket
import Multistage.Pattern.Words
import Multistage.Text.Alphabetic
import Multistage.Text.Numeric

/-!
# Patterns as text

A pattern is written with characters that stand for themselves, a point for any character, brackets
for sets, parentheses for groups, a vertical line between alternatives, and the signs of repetition.

* `Pattern.ofText?` — the pattern of a text, if it is one.
-/

namespace Multistage.Pattern

/-- A part that has been read. -/
structure Piece where
  pattern : Pattern
  /-- How deeply parts nest in it. -/
  depth : Nat := 0
  /-- A sign of repetition can follow. -/
  repeatable : Bool := true

/-- Where reading stands. -/
structure Cursor where
  rest : List Char
  flags : Flags := {}
  /-- The number of groups so far. -/
  groups : Nat := 0
  /-- The names of groups so far. -/
  names : List String := []

namespace Piece

/-- How deeply parts nest in several. -/
def depthOf (ps : List Piece) : Nat :=
  (ps.map fun p => p.depth + 1).foldl max 0

/-- Parts one after the other, the last first. -/
def ofReversed : List Piece → Piece
  | [] => ⟨.empty, 0, true⟩
  | [p] => p
  | ps => ⟨.ofParts (ps.reverse.map (·.pattern)), depthOf ps, true⟩

/-- Alternatives, the last first. -/
def ofBranches : List Piece → Piece
  | [] => ⟨.empty, 0, true⟩
  | [p] => p
  | ps => ⟨.ofBranches (ps.reverse.map (·.pattern)), depthOf ps, true⟩

/-- The last part repeated. -/
def repeated? (least : Nat) (most : Option Nat) (many : Bool) : List Piece → Option (List Piece)
  | [] => none
  | p :: before =>
    if p.repeatable then
      some (⟨p.pattern.repeated least most many, p.depth + 1, true⟩ :: before)
    else none

/-- The pattern of a character.  Both cases of a letter are known for bytes only, and a byte beyond
ASCII is no character. -/
def ofChar? (flags : Flags) (code : Nat) (isByte : Bool) : Option Pattern :=
  match flags.alphabet with
  | .characters => if flags.anyCase then none else some (.literal [Char.ofNat code])
  | .bytes =>
    if 0x80 ≤ code then if isByte then none else some (.literal [Char.ofNat code])
    else (Bracket.folded? flags (.ofIntervals [⟨code, code⟩])).map (.ofSet .bytes ·)

/-- The part of an atom.  Without tables of characters, the sets of digits, white space and words are
known for bytes only. -/
def ofAtom? (flags : Flags) : Atom → Option Piece
  | .char code isByte => (ofChar? flags code isByte).map (⟨·, 0, true⟩)
  | .set members negated =>
    if flags.alphabet = .characters || negated then none
    else some ⟨.ofSet .bytes members, 0, true⟩
  | .edge e => some ⟨.edge e, 0, true⟩

end Piece

/-! ## Repetitions -/

/-- Whether a repetition prefers many, which a question mark after it turns around, and the characters
after. -/
def preference (flags : Flags) : List Char → Bool × List Char
  | '?' :: cs => (flags.few, cs)
  | cs => (! flags.few, cs)

/-- Decimal digits, with white space around them. -/
def digits (flags : Flags) : (fuel : Nat) → List Char → List Char × List Char
  | 0, cs => ([], cs)
  | fuel + 1, cs =>
    match cs with
    | c :: rest =>
      if c.isDigit then
        let (more, rest) := digits flags fuel (flags.next rest)
        (c :: more, rest)
      else ([], cs)
    | [] => ([], [])

/-- A number of repetitions, nothing if there are no digits. -/
def count? (flags : Flags) (cs : List Char) : Option (Option Nat × List Char) :=
  let (written, rest) := digits flags (cs.length + 1) (Text.trimFront cs)
  let rest := Text.trimFront rest
  match written with
  | [] => some (none, rest)
  | written =>
    let n := written.foldl (fun n c => 10 * n + (c.toNat - 0x30)) 0
    if n < 2 ^ 32 then some (some n, rest) else none

/-- The least and greatest number of repetitions, given the characters after the opening brace. -/
def counts? (flags : Flags) (cs : List Char) : Option (Nat × Option Nat × List Char) :=
  match count? flags (flags.next cs) with
  | some (some least, '\x7d' :: rest) => some (least, some least, rest)
  | some (some least, ',' :: rest) =>
    match flags.next rest with
    | '\x7d' :: rest => some (least, none, rest)
    | rest =>
      match count? flags rest with
      | some (some most, '\x7d' :: rest) =>
        if least ≤ most then some (least, some most, rest) else none
      | _ => none
  | _ => none

/-! ## Groups -/

/-- A character of the name of a group. -/
def isNameChar (first : Bool) (c : Char) : Bool :=
  c == '_' || Text.isAlphabetic c ||
    ! first && (Text.isNumeric c || c == '.' || c == '[' || c == ']')

/-- The name of a group up to the closing angle. -/
def groupName? (cs : List Char) : Option (String × List Char) :=
  let name := cs.takeWhile (· != '>')
  match cs.dropWhile (· != '>'), name with
  | _ :: rest, c :: more =>
    if isNameChar true c && more.all (isNameChar false) then some (String.ofList name, rest) else none
  | _, _ => none

/-- The letters of flags, up to the end of the group or of its head.  `seen` are the letters before,
and the hyphen after which flags are taken back. -/
def flagLetters? : (seen : List Char) → Flags → List Char → Option (List Char × Flags × List Char)
  | _, _, [] => none
  | seen, flags, c :: cs =>
    if c == ':' || c == ')' then
      if seen.head? == some '-' then none else some (seen, flags, c :: cs)
    else if seen.contains c then none
    else
      let on := ! seen.contains '-'
      match c with
      | '-' => flagLetters? (c :: seen) flags cs
      | 'i' => flagLetters? (c :: seen) { flags with anyCase := on } cs
      | 'm' => flagLetters? (c :: seen) { flags with lines := on } cs
      | 's' => flagLetters? (c :: seen) { flags with anyChar := on } cs
      | 'R' => flagLetters? (c :: seen) { flags with returns := on } cs
      | 'U' => flagLetters? (c :: seen) { flags with few := on } cs
      | 'u' =>
        flagLetters? (c :: seen) { flags with alphabet := if on then .characters else .bytes } cs
      | 'x' => flagLetters? (c :: seen) { flags with verbose := on } cs
      | _ => none

/-- What an opening parenthesis begins. -/
inductive Opening where
  /-- Flags for the rest of the group around. -/
  | flags (next : Cursor)
  /-- A group, with a number if it is to be kept; `inner` is where its inside begins. -/
  | group (number : Option Nat) (inner : Cursor)

/-- A group with a name that no other has. -/
def namedGroup? (c : Cursor) (cs : List Char) : Option Opening :=
  match groupName? cs with
  | none => none
  | some (name, rest) =>
    let number := c.groups + 1
    if c.names.contains name then none
    else some (.group number { c with rest, groups := number, names := name :: c.names })

/-- What begins after an opening parenthesis.  Looking ahead and behind is not known. -/
def opening? (c : Cursor) (cs : List Char) : Option Opening :=
  match c.flags.next cs with
  | '?' :: '=' :: _ | '?' :: '!' :: _ | '?' :: '<' :: '=' :: _ | '?' :: '<' :: '!' :: _ => none
  | '?' :: 'P' :: '<' :: rest => namedGroup? c rest
  | '?' :: '<' :: rest => namedGroup? c rest
  | '?' :: rest =>
    match flagLetters? [] c.flags rest with
    | some ([], _, ')' :: _) => none
    | some (_, flags, ')' :: rest) => some (.flags { c with rest, flags })
    | some (_, flags, ':' :: rest) => some (.group none { c with rest, flags })
    | _ => none
  | rest => some (.group (some (c.groups + 1)) { c with rest, groups := c.groups + 1 })

/-- The piece of a group. -/
def Piece.ofGroup (number : Option Nat) (p : Piece) : Piece :=
  let pattern := match number with
    | none => p.pattern
    | some number => .group number p.pattern
  ⟨pattern, p.depth + 1, true⟩

/-! ## The whole -/

/-- The whole of the alternatives and the parts of the last alternative. -/
def finished (branches pieces : List Piece) : Piece :=
  .ofBranches (.ofReversed pieces :: branches)

/-- Read to the end of the group around, with the alternatives and the parts of the last alternative
that have been read, each the last first. -/
def parts? : (fuel : Nat) → Cursor → (branches pieces : List Piece) → Option (Piece × Cursor)
  | 0, _, _, _ => none
  | fuel + 1, c, branches, pieces =>
    let repeated := fun (least : Nat) (most : Option Nat) (rest : List Char) =>
      let (many, rest) := preference c.flags rest
      match Piece.repeated? least most many pieces with
      | none => none
      | some pieces => parts? fuel { c with rest } branches pieces
    match c.flags.next c.rest with
    | [] => some (finished branches pieces, { c with rest := [] })
    | ')' :: rest => some (finished branches pieces, { c with rest := ')' :: rest })
    | '|' :: rest => parts? fuel { c with rest } (.ofReversed pieces :: branches) []
    | '(' :: rest =>
      match opening? c rest with
      | none => none
      | some (.flags next) => parts? fuel next branches (⟨.empty, 0, false⟩ :: pieces)
      | some (.group number inner) =>
        match parts? fuel inner [] [] with
        | some (p, ⟨')' :: rest, _, groups, names⟩) =>
          parts? fuel { c with rest, groups, names } branches (p.ofGroup number :: pieces)
        | _ => none
    | '[' :: rest =>
      match Bracket.read? c.flags rest with
      | none => none
      | some (b, rest) =>
        parts? fuel { c with rest } branches (⟨.ofSet c.flags.alphabet b.set, b.depth, true⟩ :: pieces)
    | '?' :: rest => repeated 0 (some 1) rest
    | '*' :: rest => repeated 0 none rest
    | '+' :: rest => repeated 1 none rest
    | '\x7b' :: rest =>
      match counts? c.flags rest with
      | none => none
      | some (least, most, rest) => repeated least most (c.flags.next rest)
    | '.' :: rest =>
      match c.flags.alphabet with
      | .bytes => none
      | .characters =>
        parts? fuel { c with rest } branches (⟨.ofSet .characters c.flags.point, 0, true⟩ :: pieces)
    | '^' :: rest => parts? fuel { c with rest } branches (⟨.edge c.flags.start, 0, true⟩ :: pieces)
    | '$' :: rest => parts? fuel { c with rest } branches (⟨.edge c.flags.finish, 0, true⟩ :: pieces)
    | rest =>
      match Atom.read? c.flags rest with
      | none => none
      | some (atom, rest) =>
        match Piece.ofAtom? c.flags atom with
        | none => none
        | some p => parts? fuel { c with rest } branches (p :: pieces)

/-- Most parts inside each other. -/
def maxDepth : Nat := 250

/-- Most bytes of a machine. -/
def maxBytes : Nat := 10 * 2 ^ 20

/-- The machine of a pattern is not too large.  A few words are searched for without one. -/
def fits (p : Pattern) : Bool :=
  p.isWordList || p.machineSize .forward ≤ maxBytes && p.machineSize .backward ≤ maxBytes

/-- The pattern of a text.  One that nests too deeply, has a condition that cannot be decided or is too
large is none. -/
def ofText? (text : String) : Option Pattern :=
  match parts? (text.length + 1) { rest := text.toList } [] [] with
  | some (⟨p, depth, _⟩, ⟨[], _, _, _⟩) =>
    if depth ≤ maxDepth && p.isKnown && p.fits then some p else none
  | _ => none

end Multistage.Pattern
