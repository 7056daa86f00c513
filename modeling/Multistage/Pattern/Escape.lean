import Multistage.Pattern.Basic
import Multistage.Text.Blank

/-!
# Escapes of a pattern

A backslash makes a character that has a meaning stand for itself, and gives a meaning to some that
have none.

* `Flags` — how a pattern is read.
* `Atom` — what an escape or a single character stands for.
* `Atom.read?` — the atom at the front of some characters.
-/

namespace Multistage.Pattern

/-- How a pattern is read from some point on. -/
structure Flags where
  /-- Letters stand for both of their cases. -/
  anyCase : Bool := false
  /-- The pattern is about characters, and not about bytes. -/
  alphabet : Alphabet := .characters
  /-- White space and comments in the pattern mean nothing. -/
  verbose : Bool := false
  /-- The anchors of the text are those of lines. -/
  lines : Bool := false
  /-- A carriage return ends a line as well. -/
  returns : Bool := false
  /-- A point also stands for the end of a line. -/
  anyChar : Bool := false
  /-- Repetitions prefer few, and those with a question mark many. -/
  few : Bool := false
  deriving DecidableEq, Repr

/-- The characters after white space and comments.  A comment goes from a number sign to the end of
the line. -/
def afterBlanks (inComment : Bool) : List Char → List Char
  | [] => []
  | c :: cs =>
    if inComment then afterBlanks (c != '\n') cs
    else if c == '#' then afterBlanks true cs
    else if Text.isBlank c then afterBlanks false cs
    else c :: cs

/-- The characters that come next in meaning. -/
def Flags.next (flags : Flags) (cs : List Char) : List Char :=
  if flags.verbose then afterBlanks false cs else cs

inductive Atom where
  /-- A character.  It is a byte if it is written with exactly two hexadecimal digits. -/
  | char (code : Nat) (isByte : Bool)
  /-- One of the sets of digits, of white space and of characters of words, or what is outside. -/
  | set (members : CharSet) (negated : Bool)
  | edge (e : Edge)
  deriving DecidableEq, Repr

namespace Flags

/-- The condition of a word edge. -/
def wordEdge (flags : Flags) (e : WordEdge) : Edge :=
  .word flags.alphabet e

/-- The condition of the anchor for the start. -/
def start (flags : Flags) : Edge :=
  if flags.lines then .lineStart flags.returns else .textStart

/-- The condition of the anchor for the end. -/
def finish (flags : Flags) : Edge :=
  if flags.lines then .lineEnd flags.returns else .textEnd

/-- What a point stands for. -/
def point (flags : Flags) : CharSet :=
  if flags.anyChar then .ofIntervals [⟨0, 0x10FFFF⟩]
  else if flags.returns then .ofIntervals [⟨0, 0x09⟩, ⟨0x0B, 0x0C⟩, ⟨0x0E, 0x10FFFF⟩]
  else .ofIntervals [⟨0, 0x09⟩, ⟨0x0B, 0x10FFFF⟩]

end Flags

namespace Atom

/-- The value of a hexadecimal digit. -/
def hexValue? (c : Char) : Option Nat :=
  if '0' ≤ c && c ≤ '9' then some (c.toNat - 0x30)
  else if 'a' ≤ c && c ≤ 'f' then some (c.toNat - 0x61 + 10)
  else if 'A' ≤ c && c ≤ 'F' then some (c.toNat - 0x41 + 10)
  else none

/-- The number is that of a character. -/
def isScalar (n : Nat) : Bool :=
  n < 0xD800 || 0xE000 ≤ n && n ≤ 0x10FFFF

/-- A number of exactly so many digits, appended to the digits before. -/
def fixedHex? (flags : Flags) : (digits value : Nat) → List Char → Option (Nat × List Char)
  | 0, value, cs => some (value, cs)
  | _ + 1, _, [] => none
  | digits + 1, value, c :: cs =>
    match hexValue? c with
    | none => none
    | some digit => fixedHex? flags digits (16 * value + digit) (flags.next cs)

/-- A number of any digits, at least one, up to a closing brace.  Once it is too large for a
character, it stays so. -/
def bracedHex? (verbose : Bool) : (value : Option Nat) → (inComment : Bool) → List Char →
    Option (Nat × List Char)
  | _, _, [] => none
  | value, true, c :: cs => bracedHex? verbose value (c != '\n') cs
  | value, false, c :: cs =>
    if verbose && c == '#' then bracedHex? verbose value true cs
    else if verbose && Text.isBlank c then bracedHex? verbose value false cs
    else if c == '\x7d' then value.map (·, cs)
    else
      match hexValue? c with
      | none => none
      | some digit =>
        bracedHex? verbose (some (min (16 * value.getD 0 + digit) 0x110000)) false cs

/-- The character of hexadecimal digits, in braces or exactly so many. -/
def hex? (flags : Flags) (digits : Nat) (cs : List Char) : Option (Atom × List Char) :=
  let number := match flags.next cs with
    | '\x7b' :: rest =>
      (bracedHex? flags.verbose none false rest).map fun (n, rest) => (n, false, flags.next rest)
    | cs => (fixedHex? flags digits 0 cs).map fun (n, rest) => (n, digits == 2, rest)
  match number with
  | none => none
  | some (n, isByte, rest) => if isScalar n then some (char n isByte, rest) else none

/-- The word in braces after the escape of a word edge, its blanks left out. -/
def edgeWord (flags : Flags) : (fuel : Nat) → List Char → List Char × List Char
  | 0, cs => ([], cs)
  | fuel + 1, cs =>
    match cs with
    | c :: rest =>
      if c.isAlpha || c == '-' then
        let (name, rest) := edgeWord flags fuel (flags.next rest)
        (c :: name, rest)
      else ([], cs)
    | [] => ([], [])

/-- A word edge.  A name in braces may say which; braces with something else are a repetition. -/
def wordEdge? (flags : Flags) (cs : List Char) : Option (WordEdge × List Char) :=
  match cs with
  | '\x7b' :: rest =>
    match edgeWord flags cs.length (flags.next rest) with
    | ([], []) => none
    | ([], _) => some (.edge, cs)
    | (name, '\x7d' :: rest) =>
      match String.ofList name with
      | "start" => some (.start, rest)
      | "end" => some (.finish, rest)
      | "start-half" => some (.noWordBefore, rest)
      | "end-half" => some (.noWordAfter, rest)
      | _ => none
    | _ => none
  | _ => some (.edge, cs)

/-- What an escape stands for, given the characters after the backslash. -/
def escape? (flags : Flags) : List Char → Option (Atom × List Char)
  | [] => none
  | c :: cs =>
    match c with
    | 'x' => hex? flags 2 cs
    | 'u' => hex? flags 4 cs
    | 'U' => hex? flags 8 cs
    | 'd' => some (set .digit false, cs)
    | 'D' => some (set .digit true, cs)
    | 's' => some (set .space false, cs)
    | 'S' => some (set .space true, cs)
    | 'w' => some (set .word false, cs)
    | 'W' => some (set .word true, cs)
    | 'a' => some (char 0x07 false, cs)
    | 't' => some (char 0x09 false, cs)
    | 'n' => some (char 0x0A false, cs)
    | 'v' => some (char 0x0B false, cs)
    | 'f' => some (char 0x0C false, cs)
    | 'r' => some (char 0x0D false, cs)
    | 'A' => some (edge .textStart, cs)
    | 'z' => some (edge .textEnd, cs)
    | 'b' => (wordEdge? flags cs).map fun (e, rest) => (edge (flags.wordEdge e), rest)
    | 'B' => some (edge (flags.wordEdge .noEdge), cs)
    | '<' => some (edge (flags.wordEdge .start), cs)
    | '>' => some (edge (flags.wordEdge .finish), cs)
    | _ => if c.toNat < 0x80 && ! c.isAlphanum then some (char c.toNat false, cs) else none

/-- The atom at the front. -/
def read? (flags : Flags) : List Char → Option (Atom × List Char)
  | [] => none
  | '\\' :: cs => escape? flags cs
  | c :: cs => some (char c.toNat false, cs)

end Atom

end Multistage.Pattern
