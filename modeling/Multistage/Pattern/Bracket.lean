import Multistage.Pattern.Escape

/-!
# Sets in brackets

Brackets hold characters, ranges, named sets and further brackets, which are united; two ampersands,
hyphens or tildes between such unions stand for the intersection, the difference, and what is in one
of the two only.  A circumflex in front stands for what is outside.

* `Bracket.read?` — the set that brackets describe.
-/

namespace Multistage.Pattern

namespace Bracket

/-- The character of an atom in brackets.  A pattern about bytes has only ASCII characters there. -/
def code? (flags : Flags) : Atom → Option Nat
  | .char code _ => if flags.alphabet = .characters || code < 0x80 then some code else none
  | .set _ _ | .edge _ => none

/-- A set with both cases of its letters, if the case means nothing. -/
def folded? (flags : Flags) (s : CharSet) : Option CharSet :=
  if flags.anyCase then s.bothCases? flags.alphabet else some s

/-- The set as it stands, or what is outside.  A set of bytes has to be one of ASCII characters. -/
def closed? (flags : Flags) (negated : Bool) (s : CharSet) : Option CharSet :=
  match folded? flags s with
  | none => none
  | some s =>
    let s := if negated then s.compl flags.alphabet else s
    if flags.alphabet = .characters || s.isAscii then some s else none

/-- A named set, given the characters after its opening bracket. -/
def named? (flags : Flags) (cs : List Char) : Option (Option CharSet × List Char) :=
  match cs with
  | ':' :: cs =>
    let (negated, cs) := match cs with
      | '^' :: cs => (true, cs)
      | cs => (false, cs)
    match cs.dropWhile (· != ':'), CharSet.named? (String.ofList (cs.takeWhile (· != ':'))) with
    | ':' :: ']' :: rest, some s => some (closed? flags negated s, rest)
    | _, _ => none
  | _ => none

end Bracket

/-- A set that has been read, and how deeply it nests. -/
structure Bracket where
  set : CharSet := .empty
  depth : Nat := 0

/-- Items that are united. -/
structure Items where
  set : CharSet := .empty
  count : Nat := 0
  /-- How deeply the items nest. -/
  depth : Nat := 0

namespace Items

/-- One more interval. -/
def insert (i : Interval) (items : Items) : Items :=
  { items with set := items.set.insert i, count := items.count + 1 }

/-- One more set. -/
def add (b : Bracket) (items : Items) : Items :=
  ⟨items.set.union b.set, items.count + 1, max items.depth b.depth⟩

/-- The union.  One item by itself nests no deeper. -/
def union (items : Items) : Bracket :=
  ⟨items.set, if items.count ≤ 1 then items.depth else items.depth + 1⟩

end Items

namespace Bracket

/-- What stands between two unions. -/
inductive Join where
  | inter
  | diff
  | differ
  deriving DecidableEq, Repr

/-- Two sets joined. -/
def Join.apply : Join → CharSet → CharSet → CharSet
  | inter, a, b => a.inter b
  | diff, a, b => a.diff b
  | differ, a, b => a.differ b

/-- A set with what stands in front of it. -/
def joined? (flags : Flags) : Option (Join × Bracket) → Bracket → Option Bracket
  | none, b => some b
  | some (join, a), b =>
    match folded? flags a.set, folded? flags b.set with
    | some s, some t => some ⟨CharSet.empty.union (join.apply s t), max a.depth b.depth + 1⟩
    | _, _ => none

/-- Hyphens at the front stand for themselves. -/
def hyphens (flags : Flags) (items : Items) : (fuel : Nat) → List Char → Items × List Char
  | 0, cs => (items, cs)
  | fuel + 1, cs =>
    match cs with
    | '-' :: rest => hyphens flags (items.insert ⟨0x2D, 0x2D⟩) fuel (flags.next rest)
    | cs => (items, cs)

/-- The front of a bracket: whether the set is what is outside, and characters that stand for
themselves only there, hyphens or a closing bracket. -/
def opening (flags : Flags) (cs : List Char) : Bool × Items × List Char :=
  let (negated, cs) := match flags.next cs with
    | '^' :: rest => (true, flags.next rest)
    | cs => (false, cs)
  match cs with
  | ']' :: rest => (negated, Items.insert ⟨0x5D, 0x5D⟩ {}, flags.next rest)
  | cs =>
    let (items, cs) := hyphens flags {} cs.length cs
    (negated, items, cs)

/-- The first character that is not white space, nor the number sign before a comment. -/
def visible? (inComment : Bool) : List Char → Option Char
  | [] => none
  | c :: cs =>
    if Text.isBlank c then visible? inComment cs
    else if c == '#' && ! inComment then visible? true cs
    else some c

/-- Given the characters after a hyphen, it is the hyphen of a range: what comes next to be seen is no
closing bracket and no other hyphen.  The inside of a comment is seen here. -/
def isRangeHyphen (flags : Flags) (cs : List Char) : Bool :=
  let next := if flags.verbose then (visible? false cs).or cs.head? else cs.head?
  next != some ']' && next != some '-'

/-- One more item for an atom by itself.  Without tables of characters the sets of digits, white
space and words are known for bytes only, and what is outside of them is no set of characters. -/
def single? (flags : Flags) (items : Items) : Atom → Option Items
  | .set members negated =>
    if flags.alphabet = .characters || negated then none else some (items.add ⟨members, 0⟩)
  | atom => (code? flags atom).map fun code => items.insert ⟨code, code⟩

/-- One more item, a range or a single atom. -/
def item? (flags : Flags) (items : Items) (cs : List Char) : Option (Items × List Char) :=
  match Atom.read? flags cs with
  | none => none
  | some (atom, rest) =>
    match flags.next rest with
    | [] => none
    | '-' :: rest =>
      if isRangeHyphen flags rest then
        match Atom.read? flags (flags.next rest) with
        | none => none
        | some (last, rest) =>
          match code? flags atom, code? flags last with
          | some first, some last =>
            if first ≤ last then some (items.insert ⟨first, last⟩, rest) else none
          | _, _ => none
      else (single? flags items atom).map (·, '-' :: rest)
    | rest => (single? flags items atom).map (·, rest)

/-- The rest of a bracket, after `before` and some items. -/
def body? (flags : Flags) : (fuel : Nat) → (before : Option (Join × Bracket)) → Items → List Char →
    Option (Bracket × List Char)
  | 0, _, _, _ => none
  | fuel + 1, before, items, cs =>
    let join := fun (join : Join) (rest : List Char) =>
      match joined? flags before items.union with
      | none => none
      | some all => body? flags fuel (some (join, all)) {} rest
    match flags.next cs with
    | [] => none
    | ']' :: rest => (joined? flags before items.union).map (·, rest)
    | '&' :: '&' :: rest => join .inter rest
    | '-' :: '-' :: rest => join .diff rest
    | '~' :: '~' :: rest => join .differ rest
    | '[' :: rest =>
      match named? flags rest with
      | some (none, _) => none
      | some (some members, rest) => body? flags fuel before (items.add ⟨members, 0⟩) rest
      | none =>
        let (negated, front, rest) := opening flags rest
        match body? flags fuel none front rest with
        | none => none
        | some (inner, rest) =>
          match closed? flags negated inner.set with
          | none => none
          | some s => body? flags fuel before (items.add ⟨s, inner.depth + 1⟩) rest
    | cs =>
      match item? flags items cs with
      | none => none
      | some (items, rest) => body? flags fuel before items rest

/-- The set of a bracket, given the characters after the opening bracket. -/
def read? (flags : Flags) (cs : List Char) : Option (Bracket × List Char) :=
  let (negated, front, rest) := opening flags cs
  match body? flags (cs.length + 1) none front rest with
  | none => none
  | some (b, rest) => (closed? flags negated b.set).map fun s => (⟨s, b.depth + 1⟩, rest)

end Bracket

end Multistage.Pattern
