import Multistage.Pattern.Basic

/-!
# Normal forms of patterns

Patterns are put together in a normal form: a sequence has no sequences and no empty parts in it and
no two literals side by side, an alternation has no alternations in it, and single characters are
literals.

* `Pattern.ofSet` — one character of a set.
* `Pattern.ofParts` — parts one after the other.
* `Pattern.ofBranches` — alternatives, with what they all begin with in front.
* `Pattern.repeated` — a part so many times.
-/

namespace Multistage.Pattern

/-- One character of a set.  A single member is a literal. -/
def ofSet (alphabet : Alphabet) (s : CharSet) : Pattern :=
  match s.intervals with
  | [] => set .bytes []
  | [i] => if i.first = i.last then literal [Char.ofNat i.first] else set alphabet [i]
  | members => set alphabet members

/-! ## Sequences -/

/-- The parts of a sequence. -/
def parts : Pattern → List Pattern
  | empty => []
  | seq a b => a :: b.parts
  | p => [p]

/-- Literals side by side become one. -/
def joinLiterals : List Pattern → List Pattern
  | [] => []
  | p :: ps =>
    match p, joinLiterals ps with
    | literal a, literal b :: rest => literal (a ++ b) :: rest
    | p, rest => p :: rest

/-- The sequence of given parts. -/
def chain : List Pattern → Pattern
  | [] => empty
  | [p] => p
  | p :: ps => seq p (chain ps)

/-- Parts one after the other. -/
def ofParts (ps : List Pattern) : Pattern :=
  chain (joinLiterals (ps.flatMap parts))

/-! ## Alternatives -/

/-- The alternatives of an alternation. -/
def branches : Pattern → List Pattern
  | alt a b => a :: b.branches
  | p => [p]

/-- The alternation of given alternatives. -/
def choice : List Pattern → Pattern
  | [] => set .bytes []
  | [p] => p
  | p :: ps => alt p (choice ps)

/-- The character of a literal that is no longer. -/
def char? : Pattern → Option Interval
  | literal [c] => some ⟨c.toNat, c.toNat⟩
  | _ => none

/-- The members of a set. -/
def members? : Pattern → Option (List Interval)
  | set _ members => some members
  | _ => none

/-- Alternatives that are all single characters, or all sets, are one set. -/
def oneSet? (bs : List Pattern) : Option CharSet :=
  match bs.mapM char? with
  | some chars => some (.ofIntervals chars)
  | none => (bs.mapM members?).map fun sets => .ofIntervals sets.flatten

/-- Alternatives of which none is an alternation. -/
def ofFlat (bs : List Pattern) : Pattern :=
  match oneSet? bs with
  | some s => ofSet .characters s
  | none => choice bs

/-- What two lists begin with. -/
def common : List Pattern → List Pattern → List Pattern
  | a :: as, b :: bs => if a = b then a :: common as bs else []
  | _, _ => []

/-- What sequences begin with; nothing if one of the alternatives is no sequence. -/
def start : List Pattern → List Pattern
  | [] => []
  | [seq a b] => (seq a b).parts
  | seq a b :: bs => common (seq a b).parts (start bs)
  | _ => []

/-- Alternatives.  What all of them begin with is taken out, and the rests are the alternatives. -/
def ofBranches (bs : List Pattern) : Pattern :=
  match bs.flatMap branches with
  | [p] => p
  | bs =>
    match oneSet? bs, start bs with
    | some s, _ => ofSet .characters s
    | none, [] => choice bs
    | none, front =>
      let rests := bs.map fun b => ofParts (b.parts.drop front.length)
      ofParts (front ++ [ofFlat (rests.flatMap branches)])

/-! ## Repetitions -/

/-- All parts are empty. -/
def neverConsumes : Pattern → Bool
  | empty | edge _ => true
  | literal _ | set _ _ => false
  | seq a b | alt a b => a.neverConsumes && b.neverConsumes
  | times p _ _ _ | group _ p => p.neverConsumes

/-- A part so many times.  To repeat empty parts makes no difference. -/
def repeated (p : Pattern) (least : Nat) (most : Option Nat) (many : Bool) : Pattern :=
  let (least, most) :=
    if p.neverConsumes then (min least 1, some (min (most.getD 1) 1)) else (least, most)
  match least, most with
  | 0, some 0 => empty
  | 1, some 1 => p
  | least, most => times p least most many

end Multistage.Pattern
