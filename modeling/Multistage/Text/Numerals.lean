/-!
# Written forms of numbers and lists

* `hex` — base 16 with capital letters and no leading zero.
* `hexPadded` — the same, filled with zeros on the left up to a least width.
* `list` — decimal numbers between square brackets, separated by a comma and a blank.
* `quotedList` — the same for quoted texts.
-/

namespace Multistage.Text

/-- Base 16 with capital letters and no leading zero. -/
def hex (n : Nat) : String :=
  String.ofList ((Nat.toDigits 16 n).map Char.toUpper)

/-- Base 16 with at least `width` digits. -/
def hexPadded (width n : Nat) : String :=
  let digits := hex n
  String.ofList (List.replicate (width - digits.length) '0') ++ digits

/-- A number with the mark of base 16 before it: `0x1F`. -/
def hexMarked (n : Nat) : String :=
  "0x" ++ hex n

/-- `[9, 6, 6]` -/
def list (ns : List Nat) : String :=
  "[" ++ ", ".intercalate (ns.map toString) ++ "]"

/-- `["a", "b"]`, for texts in which nothing needs an escape. -/
def quotedList (texts : List String) : String :=
  "[" ++ ", ".intercalate (texts.map fun t => "\"" ++ t ++ "\"") ++ "]"

end Multistage.Text
