import Multistage.Arith

/-!
# Doubles with one decimal place

The exact value of a double is a whole number times a power of two.  It is rounded once, to the
nearest tenth, and a value half-way between two tenths goes to the even one.

* `roundDiv` — a quotient rounded to the nearest whole number, half-way to the even one.
* `tenths` — a non-negative finite double with one decimal place.
-/

namespace Multistage.Text

/-- The whole number nearest to `num / den`; half-way between two it is the even one. -/
def roundDiv (num den : Nat) : Nat :=
  let whole := num / den
  let rest := 2 * (num % den)
  if rest < den then whole
  else if den < rest then whole + 1
  else whole + whole % 2

/-- A non-negative finite double as a fraction. -/
def fraction (x : Float) : Nat × Nat :=
  let word := x.toBits.toNat
  let exponent := word / 2 ^ 52 % 2 ^ 11
  let digits := word % 2 ^ 52
  let (digits, exponent) := if exponent = 0 then (digits, 1) else (digits + 2 ^ 52, exponent)
  if 1075 ≤ exponent then (digits * 2 ^ (exponent - 1075), 1) else (digits, 2 ^ (1075 - exponent))

/-- One decimal place. -/
def tenths (x : Float) : String :=
  let (num, den) := fraction x
  let n := roundDiv (10 * num) den
  let (whole, tenth) := (n / 10, n % 10)
  s!"{whole}.{tenth}"

end Multistage.Text
