import QueryFilter.Binary64.Basic

/-!
The fewest decimal digits that read back as a given double. Half the distance
to the two neighbours bounds the reals that round to a number; the first
decimal grid with a point between the bounds gives the digits, and of two such
points the nearer one.
-/

namespace QueryFilter

/-- The positive number `digits * 10 ^ exponent`. -/
structure Decimal where
  digits : Nat
  exponent : Int
  deriving DecidableEq, Repr

namespace Decimal

/-- Number of decimal digits; zero has none. -/
def length (n : Nat) : Nat :=
  if n = 0 then 0 else (Nat.toDigits 10 n).length

/-- The `p` with `10 ^ (p - 1) ≤ num / den < 10 ^ p`, for a positive quotient. -/
def magnitude (num den : Nat) : Int :=
  if den ≤ num then length (num / den) else 1 - (length ((den - 1) / num) : Nat)

/-- Drops at most `fuel` trailing zeros. -/
def trim : Nat → Decimal → Decimal
  | 0, d => d
  | fuel + 1, d =>
    if d.digits ≠ 0 ∧ d.digits % 10 = 0 then trim fuel ⟨d.digits / 10, d.exponent + 1⟩ else d

end Decimal

namespace Binary64

/-- The reals that round to a number, in quarters of its unit: the value, the
lower bound and the upper bound. Below a power of two the gap is halved. -/
def interval (x : Binary64) : Nat × Nat × Nat :=
  let m := x.significand
  let low := if m = fieldSize ∧ fieldSize < x.rank then 4 * m - 1 else 4 * m - 2
  (4 * m, low, 4 * m + 2)

/-- The point of the grid of step `10 ^ exponent` nearest to a finite number,
if it rounds to that number. -/
def onGrid? (x : Binary64) (exponent : Int) : Option Decimal :=
  let (v, low, high) := x.interval
  let binary := x.scale - 2
  let a := Nat.pow 10 (-exponent).toNat <<< binary.toNat
  let b := Nat.pow 10 exponent.toNat <<< (-binary).toNat
  let holds (t : Nat) : Bool :=
    if x.significand % 2 = 0 then low * a ≤ t * b ∧ t * b ≤ high * a
    else low * a < t * b ∧ t * b < high * a
  let t := v * a / b
  let below := v * a - t * b
  let above := (t + 1) * b - v * a
  match holds t, holds (t + 1) with
  | true, true => some ⟨if below < above ∨ (below = above ∧ t % 2 = 0) then t else t + 1, exponent⟩
  | true, false => some ⟨t, exponent⟩
  | false, true => some ⟨t + 1, exponent⟩
  | false, false => none

/-- Seventeen digits always suffice. -/
def shortest (x : Binary64) : Decimal :=
  let binary := x.scale - 2
  let place := Decimal.magnitude (x.interval.1 <<< binary.toNat) (1 <<< (-binary).toNat)
  let found := (List.range 17).findSome? fun (k : Nat) => x.onGrid? (place - (k + 1))
  Decimal.trim 20 (found.getD ⟨x.interval.1, 0⟩)

end Binary64

end QueryFilter
