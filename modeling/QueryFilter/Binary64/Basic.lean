/-!
IEEE double precision numbers in exact integer arithmetic. A number is its
sign and its rank: the place of its absolute value among the non-negative
doubles in increasing order, so the rank is also the low 63 bits of its
encoding. `ofRatio` rounds a quotient to nearest, ties to even.
-/

namespace QueryFilter

structure Binary64 where
  negative : Bool
  rank : Nat
  deriving DecidableEq, Repr

namespace Binary64

/-- Rank of the first number with a larger exponent than a given one, in units
of the exponent field. -/
def fieldSize : Nat := 1 <<< 52

/-- Rank of infinity; larger ranks are not numbers. -/
def infinityRank : Nat := 2047 * fieldSize

def zero : Binary64 := ⟨false, 0⟩

def isNumber (x : Binary64) : Bool := x.rank ≤ infinityRank

def isFinite (x : Binary64) : Bool := x.rank < infinityRank

def isZero (x : Binary64) : Bool := x.rank = 0

/-- A finite number has absolute value `significand * 2 ^ scale`. -/
def significand (x : Binary64) : Nat :=
  if x.rank < fieldSize then x.rank else fieldSize + x.rank % fieldSize

/-- See `significand`; the least scale is `-1074`. -/
def scale (x : Binary64) : Int :=
  if x.rank < fieldSize then -1074 else (x.rank / fieldSize : Nat) - 1075

/-- The quotient `num / den` in units of `2 ^ scale`, as a pair of a numerator
and a denominator. -/
def inUnits (num den : Nat) (scale : Int) : Nat × Nat :=
  if scale < 0 then (num <<< scale.natAbs, den) else (num, den <<< scale.natAbs)

/-- Rounds a quotient to an integer, ties to even. -/
def roundDiv (num den : Nat) : Nat :=
  let q := num / den
  let r := num % den
  if den < 2 * r ∨ (2 * r = den ∧ q % 2 = 1) then q + 1 else q

/-- The scale whose unit is one in the last place of `num / den`. -/
def scaleOfRatio (num den : Nat) : Int :=
  let low : Int := max ((num.log2 : Int) - den.log2 - 53) (-1074)
  let (n, d) := inUnits num den low
  if n / d < 1 <<< 53 then low else low + 1

/-- The double nearest to `num / den`, infinite when that is out of range. -/
def ofRatio (negative : Bool) (num den : Nat) : Binary64 :=
  if num = 0 then ⟨negative, 0⟩
  else
    let scale := scaleOfRatio num den
    let (n, d) := inUnits num den scale
    let m := roundDiv n d
    let rank := if m < fieldSize then m else (scale + 1075).toNat * fieldSize + (m - fieldSize)
    ⟨negative, min rank infinityRank⟩

def ofInt (n : Int) : Binary64 := ofRatio (n < 0) n.natAbs 1

/-- Numeric equality: both zeros are equal, and what is not a number equals
nothing. -/
def numEq (x y : Binary64) : Bool :=
  x.isNumber && y.isNumber && x.rank == y.rank && (x.negative == y.negative || x.rank == 0)

theorem numEq_self_iff (x : Binary64) : x.numEq x = true ↔ x.isNumber = true := by
  simp [numEq]

theorem numEq_comm (x y : Binary64) : x.numEq y = y.numEq x := by
  rw [Bool.eq_iff_iff]
  simp only [numEq, Bool.and_eq_true, Bool.or_eq_true, beq_iff_eq]
  constructor <;> (rintro ⟨⟨⟨hx, hy⟩, hr⟩, hs⟩; exact ⟨⟨⟨hy, hx⟩, hr.symm⟩, by
    rcases hs with hs | hs
    · exact .inl hs.symm
    · exact .inr (by rw [← hs, hr])⟩)

end Binary64

end QueryFilter
