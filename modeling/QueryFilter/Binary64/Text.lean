import QueryFilter.Binary64.Shortest

/-!
Decimal text of a double, and the double nearest to a decimal number.
-/

namespace QueryFilter.Binary64

def digitChars (n : Nat) : List Char := Nat.toDigits 10 n

/-- At least two digits, after a sign. -/
def exponentText (e : Int) : List Char :=
  let digits := digitChars e.natAbs
  (if e < 0 then '-' else '+') :: List.replicate (2 - digits.length) '0' ++ digits

/-- Digits with a point after the first `point` of them. From four zeros after
the point and from sixteen digits before it the number is written with an
exponent; a number written without one always shows a point. -/
def layout (digits : List Char) (point : Int) : List Char :=
  if (digits.length : Int) ≤ point ∧ point ≤ 15 then
    digits ++ List.replicate (point.toNat - digits.length) '0' ++ ['.', '0']
  else if 0 < point ∧ point ≤ 15 then
    digits.take point.toNat ++ '.' :: digits.drop point.toNat
  else if -4 < point ∧ point ≤ 0 then
    '0' :: '.' :: List.replicate (-point).toNat '0' ++ digits
  else
    match digits with
    | [] => []
    | [d] => d :: 'e' :: exponentText (point - 1)
    | d :: ds => d :: '.' :: ds ++ 'e' :: exponentText (point - 1)

/-- What is not finite has no decimal text and is written `null`. -/
def text (x : Binary64) : String :=
  if x.isFinite then
    let unsigned :=
      if x.isZero then ['0', '.', '0']
      else
        let d := x.shortest
        let digits := digitChars d.digits
        layout digits (digits.length + d.exponent)
    String.ofList (if x.negative then '-' :: unsigned else unsigned)
  else "null"

/-- The double nearest to `digits * 10 ^ exponent`. Numbers of more than 400
digits before or zeros after the point are out of range on either side. -/
def ofDecimal (negative : Bool) (digits : Nat) (exponent : Int) : Binary64 :=
  let place := Decimal.length digits + exponent
  if digits = 0 ∨ place < -400 then ⟨negative, 0⟩
  else if 400 < place then ⟨negative, infinityRank⟩
  else ofRatio negative (digits * Nat.pow 10 exponent.toNat) (Nat.pow 10 (-exponent).toNat)

end QueryFilter.Binary64
