import QueryFilter.Json.Basic
import QueryFilter.Binary64.Text
import QueryFilter.Flow.Reader

/-!
JSON values out of flow documents. A number without point and exponent that
fits 64 bits, signed or unsigned, is an integer; every other number is the
nearest double.
-/

namespace QueryFilter.Json

def digits (cs : List Char) : List Char × List Char :=
  (cs.takeWhile Char.isDigit, cs.dropWhile Char.isDigit)

/-- The exponent part of a number, if the rest of its text is one. -/
def exponent? : List Char → Option Int
  | [] => some 0
  | c :: cs =>
    if c = 'e' ∨ c = 'E' then
      let (negative, cs) : Bool × List Char := match cs with
        | '-' :: cs => (true, cs)
        | '+' :: cs => (false, cs)
        | cs => (false, cs)
      if cs ≠ [] ∧ cs.all Char.isDigit then
        some (if negative then -(Flow.digitsValue cs : Int) else Flow.digitsValue cs)
      else none
    else none

def fitsWord (n : Int) : Bool := -0x8000000000000000 ≤ n && n < 0x10000000000000000

def number? (cs : List Char) : Option Json :=
  let (negative, cs) : Bool × List Char := match cs with
    | '-' :: cs => (true, cs)
    | cs => (false, cs)
  let (whole, rest) := digits cs
  if whole = [] ∨ (whole.length ≠ 1 ∧ whole.head? = some '0') then none
  else
    match rest with
    | [] =>
      let n : Int := if negative then -(Flow.digitsValue whole : Int) else Flow.digitsValue whole
      some (if fitsWord n then .int n else .float (Binary64.ofInt n))
    | '.' :: rest =>
      let (fraction, rest) := digits rest
      if fraction = [] then none
      else (exponent? rest).map fun e =>
        let digits := Flow.digitsValue (whole ++ fraction)
        .float (Binary64.ofDecimal negative digits (e - fraction.length))
    | rest => (exponent? rest).map fun e =>
        .float (Binary64.ofDecimal negative (Flow.digitsValue whole) e)

def ofPlain? (text : String) : Option Json :=
  if text = "true" then some (.bool true)
  else if text = "false" then some (.bool false)
  else number? text.toList

mutual

def ofFlow? : Flow → Option Json
  | .null => some .null
  | .plain text => ofPlain? text
  | .quoted text => some (.string text)
  | .sequence items => (ofItems? items).map .array
  | .mapping entries => (ofEntries? entries).map ofPairs

def ofItems? : List Flow → Option (List Json)
  | [] => some []
  | x :: xs => do
    let v ← ofFlow? x
    let vs ← ofItems? xs
    pure (v :: vs)

def ofEntries? : List (String × Flow) → Option (List (String × Json))
  | [] => some []
  | (k, x) :: xs => do
    let v ← ofFlow? x
    let vs ← ofEntries? xs
    pure ((k, v) :: vs)

end

def parse? (text : String) : Option Json := do
  let node ← Flow.parse? text
  ofFlow? node

end QueryFilter.Json
