/-!
The six comparisons, as they are written in expressions and in filters.
-/

namespace QueryFilter

inductive Comparison where
  | eq | ne | lt | le | gt | ge
  deriving DecidableEq, Repr

namespace Comparison

def symbol : Comparison → String
  | .eq => "=="
  | .ne => "!="
  | .lt => "<"
  | .le => "<="
  | .gt => ">"
  | .ge => ">="

def operator : Comparison → String
  | .eq => "$eq"
  | .ne => "$ne"
  | .lt => "$lt"
  | .le => "$lte"
  | .gt => "$gt"
  | .ge => "$gte"

def all : List Comparison := [.eq, .ne, .lt, .le, .gt, .ge]

def ofOperator? (operator : String) : Option Comparison := all.find? (·.operator == operator)

def isEquality : Comparison → Bool
  | .eq | .ne => true
  | _ => false

/-- `a < b` says the same as `b > a`. -/
def converse : Comparison → Comparison
  | .lt => .gt
  | .le => .ge
  | .gt => .lt
  | .ge => .le
  | c => c

@[simp] theorem converse_converse (c : Comparison) : c.converse.converse = c := by
  cases c <;> rfl

theorem ofOperator?_operator (c : Comparison) : ofOperator? c.operator = some c := by
  cases c <;> decide

/-- Whether a comparison holds of two integers. -/
def holds : Comparison → Int → Int → Bool
  | .eq, a, b => a = b
  | .ne, a, b => a ≠ b
  | .lt, a, b => a < b
  | .le, a, b => a ≤ b
  | .gt, a, b => b < a
  | .ge, a, b => b ≤ a

theorem holds_converse (c : Comparison) (a b : Int) :
    c.converse.holds a b = c.holds b a := by
  cases c <;> simp [converse, holds, eq_comm]

end Comparison

end QueryFilter
