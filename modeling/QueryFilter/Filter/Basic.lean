import QueryFilter.Comparison
import QueryFilter.Json.Basic
import QueryFilter.Path

/-!
Filters of documents: tests of single fields, tests of the items of an array,
and their combinations. Inside `elemMatch` paths start at the item.
-/

namespace QueryFilter

/-- A test of the value of a field; operands are in stored form. -/
inductive Test where
  | presence (expected : Bool)
  | compare (how : Comparison) (value : Json)
  | oneOf (values : List Json)
  | noneOf (values : List Json)
  | regex (pattern options : String)
  | size (length : Nat)
  | mod (divisor remainder : Int)

inductive Filter where
  | test (path : Path) (test : Test)
  | elemMatch (path : Path) (body : Filter)
  | and (filters : List Filter)
  | or (filters : List Filter)
  | nor (filters : List Filter)
  | not (filter : Filter)
  | everything
  | nothing

namespace Test

def eq (value : Json) : Test := .compare .eq value

def ne (value : Json) : Test := .compare .ne value

def nodeName : Test → String
  | .presence _ => "exists"
  | .compare .. => "comparison"
  | .oneOf _ => "in"
  | .noneOf _ => "nin"
  | .regex .. => "regex"
  | .size _ => "size"
  | .mod .. => "mod"

end Test

namespace Filter

def nodeName : Filter → String
  | .test _ t => t.nodeName
  | .elemMatch .. => "elemMatch"
  | .and _ => "and"
  | .or _ => "or"
  | .nor _ => "nor"
  | .not _ => "not"
  | .everything => "matchesEverything"
  | .nothing => "matchesNothing"

/-- A filter that asks about a single field. -/
def isFieldOperation : Filter → Bool
  | .test .. | .elemMatch .. => true
  | _ => false

def conjuncts : Filter → List Filter
  | .and filters => filters
  | f => [f]

def disjuncts : Filter → List Filter
  | .or filters => filters
  | f => [f]

/-- Conjunction in order; a conjunction among the parts is replaced by its own
parts. -/
def allOf (filters : List Filter) : Filter := .and (filters.flatMap conjuncts)

/-- Disjunction in order; a disjunction among the parts is replaced by its own
parts. -/
def anyOf (filters : List Filter) : Filter := .or (filters.flatMap disjuncts)

theorem conjuncts_allOf (filters : List Filter) :
    (allOf filters).conjuncts = filters.flatMap conjuncts := rfl

theorem disjuncts_anyOf (filters : List Filter) :
    (anyOf filters).disjuncts = filters.flatMap disjuncts := rfl

/-- Present, and not an array of length zero. -/
def nonEmptyArray (path : Path) : Filter :=
  allOf [.test path (.ne .null), .not (.test path (.size 0))]

end Filter

end QueryFilter
