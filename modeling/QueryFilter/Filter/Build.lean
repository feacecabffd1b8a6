import QueryFilter.Filter.Basic

/-!
Checked construction of filters from parts that may be missing.
-/

namespace QueryFilter

inductive FilterError where
  | missingChild
  | noChildren (combinator : String)
  | negativeSize
  | zeroDivisor
  deriving DecidableEq, Repr

def FilterError.message : FilterError → String
  | .missingChild => "AstFilter: child filter cannot be null"
  | .noChildren combinator => "AstFilter: " ++ combinator ++ " requires at least one filter"
  | .negativeSize => "AstFilter: $size must not be negative"
  | .zeroDivisor => "AstFilter: $mod divisor cannot be zero"

namespace Filter

def present : Option Filter → Except FilterError Filter
  | some f => .ok f
  | none => .error .missingChild

/-- At least one part, and none missing. -/
def children (combinator : String) (filters : List (Option Filter)) :
    Except FilterError (List Filter) := do
  let filters ← filters.mapM present
  if filters.isEmpty then throw (.noChildren combinator)
  pure filters

def elemMatchOf (path : Path) (body : Option Filter) : Except FilterError Filter := do
  let body ← present body
  pure (.elemMatch path body)

def sizeOf (path : Path) (length : Int) : Except FilterError Filter :=
  if length < 0 then .error .negativeSize else .ok (.test path (.size length.toNat))

def modOf (path : Path) (divisor remainder : Int) : Except FilterError Filter :=
  if divisor = 0 then .error .zeroDivisor else .ok (.test path (.mod divisor remainder))

def andOf (filters : List (Option Filter)) : Except FilterError Filter := do
  let filters ← children "and" filters
  pure (allOf filters)

def orOf (filters : List (Option Filter)) : Except FilterError Filter := do
  let filters ← children "or" filters
  pure (anyOf filters)

def norOf (filters : List (Option Filter)) : Except FilterError Filter := do
  let filters ← children "nor" filters
  pure (.nor filters)

def notOf (filter : Option Filter) : Except FilterError Filter := do
  let filter ← present filter
  pure (.not filter)

@[simp] theorem andOf_pair (f g : Filter) : andOf [some f, some g] = .ok (allOf [f, g]) := rfl

@[simp] theorem orOf_pair (f g : Filter) : orOf [some f, some g] = .ok (anyOf [f, g]) := rfl

theorem sizeOf_of_nonneg (path : Path) {length : Int} (h : 0 ≤ length) :
    sizeOf path length = .ok (.test path (.size length.toNat)) := by
  have : ¬length < 0 := by omega
  simp [sizeOf, this]

theorem modOf_of_ne_zero (path : Path) {divisor : Int} (remainder : Int) (h : divisor ≠ 0) :
    modOf path divisor remainder = .ok (.test path (.mod divisor remainder)) := by
  simp [modOf, h]

end Filter

end QueryFilter
