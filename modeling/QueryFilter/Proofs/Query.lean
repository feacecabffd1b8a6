import QueryFilter.Filter.Render

/-!
What filters and query documents say. Both speak about an item whose field
tests are decided by an interpretation and whose array fields have further
items. A filter is read node by node. A query document is read by the grammar
of queries: fields are joined, an operator document joins its operators, and a
value that is no operator document is compared for equality.
-/

namespace QueryFilter

/-- Decides the positive tests of the fields of an item and gives the items of
its array fields. A field is named by its rendered path; `none` is the item
itself. -/
structure Interpretation (Item : Type) where
  holds : Item → Option String → Test → Bool
  items : Item → Option String → List Item

/-- The name of a field in an interpretation. -/
def Path.field (p : Path) : Option String := if p.isRoot then none else some p.text

/-- The test whose negation a negative test is, with `false`; a positive test
itself with `true`. -/
def Test.polarity : Test → Bool × Test
  | .presence expected => (expected, .presence true)
  | .compare .ne value => (false, .compare .eq value)
  | .noneOf values => (false, .oneOf values)
  | t => (true, t)

namespace Filter

variable {Item : Type} (I : Interpretation Item)

/-- Whether a test holds of a field. -/
def testHolds (x : Item) (field : Option String) (t : Test) : Bool :=
  I.holds x field t.polarity.2 == t.polarity.1

mutual

/-- Whether an item satisfies a filter. -/
def holds (x : Item) : Filter → Bool
  | .test path t => testHolds I x path.field t
  | .elemMatch path body => (I.items x path.field).any fun y => holds y body
  | .and filters => allHold x filters
  | .or filters => anyHolds x filters
  | .nor filters => !anyHolds x filters
  | .not filter => !holds x filter
  | .everything => true
  | .nothing => false

def allHold (x : Item) : List Filter → Bool
  | [] => true
  | f :: fs => holds x f && allHold x fs

def anyHolds (x : Item) : List Filter → Bool
  | [] => false
  | f :: fs => holds x f || anyHolds x fs

end

theorem allHold_eq (x : Item) (filters : List Filter) :
    allHold I x filters = filters.all (holds I x) := by
  induction filters with
  | nil => rfl
  | cons f fs ih => simp [allHold, ih]

theorem anyHolds_eq (x : Item) (filters : List Filter) :
    anyHolds I x filters = filters.any (holds I x) := by
  induction filters with
  | nil => rfl
  | cons f fs ih => simp [anyHolds, ih]

/-- A conjunction says the same as its parts, so merging nested conjunctions
changes no meaning. -/
theorem all_conjuncts (x : Item) (f : Filter) : f.conjuncts.all (holds I x) = holds I x f := by
  cases f <;> simp [conjuncts, holds, allHold_eq]

theorem any_disjuncts (x : Item) (f : Filter) : f.disjuncts.any (holds I x) = holds I x f := by
  cases f <;> simp [disjuncts, holds, anyHolds_eq]

@[simp] theorem holds_allOf_pair (x : Item) (f g : Filter) :
    holds I x (allOf [f, g]) = (holds I x f && holds I x g) := by
  simp [allOf, holds, allHold_eq, List.all_append, all_conjuncts]

@[simp] theorem holds_anyOf_pair (x : Item) (f g : Filter) :
    holds I x (anyOf [f, g]) = (holds I x f || holds I x g) := by
  simp [anyOf, holds, anyHolds_eq, List.any_append, any_disjuncts]

end Filter

namespace Query

/-- Keys of this form are never fields. -/
def isReserved (key : String) : Bool := key.toList.head? == some '$'

def isCombinator (key : String) : Bool := key == "$and" || key == "$or" || key == "$nor"

def isOperator (key : String) : Bool := isReserved key && !isCombinator key

/-- Operators and nothing else; the empty document is a query. -/
def isOperatorDocument (fields : Fields) : Bool :=
  !fields.isEmpty && fields.all fun field => isOperator field.1

/-- Options of the regular expression in an operator document. -/
def options (operators : Fields) : String :=
  match operators.get? "$options" with
  | some (.string options) => options
  | _ => ""

/-- The positive test that an operator asks for, and whether it is to hold.
Operators that speak of other documents ask for none. -/
def atom? (options : String) : String → Json → Option (Bool × Test)
  | "$exists", .bool expected => some (expected, .presence true)
  | "$eq", value => some (true, .compare .eq value)
  | "$ne", value => some (false, .compare .eq value)
  | "$lt", value => some (true, .compare .lt value)
  | "$lte", value => some (true, .compare .le value)
  | "$gt", value => some (true, .compare .gt value)
  | "$gte", value => some (true, .compare .ge value)
  | "$in", .array values => some (true, .oneOf values)
  | "$nin", .array values => some (false, .oneOf values)
  | "$regex", .string pattern => some (true, .regex pattern options)
  | "$size", .int length => if 0 ≤ length then some (true, .size length.toNat) else none
  | "$mod", .array [.int divisor, .int remainder] => some (true, .mod divisor remainder)
  | _, _ => none

variable {Item : Type} (I : Interpretation Item)

/-- An operator that is no negation and no `$elemMatch`. The options of a
regular expression say nothing by themselves. -/
def atomHolds (x : Item) (field : Option String) (operators : Fields) (key : String)
    (value : Json) : Bool :=
  match atom? (options operators) key value with
  | some (expected, t) => I.holds x field t == expected
  | none => key == "$options" && (operators.get? "$regex").isSome

mutual

/-- Whether an item satisfies a query document. -/
def holds (x : Item) : Json → Bool
  | .object fields => fieldsHold x fields
  | _ => false

def fieldsHold (x : Item) : List (String × Json) → Bool
  | [] => true
  | (key, value) :: rest => fieldHolds x key value && fieldsHold x rest

/-- A combinator, or a field with its condition. -/
def fieldHolds (x : Item) (key : String) : Json → Bool
  | .array parts =>
    if key = "$and" then allHold x parts
    else if key = "$or" then anyHolds x parts
    else if key = "$nor" then !anyHolds x parts
    else !isReserved key && I.holds x (some key) (.eq (.array parts))
  | .object fields =>
    !isReserved key &&
      if isOperatorDocument fields then operatorsHold x (some key) fields fields
      else I.holds x (some key) (.eq (.object fields))
  | value => !isReserved key && I.holds x (some key) (.eq value)

def allHold (x : Item) : List Json → Bool
  | [] => true
  | part :: parts => holds x part && allHold x parts

def anyHolds (x : Item) : List Json → Bool
  | [] => false
  | part :: parts => holds x part || anyHolds x parts

/-- The operators of a document `whole` about one field. -/
def operatorsHold (x : Item) (field : Option String) (whole : Fields) :
    List (String × Json) → Bool
  | [] => true
  | (key, value) :: rest =>
    operatorHolds x field whole key value && operatorsHold x field whole rest

def operatorHolds (x : Item) (field : Option String) (whole : Fields) (key : String) :
    Json → Bool
  | .object fields =>
    if key = "$not" then !operatorsHold x field fields fields
    else if key = "$elemMatch" then
      (I.items x field).any fun y =>
        if isOperatorDocument fields then operatorsHold y none fields fields
        else fieldsHold y fields
    else atomHolds I x field whole key (.object fields)
  | value => atomHolds I x field whole key value

end

end Query

end QueryFilter
