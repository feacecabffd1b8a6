import QueryFilter.Filter.Basic

/-!
The outline of a filter lists its nodes with their fields and operands. Two
filters have the same structure when their outlines are equal as JSON.
-/

namespace QueryFilter.Filter

def fieldOutline (node : String) (path : Path) (operands : List (String × Json)) : Json :=
  .ofPairs (("node", .string node) :: ("field", .string path.text) :: operands)

def testOutline (path : Path) : Test → Json
  | .presence expected => fieldOutline "exists" path [("exists", .bool expected)]
  | .compare how value =>
    fieldOutline "comparison" path [("op", .string how.operator), ("value", value)]
  | .oneOf values => fieldOutline "in" path [("values", .array values)]
  | .noneOf values => fieldOutline "nin" path [("values", .array values)]
  | .regex pattern options =>
    fieldOutline "regex" path [("pattern", .string pattern), ("options", .string options)]
  | .size length => fieldOutline "size" path [("size", .int length)]
  | .mod divisor remainder =>
    fieldOutline "mod" path [("divisor", .int divisor), ("remainder", .int remainder)]

def combinatorOutline (node : String) (filters : List Json) : Json :=
  .ofPairs [("node", .string node), ("filters", .array filters)]

mutual

def outline : Filter → Json
  | .test path t => testOutline path t
  | .elemMatch path body => fieldOutline "elemMatch" path [("filter", body.outline)]
  | .and filters => combinatorOutline "and" (outlines filters)
  | .or filters => combinatorOutline "or" (outlines filters)
  | .nor filters => combinatorOutline "nor" (outlines filters)
  | .not filter => .ofPairs [("node", .string "not"), ("filter", filter.outline)]
  | .everything => .ofPairs [("node", .string "matchesEverything")]
  | .nothing => .ofPairs [("node", .string "matchesNothing")]

def outlines : List Filter → List Json
  | [] => []
  | f :: fs => f.outline :: outlines fs

end

def sameStructure (f g : Filter) : Bool := f.outline.same g.outline

end QueryFilter.Filter
