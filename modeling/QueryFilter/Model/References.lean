import QueryFilter.Model.Error

/-!
Which classes the members of a class refer to, and the search for a class that
contains itself. The search follows references in ascending order from each
class in turn and remembers the classes that turned out to be free of cycles.
An array without a description of its items, or a dictionary without one of its
keys or values, makes the whole description malformed.
-/

namespace QueryFilter

namespace Flow

mutual

/-- The classes that a type description names. What is no description of a type
names none, but the parts of an array or a dictionary have to be there. -/
def references : Flow → Except ModelError (List String)
  | .mapping entries =>
    match entries.lookup "type" with
    | some type =>
      if type.isScalar then
        match type.scalarText? with
        | some "class" =>
          match entries.lookup "class" with
          | some node => pure (if node.isScalar then (node.scalarText?).toList else [])
          | none => pure []
        | some "array" => referencesUnder "element" entries
        | some "dictionary" => do
          let keys ← referencesUnder "key" entries
          let values ← referencesUnder "value" entries
          pure (keys ++ values)
        | _ => pure []
      else pure []
    | none => pure []
  | _ => pure []

/-- The references of the first entry under a key, which must be there. -/
def referencesUnder (key : String) : List (String × Flow) → Except ModelError (List String)
  | [] => throw .malformed
  | (k, node) :: rest => if k = key then references node else referencesUnder key rest

end

end Flow

/-- For each class the classes that its members refer to. -/
abbrev ReferenceGraph := List (String × List String)

namespace ReferenceGraph

/-- Without repetition, in ascending order. -/
def ordered (names : List String) : List String :=
  (names.mergeSort fun a b => decide (a ≤ b)).eraseDups

/-- The search from one class, below the classes on `path`; returns what is
known to be free of cycles. No class is met twice on a path, so a `depth` of
the number of classes is never used up. -/
def search (graph : ReferenceGraph) :
    Nat → List String → List String → String → Except ModelError (List String)
  | 0, _, free, _ => .ok free
  | depth + 1, path, free, name =>
    match graph.lookup name with
    | none => .ok free
    | some referred =>
      if name ∈ free then .ok free
      else do
        let free ← referred.foldlM (fun free next =>
          if next ∈ name :: path then throw (ModelError.recursive next name)
          else search graph depth (name :: path) free next) free
        pure (name :: free)

/-- Refuses a graph in which a class reaches itself. -/
def checkAcyclic (graph : ReferenceGraph) : Except ModelError Unit := do
  let _ ← (graph.map Prod.fst).foldlM
    (fun free name => search graph (graph.length + 1) [] free name) []
  pure ()

end ReferenceGraph

end QueryFilter
