import QueryFilter.Model.Declaration

/-!
A whole configuration: how deep predicates may be nested, how much is logged,
and the model. Its text is read by a reader that is given.
-/

namespace QueryFilter

structure Configuration where
  maxDepth : Nat
  logLevel : String
  model : Model

namespace Configuration

/-- The settings of a configuration, where they are given. -/
def settingsOf (reader : Reader) (node : Option Flow) : Except ModelError (Nat × String) :=
  match node with
  | none => .ok (64, "info")
  | some node => do
    let depth := Flow.intOr reader 64 (← Flow.entry (some node) "max_depth")
    if depth ≤ 0 then throw .depthNotPositive
    let level := Flow.textOr "info" (← Flow.entry (some node) "log_level")
    pure (depth.toNat, level)

def ofFlow (reader : Reader) (root : Flow) : Except ModelError Configuration := do
  let (maxDepth, logLevel) ← settingsOf reader (← Flow.entry (some root) "translation")
  let classes ← Flow.entry (some root) "classes"
  let model ← Declaration.modelOf (classes.toList.flatMap Flow.visited)
  pure ⟨maxDepth, logLevel, model⟩

def ofText (reader : Reader) (text : String) : Except ModelError Configuration :=
  match reader.document? text with
  | some root => ofFlow reader root
  | none => .error .malformed

end Configuration

end QueryFilter
