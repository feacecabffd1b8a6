import QueryFilter.Encoding.Encoder
import QueryFilter.Flow.Basic

/-!
What can be wrong with the description of a model, and the reading of its
nodes. Where a node is not of the form that is asked for, the description is
malformed as a whole.
-/

namespace QueryFilter

inductive ModelError where
  | malformed
  | depthNotPositive
  | missing (place key : String)
  | declaredTwice (className : String)
  | recursive (className through : String)
  | representation (place name : String)
  | layout (place name : String)
  | unknownClass (place name : String)
  | unknownType (place name : String)
  | encoder (error : EncoderError)
  deriving DecidableEq, Repr

def ModelError.message : ModelError → String
  | .malformed => "failed to parse model configuration"
  | .depthNotPositive => "translation.max_depth must be positive"
  | .missing place key => place ++ ": missing '" ++ key ++ "'"
  | .declaredTwice className => "class " ++ className ++ " is declared twice"
  | .recursive className through =>
    "class " ++ className ++ " is recursive (through " ++ through ++ ")"
  | .representation place name => place ++ ": unsupported representation '" ++ name ++ "'"
  | .layout place name => place ++ ": unknown dictionary representation '" ++ name ++ "'"
  | .unknownClass place name => place ++ ": unknown class '" ++ name ++ "'"
  | .unknownType place name => place ++ ": unknown type '" ++ name ++ "'"
  | .encoder error => error.message

namespace Flow

/-- The entry of a node under a key. A scalar has no entries to ask for, and a
node that is not there has none either. -/
def entry : Option Flow → String → Except ModelError (Option Flow)
  | none, _ => .error .malformed
  | some (.plain _), _ => .error .malformed
  | some (.quoted _), _ => .error .malformed
  | some node, key => .ok (node.get? key)

def requiredEntry (node : Option Flow) (key place : String) : Except ModelError Flow := do
  match ← entry node key with
  | some node => pure node
  | none => throw (.missing place key)

def scalarText (node : Flow) : Except ModelError String :=
  match node.scalarText? with
  | some text => .ok text
  | none => .error .malformed

/-- The text of a scalar, or else a fallback. -/
def textOr (fallback : String) (node : Option Flow) : String :=
  (node.bind scalarText?).getD fallback

/-- A 32-bit integer in the notation of a reader, or else a fallback. -/
def intOr (reader : Reader) (fallback : Int) (node : Option Flow) : Int :=
  match (node.bind scalarText?).bind reader.number? with
  | some n => if Width.int32.contains n then n else fallback
  | none => fallback

/-- What a loop over a node visits. The entries of a mapping are no nodes, and
a scalar is empty. -/
def visited : Flow → List (Option Flow)
  | .sequence items => items.map some
  | .mapping entries => entries.map fun _ => none
  | _ => []

end Flow

end QueryFilter
