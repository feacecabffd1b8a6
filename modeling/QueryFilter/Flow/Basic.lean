/-!
Documents: nested sequences and mappings whose leaves are scalars. A plain
scalar keeps its source text, so whoever asks for it decides what the text
means. A document is a finite tree: what stands for another node is that node
again, and of a mapping only the entries under texts are asked for.
-/

namespace QueryFilter

inductive Flow where
  | null
  | plain (text : String)
  | quoted (text : String)
  | sequence (items : List Flow)
  | mapping (entries : List (String × Flow))
  deriving Repr

namespace Flow

/-- The text of a scalar. A null has none. -/
def scalarText? : Flow → Option String
  | .plain text | .quoted text => some text
  | _ => none

def isScalar : Flow → Bool
  | .plain _ | .quoted _ => true
  | _ => false

/-- The number that a run of decimal digits stands for. -/
def digitsValue (cs : List Char) : Nat :=
  cs.foldl (fun n c => n * 10 + (c.toNat - '0'.toNat)) 0

/-- A decimal integer, with or without a sign. -/
def decimal? (text : String) : Option Int :=
  let (negative, cs) : Bool × List Char := match text.toList with
    | '-' :: cs => (true, cs)
    | '+' :: cs => (false, cs)
    | cs => (false, cs)
  if cs ≠ [] ∧ cs.all Char.isDigit then
    some (if negative then -(digitsValue cs : Int) else digitsValue cs)
  else none

/-- Entries of a mapping; other nodes have none. -/
def entries : Flow → List (String × Flow)
  | .mapping entries => entries
  | _ => []

/-- The first entry of a mapping under a key. -/
def get? (node : Flow) (key : String) : Option Flow :=
  node.entries.lookup key

@[simp] theorem get?_mapping (entries : List (String × Flow)) (key : String) :
    (mapping entries).get? key = entries.lookup key := rfl

@[simp] theorem get?_sequence (items : List Flow) (key : String) :
    (sequence items).get? key = none := rfl

end Flow

/-- What reads documents: a text as a document, if it is one, and the text of a
scalar as a number, if it is one. How documents may be laid out and how numbers
may be written is up to the reader. -/
structure Reader where
  document? : String → Option Flow
  number? : String → Option Int

end QueryFilter
