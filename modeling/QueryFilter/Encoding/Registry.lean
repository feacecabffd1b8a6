import QueryFilter.Encoding.Encoder

/-!
The registered encoders of a model, at most one for each type name.
-/

namespace QueryFilter

structure Registry where
  encoders : List Encoder
  deriving Repr

namespace Registry

def empty : Registry := ⟨[]⟩

def size (r : Registry) : Nat := r.encoders.length

def findByName? (r : Registry) (name : String) : Option Encoder :=
  r.encoders.find? (·.valueType.name == name)

/-- The encoder of the very type, or else the one of a type of that name. -/
def find? (r : Registry) (t : Ty) : Option Encoder :=
  (r.encoders.find? (·.valueType == t)).or (r.findByName? t.name)

def findType? (r : Registry) (name : String) : Option Ty :=
  (r.findByName? name).map Encoder.valueType

def register (r : Registry) : Option Encoder → Except EncoderError Registry
  | none => .error .missingRegistration
  | some e =>
    if (r.findByName? e.valueType.name).isSome then
      .error (.alreadyRegistered e.valueType.name)
    else .ok ⟨r.encoders ++ [e]⟩

/-- The names of the registered types in ascending order. -/
def typeNames (r : Registry) : List String :=
  (r.encoders.map (·.valueType.name)).mergeSort fun a b => decide (a ≤ b)

end Registry

end QueryFilter
