import QueryFilter.Encoding.ClassMap

/-!
The encoder of a type that nothing else is said about: enumerations are stored
by place, dictionaries as documents, members under their own names. A class
that contains itself has none. Members are looked at in order, and the values
of a dictionary before its keys.
-/

namespace QueryFilter

inductive DefaultError where
  | recursive (className : String)
  | unsupported (type : String)
  | mapping (error : EncoderError)
  deriving DecidableEq, Repr

def DefaultError.message : DefaultError → String
  | .recursive className => "class " ++ className ++ " is recursive and needs an explicit class map"
  | .unsupported type => "no default serializer for type " ++ type
  | .mapping error => error.message

namespace Encoder

/-- An encoder and the class maps that it brought along. -/
abbrev Defaulting (α : Type) := StateT ClassMaps (Except DefaultError) α

/-- The encoder of a type, given those of its classes. -/
def ofType (ofClass : Ty → Defaulting Encoder) : Ty → Defaulting Encoder
  | .boolean => pure .boolean
  | .string => pure .string
  | .double => pure .double
  | .int32 => pure (.integer .int32 .int32)
  | .int64 => pure (.integer .int64 .int64)
  | .enumeration name values => pure (.enumeration name values .int32)
  | .array element => do
    let item ← ofType ofClass element
    pure (.array item)
  | .dictionary key value => do
    let value ← ofType ofClass value
    let key ← ofType ofClass key
    pure (.dictionary .document key value)
  | .cls name place => ofClass (.cls name place)
  | .function parameter result => throw (.unsupported (Ty.function parameter result).name)

def liftMapping {α : Type} (result : Except EncoderError α) : Except DefaultError α :=
  result.mapError .mapping

/-- The encoder of a class inside the classes `visiting`. The `depth` bounds
how many classes can lie inside each other. -/
def ofClass (schema : Schema) : Nat → List Ty → Ty → Defaulting Encoder
  | 0, _, t => throw (.recursive t.name)
  | depth + 1, visiting, t => do
    if t ∈ visiting then throw (.recursive t.name)
    let (e, maps) ← liftMapping ((← get).create t)
    set maps
    (schema.members t).forM fun member => do
      let encoder ← ofType (ofClass schema depth (t :: visiting)) member.2
      let maps ← liftMapping ((← get).mapMember schema e member.1 (some encoder) "")
      set maps
    pure e

/-- Distinct declared classes are no more than the schema has, so the bound on
depth is never met before a class is met again. -/
def default (schema : Schema) (maps : ClassMaps) (t : Ty) :
    Except DefaultError (Encoder × ClassMaps) :=
  (ofType (ofClass schema (schema.classes.length + 2) []) t).run maps

end Encoder

end QueryFilter
