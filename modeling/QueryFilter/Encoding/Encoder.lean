import QueryFilter.Encoding.Representation
import QueryFilter.Ty.Basic

/-!
Encoders say how values of a type are stored. The encoder of a class names the
class map that describes it, so class maps may refer to each other.
-/

namespace QueryFilter

inductive Width where
  | int32 | int64
  deriving DecidableEq, Repr

namespace Width

def type : Width → Ty
  | .int32 => .int32
  | .int64 => .int64

def minimum : Width → Int
  | .int32 => -0x80000000
  | .int64 => -0x8000000000000000

def maximum : Width → Int
  | .int32 => 0x7fffffff
  | .int64 => 0x7fffffffffffffff

def contains (w : Width) (n : Int) : Bool := w.minimum ≤ n && n ≤ w.maximum

theorem contains_iff (w : Width) (n : Int) :
    w.contains n = true ↔ w.minimum ≤ n ∧ n ≤ w.maximum := by
  simp [contains]

end Width

inductive Encoder where
  | boolean
  | string
  | double
  | integer (width : Width) (representation : Representation)
  | enumeration (name : String) (values : List String) (representation : Representation)
  | array (item : Encoder)
  | dictionary (layout : Layout) (key value : Encoder)
  | document (className : String) (place : Option Nat) (map : Nat)
  deriving DecidableEq, Repr

/-- What is refused while encoders are set up. -/
inductive EncoderError where
  | notInteger (type : String)
  | booleanInteger
  | notEnumeration (type : String)
  | enumerationRepresentation
  | notClass (type : String)
  | noMember (className member : String)
  | missingEncoder (member : String)
  | alreadyMapped (member className : String)
  | missingRegistration
  | alreadyRegistered (type : String)
  deriving DecidableEq, Repr

def EncoderError.message : EncoderError → String
  | .notInteger type => "IntegerSerializer requires Int32 or Int64, got " ++ type
  | .booleanInteger => "IntegerSerializer does not support Boolean representation"
  | .notEnumeration type => "EnumSerializer requires an enum type, got " ++ type
  | .enumerationRepresentation => "EnumSerializer supports Int32 or String representation only"
  | .notClass type => "ClassSerializer requires a class type, got " ++ type
  | .noMember className member => "class " ++ className ++ " has no member named " ++ member
  | .missingEncoder member => "serializer for member " ++ member ++ " must not be null"
  | .alreadyMapped member className =>
    "member " ++ member ++ " of class " ++ className ++ " is already mapped"
  | .missingRegistration => "SerializerRegistry: serializer cannot be null"
  | .alreadyRegistered type => "SerializerRegistry: type " ++ type ++ " is already registered"

namespace Encoder

def valueType : Encoder → Ty
  | .boolean => .boolean
  | .string => .string
  | .double => .double
  | .integer width _ => width.type
  | .enumeration name values _ => .enumeration name values
  | .array item => .array item.valueType
  | .dictionary _ key value => .dictionary key.valueType value.valueType
  | .document className place _ => .cls className place

/-- The name by which messages call an encoder. -/
def kind : Encoder → String
  | .boolean => "BooleanSerializer"
  | .string => "StringSerializer"
  | .double => "DoubleSerializer"
  | .integer width _ => width.type.name ++ "Serializer"
  | .enumeration name _ _ => "EnumSerializer<" ++ name ++ ">"
  | .array item => "ArraySerializer<" ++ item.valueType.name ++ ">"
  | .dictionary _ key value =>
    "DictionarySerializer<" ++ key.valueType.name ++ ", " ++ value.valueType.name ++ ">"
  | .document className _ _ => "ClassSerializer<" ++ className ++ ">"

/-- The stored form of a scalar. -/
def representation? : Encoder → Option Representation
  | .boolean => some .boolean
  | .string => some .string
  | .double => some .double
  | .integer _ representation => some representation
  | .enumeration _ _ representation => some representation
  | .array _ => none
  | .dictionary .. => none
  | .document .. => none

/-- Whether the stored form is a number. -/
def isNumeric (e : Encoder) : Bool :=
  match e.representation? with
  | some .int32 | some .int64 | some .double => true
  | _ => false

def integerOf (type : Ty) (representation : Representation) : Except EncoderError Encoder :=
  match type with
  | .int32 => withWidth .int32
  | .int64 => withWidth .int64
  | t => .error (.notInteger t.name)
where
  withWidth (width : Width) : Except EncoderError Encoder :=
    if representation = .boolean then .error .booleanInteger
    else .ok (.integer width representation)

def enumerationOf (type : Ty) (representation : Representation) : Except EncoderError Encoder :=
  match type with
  | .enumeration name values =>
    if representation = .int32 ∨ representation = .string then
      .ok (.enumeration name values representation)
    else .error .enumerationRepresentation
  | t => .error (.notEnumeration t.name)

end Encoder

end QueryFilter
