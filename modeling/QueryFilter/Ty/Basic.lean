/-!
Static types of expressions. A class type carries its name and its place in a
schema, where its members are kept, so classes may refer to themselves; a
static class that only hosts methods has no place. The name of a composite
type is made of the names of its parts.
-/

namespace QueryFilter

inductive Ty where
  | boolean
  | int32
  | int64
  | double
  | string
  | enumeration (name : String) (values : List String)
  | cls (name : String) (place : Option Nat)
  | dictionary (key value : Ty)
  | array (element : Ty)
  | function (parameter result : Ty)
  deriving DecidableEq, Repr

namespace Ty

inductive Kind where
  | boolean | int32 | int64 | double | string | enumeration | cls | dictionary | array | function
  deriving DecidableEq, Repr

def Kind.text : Kind → String
  | .boolean => "Boolean"
  | .int32 => "Int32"
  | .int64 => "Int64"
  | .double => "Double"
  | .string => "String"
  | .enumeration => "Enum"
  | .cls => "Class"
  | .dictionary => "Dictionary"
  | .array => "Array"
  | .function => "Function"

def kind : Ty → Kind
  | .boolean => .boolean
  | .int32 => .int32
  | .int64 => .int64
  | .double => .double
  | .string => .string
  | .enumeration .. => .enumeration
  | .cls .. => .cls
  | .dictionary .. => .dictionary
  | .array _ => .array
  | .function .. => .function

def name : Ty → String
  | .boolean => "Boolean"
  | .int32 => "Int32"
  | .int64 => "Int64"
  | .double => "Double"
  | .string => "String"
  | .enumeration name _ => name
  | .cls name _ => name
  | .dictionary key value => "Dictionary<" ++ key.name ++ ", " ++ value.name ++ ">"
  | .array element => element.name ++ "[]"
  | .function parameter result => "Func<" ++ parameter.name ++ ", " ++ result.name ++ ">"

/-- Types are told apart by kind and name. -/
def sameAs (t u : Ty) : Bool := t.kind == u.kind && t.name == u.name

@[simp] theorem sameAs_self (t : Ty) : t.sameAs t = true := by simp [sameAs]

theorem sameAs_iff (t u : Ty) : t.sameAs u = true ↔ t.kind = u.kind ∧ t.name = u.name := by
  simp [sameAs]

def isBoolean (t : Ty) : Bool := t.kind == .boolean

def isIntegral (t : Ty) : Bool := t.kind == .int32 || t.kind == .int64

def isNumeric (t : Ty) : Bool := t.isIntegral || t.kind == .double

def isScalar (t : Ty) : Bool :=
  t.isBoolean || t.isNumeric || t.kind == .string || t.kind == .enumeration

/-- The key type of a dictionary. -/
def key? : Ty → Option Ty
  | .dictionary key _ => some key
  | _ => none

/-- The values of a dictionary, the items of an array, the parameter of a
function. -/
def element? : Ty → Option Ty
  | .dictionary _ value => some value
  | .array element => some element
  | .function parameter _ => some parameter
  | _ => none

def result? : Ty → Option Ty
  | .function _ result => some result
  | _ => none

/-- Names of an enumeration in ordinal order. -/
def values : Ty → List String
  | .enumeration _ values => values
  | _ => []

def ordinal? (t : Ty) (value : String) : Option Nat := t.values.idxOf? value

/-- A static class that hosts methods and has no members. -/
def host (name : String) : Ty := .cls name none

end Ty

end QueryFilter
