/-!
Stored forms of scalars and layouts of dictionaries, with their names.
-/

namespace QueryFilter

inductive Representation where
  | boolean | int32 | int64 | double | string
  deriving DecidableEq, Repr

namespace Representation

def text : Representation → String
  | .boolean => "Boolean"
  | .int32 => "Int32"
  | .int64 => "Int64"
  | .double => "Double"
  | .string => "String"

def all : List Representation := [.boolean, .int32, .int64, .double, .string]

def ofText? (text : String) : Option Representation := all.find? (·.text == text)

theorem ofText?_text (r : Representation) : ofText? r.text = some r := by
  cases r <;> decide

end Representation

/-- How the entries of a dictionary are stored: as the fields of a document, as
documents with a field `k` and a field `v`, or as arrays of two items. -/
inductive Layout where
  | document | arrayOfDocuments | arrayOfArrays
  deriving DecidableEq, Repr

namespace Layout

def text : Layout → String
  | .document => "Document"
  | .arrayOfDocuments => "ArrayOfDocuments"
  | .arrayOfArrays => "ArrayOfArrays"

def all : List Layout := [.document, .arrayOfDocuments, .arrayOfArrays]

def ofText? (text : String) : Option Layout := all.find? (·.text == text)

theorem ofText?_text (l : Layout) : ofText? l.text = some l := by
  cases l <;> decide

/-- The path step of the value inside a stored entry, where one path reaches
the value of every entry. -/
def valueStep? : Layout → Option String
  | .document => none
  | .arrayOfDocuments => some "v"
  | .arrayOfArrays => some "1"

end Layout

end QueryFilter
