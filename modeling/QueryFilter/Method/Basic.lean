import QueryFilter.Ty.Basic

/-!
Method signatures, and the signatures of the methods that filters know.
Any of the types of a signature may be absent.
-/

namespace QueryFilter

structure Method where
  name : String
  declaring : Option Ty
  returns : Option Ty
  params : List (Option Ty)
  isStatic : Bool
  isPublic : Bool
  deriving DecidableEq, Repr

namespace Method

def arity (m : Method) : Nat := m.params.length

def returnsBoolean (m : Method) : Bool := m.returns.any Ty.isBoolean

/-- For instance `Boolean Dictionary<String, Int32>.ContainsKey(String)`. There is
no text of a method with a parameter of no type. -/
def text? (m : Method) : Option String := do
  let params ← m.params.mapM id
  pure ((if m.isStatic then "static " else "")
    ++ (match m.returns with | some t => t.name | none => "Void") ++ " "
    ++ (match m.declaring with | some t => t.name ++ "." | none => "")
    ++ m.name ++ "(" ++ ", ".intercalate (params.map Ty.name) ++ ")")

/-- A public instance method that answers a question about its receiver. -/
def question (name : String) (declaring : Ty) (param : Option Ty) : Method :=
  ⟨name, some declaring, some .boolean, [param], false, true⟩

/-- A public static method that answers a question about its arguments. -/
def staticQuestion (name : String) (declaring : Ty) (params : List Ty) : Method :=
  ⟨name, some declaring, some .boolean, params.map some, true, true⟩

def containsKey (dictionary : Ty) : Method :=
  question "ContainsKey" dictionary dictionary.key?

def containsValue (dictionary : Ty) : Method :=
  question "ContainsValue" dictionary dictionary.element?

def stringContains : Method := question "Contains" .string (some .string)

def startsWith : Method := question "StartsWith" .string (some .string)

def endsWith : Method := question "EndsWith" .string (some .string)

def isNullOrEmpty : Method := staticQuestion "IsNullOrEmpty" (.host "String") [.string]

def sequenceContains (element : Ty) : Method :=
  staticQuestion "Contains" (.host "Enumerable") [.array element, element]

def listContains (element : Ty) : Method := question "Contains" (.array element) (some element)

def any (element : Ty) : Method := staticQuestion "Any" (.host "Enumerable") [.array element]

def anyWhere (element : Ty) : Method :=
  staticQuestion "Any" (.host "Enumerable") [.array element, .function element .boolean]

def equals (type : Ty) : Method := question "Equals" type (some type)

end Method

end QueryFilter
