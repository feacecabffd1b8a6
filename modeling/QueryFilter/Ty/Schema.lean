import QueryFilter.Ty.Basic

/-!
The declared classes. Members are added after a class has been declared, so
they may be of classes that are declared later, or of the class itself.
-/

namespace QueryFilter

structure ClassDecl where
  name : String
  members : List (String × Ty)
  deriving Repr

structure Schema where
  classes : List ClassDecl
  deriving Repr

namespace Schema

def empty : Schema := ⟨[]⟩

def declare (schema : Schema) (name : String) : Ty × Schema :=
  (.cls name (some schema.classes.length), ⟨schema.classes ++ [⟨name, []⟩]⟩)

/-- Members of a class in declaration order; other types have none. -/
def members (schema : Schema) : Ty → List (String × Ty)
  | .cls _ (some place) =>
    match schema.classes[place]? with
    | some decl => decl.members
    | none => []
  | _ => []

def setMembers (schema : Schema) (t : Ty) (members : List (String × Ty)) : Schema :=
  match t with
  | .cls _ (some place) =>
    ⟨schema.classes.modify place fun decl => { decl with members := members }⟩
  | _ => schema

def addMember (schema : Schema) (t : Ty) (name : String) (type : Ty) : Schema :=
  schema.setMembers t (schema.members t ++ [(name, type)])

def clearMembers (schema : Schema) (t : Ty) : Schema := schema.setMembers t []

/-- Type of a member; of two members of one name the first counts. Arrays and
strings have a length, arrays and dictionaries a count. -/
def memberType? (schema : Schema) (t : Ty) (member : String) : Option Ty :=
  match t with
  | .cls .. => (schema.members t).lookup member
  | .array _ => if member = "Length" ∨ member = "Count" then some .int32 else none
  | .dictionary .. => if member = "Count" then some .int32 else none
  | .string => if member = "Length" then some .int32 else none
  | _ => none

@[simp] theorem members_declare (schema : Schema) (name : String) :
    (schema.declare name).2.members (schema.declare name).1 = [] := by
  simp [declare, members]

theorem memberType?_cls (schema : Schema) (name : String) (place : Option Nat) (member : String) :
    schema.memberType? (.cls name place) member
      = (schema.members (.cls name place)).lookup member := rfl

end Schema

end QueryFilter
