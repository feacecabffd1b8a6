import QueryFilter.Comparison
import QueryFilter.Json.Basic
import QueryFilter.Method.Basic

/-!
Predicate expressions. Every node has a static type, which may be absent where
a node was made without a check or a method returns nothing.
-/

namespace QueryFilter

inductive BinaryOp where
  | and
  | or
  | compare (how : Comparison)
  | mod
  deriving DecidableEq, Repr

namespace BinaryOp

def symbol : BinaryOp → String
  | .and => "&&"
  | .or => "||"
  | .compare how => how.symbol
  | .mod => "%"

def isComparison : BinaryOp → Bool
  | .compare _ => true
  | _ => false

def isLogical : BinaryOp → Bool
  | .and | .or => true
  | _ => false

/-- The operator that says the same of exchanged operands. -/
def converse : BinaryOp → BinaryOp
  | .compare how => .compare how.converse
  | op => op

def all : List BinaryOp :=
  [.and, .or, .mod] ++ Comparison.all.map .compare

def ofSymbol? (symbol : String) : Option BinaryOp := all.find? (·.symbol == symbol)

theorem ofSymbol?_symbol (op : BinaryOp) : ofSymbol? op.symbol = some op := by
  rcases op with _ | _ | (_ | _ | _ | _ | _ | _) | _ <;> decide

end BinaryOp

inductive Expr where
  | param (name : String) (type : Ty)
  | const (value : Json) (type : Ty)
  | member (object : Expr) (name : String) (type : Option Ty)
  | index (object key : Expr) (type : Option Ty)
  | call (object : Option Expr) (method : Method) (args : List Expr)
  | binary (op : BinaryOp) (left right : Expr) (type : Option Ty)
  | not (operand : Expr)
  | lambda (name : String) (type : Ty) (body : Expr)

namespace Expr

def type? : Expr → Option Ty
  | .param _ type => some type
  | .const _ type => some type
  | .member _ _ type => type
  | .index _ _ type => type
  | .call _ method _ => method.returns
  | .binary _ _ _ type => type
  | .not _ => some .boolean
  | .lambda _ type body => body.type?.map (.function type)

def isBoolean (e : Expr) : Bool := e.type?.any Ty.isBoolean

/-- The value of a constant. -/
def const? : Expr → Option Json
  | .const value _ => some value
  | _ => none

def isNullConst (e : Expr) : Bool := e.const?.any Json.isNull

/-- A chain of members and indexes that starts at a parameter. -/
def isFieldReference : Expr → Bool
  | .param .. => true
  | .member object _ _ => object.isFieldReference
  | .index object _ _ => object.isFieldReference
  | _ => false

end Expr

/-- A lambda over one parameter, as a whole. -/
structure Predicate where
  name : String
  type : Ty
  body : Expr

namespace Predicate

def toExpr (p : Predicate) : Expr := .lambda p.name p.type p.body

def ofExpr? : Expr → Option Predicate
  | .lambda name type body => some ⟨name, type, body⟩
  | _ => none

@[simp] theorem ofExpr?_toExpr (p : Predicate) : ofExpr? p.toExpr = some p := rfl

end Predicate

end QueryFilter
