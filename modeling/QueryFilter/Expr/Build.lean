import QueryFilter.Expr.Text
import QueryFilter.Ty.Schema

/-!
Checked construction of expressions. An operand may be missing, which is
refused; so is whatever breaks static typing.
-/

namespace QueryFilter

inductive BuildError where
  | missing (what : String)
  | untyped (what : String)
  | noMember (type member : String)
  | arrayIndex (type : String)
  | dictionaryKey (expected type : String)
  | noIndexer (type : String)
  | staticOnInstance (method : String)
  | instanceWithoutObject (method : String)
  | arity (method : String) (expected : Nat)
  | untypedParameter (method : String)
  | booleanOperands (op : BinaryOp)
  | integerOperands
  | incomparable (left right : String)
  | booleanOperand
  deriving DecidableEq, Repr

def BuildError.message : BuildError → String
  | .missing what => what ++ " must not be null"
  | .untyped what => what ++ " must have a type"
  | .noMember type member => "type " ++ type ++ " has no member named " ++ member
  | .arrayIndex type => "array index must be an integer, got " ++ type
  | .dictionaryKey expected type => "dictionary key must be " ++ expected ++ ", got " ++ type
  | .noIndexer type => "type " ++ type ++ " has no indexer"
  | .staticOnInstance method => "static method " ++ method ++ " called with an instance"
  | .instanceWithoutObject method => "instance method " ++ method ++ " called without an instance"
  | .arity method expected =>
    "method " ++ method ++ " expects " ++ toString expected ++ " argument(s)"
  | .untypedParameter method => "a parameter of method " ++ method ++ " has no type"
  | .booleanOperands op => "operator " ++ op.symbol ++ " requires boolean operands"
  | .integerOperands => "operator % requires integer operands"
  | .incomparable left right => "cannot compare " ++ left ++ " with " ++ right
  | .booleanOperand => "operator ! requires a boolean operand"

namespace Expr

def require {α : Type} (what : String) : Option α → Except BuildError α
  | some a => .ok a
  | none => .error (.missing what)

/-- An operand together with its static type. -/
def typed (what : String) (e : Expr) : Except BuildError Ty :=
  match e.type? with
  | some t => .ok t
  | none => .error (.untyped what)

def parameter (name : String) (type : Option Ty) : Except BuildError Expr := do
  let type ← require "parameter type" type
  pure (.param name type)

def constant (value : Json) (type : Option Ty) : Except BuildError Expr := do
  let type ← require "constant type" type
  pure (.const value type)

def stringConst (s : String) : Expr := .const (.string s) .string

def intConst (n : Int) : Expr := .const (.int n) .int32

def boolConst (b : Bool) : Expr := .const (.bool b) .boolean

def nullConst (type : Option Ty) : Except BuildError Expr := constant .null type

def memberOf (schema : Schema) (object : Option Expr) (name : String) : Except BuildError Expr := do
  let object ← require "member object" object
  let t ← typed "member object" object
  match schema.memberType? t name with
  | some type => pure (.member object name (some type))
  | none => throw (.noMember t.name name)

def indexOf (object key : Option Expr) : Except BuildError Expr := do
  let object ← require "indexed object" object
  let key ← require "index" key
  let t ← typed "indexed object" object
  let k ← typed "index" key
  match t with
  | .array element =>
    if k.isIntegral then pure (.index object key (some element)) else throw (.arrayIndex k.name)
  | .dictionary expected value =>
    if k.sameAs expected then pure (.index object key (some value))
    else throw (.dictionaryKey expected.name k.name)
  | _ => throw (.noIndexer t.name)

/-- As many arguments as the method has parameters, all of them present. -/
def arguments (method : Method) (args : List (Option Expr)) : Except BuildError (List Expr) :=
  if args.length = method.arity then args.mapM (require "argument")
  else
    match method.text? with
    | some text => .error (.arity text method.arity)
    | none => .error (.untypedParameter method.name)

def callOn (object : Option Expr) (method : Option Method) (args : List (Option Expr)) :
    Except BuildError Expr := do
  let object ← require "call target" object
  let method ← require "method" method
  if method.isStatic then throw (.staticOnInstance method.name)
  let args ← arguments method args
  pure (.call (some object) method args)

def callStatic (method : Option Method) (args : List (Option Expr)) : Except BuildError Expr := do
  let method ← require "method" method
  if !method.isStatic then throw (.instanceWithoutObject method.name)
  let args ← arguments method args
  pure (.call none method args)

/-- Operands of one type, two numbers, or anything and a null constant. -/
def comparable (left right : Expr) (l r : Ty) : Bool :=
  l.sameAs r || (l.isNumeric && r.isNumeric) || left.isNullConst || right.isNullConst

def binaryOf (op : BinaryOp) (left right : Option Expr) : Except BuildError Expr := do
  let left ← require "left operand" left
  let right ← require "right operand" right
  let l ← typed "left operand" left
  let r ← typed "right operand" right
  match op with
  | .and | .or =>
    if l.isBoolean && r.isBoolean then pure (.binary op left right (some .boolean))
    else throw (.booleanOperands op)
  | .mod =>
    if l.isIntegral && r.isIntegral then pure (.binary op left right (some l))
    else throw .integerOperands
  | .compare _ =>
    if comparable left right l r then pure (.binary op left right (some .boolean))
    else throw (.incomparable l.name r.name)

def notOf (operand : Option Expr) : Except BuildError Expr := do
  let operand ← require "operand" operand
  let t ← typed "operand" operand
  if t.isBoolean then pure (.not operand) else throw .booleanOperand

/-- A lambda over a parameter node. -/
def lambdaOf (param body : Option Expr) : Except BuildError Expr :=
  match param with
  | some (.param name type) => do
    let body ← require "lambda body" body
    pure (.lambda name type body)
  | _ => .error (.missing "lambda parameter")

end Expr

end QueryFilter
