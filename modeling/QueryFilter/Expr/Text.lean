import QueryFilter.Expr.Basic
import QueryFilter.Json.Printer

/-!
Expressions as text, the way they would be written, and as JSON, node by node.
-/

namespace QueryFilter

def Method.text (m : Method) : Except TextError String :=
  match m.text? with
  | some text => .ok text
  | none => .error .untypedParameter

namespace Expr

mutual

def text (print : Printer) : Expr → Except TextError String
  | .param name _ => pure name
  | .const value _ => print.text value
  | .member object name _ => do
    let object ← object.text print
    pure (object ++ "." ++ name)
  | .index object key _ => do
    let object ← object.text print
    let key ← key.text print
    pure (object ++ "[" ++ key ++ "]")
  | .call (some object) method args => do
    let object ← object.text print
    let args ← argsText print args
    pure (object ++ "." ++ method.name ++ "(" ++ args ++ ")")
  | .call none method args => do
    let args ← argsText print args
    pure ((match method.declaring with | some t => t.name | none => "")
      ++ "." ++ method.name ++ "(" ++ args ++ ")")
  | .binary op left right _ => do
    let left ← left.text print
    let right ← right.text print
    pure ("(" ++ left ++ " " ++ op.symbol ++ " " ++ right ++ ")")
  | .not operand => do
    let operand ← operand.text print
    pure ("!" ++ operand)
  | .lambda name _ body => do
    let body ← body.text print
    pure (name ++ " => " ++ body)

def argsText (print : Printer) : List Expr → Except TextError String
  | [] => pure ""
  | [e] => e.text print
  | e :: es => do
    let first ← e.text print
    let rest ← argsText print es
    pure (first ++ ", " ++ rest)

end

def typeName : Option Ty → Json
  | some t => .string t.name
  | none => .null

def paramJson (name : String) (type : Ty) : Json :=
  .ofPairs [("type", .string "parameter"), ("name", .string name), ("valueType", .string type.name)]

mutual

def toJson : Expr → Except TextError Json
  | .param name type => pure (paramJson name type)
  | .const value type =>
    pure (.ofPairs
      [("type", .string "constant"), ("value", value), ("valueType", .string type.name)])
  | .member object name type => do
    let object ← object.toJson
    pure (.ofPairs [("type", .string "member"), ("object", object), ("member", .string name),
      ("valueType", typeName type)])
  | .index object key type => do
    let object ← object.toJson
    let key ← key.toJson
    pure (.ofPairs [("type", .string "index"), ("object", object), ("index", key),
      ("valueType", typeName type)])
  | .call object method args => do
    let method ← method.text
    let object ← objectJson object
    let args ← argsJson args
    pure (.ofPairs [("type", .string "call"), ("method", .string method), ("object", object),
      ("arguments", .array args)])
  | .binary op left right _ => do
    let left ← left.toJson
    let right ← right.toJson
    pure (.ofPairs [("type", .string "binary"), ("op", .string op.symbol), ("left", left),
      ("right", right)])
  | .not operand => do
    let operand ← operand.toJson
    pure (.ofPairs [("type", .string "unary"), ("op", .string "!"), ("operand", operand)])
  | .lambda name type body => do
    let body ← body.toJson
    pure (.ofPairs [("type", .string "lambda"), ("parameter", paramJson name type),
      ("body", body)])

def objectJson : Option Expr → Except TextError Json
  | some object => object.toJson
  | none => pure .null

def argsJson : List Expr → Except TextError (List Json)
  | [] => pure []
  | e :: es => do
    let first ← e.toJson
    let rest ← argsJson es
    pure (first :: rest)

end

def nodeName : Expr → String
  | .param .. => "Parameter"
  | .const .. => "Constant"
  | .member .. => "MemberAccess"
  | .index .. => "Index"
  | .call .. => "MethodCall"
  | .binary .. => "Binary"
  | .not .. => "Unary"
  | .lambda .. => "Lambda"

end Expr

end QueryFilter
