import QueryFilter.Encoding.Encode
import QueryFilter.Expr.Text
import QueryFilter.Filter.Build
import QueryFilter.Filter.Render

/-!
Why an expression has no filter. A refusal names the expression at fault; a
fault of filter construction or of rendering that gets out names none, and its
kind is `none`.
-/

namespace QueryFilter

inductive ErrorKind where
  | none
  | unsupportedExpression
  | unsupportedRepresentation
  | unresolvedField
  | nonConstantOrNonStringKey
  | notADictionary
  deriving DecidableEq, Repr

def ErrorKind.text : ErrorKind → String
  | .none => "None"
  | .unsupportedExpression => "UnsupportedExpression"
  | .unsupportedRepresentation => "UnsupportedRepresentation"
  | .unresolvedField => "UnresolvedField"
  | .nonConstantOrNonStringKey => "NonConstantOrNonStringKey"
  | .notADictionary => "NotADictionary"

inductive Cause where
  /-- Nothing is known that takes such an expression. -/
  | unclaimed
  | tooDeep (limit : Nat)
  | bodyNotBoolean
  | notBoolean
  | notBooleanConstant
  | twoFields
  | noConstant
  | noField
  | nullOrder
  | remainderOrder
  | divisorNotInteger
  | divisorZero
  | remainderNotInteger
  | lengthOperand
  | lengthAlwaysTrue
  | lengthAlwaysFalse
  | valueNotConstant
  | testedNotField
  | testedNotConstant
  | sourceNotCollection
  | predicateNotLambda
  | mixedPredicate
  | operandNotField
  | fieldNotString (path : String)
  | fieldNotArray (path : String)
  | argumentNotString
  /-- The method is given by its text, if it has one. -/
  | unknownMethod (method : Option String)
  | notAnArray (value : Json)
  | encoding (error : EncodeError)
  | methodLayout (method : String) (layout : Layout)
  | indexLayout (layout : Layout)
  | remainderRepresentation (stored : String)
  | documentRoot
  | notInScope (name : String)
  | outerParameter (name : String)
  | notAField
  | noSuchMember (encoder member : String)
  | noIndexing (encoder : String)
  | indexNotConstant
  | unregistered (type : String)
  | keyNotText (error : Option EncodeError)
  | notADictionary (encoder : String)
  /-- A reason in words of the caller's own. -/
  | other (kind : ErrorKind) (reason : String)
  /-- A filter could not be built from its parts. -/
  | build (error : FilterError)
  /-- A filter could not be rendered. -/
  | render (error : RenderError)

namespace Cause

def kind : Cause → ErrorKind
  | .methodLayout .. | .indexLayout _ | .remainderRepresentation _ => .unsupportedRepresentation
  | .documentRoot | .notInScope _ | .outerParameter _ | .notAField | .noSuchMember ..
  | .noIndexing _ | .indexNotConstant | .unregistered _ => .unresolvedField
  | .keyNotText _ => .nonConstantOrNonStringKey
  | .notADictionary _ => .notADictionary
  | .other kind _ => kind
  | .build _ | .render _ => .none
  | _ => .unsupportedExpression

/-- Empty where there is nothing to say. -/
def reason (print : Printer) : Cause → Except TextError String
  | .unclaimed => .ok ""
  | .tooDeep limit => .ok ("expression nesting exceeds maximum depth of " ++ toString limit)
  | .bodyNotBoolean => .ok "the predicate body must be a boolean expression"
  | .notBoolean => .ok "it is not a boolean expression"
  | .notBooleanConstant => .ok "it is not a boolean constant"
  | .twoFields => .ok "comparing two fields requires $expr"
  | .noConstant => .ok "one operand must be a constant"
  | .noField => .ok "the comparison does not reference a field"
  | .nullOrder => .ok "null can only be compared with == or !="
  | .remainderOrder => .ok "the result of % can only be compared with == or !="
  | .divisorNotInteger => .ok "the divisor must be an integer constant"
  | .divisorZero => .ok "the divisor must not be zero"
  | .remainderNotInteger => .ok "the remainder must be an integer constant"
  | .lengthOperand => .ok "array length must be compared with a non-negative integer constant"
  | .lengthAlwaysTrue => .ok "Length >= 0 is always true"
  | .lengthAlwaysFalse => .ok "Length < 0 is always false"
  | .valueNotConstant => .ok "value must be a constant"
  | .testedNotField => .ok "the tested value must be a field"
  | .testedNotConstant => .ok "the tested value must be a constant"
  | .sourceNotCollection => .ok "the source must be a field or a constant array"
  | .predicateNotLambda => .ok "the predicate must be a lambda expression"
  | .mixedPredicate =>
    .ok "the predicate combines operations on the element itself with || or negated conjunctions"
  | .operandNotField => .ok "the string operand must be a field"
  | .fieldNotString path => .ok ("field " ++ path ++ " is not serialized as a string")
  | .fieldNotArray path => .ok ("field " ++ path ++ " is not serialized as an array")
  | .argumentNotString => .ok "the argument must be a non-null string constant"
  | .unknownMethod none => .error .untypedParameter
  | .unknownMethod (some method) => .ok ("method " ++ method ++ " has no filter translation")
  | .notAnArray value => do
    let value ← print.text value
    pure ("value " ++ value ++ " is not an array")
  | .encoding error => error.message print
  | .methodLayout method layout =>
    .ok (method ++ " is not supported when DictionaryRepresentation is: " ++ layout.text)
  | .indexLayout layout =>
    .ok ("indexing a dictionary is not supported when DictionaryRepresentation is: " ++ layout.text)
  | .remainderRepresentation stored =>
    .ok ("% is not supported when the field is represented as: " ++ stored)
  | .documentRoot => .ok "the document root cannot be used as a field"
  | .notInScope name => .ok ("parameter " ++ name ++ " is not in scope")
  | .outerParameter name =>
    .ok ("parameter " ++ name ++ " of an enclosing predicate cannot be referenced inside $elemMatch")
  | .notAField => .ok "it does not reference a field of the document"
  | .noSuchMember encoder member =>
    .ok ("serializer " ++ encoder ++ " does not have a member named " ++ member)
  | .noIndexing encoder => .ok ("serializer " ++ encoder ++ " does not support indexing")
  | .indexNotConstant => .ok "array index must be a non-negative integer constant"
  | .unregistered type => .ok ("no serializer is registered for type " ++ type)
  | .keyNotText none => .ok "key must be a constant represented as a string"
  | .keyNotText (some error) => do
    let message ← error.message print
    pure ("key must be a constant represented as a string (" ++ message ++ ")")
  | .notADictionary encoder =>
    .ok ("class " ++ encoder ++ " does not implement the IDictionarySerializer interface")
  | .other _ reason => .ok reason
  | .build error => .ok error.message
  | .render error => .ok error.message

end Cause

structure CompileError where
  cause : Cause
  expression : Option Expr

namespace CompileError

def kind (e : CompileError) : ErrorKind := e.cause.kind

def reason (print : Printer) (e : CompileError) : Except TextError String := e.cause.reason print

def expressionText (print : Printer) (e : CompileError) : Except TextError String :=
  match e.expression with
  | some e => e.text print
  | none => .ok "<null>"

def message (print : Printer) (e : CompileError) : Except TextError String := do
  let reason ← e.reason print
  let text ← e.expressionText print
  pure ("Expression not supported: " ++ text
    ++ (if reason = "" then "" else " because " ++ reason) ++ ".")

/-- Whether an error refuses an expression. -/
def isRefusal (e : CompileError) : Bool := e.kind != .none

end CompileError

/-- The result of compiling a part of a predicate. -/
abbrev Compiled (α : Type) := Except CompileError α

/-- Refuses an expression. -/
def Expr.refuse {α : Type} (e : Expr) (cause : Cause) : Compiled α := .error ⟨cause, some e⟩

/-- A filter made of compiled parts. -/
def Compiled.ofBuild (filter : Except FilterError Filter) : Compiled Filter :=
  filter.mapError fun error => ⟨.build error, none⟩

end QueryFilter
