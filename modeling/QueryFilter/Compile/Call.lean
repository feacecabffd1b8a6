import QueryFilter.Compile.Field
import QueryFilter.Filter.Render
import QueryFilter.Method.Shape

/-!
Calls of the methods that filters know. Each compiler checks that the call is
one of its own.
-/

namespace QueryFilter

structure Call where
  object : Option Expr
  method : Method
  args : List Expr

namespace Call

def toExpr (c : Call) : Expr := .call c.object c.method c.args

def ofExpr? : Expr → Option Call
  | .call object method args => some ⟨object, method, args⟩
  | _ => none

def refuse {α : Type} (c : Call) (cause : Cause) : Compiled α := c.toExpr.refuse cause

/-- The receiver and the first argument of an instance call. -/
def operands? (c : Call) : Option (Expr × Expr) :=
  match c.object, c.args with
  | some object, arg :: _ => some (object, arg)
  | _, _ => none

end Call

namespace Compile

/-- The characters that mean something in a regular expression. -/
def metacharacters : List Char :=
  ['\\', '^', '$', '.', '|', '?', '*', '+', '(', ')', '[', ']', '\x7b', '\x7d']

/-- A literal as a regular expression that matches just the literal. -/
def escapeLiteral (literal : String) : String :=
  String.ofList (literal.toList.flatMap fun c => if c ∈ metacharacters then ['\\', c] else [c])

/-- The pattern that finds a literal in, at the front of or at the end of a
string. -/
def literalPattern : Method.StringMatch → String → String
  | .contains, literal => escapeLiteral literal
  | .startsWith, literal => "^" ++ escapeLiteral literal
  | .endsWith, literal => escapeLiteral literal ++ "$"

/-- A key of a dictionary as the name of a stored element. -/
def keyText (s : Scope) (c : Call) (key : Expr) (encoder : Encoder) : Compiled String :=
  match key.const? with
  | none => c.refuse (.keyNotText none)
  | some value =>
    match s.model.maps.encode encoder value with
    | .error error => c.refuse (.keyNotText (some error))
    | .ok (.string key) => pure key
    | .ok _ => c.refuse (.keyNotText none)

def containsKey (s : Scope) (c : Call) : Compiled Filter :=
  match c.method.isContainsKey, c.operands? with
  | true, some (object, key) => do
    let f ← field s object
    match f.encoder with
    | .dictionary .document keyEncoder _ => do
      let key ← keyText s c key keyEncoder
      pure (.test (f.path.child key) (.presence true))
    | .dictionary layout _ _ => c.refuse (.methodLayout "ContainsKey" layout)
    | encoder => c.refuse (.notADictionary encoder.kind)
  | _, _ => c.refuse .unclaimed

def containsValue (s : Scope) (c : Call) : Compiled Filter :=
  match c.method.isContainsValue, c.operands? with
  | true, some (object, value) => do
    let f ← field s object
    match f.encoder with
    | .dictionary layout _ valueEncoder =>
      match layout.valueStep? with
      | none => c.refuse (.methodLayout "ContainsValue" layout)
      | some step =>
        match value.const? with
        | none => c.refuse .valueNotConstant
        | some value => do
          let stored ← s.encode valueEncoder value (some c.toExpr)
          pure (.elemMatch f.path (.test ⟨[step]⟩ (.eq stored)))
    | encoder => c.refuse (.notADictionary encoder.kind)
  | _, _ => c.refuse .unclaimed

/-- A field that holds strings. -/
def stringField (s : Scope) (c : Call) (operand : Expr) : Compiled Field :=
  if operand.isFieldReference then do
    let f ← field s operand
    if f.encoder.valueType.kind = .string then pure f
    else c.refuse (.fieldNotString f.path.text)
  else c.refuse .operandNotField

def stringMatch (s : Scope) (c : Call) : Compiled Filter :=
  match c.method.isStringMatch, c.operands? with
  | true, some (object, arg) => do
    let f ← stringField s c object
    match arg.const?.bind Json.string? with
    | some literal => pure (.test f.path (.regex (literalPattern c.method.matching literal) ""))
    | none => c.refuse .argumentNotString
  | _, _ => c.refuse .unclaimed

def stringEmptiness (s : Scope) (c : Call) : Compiled Filter :=
  match c.method.isStringEmptiness, c.args with
  | true, operand :: _ => do
    let f ← stringField s c operand
    pure (.test f.path (.oneOf [.null, .string ""]))
  | _, _ => c.refuse .unclaimed

/-- The collection and the value of a membership call in either form. -/
def membership? (c : Call) : Option (Expr × Expr) :=
  if c.method.isSequenceContains then
    match c.args with
    | source :: value :: _ => some (source, value)
    | _ => none
  else if c.method.isListContains then c.operands?
  else none

/-- The encoder of the items of a field. -/
def itemEncoder (c : Call) (f : Field) : Compiled Encoder :=
  match f.encoder with
  | .array item => pure item
  | _ => c.refuse (.fieldNotArray f.path.text)

def contains (s : Scope) (c : Call) : Compiled Filter :=
  match membership? c with
  | none => c.refuse .unclaimed
  | some (source, value) =>
    match source.const? with
    | some items =>
      if value.isFieldReference then do
        let f ← field s value
        let stored ← s.encodeItems f.encoder items (some c.toExpr)
        pure (.test f.path (.oneOf stored))
      else c.refuse .testedNotField
    | none =>
      if source.isFieldReference then do
        let f ← field s source
        let item ← itemEncoder c f
        match value.const? with
        | some value => do
          let stored ← s.encodeOrNull item value (some c.toExpr)
          pure (.test f.path (.eq stored))
        | none => c.refuse .testedNotConstant
      else c.refuse .sourceNotCollection

def equals (s : Scope) (c : Call) : Compiled Filter :=
  match c.method.isEquals, c.operands? with
  | true, some (object, arg) =>
    let (operand, other) := if object.const?.isSome then (arg, object) else (object, arg)
    match other.const? with
    | none =>
      if operand.isFieldReference && other.isFieldReference then c.refuse .twoFields
      else c.refuse .noConstant
    | some value => do
      let f ← field s operand
      let stored ← s.encodeOrNull f.encoder value (some c.toExpr)
      pure (.test f.path (.eq stored))
  | _, _ => c.refuse .unclaimed

/-- An `elemMatch` over a compiled body. A body that tests nothing matches no
scalar item, so constant bodies are decided here. -/
def elemMatch (c : Call) (path : Path) (body : Filter) : Compiled Filter :=
  match body with
  | .everything => pure (.nonEmptyArray path)
  | .nothing => pure .nothing
  | body =>
    match body.isElemMatchBody with
    | .ok true => pure (.elemMatch path body)
    | .ok false => c.refuse .mixedPredicate
    | .error error => .error ⟨.render error, none⟩

/-- Whether an array has an item, or one of which a predicate holds. The
predicate is compiled by `body` in the scope of the item. -/
def any (s : Scope) (c : Call) (body : Scope → Compiled Filter) : Compiled Filter :=
  match c.method.isAny || c.method.isAnyWhere, c.args with
  | true, source :: rest => do
    let f ← field s source
    let item ← itemEncoder c f
    if c.method.isAny then pure (.nonEmptyArray f.path)
    else
      match rest with
      | .lambda name _ _ :: _ => do
        let inner ← body (s.enter name item)
        elemMatch c f.path inner
      | _ => c.refuse .predicateNotLambda
  | _, _ => c.refuse .unclaimed

/-- A call, by the shape of its method. -/
def call (s : Scope) (c : Call) (body : Scope → Compiled Filter) : Compiled Filter :=
  match c.method.shape? with
  | some .containsKey => containsKey s c
  | some .containsValue => containsValue s c
  | some (.stringMatch _) => stringMatch s c
  | some .stringEmptiness => stringEmptiness s c
  | some .sequenceContains => contains s c
  | some .listContains => contains s c
  | some .any => any s c body
  | some .anyWhere => any s c body
  | some .equals => equals s c
  | none => c.refuse (.unknownMethod c.method.text?)

end Compile

end QueryFilter
