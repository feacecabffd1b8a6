import QueryFilter.Compile.Error
import QueryFilter.Compile.Scope

/-!
Fields: a chain of members and indexes that starts at a parameter has a path
and the encoder of the value stored there. Each step asks the encoder of the
container for the name of the next element.
-/

namespace QueryFilter

structure Field where
  path : Path
  encoder : Encoder
  deriving DecidableEq, Repr

namespace Field

def child (f : Field) (step : String) (encoder : Encoder) : Field := ⟨f.path.child step, encoder⟩

/-- Equal paths to values of the same type. -/
def sameAs (f g : Field) : Bool :=
  f.path == g.path && f.encoder.valueType.sameAs g.encoder.valueType

end Field

/-- Encodes an operand; what the encoder refuses makes the expression
unsupported. -/
def Scope.encode (s : Scope) (encoder : Encoder) (value : Json) (e : Option Expr) : Compiled Json :=
  (s.model.maps.encode encoder value).mapError fun error => ⟨.encoding error, e⟩

/-- Encodes the items of an array operand. -/
def Scope.encodeItems (s : Scope) (encoder : Encoder) (values : Json) (e : Option Expr) :
    Compiled (List Json) :=
  match values with
  | .array items =>
    (s.model.maps.encodeItems encoder items).mapError fun error => ⟨.encoding error, e⟩
  | other => .error ⟨.notAnArray other, e⟩

/-- A null operand stands for itself. -/
def Scope.encodeOrNull (s : Scope) (encoder : Encoder) (value : Json) (e : Option Expr) :
    Compiled Json :=
  if value.isNull then pure .null else s.encode encoder value e

namespace Compile

/-- The member `name` of a container, for the access `e`. -/
def memberField (s : Scope) (e : Expr) (container : Field) (name : String) : Compiled Field :=
  match s.model.maps.find? container.encoder name with
  | some entry => pure (container.child entry.element entry.encoder)
  | none => e.refuse (.noSuchMember container.encoder.kind name)

/-- The entry of a container at a key, for the access `e`. -/
def indexField (s : Scope) (e : Expr) (container : Field) (key : Option Json) : Compiled Field :=
  match container.encoder with
  | .array item =>
    match key.bind Json.word? with
    | some n =>
      if n < 0 then e.refuse .indexNotConstant else pure (container.child (toString n) item)
    | none => e.refuse .indexNotConstant
  | .dictionary .document keyEncoder valueEncoder =>
    match key with
    | none => e.refuse (.keyNotText none)
    | some key => do
      let key ← s.encode keyEncoder key (some e)
      match key with
      | .string key => pure (container.child key valueEncoder)
      | _ => e.refuse (.keyNotText none)
  | .dictionary layout _ _ => e.refuse (.indexLayout layout)
  | encoder => e.refuse (.noIndexing encoder.kind)

/-- The value at the end of a chain; the document itself is one. -/
def chain (s : Scope) : Expr → Compiled Field
  | .param name type =>
    match s.find? name with
    | none => (Expr.param name type).refuse (.notInScope name)
    | some symbol =>
      if symbol.level = s.level then pure ⟨symbol.path, symbol.encoder⟩
      else (Expr.param name type).refuse (.outerParameter name)
  | .member object name type => do
    let container ← chain s object
    memberField s (.member object name type) container name
  | .index object key type => do
    let container ← chain s object
    indexField s (.index object key type) container key.const?
  | e => e.refuse .notAField

/-- A parameter that stands for the whole document. -/
def isDocument (s : Scope) : Expr → Bool
  | .param name _ => (s.find? name).any fun symbol => !symbol.isItem
  | _ => false

def field (s : Scope) (e : Expr) : Compiled Field :=
  if isDocument s e then e.refuse .documentRoot else chain s e

end Compile

end QueryFilter
