import QueryFilter.Compile.Call
import QueryFilter.Compile.Comparison

/-!
Predicates as filters: connectives become combinations, a boolean field is
compared with true, constants match everything or nothing. Parts are compiled
in order and the first error counts.
-/

namespace QueryFilter.Compile

/-- A boolean field, which is to be true. -/
def booleanField (s : Scope) (e : Expr) : Compiled Filter :=
  if e.isBoolean then do
    let f ← field s e
    let stored ← s.encode f.encoder (.bool true) (some e)
    pure (.test f.path (.eq stored))
  else e.refuse .notBoolean

def booleanConst (e : Expr) (value : Json) : Compiled Filter :=
  match value with
  | .bool true => pure .everything
  | .bool false => pure .nothing
  | _ => e.refuse .notBooleanConstant

def expression (s : Scope) (e : Expr) : Compiled Filter :=
  if s.maxDepth ≤ s.depth then e.refuse (.tooDeep s.maxDepth)
  else
    match e with
    | .binary .and left right _ => do
      let l ← expression s.descend left
      let r ← expression s.descend right
      Compiled.ofBuild (Filter.andOf [some l, some r])
    | .binary .or left right _ => do
      let l ← expression s.descend left
      let r ← expression s.descend right
      Compiled.ofBuild (Filter.orOf [some l, some r])
    | .binary op left right type => binary s.descend (.binary op left right type) op left right
    | .not operand => do
      let f ← expression s.descend operand
      pure (.not f)
    | .call object method args =>
      call s.descend ⟨object, method, args⟩ fun inner =>
        match args with
        | _ :: .lambda _ _ body :: _ => expression inner body
        | _ => (Expr.call object method args).refuse .unclaimed
    | .member object name type => booleanField s.descend (.member object name type)
    | .index object key type => booleanField s.descend (.index object key type)
    | .param name type => booleanField s.descend (.param name type)
    | .const value type => booleanConst (.const value type) value
    | .lambda name type body => (Expr.lambda name type body).refuse .unclaimed

/-- The body of the predicate that a call takes as its second argument. -/
def predicateBody (c : Call) (inner : Scope) : Compiled Filter :=
  match c.args with
  | _ :: .lambda _ _ body :: _ => expression inner body
  | _ => c.refuse .unclaimed

/-- A predicate over a registered type, in a scope. -/
def predicateIn (s : Scope) (p : Predicate) : Compiled Filter :=
  match s.model.registry.find? p.type with
  | none => (Expr.param p.name p.type).refuse (.unregistered p.type.name)
  | some encoder =>
    if p.body.isBoolean then expression (s.bind p.name .root encoder false) p.body
    else p.toExpr.refuse .bodyNotBoolean

def defaultMaxDepth : Nat := 64

/-- A whole predicate. -/
def predicate (model : Model) (maxDepth : Nat) (p : Predicate) : Compiled Filter :=
  predicateIn (.create model maxDepth) p

end QueryFilter.Compile
