import QueryFilter.Model.Basic
import QueryFilter.Model.References

/-!
A model out of its description. All classes are declared first, so a member
may be of a class that is described later; then members are added to the
declared classes and their class maps.
-/

namespace QueryFilter

/-- The declared classes of a model with their encoders, in order. -/
abbrev DeclaredClasses := List (String × Encoder)

namespace Declaration

def representationOf (node : Flow) (usual : Representation) (place : String) :
    Except ModelError Representation := do
  match node.get? "representation" with
  | none => pure usual
  | some node => do
    let name ← node.scalarText
    match Representation.ofText? name with
    | some r => if r = usual ∨ r = .string then pure r else throw (.representation place name)
    | none => throw (.representation place name)

def layoutOf (node : Flow) (place : String) : Except ModelError Layout := do
  match node.get? "representation" with
  | none => pure .document
  | some node => do
    let name ← node.scalarText
    match Layout.ofText? name with
    | some layout => pure layout
    | none => throw (.layout place name)

def namesOf : Flow → Except ModelError (List String)
  | .sequence items => items.mapM Flow.scalarText
  | _ => .error .malformed

def enumerationOf (node : Flow) (member place : String) : Except ModelError Encoder := do
  let values ← Flow.requiredEntry (some node) "values" place
  let values ← namesOf values
  let name := Flow.textOr member (node.get? "enum_name")
  let representation ← representationOf node .int32 place
  (Encoder.enumerationOf (.enumeration name values) representation).mapError .encoder

def classOf (classes : DeclaredClasses) (node : Flow) (place : String) :
    Except ModelError Encoder := do
  let name ← Flow.requiredEntry (some node) "class" place
  let name ← name.scalarText
  match classes.lookup name with
  | some encoder => pure encoder
  | none => throw (.unknownClass place name)

mutual

/-- The encoder that a type description asks for, for a member that messages
call `place`. -/
def encoderOf (classes : DeclaredClasses) (member place : String) :
    Flow → Except ModelError Encoder
  | .mapping entries => do
    let type ← Flow.requiredEntry (some (.mapping entries)) "type" place
    let type ← type.scalarText
    match type with
    | "string" => pure .string
    | "bool" => pure .boolean
    | "boolean" => pure .boolean
    | "double" => pure .double
    | "int32" => do
      let representation ← representationOf (.mapping entries) .int32 place
      pure (.integer .int32 representation)
    | "int64" => do
      let representation ← representationOf (.mapping entries) .int64 place
      pure (.integer .int64 representation)
    | "enum" => enumerationOf (.mapping entries) member place
    | "array" => do
      let item ← encoderUnder classes member "element" (place ++ "[]") entries
      pure (.array item)
    | "dictionary" => do
      let key ← encoderUnder classes member "key" (place ++ ".key") entries
      let value ← encoderUnder classes member "value" (place ++ ".value") entries
      let layout ← layoutOf (.mapping entries) place
      pure (.dictionary layout key value)
    | "class" => classOf classes (.mapping entries) place
    | _ => throw (.unknownType place type)
  | .plain _ => throw .malformed
  | .quoted _ => throw .malformed
  | .null => throw (.missing place "type")
  | .sequence _ => throw (.missing place "type")

/-- The encoder of the description under a key, which must be there; messages
call it `place`. -/
def encoderUnder (classes : DeclaredClasses) (member key place : String) :
    List (String × Flow) → Except ModelError Encoder
  | [] => throw .malformed
  | (k, node) :: rest =>
    if k = key then encoderOf classes member place node
    else encoderUnder classes member key place rest

end

/-- Declares a class without members and gives it an empty class map. -/
def declareClass (state : DeclaredClasses × Model) (node : Option Flow) :
    Except ModelError (DeclaredClasses × Model) := do
  let (classes, model) := state
  let name ← Flow.requiredEntry node "name" "class"
  let name ← name.scalarText
  if (classes.lookup name).isSome then throw (.declaredTwice name)
  let (type, schema) := model.schema.declare name
  let (encoder, maps) ← (model.maps.create type).mapError .encoder
  pure (classes ++ [(name, encoder)], { model with schema := schema, maps := maps })

/-- Adds a described member to a class and its map. -/
def defineMember (classes : DeclaredClasses) (className : String) (encoder : Encoder)
    (model : Model) (node : Option Flow) : Except ModelError Model := do
  let member ← Flow.requiredEntry node "name" className
  let member ← member.scalarText
  let spec := node.getD .null
  let inner ← encoderOf classes member (className ++ "." ++ member) spec
  let schema := model.schema.addMember encoder.valueType member inner.valueType
  let element := Flow.textOr "" (spec.get? "element_name")
  let maps ← (model.maps.mapMember schema encoder member (some inner) element).mapError .encoder
  pure { model with schema := schema, maps := maps }

/-- Adds the described members of one class. -/
def defineClass (classes : DeclaredClasses) (model : Model) (node : Option Flow) :
    Except ModelError Model := do
  let name ← Flow.requiredEntry node "name" "class"
  let name ← name.scalarText
  match ← Flow.entry node "members", classes.lookup name with
  | some members, some encoder =>
    members.visited.foldlM (defineMember classes name encoder) model
  | _, _ => pure model

/-- The references of the members of a described class. -/
def classReferences (node : Option Flow) : Except ModelError (List String) :=
  match node.bind (Flow.get? · "members") with
  | some (.sequence members) => do
    let references ← members.mapM Flow.references
    pure references.flatten
  | _ => pure []

def registerAll (classes : DeclaredClasses) (model : Model) : Except ModelError Model := do
  let registry ← classes.foldlM (fun registry entry =>
    (registry.register (some entry.2)).mapError .encoder) model.registry
  pure { model with registry := registry }

/-- The model of a list of described classes. -/
def modelOf (descriptions : List (Option Flow)) : Except ModelError Model := do
  let (classes, model) ← descriptions.foldlM declareClass ([], Model.empty)
  let references ← descriptions.mapM classReferences
  ReferenceGraph.checkAcyclic
    ((classes.map Prod.fst).zip (references.map ReferenceGraph.ordered))
  let model ← descriptions.foldlM (defineClass classes) model
  registerAll classes model

end Declaration

end QueryFilter
