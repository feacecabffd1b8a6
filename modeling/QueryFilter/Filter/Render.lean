import QueryFilter.Except
import QueryFilter.Filter.Basic

/-!
Filters as query documents. A test is an operator document under the path of
its field; equality with anything but a document has a short form. Inside
`$elemMatch` a test of the item itself is an operator document without a path,
so such tests can be joined only by a conjunction of distinct operators.
-/

namespace QueryFilter

inductive RenderError where
  /-- An operation on the document itself, outside `$elemMatch`. -/
  | rootOperation
  /-- Operations on an item that no operator document can hold. -/
  | mixedItemOperations
  deriving DecidableEq, Repr

def RenderError.message : RenderError → String
  | .rootOperation =>
    "AstFilter: an operation on the document root cannot be rendered outside $elemMatch"
  | .mixedItemOperations => "AstFilter: $elemMatch body mixes element operations with $or/$nor"

/-- An object of one field. -/
def Json.single (key : String) (value : Json) : Json := .object [(key, value)]

namespace Test

def document : Test → Fields
  | .presence expected => [("$exists", .bool expected)]
  | .compare how value => [(how.operator, value)]
  | .oneOf values => [("$in", .array values)]
  | .noneOf values => [("$nin", .array values)]
  | .regex pattern options =>
    if options = "" then [("$regex", .string pattern)]
    else [("$options", .string options), ("$regex", .string pattern)]
  | .size length => [("$size", .int length)]
  | .mod divisor remainder => [("$mod", .array [.int divisor, .int remainder])]

def negatedFields (document : Fields) : Fields := [("$not", .object document)]

/-- The operator document of the opposite test. -/
def negated : Test → Fields
  | .presence expected => [("$exists", .bool (!expected))]
  | .compare .eq value => [("$ne", value)]
  | .compare .ne value => [("$eq", value)]
  | .oneOf values => [("$nin", .array values)]
  | .noneOf values => [("$in", .array values)]
  | test => negatedFields test.document

end Test

namespace Filter

/-- What stands under the path of a field: the operator document, or the bare
operand of an equality unless that is itself a document. -/
def shortForm (operators : Fields) : Json :=
  match operators.get? "$eq" with
  | some value => if value.isObject then .object operators else value
  | none => .object operators

def atPath (path : Path) (operation : Json) : Except RenderError Json :=
  if path.isRoot then .error .rootOperation else .ok (.single path.text operation)

theorem atPath_eq_ok_iff {path : Path} {operation d : Json} :
    atPath path operation = .ok d ↔ path.isRoot = false ∧ d = .single path.text operation := by
  cases h : path.isRoot <;> simp [atPath, h, eq_comm]

/-- Whether some operation outside deeper `elemMatch` bodies is on the item
itself. -/
def mentionsItem : Filter → Bool
  | .test path _ => path.isRoot
  | .elemMatch path _ => path.isRoot
  | .and filters => anyMentionsItem filters
  | .or filters => anyMentionsItem filters
  | .nor filters => anyMentionsItem filters
  | .not filter => filter.mentionsItem
  | .everything => false
  | .nothing => false
where
  anyMentionsItem : List Filter → Bool
    | [] => false
    | f :: fs => f.mentionsItem || anyMentionsItem fs

/-- The union of operator documents that share no operator. -/
def joinFields (left right : Fields) : Option Fields :=
  if right.any fun field => (left.get? field.1).isSome then none
  else some (right.foldl (fun fields field => fields.insert field.1 field.2) left)

/-- Whether a filter is an operation on the item itself, or the negation of
one. -/
def isItemOperation : Filter → Bool
  | .test path _ => path.isRoot
  | .elemMatch path _ => path.isRoot
  | .not (.test path _) => path.isRoot
  | .not (.elemMatch path _) => path.isRoot
  | _ => false

theorem mentionsItem_of_isItemOperation {f : Filter} (h : f.isItemOperation = true) :
    f.mentionsItem = true := by
  cases f with
  | test | elemMatch => exact h
  | not filter => cases filter <;> first | exact h | simp [isItemOperation] at h
  | _ => simp [isItemOperation] at h

def elemMatchFields (body : Json) : Fields := [("$elemMatch", body)]

mutual

def render : Filter → Except RenderError Json
  | .test path t => atPath path (shortForm t.document)
  | .elemMatch path body => do
    let document ← if body.mentionsItem then .object <$> body.itemDocument else body.render
    atPath path (.object (elemMatchFields document))
  | .and filters => do
    let children ← renderAll filters
    pure (.single "$and" (.array children))
  | .or filters => do
    let children ← renderAll filters
    pure (.single "$or" (.array children))
  | .nor filters => do
    let children ← renderAll filters
    pure (.single "$nor" (.array children))
  | .not filter => filter.renderNegation
  | .everything => pure (.object [])
  | .nothing => pure (.single "$nor" (.array [.object []]))

def renderAll : List Filter → Except RenderError (List Json)
  | [] => pure []
  | f :: fs => do
    let child ← f.render
    let children ← renderAll fs
    pure (child :: children)

/-- The document of what a filter does not match. -/
def renderNegation : Filter → Except RenderError Json
  | .test path t => atPath path (shortForm t.negated)
  | .elemMatch path body => do
    let document ← if body.mentionsItem then .object <$> body.itemDocument else body.render
    atPath path (.object (Test.negatedFields (elemMatchFields document)))
  | .and filters => do
    let children ← renderAll filters
    pure (.single "$nor" (.array [.single "$and" (.array children)]))
  | .or filters => do
    let children ← renderAll filters
    pure (.single "$nor" (.array children))
  | .nor filters => do
    let children ← renderAll filters
    pure (.single "$or" (.array children))
  | .not filter => filter.render
  | .everything => pure (.single "$nor" (.array [.object []]))
  | .nothing => pure (.object [])

/-- The operator document of a filter that mentions the item, as the body of
`$elemMatch`. -/
def itemDocument : Filter → Except RenderError Fields
  | .test _ t => pure t.document
  | .elemMatch _ body => do
    let document ← if body.mentionsItem then .object <$> body.itemDocument else body.render
    pure (elemMatchFields document)
  | .not (.test _ t) => pure t.negated
  | .not (.elemMatch _ body) => do
    let document ← if body.mentionsItem then .object <$> body.itemDocument else body.render
    pure (Test.negatedFields (elemMatchFields document))
  | .and filters => do
    match ← itemOperations filters [] with
    | some operators => pure operators
    | none => throw .mixedItemOperations
  | _ => throw .mixedItemOperations

/-- Operator documents joined to what is joined already; `none` if one of the
filters is no operation on the item or an operator occurs twice. -/
def itemOperations : List Filter → Fields → Except RenderError (Option Fields)
  | [], operators => pure (some operators)
  | f :: fs, operators =>
    if f.isItemOperation then do
      let document ← f.itemDocument
      match joinFields operators document with
      | some operators => itemOperations fs operators
      | none => pure none
    else pure none

end

/-- Whether a filter can be the body of `$elemMatch`. The operators of a
conjunction are compared, for which they are rendered, and that may fail. -/
def isElemMatchBody (body : Filter) : Except RenderError Bool :=
  if !body.mentionsItem || body.isItemOperation then pure true
  else
    match body with
    | .and filters => do
      let operators ← itemOperations filters []
      pure operators.isSome
    | _ => pure false

/-- The document of the body of `$elemMatch`. -/
def elementDocument (body : Filter) : Except RenderError Json :=
  if body.mentionsItem then .object <$> body.itemDocument else body.render

theorem render_elemMatch (path : Path) (body : Filter) :
    (elemMatch path body).render
      = body.elementDocument >>= fun document =>
          atPath path (.object (elemMatchFields document)) := by
  rw [render, elementDocument]
  split <;> rfl

/-- The operations on the item become one document. -/
example : (Filter.elemMatch ⟨["a"]⟩
    (.and [.test ⟨[]⟩ (.compare .lt (.int 9)), .not (.test ⟨[]⟩ (.eq (.int 3)))])).render
    = .ok (.single "a" (.single "$elemMatch" (.object [("$lt", .int 9), ("$ne", .int 3)]))) := rfl

theorem renderNegation_elemMatch (path : Path) (body : Filter) :
    (elemMatch path body).renderNegation
      = body.elementDocument >>= fun document =>
          atPath path (.object (Test.negatedFields (elemMatchFields document))) := by
  rw [renderNegation, elementDocument]
  split <;> rfl

theorem itemDocument_elemMatch (path : Path) (body : Filter) :
    (elemMatch path body).itemDocument = elemMatchFields <$> body.elementDocument := by
  rw [itemDocument, elementDocument]
  split <;> rfl

theorem itemDocument_not_elemMatch (path : Path) (body : Filter) :
    (not (elemMatch path body)).itemDocument
      = (fun document => Test.negatedFields (elemMatchFields document)) <$>
          body.elementDocument := by
  rw [itemDocument, elementDocument]
  split <;> rfl

end Filter

end QueryFilter
