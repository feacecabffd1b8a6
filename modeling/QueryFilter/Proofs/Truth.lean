import QueryFilter.Compile.Scope
import QueryFilter.Method.Shape
import QueryFilter.Proofs.Location
import QueryFilter.Proofs.Stored

/-!
What predicates say about native values, for the predicates that filters
express faithfully: connectives, boolean members, comparisons of members with
constants, and questions about the items of arrays. A member that is missing
reads as null.
-/

namespace QueryFilter

/-! ### Native meaning -/

/-- Equality of native values. A value of an enumeration with the given names
may be its name or its place. -/
def sameValue (names : List String) (v w : Json) : Bool :=
  match Encoder.enumOrdinal? names v, Encoder.enumOrdinal? names w with
  | some i, some j => i == j
  | _, _ => v.same w

/-- A comparison of native values; only integers are in order. -/
def Comparison.holdsOf (how : Comparison) (names : List String) (v w : Json) : Bool :=
  match how, v, w with
  | .eq, v, w => sameValue names v w
  | .ne, v, w => !sameValue names v w
  | how, .int m, .int n => how.holds m n
  | _, _, _ => false

namespace Expr

/-- The values of the parameters in scope, innermost first. -/
abbrev Env := List (String × Json)

/-- The value of a chain of members. -/
def value? (ρ : Env) : Expr → Option Json
  | .param name _ => ρ.lookup name
  | .member object name _ => (object.value? ρ).bind (·.member? name)
  | _ => none

/-- The value of an operand, which is a constant or a chain. -/
def operand (ρ : Env) (e : Expr) : Json := e.const?.getD ((e.value? ρ).getD .null)

/-- The items of an array; null has none. -/
def items (ρ : Env) (e : Expr) : List Json :=
  match e.value? ρ with
  | some (.array items) => items
  | _ => []

/-- The names of the enumeration that an expression is of. -/
def names (e : Expr) : List String := (e.type?.map Ty.values).getD []

/-- The names that decide the equality of a chain and a constant. -/
def comparedNames (left right : Expr) : List String :=
  if left.const?.isSome then right.names else left.names

def truth (ρ : Env) : Expr → Bool
  | .const value _ => value.same (.bool true)
  | .binary .and left right _ => left.truth ρ && right.truth ρ
  | .binary .or left right _ => left.truth ρ || right.truth ρ
  | .binary (.compare how) left right _ =>
    how.holdsOf (comparedNames left right) (left.operand ρ) (right.operand ρ)
  | .not operand => !operand.truth ρ
  | .call _ _ args =>
    match args with
    | source :: .lambda name _ body :: _ =>
      (source.items ρ).any fun v => body.truth ((name, v) :: ρ)
    | source :: _ => !(source.items ρ).isEmpty
    | [] => false
  | .param name type => ((Expr.param name type).operand ρ).same (.bool true)
  | .member object name type => ((Expr.member object name type).operand ρ).same (.bool true)
  | _ => false

end Expr

/-! ### Predicates that keep their meaning -/

/-- A chain of mapped members from a parameter of an encoder in `Γ`, with the
encoder of its value. -/
inductive Chain (model : Model) (Γ : List (String × Encoder)) : Expr → Encoder → Prop where
  | param {name : String} {encoder : Encoder} :
      Γ.lookup name = some encoder → Chain model Γ (.param name encoder.valueType) encoder
  | member {object : Expr} {name : String} {container : Encoder} {owner type : Ty}
      {entry : MemberMap} :
      Chain model Γ object container → object.type? = some owner →
      model.schema.memberType? owner name = some type →
      model.maps.find? container name = some entry →
      Chain model Γ (.member object name (some type)) entry.encoder

/-- The comparisons that the stored form of a value keeps. Integers stored as
strings are in no order, and doubles may round them. -/
def Encoder.admits (how : Comparison) : Encoder → Bool
  | .boolean | .string | .enumeration .. => how.isEquality
  | .integer _ .int32 | .integer _ .int64 => true
  | .integer _ .string => how.isEquality
  | _ => false

inductive Formula (model : Model) : List (String × Encoder) → Expr → Prop where
  | const {Γ : List (String × Encoder)} (b : Bool) : Formula model Γ (.const (.bool b) .boolean)
  | and {Γ : List (String × Encoder)} {left right : Expr} :
      Formula model Γ left → Formula model Γ right →
      Formula model Γ (.binary .and left right (some .boolean))
  | or {Γ : List (String × Encoder)} {left right : Expr} :
      Formula model Γ left → Formula model Γ right →
      Formula model Γ (.binary .or left right (some .boolean))
  | not {Γ : List (String × Encoder)} {operand : Expr} :
      Formula model Γ operand → Formula model Γ (.not operand)
  | boolean {Γ : List (String × Encoder)} {e : Expr} :
      Chain model Γ e .boolean → Formula model Γ e
  | compare {Γ : List (String × Encoder)} {how : Comparison} {e : Expr} {encoder : Encoder}
      (value : Json) (type : Ty) :
      Chain model Γ e encoder → encoder.admits how = true →
      Formula model Γ (.binary (.compare how) e (.const value type) (some .boolean))
  | converse {Γ : List (String × Encoder)} {how : Comparison} {e : Expr} {encoder : Encoder}
      (value : Json) (type : Ty) :
      Chain model Γ e encoder → encoder.admits how = true →
      Formula model Γ (.binary (.compare how) (.const value type) e (some .boolean))
  | any {Γ : List (String × Encoder)} {method : Method} {source : Expr} {item : Encoder} :
      method.isAny = true → Chain model Γ source (.array item) →
      Formula model Γ (.call none method [source])
  | anyWhere {Γ : List (String × Encoder)} {method : Method} {source body : Expr} {name : String}
      {type : Ty} {item : Encoder} :
      method.isAnyWhere = true → Chain model Γ source (.array item) →
      source.type? = some (.array type) → Formula model ((name, item) :: Γ) body →
      Formula model Γ (.call none method [source, .lambda name type body])

/-- The static types of members agree with their encoders, elements have plain
and different names, and the names of an enumeration are different. -/
structure Model.Agrees (model : Model) (root : Encoder) : Prop where
  typed : ∀ e, model.maps.Reaches root e → ∀ entry ∈ model.maps.members e,
    model.schema.memberType? e.valueType entry.member = some entry.encoder.valueType
  distinct : model.maps.DistinctElements root
  plain : ∀ e, model.maps.Reaches root e → ∀ entry ∈ model.maps.members e, IsPlain entry.element
  named : ∀ name values representation,
    model.maps.Reaches root (.enumeration name values representation) → values.Nodup

end QueryFilter
