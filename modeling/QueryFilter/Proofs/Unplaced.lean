import QueryFilter.Compile.Call
import QueryFilter.Compile.Comparison

/-!
Types, methods and expressions apart from where classes lie. Two models can
keep a class in different places, so predicates that say the same about both
are told apart only by the places of the classes in their types. Names, kinds
and whatever the compiler asks of an expression do not depend on those.
-/

namespace QueryFilter

/-- A type whose classes have no place. -/
def Ty.unplaced : Ty → Ty
  | .cls name _ => .cls name none
  | .dictionary key value => .dictionary key.unplaced value.unplaced
  | .array element => .array element.unplaced
  | .function parameter result => .function parameter.unplaced result.unplaced
  | t => t

namespace Ty

@[simp] theorem kind_unplaced (t : Ty) : t.unplaced.kind = t.kind := by
  cases t <;> rfl

@[simp] theorem name_unplaced (t : Ty) : t.unplaced.name = t.name := by
  induction t with
  | dictionary key value ihkey ihvalue => simp only [unplaced, name, ihkey, ihvalue]
  | array element ih => simp only [unplaced, name, ih]
  | function parameter result ihparameter ihresult =>
      simp only [unplaced, name, ihparameter, ihresult]
  | _ => rfl

@[simp] theorem isBoolean_unplaced (t : Ty) : t.unplaced.isBoolean = t.isBoolean := by
  simp only [isBoolean, kind_unplaced]

end Ty

def Method.unplaced (m : Method) : Method :=
  { m with
    declaring := m.declaring.map Ty.unplaced
    returns := m.returns.map Ty.unplaced
    params := m.params.map (Option.map Ty.unplaced) }

namespace Method

variable (m : Method)

theorem mapM_id_unplaced (types : List (Option Ty)) :
    (types.map (Option.map Ty.unplaced)).mapM id
      = (types.mapM id).map (List.map Ty.unplaced) := by
  induction types with
  | nil => rfl
  | cons type types ih =>
      rw [List.map_cons, List.mapM_cons, List.mapM_cons, ih]
      cases type with
      | none => rfl
      | some t => cases types.mapM id <;> rfl

@[simp] theorem text?_unplaced : m.unplaced.text? = m.text? := by
  have hnames (types : List Ty) : (types.map Ty.unplaced).map Ty.name = types.map Ty.name := by
    rw [List.map_map]
    exact List.map_congr_left fun t _ => t.name_unplaced
  unfold text? unplaced
  rw [mapM_id_unplaced]
  cases m.params.mapM id with
  | none => rfl
  | some types =>
      cases m.returns <;> cases m.declaring <;> simp [hnames]

@[simp] theorem asks_unplaced (isStatic : Bool) (name : String) (arity : Nat) :
    m.unplaced.asks isStatic name arity = m.asks isStatic name arity := by
  have hreturns : m.unplaced.returnsBoolean = m.returnsBoolean := by
    unfold returnsBoolean unplaced
    cases m.returns with
    | none => rfl
    | some t => exact t.isBoolean_unplaced
  have harity : m.unplaced.arity = m.arity := List.length_map _
  simp only [asks, hreturns, harity]
  rfl

@[simp] theorem declaredBy_unplaced (kind : Ty.Kind) :
    m.unplaced.declaredBy kind = m.declaredBy kind := by
  unfold declaredBy unplaced
  cases m.declaring with
  | none => rfl
  | some t => simp

@[simp] theorem takes_unplaced (position : Nat) (kind : Ty.Kind) :
    m.unplaced.takes position kind = m.takes position kind := by
  unfold takes unplaced
  rw [List.getElem?_map]
  rcases m.params[position]? with _ | _ | t
  · rfl
  · rfl
  · simp

@[simp] theorem matching_unplaced : m.unplaced.matching = m.matching := rfl

@[simp] theorem isContainsKey_unplaced : m.unplaced.isContainsKey = m.isContainsKey := by
  simp only [isContainsKey, asks_unplaced]

@[simp] theorem isContainsValue_unplaced : m.unplaced.isContainsValue = m.isContainsValue := by
  simp only [isContainsValue, asks_unplaced]

@[simp] theorem isStringMatch_unplaced : m.unplaced.isStringMatch = m.isStringMatch := by
  simp only [isStringMatch, asks_unplaced, declaredBy_unplaced, takes_unplaced]

@[simp] theorem isStringEmptiness_unplaced :
    m.unplaced.isStringEmptiness = m.isStringEmptiness := by
  simp only [isStringEmptiness, asks_unplaced, takes_unplaced]

@[simp] theorem isSequenceContains_unplaced :
    m.unplaced.isSequenceContains = m.isSequenceContains := by
  simp only [isSequenceContains, asks_unplaced, takes_unplaced]

@[simp] theorem isListContains_unplaced : m.unplaced.isListContains = m.isListContains := by
  simp only [isListContains, asks_unplaced, declaredBy_unplaced]

@[simp] theorem isAny_unplaced : m.unplaced.isAny = m.isAny := by
  simp only [isAny, asks_unplaced, takes_unplaced]

@[simp] theorem isAnyWhere_unplaced : m.unplaced.isAnyWhere = m.isAnyWhere := by
  simp only [isAnyWhere, asks_unplaced, takes_unplaced]

@[simp] theorem isEquals_unplaced : m.unplaced.isEquals = m.isEquals := by
  simp only [isEquals, asks_unplaced]

@[simp] theorem shape?_unplaced : m.unplaced.shape? = m.shape? := by
  simp only [shape?, isContainsKey_unplaced, isContainsValue_unplaced, isStringMatch_unplaced,
    matching_unplaced, isStringEmptiness_unplaced, isSequenceContains_unplaced,
    isListContains_unplaced, isAny_unplaced, isAnyWhere_unplaced, isEquals_unplaced]

end Method

namespace Expr

mutual

/-- An expression in whose types no class has a place. -/
def unplaced : Expr → Expr
  | .param name type => .param name type.unplaced
  | .const value type => .const value type.unplaced
  | .member object name type => .member object.unplaced name (type.map Ty.unplaced)
  | .index object key type => .index object.unplaced key.unplaced (type.map Ty.unplaced)
  | .call object method args => .call (objectUnplaced object) method.unplaced (argsUnplaced args)
  | .binary op left right type => .binary op left.unplaced right.unplaced (type.map Ty.unplaced)
  | .not operand => .not operand.unplaced
  | .lambda name type body => .lambda name type.unplaced body.unplaced

def objectUnplaced : Option Expr → Option Expr
  | some object => some object.unplaced
  | none => none

def argsUnplaced : List Expr → List Expr
  | [] => []
  | e :: es => e.unplaced :: argsUnplaced es

end

theorem objectUnplaced_eq_map (object : Option Expr) :
    objectUnplaced object = object.map unplaced := by
  cases object <;> rfl

theorem argsUnplaced_eq_map (args : List Expr) : argsUnplaced args = args.map unplaced := by
  induction args with
  | nil => rfl
  | cons e es ih => rw [argsUnplaced, ih, List.map_cons]

theorem unplaced_call (object : Option Expr) (method : Method) (args : List Expr) :
    (call object method args).unplaced =
      call (object.map unplaced) method.unplaced (args.map unplaced) := by
  rw [unplaced, objectUnplaced_eq_map, argsUnplaced_eq_map]

theorem type?_unplaced : (e : Expr) → e.unplaced.type? = e.type?.map Ty.unplaced
  | .lambda name type body => by
      rw [unplaced, type?, type?, type?_unplaced body, Option.map_map, Option.map_map]
      rfl
  | .param .. | .const .. | .member .. | .index .. | .call .. | .binary .. | .not _ => rfl

@[simp] theorem isBoolean_unplaced (e : Expr) : e.unplaced.isBoolean = e.isBoolean := by
  rw [isBoolean, isBoolean, type?_unplaced]
  cases e.type? with
  | none => rfl
  | some t => exact t.isBoolean_unplaced

@[simp] theorem const?_unplaced (e : Expr) : e.unplaced.const? = e.const? := by
  cases e <;> rfl

@[simp] theorem isFieldReference_unplaced :
    (e : Expr) → e.unplaced.isFieldReference = e.isFieldReference
  | .member object .. => isFieldReference_unplaced object
  | .index object .. => isFieldReference_unplaced object
  | .param .. | .const .. | .call .. | .binary .. | .not _ | .lambda .. => rfl

end Expr

def Predicate.unplaced (p : Predicate) : Predicate := ⟨p.name, p.type.unplaced, p.body.unplaced⟩

def Call.unplaced (c : Call) : Call :=
  ⟨c.object.map Expr.unplaced, c.method.unplaced, c.args.map Expr.unplaced⟩

namespace Call

theorem toExpr_unplaced (c : Call) : c.unplaced.toExpr = c.toExpr.unplaced :=
  (Expr.unplaced_call ..).symm

@[simp] theorem operands?_unplaced (c : Call) :
    c.unplaced.operands? = c.operands?.map (Prod.map Expr.unplaced Expr.unplaced) := by
  obtain ⟨object, method, args⟩ := c
  cases object with
  | none => rfl
  | some object => cases args <;> rfl

end Call

def CompileError.unplaced (e : CompileError) : CompileError :=
  { e with expression := e.expression.map Expr.unplaced }

namespace Compile

@[simp] theorem lengthOf?_unplaced (e : Expr) :
    lengthOf? e.unplaced = (lengthOf? e).map Expr.unplaced := by
  cases e with
  | member object name type =>
      have hkind : object.unplaced.type?.any (·.kind == .array)
          = object.type?.any (·.kind == .array) := by
        rw [Expr.type?_unplaced]
        cases object.type? with
        | none => rfl
        | some t => simp
      rw [Expr.unplaced, lengthOf?, lengthOf?, hkind]
      split <;> rfl
  | _ => rfl

@[simp] theorem membership?_unplaced (c : Call) :
    membership? c.unplaced = (membership? c).map (Prod.map Expr.unplaced Expr.unplaced) := by
  unfold membership?
  rw [Call.operands?_unplaced]
  obtain ⟨object, method, args⟩ := c
  simp only [Call.unplaced, Method.isSequenceContains_unplaced, Method.isListContains_unplaced]
  split
  · rcases args with _ | ⟨source, _ | ⟨value, rest⟩⟩ <;> rfl
  · split <;> rfl

end Compile

end QueryFilter
