import Mathlib.Data.List.Forall2
import QueryFilter.Compile.Call

/-!
Expressions that differ only in the names of their parameters, and the places
of their parts. What corresponds in two such expressions stands in the same
place of both and differs in names only, too.
-/

namespace QueryFilter

/-! ### Parameters by other names -/

/-- Whether two names stand for the parameter of the same predicate. `names` are
the names that the predicates around them bind, innermost first; names that
none of them binds have to be equal. -/
def SameBinder : List (String × String) → String → String → Prop
  | [], x, y => x = y
  | (a, b) :: names, x, y => (x = a ∧ y = b) ∨ (x ≠ a ∧ y ≠ b ∧ SameBinder names x y)

namespace Expr

/-- Expressions that differ only in the names of parameters. -/
inductive Renamed : List (String × String) → Expr → Expr → Prop where
  | param {names : List (String × String)} {x y : String} (type : Ty) :
      SameBinder names x y → Renamed names (.param x type) (.param y type)
  | const {names : List (String × String)} (value : Json) (type : Ty) :
      Renamed names (.const value type) (.const value type)
  | member {names : List (String × String)} {object object' : Expr} (name : String)
      (type : Option Ty) :
      Renamed names object object' →
      Renamed names (.member object name type) (.member object' name type)
  | index {names : List (String × String)} {object object' key key' : Expr} (type : Option Ty) :
      Renamed names object object' → Renamed names key key' →
      Renamed names (.index object key type) (.index object' key' type)
  | callOn {names : List (String × String)} {object object' : Expr} {args args' : List Expr}
      (method : Method) :
      Renamed names object object' → args.length = args'.length →
      (∀ arg arg', (arg, arg') ∈ args.zip args' → Renamed names arg arg') →
      Renamed names (.call (some object) method args) (.call (some object') method args')
  | callStatic {names : List (String × String)} {args args' : List Expr} (method : Method) :
      args.length = args'.length →
      (∀ arg arg', (arg, arg') ∈ args.zip args' → Renamed names arg arg') →
      Renamed names (.call none method args) (.call none method args')
  | binary {names : List (String × String)} {left left' right right' : Expr} (op : BinaryOp)
      (type : Option Ty) :
      Renamed names left left' → Renamed names right right' →
      Renamed names (.binary op left right type) (.binary op left' right' type)
  | not {names : List (String × String)} {operand operand' : Expr} :
      Renamed names operand operand' → Renamed names (.not operand) (.not operand')
  | lambda {names : List (String × String)} {x y : String} {body body' : Expr} (type : Ty) :
      Renamed ((x, y) :: names) body body' →
      Renamed names (.lambda x type body) (.lambda y type body')

section

variable {names : List (String × String)} {e e' : Expr}

theorem Renamed.type?_eq (h : Renamed names e e') : e'.type? = e.type? := by
  induction h with
  | lambda type _ ih => rw [type?, type?, ih]
  | _ => rfl

theorem Renamed.isBoolean_eq (h : Renamed names e e') : e'.isBoolean = e.isBoolean := by
  rw [isBoolean, isBoolean, h.type?_eq]

theorem Renamed.const?_eq (h : Renamed names e e') : e'.const? = e.const? := by
  cases h <;> rfl

theorem Renamed.isFieldReference_eq (h : Renamed names e e') :
    e'.isFieldReference = e.isFieldReference := by
  induction h with
  | member _ _ _ ih => exact ih
  | index _ _ _ ih => exact ih
  | _ => rfl

theorem Renamed.of_binary {op : BinaryOp} {left' right' : Expr} {type : Option Ty}
    (h : Renamed names e (.binary op left' right' type)) :
    ∃ left right, e = .binary op left right type := by
  cases h with
  | binary => exact ⟨_, _, rfl⟩

end

/-! ### Places -/

/-- The parts of an expression in order; those of a lambda are its parameter and
its body. -/
def children : Expr → List Expr
  | .param .. => []
  | .const .. => []
  | .member object _ _ => [object]
  | .index object key _ => [object, key]
  | .call object _ args => object.toList ++ args
  | .binary _ left right _ => [left, right]
  | .not operand => [operand]
  | .lambda name type body => [.param name type, body]

theorem sizeOf_pos (e : Expr) : 0 < sizeOf e := by
  cases e <;>
    simp only [param.sizeOf_spec, const.sizeOf_spec, member.sizeOf_spec, index.sizeOf_spec,
      call.sizeOf_spec, binary.sizeOf_spec, not.sizeOf_spec, lambda.sizeOf_spec] <;>
    omega

/-- A part of an expression is smaller than the expression. -/
theorem sizeOf_lt_of_mem_children {e part : Expr} (h : part ∈ e.children) :
    sizeOf part < sizeOf e := by
  cases e with
  | param | const => cases h
  | member object name type =>
      obtain rfl := List.mem_singleton.mp h
      simp only [member.sizeOf_spec]
      omega
  | not operand =>
      obtain rfl := List.mem_singleton.mp h
      simp only [not.sizeOf_spec]
      omega
  | index object key type =>
      simp only [index.sizeOf_spec]
      rcases List.mem_pair.mp h with rfl | rfl <;> omega
  | binary op left right type =>
      simp only [binary.sizeOf_spec]
      rcases List.mem_pair.mp h with rfl | rfl <;> omega
  | lambda name type body =>
      have hbody := body.sizeOf_pos
      simp only [lambda.sizeOf_spec]
      rcases List.mem_pair.mp h with rfl | rfl
      · simp only [param.sizeOf_spec]
        omega
      · omega
  | call object method args =>
      simp only [call.sizeOf_spec]
      rcases List.mem_append.mp h with hobject | harg
      · rw [Option.mem_toList] at hobject
        obtain rfl : object = some part := hobject
        simp only [Option.some.sizeOf_spec]
        omega
      · have hsmaller := List.sizeOf_lt_of_mem harg
        omega

/-- The part at a position: which child it is of which child, and so on. -/
def at? (e : Expr) : List Nat → Option Expr
  | [] => some e
  | n :: position => e.children[n]?.bind (·.at? position)

theorem at?_append_singleton (e : Expr) (position : List Nat) (n : Nat) :
    e.at? (position ++ [n]) = (e.at? position).bind (·.children[n]?) := by
  induction position generalizing e with
  | nil => simp [at?]
  | cons m position ih => simp [at?, ih, Option.bind_assoc]

/-- `e` stands in `w` where `e'` stands in `w'`. -/
def Aligned (w w' e e' : Expr) : Prop :=
  ∃ position, w.at? position = some e ∧ w'.at? position = some e'

theorem aligned_whole (w w' : Expr) : Aligned w w' w w' := ⟨[], rfl, rfl⟩

theorem Aligned.child {w w' e e' part part' : Expr} (h : Aligned w w' e e') (n : Nat)
    (hpart : e.children[n]? = some part) (hpart' : e'.children[n]? = some part') :
    Aligned w w' part part' := by
  obtain ⟨position, he, he'⟩ := h
  refine ⟨position ++ [n], ?_, ?_⟩
  · rw [at?_append_singleton, he]
    exact hpart
  · rw [at?_append_singleton, he']
    exact hpart'

/-- Parts of two whole expressions that stand in the same place and differ only
in the names of parameters. -/
structure Twins (w w' : Expr) (names : List (String × String)) (e e' : Expr) : Prop where
  aligned : Aligned w w' e e'
  renamed : Renamed names e e'

section

variable {w w' : Expr} {names : List (String × String)}

theorem Twins.param {x : String} {type : Ty} {e' : Expr}
    (h : Twins w w' names (.param x type) e') :
    ∃ y, e' = .param y type ∧ SameBinder names x y := by
  cases h.renamed with
  | param _ hbinder => exact ⟨_, rfl, hbinder⟩

theorem Twins.const {value : Json} {type : Ty} {e' : Expr}
    (h : Twins w w' names (.const value type) e') : e' = .const value type := by
  cases h.renamed with
  | const => rfl

theorem Twins.member {object e' : Expr} {name : String} {type : Option Ty}
    (h : Twins w w' names (.member object name type) e') :
    ∃ object', e' = .member object' name type ∧ Twins w w' names object object' := by
  obtain ⟨haligned, hrenamed⟩ := h
  cases hrenamed with
  | member _ _ hobject => exact ⟨_, rfl, haligned.child 0 rfl rfl, hobject⟩

theorem Twins.index {object key e' : Expr} {type : Option Ty}
    (h : Twins w w' names (.index object key type) e') :
    ∃ object' key', e' = .index object' key' type ∧ Twins w w' names object object' ∧
      Twins w w' names key key' := by
  obtain ⟨haligned, hrenamed⟩ := h
  cases hrenamed with
  | index _ hobject hkey =>
      exact ⟨_, _, rfl, ⟨haligned.child 0 rfl rfl, hobject⟩, haligned.child 1 rfl rfl, hkey⟩

theorem Twins.binary {op : BinaryOp} {left right e' : Expr} {type : Option Ty}
    (h : Twins w w' names (.binary op left right type) e') :
    ∃ left' right', e' = .binary op left' right' type ∧ Twins w w' names left left' ∧
      Twins w w' names right right' := by
  obtain ⟨haligned, hrenamed⟩ := h
  cases hrenamed with
  | binary _ _ hleft hright =>
      exact ⟨_, _, rfl, ⟨haligned.child 0 rfl rfl, hleft⟩, haligned.child 1 rfl rfl, hright⟩

theorem Twins.not {operand e' : Expr} (h : Twins w w' names (.not operand) e') :
    ∃ operand', e' = .not operand' ∧ Twins w w' names operand operand' := by
  obtain ⟨haligned, hrenamed⟩ := h
  cases hrenamed with
  | not hoperand => exact ⟨_, rfl, haligned.child 0 rfl rfl, hoperand⟩

theorem Twins.lambda {x : String} {type : Ty} {body e' : Expr}
    (h : Twins w w' names (.lambda x type body) e') :
    ∃ y body', e' = .lambda y type body' ∧ Twins w w' ((x, y) :: names) body body' := by
  obtain ⟨haligned, hrenamed⟩ := h
  cases hrenamed with
  | lambda _ hbody => exact ⟨_, _, rfl, haligned.child 1 rfl rfl, hbody⟩

end

end Expr

/-- The two calls of twins. -/
structure Call.Twins (w w' : Expr) (names : List (String × String)) (c c' : Call) : Prop where
  aligned : Expr.Aligned w w' c.toExpr c'.toExpr
  method : c'.method = c.method
  object : Option.Rel (Expr.Twins w w' names) c.object c'.object
  args : List.Forall₂ (Expr.Twins w w' names) c.args c'.args

section

variable {w w' : Expr} {names : List (String × String)}

theorem Expr.forall₂_twins {object object' : Option Expr} {method method' : Method}
    {args args' : List Expr}
    (haligned : Aligned w w' (.call object method args) (.call object' method' args'))
    (hobject : object.toList.length = object'.toList.length) (hlength : args.length = args'.length)
    (hargs : ∀ arg arg', (arg, arg') ∈ args.zip args' → Renamed names arg arg') :
    List.Forall₂ (Twins w w' names) args args' := by
  refine List.forall₂_iff_zip.mpr ⟨hlength, fun {arg arg'} hmem => ⟨?_, hargs arg arg' hmem⟩⟩
  obtain ⟨n, hn⟩ := List.mem_iff_getElem?.mp hmem
  obtain ⟨harg, harg'⟩ := List.getElem?_zip_eq_some.mp hn
  -- the arguments come after the receiver, if there is one
  refine haligned.child (object.toList.length + n) ?_ ?_
  · rw [children, List.getElem?_append_right (Nat.le_add_right _ _), Nat.add_sub_cancel_left]
    exact harg
  · rw [children, hobject, List.getElem?_append_right (Nat.le_add_right _ _),
      Nat.add_sub_cancel_left]
    exact harg'

theorem Expr.Twins.call {object : Option Expr} {method : Method} {args : List Expr} {e' : Expr}
    (h : Twins w w' names (.call object method args) e') :
    ∃ object' args', e' = .call object' method args' ∧
      Call.Twins w w' names ⟨object, method, args⟩ ⟨object', method, args'⟩ := by
  obtain ⟨haligned, hrenamed⟩ := h
  cases hrenamed with
  | callOn _ hobject hlength hargs =>
      exact ⟨_, _, rfl, haligned, rfl, .some ⟨haligned.child 0 rfl rfl, hobject⟩,
        forall₂_twins haligned rfl hlength hargs⟩
  | callStatic _ hlength hargs =>
      exact ⟨_, _, rfl, haligned, rfl, .none, forall₂_twins haligned rfl hlength hargs⟩

/-- Two operands each, which are twins in order, or none. -/
def Expr.TwinOperands (w w' : Expr) (names : List (String × String))
    (x x' : Option (Expr × Expr)) : Prop :=
  (x = none ∧ x' = none) ∨ ∃ left right left' right', x = some (left, right) ∧
    x' = some (left', right') ∧ Twins w w' names left left' ∧ Twins w w' names right right'

theorem Call.Twins.operands? {c c' : Call} (h : Call.Twins w w' names c c') :
    Expr.TwinOperands w w' names c.operands? c'.operands? := by
  obtain ⟨object, method, args⟩ := c
  obtain ⟨object', method', args'⟩ := c'
  obtain ⟨-, -, hobject, hargs⟩ := h
  cases hobject with
  | none => exact .inl ⟨rfl, rfl⟩
  | some hobject =>
      cases hargs with
      | nil => exact .inl ⟨rfl, rfl⟩
      | cons harg _ => exact .inr ⟨_, _, _, _, rfl, rfl, hobject, harg⟩

theorem Call.Twins.args_cases {c c' : Call} (h : Call.Twins w w' names c c') :
    (c.args = [] ∧ c'.args = []) ∨ ∃ arg arg' args args', c.args = arg :: args ∧
      c'.args = arg' :: args' ∧ Expr.Twins w w' names arg arg' ∧
      List.Forall₂ (Expr.Twins w w' names) args args' := by
  obtain ⟨object, method, args⟩ := c
  obtain ⟨object', method', args'⟩ := c'
  obtain ⟨-, -, -, hargs⟩ := h
  cases hargs with
  | nil => exact .inl ⟨rfl, rfl⟩
  | cons harg hargs => exact .inr ⟨_, _, _, _, rfl, rfl, harg, hargs⟩

end

/-! ### Operands of calls -/

theorem Call.operands?_eq_some {c : Call} {object arg : Expr}
    (h : c.operands? = some (object, arg)) :
    ∃ method rest, c = ⟨some object, method, arg :: rest⟩ := by
  unfold operands? at h
  split at h
  · rename_i rest hobject hargs
    cases h
    obtain ⟨_, method, _⟩ := c
    cases hobject
    cases hargs
    exact ⟨method, rest, rfl⟩
  · cases h

theorem Call.mem_children_of_args {c : Call} {arg : Expr} {rest : List Expr}
    (h : c.args = arg :: rest) : arg ∈ c.toExpr.children := by
  rw [toExpr, Expr.children, h]
  exact List.mem_append_right _ List.mem_cons_self

theorem Call.mem_children_of_operands? {c : Call} {object arg : Expr}
    (h : c.operands? = some (object, arg)) :
    object ∈ c.toExpr.children ∧ arg ∈ c.toExpr.children := by
  obtain ⟨method, rest, rfl⟩ := Call.operands?_eq_some h
  exact ⟨List.mem_cons_self, List.mem_cons_of_mem _ List.mem_cons_self⟩

namespace Compile

/-- The collection and the value are parts of the call. -/
theorem mem_children_of_membership {c : Call} {source value : Expr}
    (h : membership? c = some (source, value)) :
    source ∈ c.toExpr.children ∧ value ∈ c.toExpr.children := by
  unfold membership? at h
  split at h
  · split at h
    · rename_i rest hargs
      cases h
      refine ⟨Call.mem_children_of_args hargs, ?_⟩
      rw [Call.toExpr, Expr.children, hargs]
      exact List.mem_append_right _ (List.mem_cons_of_mem _ List.mem_cons_self)
    · cases h
  · split at h
    · exact Call.mem_children_of_operands? h
    · cases h

end Compile

end QueryFilter
