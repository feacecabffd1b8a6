import QueryFilter.Expr.Build
import QueryFilter.Method.Shape
import QueryFilter.Proofs.Passes

/-!
Expressions out of the checked constructors. Their calls have a receiver
exactly for instance methods, and one argument for each parameter.
-/

namespace QueryFilter

namespace Expr

/-- What the checked constructors build out of parts that they have built.
Members may be added to classes in between. -/
inductive Built : Expr → Prop where
  | parameter {name : String} {type : Option Ty} {e : Expr} :
      parameter name type = .ok e → Built e
  | constant {value : Json} {type : Option Ty} {e : Expr} :
      constant value type = .ok e → Built e
  | memberOf {schema : Schema} {object e : Expr} {name : String} :
      Built object → memberOf schema (some object) name = .ok e → Built e
  | indexOf {object key e : Expr} :
      Built object → Built key → indexOf (some object) (some key) = .ok e → Built e
  | callOn {object e : Expr} {method : Method} {args : List Expr} :
      Built object → (∀ arg ∈ args, Built arg) →
      callOn (some object) (some method) (args.map some) = .ok e → Built e
  | callStatic {method : Method} {args : List Expr} {e : Expr} :
      (∀ arg ∈ args, Built arg) →
      callStatic (some method) (args.map some) = .ok e → Built e
  | binaryOf {op : BinaryOp} {left right e : Expr} :
      Built left → Built right → binaryOf op (some left) (some right) = .ok e → Built e
  | notOf {operand e : Expr} : Built operand → notOf (some operand) = .ok e → Built e
  | lambdaOf {param body e : Expr} :
      Built body → lambdaOf (some param) (some body) = .ok e → Built e

theorem built_const (value : Json) (type : Ty) : (Expr.const value type).Built :=
  .constant (rfl : constant value (some type) = .ok _)

mutual

/-- Whether calls have what their methods take. -/
def Saturated : Expr → Prop
  | .param .. | .const .. => True
  | .member object _ _ => object.Saturated
  | .index object key _ => object.Saturated ∧ key.Saturated
  | .call object method args =>
    (object.isSome = !method.isStatic ∧ args.length = method.arity) ∧
      objectSaturated object ∧ allSaturated args
  | .binary _ left right _ => left.Saturated ∧ right.Saturated
  | .not operand => operand.Saturated
  | .lambda _ _ body => body.Saturated

def objectSaturated : Option Expr → Prop
  | some object => object.Saturated
  | none => True

def allSaturated : List Expr → Prop
  | [] => True
  | e :: es => e.Saturated ∧ allSaturated es

end

theorem allSaturated_iff (es : List Expr) : allSaturated es ↔ ∀ e ∈ es, e.Saturated := by
  induction es with
  | nil => simp [allSaturated]
  | cons e es ih => simp [allSaturated, ih]

/-! ### What the constructors build -/

theorem memberOf_eq_ok {schema : Schema} {object e : Expr} {name : String}
    (h : memberOf schema (some object) name = .ok e) :
    ∃ type, e = .member object name type := by
  obtain ⟨_, ⟨⟩, h⟩ := bind_eq_ok.mp h
  obtain ⟨t, -, h⟩ := bind_eq_ok.mp h
  split at h
  · cases h
    exact ⟨_, rfl⟩
  · cases h

theorem indexOf_eq_ok {object key e : Expr} (h : indexOf (some object) (some key) = .ok e) :
    ∃ type, e = .index object key type := by
  obtain ⟨_, ⟨⟩, h⟩ := bind_eq_ok.mp h
  obtain ⟨_, ⟨⟩, h⟩ := bind_eq_ok.mp h
  obtain ⟨t, -, h⟩ := bind_eq_ok.mp h
  obtain ⟨k, -, h⟩ := bind_eq_ok.mp h
  split at h
  · split at h
    · cases h
      exact ⟨_, rfl⟩
    · cases h
  · split at h
    · cases h
      exact ⟨_, rfl⟩
    · cases h
  · cases h

theorem arguments_eq_ok {method : Method} {args built : List Expr}
    (h : arguments method (args.map some) = .ok built) :
    built = args ∧ args.length = method.arity := by
  unfold arguments at h
  split at h
  · rename_i harity
    rw [mapM_map_some fun _ => rfl] at h
    cases h
    exact ⟨rfl, by rw [← harity, List.length_map]⟩
  · split at h
    · cases h
    · cases h

theorem callOn_eq_ok {object e : Expr} {method : Method} {args : List Expr}
    (h : callOn (some object) (some method) (args.map some) = .ok e) :
    e = .call (some object) method args ∧ method.isStatic = false ∧
      args.length = method.arity := by
  obtain ⟨_, ⟨⟩, h⟩ := bind_eq_ok.mp h
  obtain ⟨_, ⟨⟩, h⟩ := bind_eq_ok.mp h
  obtain ⟨hstatic, h⟩ := guard_eq_ok.mp h
  obtain ⟨built, hbuilt, h⟩ := bind_eq_ok.mp h
  obtain ⟨hargs, harity⟩ := arguments_eq_ok hbuilt
  cases h
  exact ⟨by rw [hargs], by simpa using hstatic, harity⟩

theorem callStatic_eq_ok {e : Expr} {method : Method} {args : List Expr}
    (h : callStatic (some method) (args.map some) = .ok e) :
    e = .call none method args ∧ method.isStatic = true ∧ args.length = method.arity := by
  obtain ⟨_, ⟨⟩, h⟩ := bind_eq_ok.mp h
  obtain ⟨hstatic, h⟩ := guard_eq_ok.mp h
  obtain ⟨built, hbuilt, h⟩ := bind_eq_ok.mp h
  obtain ⟨hargs, harity⟩ := arguments_eq_ok hbuilt
  cases h
  exact ⟨by rw [hargs], by simpa using hstatic, harity⟩

theorem binaryOf_eq_ok {op : BinaryOp} {left right e : Expr}
    (h : binaryOf op (some left) (some right) = .ok e) :
    ∃ type, e = .binary op left right type := by
  obtain ⟨_, ⟨⟩, h⟩ := bind_eq_ok.mp h
  obtain ⟨_, ⟨⟩, h⟩ := bind_eq_ok.mp h
  obtain ⟨l, -, h⟩ := bind_eq_ok.mp h
  obtain ⟨r, -, h⟩ := bind_eq_ok.mp h
  cases op with
  | and | or | mod | compare =>
      dsimp only at h
      split at h
      · cases h
        exact ⟨_, rfl⟩
      · cases h

theorem notOf_eq_ok {operand e : Expr} (h : notOf (some operand) = .ok e) : e = .not operand := by
  obtain ⟨_, ⟨⟩, h⟩ := bind_eq_ok.mp h
  obtain ⟨t, -, h⟩ := bind_eq_ok.mp h
  split at h
  · cases h
    rfl
  · cases h

theorem lambdaOf_eq_ok {param body e : Expr} (h : lambdaOf (some param) (some body) = .ok e) :
    ∃ name type, e = .lambda name type body := by
  unfold lambdaOf at h
  split at h
  · obtain ⟨_, ⟨⟩, h⟩ := bind_eq_ok.mp h
    cases h
    exact ⟨_, _, rfl⟩
  · cases h

theorem Built.saturated {e : Expr} (h : e.Built) : e.Saturated := by
  induction h with
  | parameter h =>
      obtain ⟨type, -, ⟨⟩⟩ := bind_eq_ok.mp h
      trivial
  | constant h =>
      obtain ⟨type, -, ⟨⟩⟩ := bind_eq_ok.mp h
      trivial
  | memberOf _ h ih =>
      obtain ⟨type, rfl⟩ := memberOf_eq_ok h
      exact ih
  | indexOf _ _ h iho ihk =>
      obtain ⟨type, rfl⟩ := indexOf_eq_ok h
      exact ⟨iho, ihk⟩
  | callOn _ _ h iho iha =>
      obtain ⟨rfl, hstatic, harity⟩ := callOn_eq_ok h
      exact ⟨⟨by rw [hstatic]; rfl, harity⟩, iho, (allSaturated_iff _).mpr iha⟩
  | callStatic _ h iha =>
      obtain ⟨rfl, hstatic, harity⟩ := callStatic_eq_ok h
      exact ⟨⟨by rw [hstatic]; rfl, harity⟩, trivial, (allSaturated_iff _).mpr iha⟩
  | binaryOf _ _ h ihl ihr =>
      obtain ⟨type, rfl⟩ := binaryOf_eq_ok h
      exact ⟨ihl, ihr⟩
  | notOf _ h ih =>
      obtain rfl := notOf_eq_ok h
      exact ih
  | lambdaOf _ h ih =>
      obtain ⟨name, type, rfl⟩ := lambdaOf_eq_ok h
      exact ih

/-! ### Calls by the questions that they ask -/

section

variable {object : Option Expr} {method : Method} {args : List Expr}
  (h : object.isSome = !method.isStatic ∧ args.length = method.arity)

include h

/-- A call that has what its method takes has a receiver and an argument if the
method asks a question about its receiver. -/
theorem operands_of_question {name : String} (hasks : method.asks false name 1 = true) :
    ∃ receiver arg, object = some receiver ∧ args = [arg] := by
  simp only [Method.asks, Bool.and_eq_true, beq_iff_eq] at hasks
  obtain ⟨hobject, hargs⟩ := h
  rw [hasks.1.1.1.1] at hobject
  rw [hasks.2] at hargs
  obtain ⟨receiver, rfl⟩ := Option.isSome_iff_exists.mp hobject
  obtain ⟨arg, rfl⟩ := List.length_eq_one_iff.mp hargs
  exact ⟨receiver, arg, rfl, rfl⟩

theorem operands_of_staticQuestion {name : String} {arity : Nat}
    (hasks : method.asks true name arity = true) : object = none ∧ args.length = arity := by
  simp only [Method.asks, Bool.and_eq_true, beq_iff_eq] at hasks
  obtain ⟨hobject, hargs⟩ := h
  rw [hasks.1.1.1.1] at hobject
  exact ⟨by simpa using hobject, hargs.trans hasks.2⟩

end

theorem Saturated.of_question {object : Option Expr} {method : Method} {args : List Expr}
    (h : (Expr.call object method args).Saturated) {name : String}
    (hasks : method.asks false name 1 = true) :
    ∃ receiver arg, object = some receiver ∧ args = [arg] := operands_of_question h.1 hasks

theorem Saturated.of_staticQuestion {object : Option Expr} {method : Method} {args : List Expr}
    (h : (Expr.call object method args).Saturated) {name : String} {arity : Nat}
    (hasks : method.asks true name arity = true) : object = none ∧ args.length = arity :=
  operands_of_staticQuestion h.1 hasks

end Expr

end QueryFilter
