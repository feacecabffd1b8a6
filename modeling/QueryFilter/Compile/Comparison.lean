import QueryFilter.Compile.Field
import QueryFilter.Filter.Basic

/-!
Comparisons of a field with a constant on either side, of a remainder, and of
the length of an array. An array is longer than `n` when it has an item at
position `n`.
-/

namespace QueryFilter.Compile

/-- `dividend % divisor` compared with a value. -/
def remainder (s : Scope) (e dividend divisor : Expr) (how : Comparison) (value : Json) :
    Compiled Filter :=
  if !how.isEquality then e.refuse .remainderOrder
  else
    match divisor.const?.bind Json.word? with
    | none => e.refuse .divisorNotInteger
    | some d =>
      if d = 0 then e.refuse .divisorZero
      else
        match value.word? with
        | none => e.refuse .remainderNotInteger
        | some r => do
          let f ← field s dividend
          if f.encoder.isNumeric then
            let test ← Compiled.ofBuild (Filter.modOf f.path d r)
            pure (if how = .eq then test else .not test)
          else
            e.refuse (.remainderRepresentation
              (match f.encoder.representation? with
                | some r => r.text
                | none => f.encoder.kind))

def hasItem (array : Path) (position : Int) (expected : Bool) : Filter :=
  .test (array.child (toString position)) (.presence expected)

/-- The length of `array` compared with `n`. -/
def lengthTest (e : Expr) (array : Path) (n : Int) : Comparison → Compiled Filter
  | .eq => Compiled.ofBuild (Filter.sizeOf array n)
  | .ne => do
    let test ← Compiled.ofBuild (Filter.sizeOf array n)
    pure (.not test)
  | .gt => pure (hasItem array n true)
  | .le => pure (hasItem array n false)
  | .ge => if n = 0 then e.refuse .lengthAlwaysTrue else pure (hasItem array (n - 1) true)
  | .lt => if n = 0 then e.refuse .lengthAlwaysFalse else pure (hasItem array (n - 1) false)

def arrayLength (s : Scope) (e array : Expr) (how : Comparison) (value : Json) : Compiled Filter :=
  match value.word? with
  | some n =>
    if n < 0 then e.refuse .lengthOperand
    else do
      let f ← field s array
      lengthTest e f.path n how
  | none => e.refuse .lengthOperand

/-- The array whose length an expression is. -/
def lengthOf? : Expr → Option Expr
  | .member object name _ =>
    if (name = "Length" ∨ name = "Count") ∧ object.type?.any (·.kind == .array) then some object
    else none
  | _ => none

theorem lengthOf?_eq_some {e array : Expr} (h : lengthOf? e = some array) :
    ∃ name type element, e = .member array name type ∧ array.type? = some element ∧
      element.kind = .array := by
  cases e with
  | member object name type =>
      rw [lengthOf?] at h
      split at h
      · rename_i hlength
        cases h
        have hany := hlength.2
        cases helement : array.type? with
        | none => simp [helement] at hany
        | some element => exact ⟨name, type, element, rfl, rfl, by simpa [helement] using hany⟩
      · cases h
  | _ => cases h

/-- `operand` compared with a constant. -/
def compareWith (s : Scope) (e operand : Expr) (how : Comparison) (value : Json) :
    Compiled Filter :=
  match operand with
  | .binary .mod dividend divisor _ => remainder s e dividend divisor how value
  | operand =>
    match lengthOf? operand with
    | some array => arrayLength s e array how value
    | none => do
      let f ← field s operand
      if value.isNull then
        if how.isEquality then pure (.test f.path (.compare how .null)) else e.refuse .nullOrder
      else do
        let stored ← s.encode f.encoder value (some e)
        pure (.test f.path (.compare how stored))

/-- Why two operands without a constant cannot be compared. -/
def noConstantCause (left right : Expr) : Cause :=
  if left.isFieldReference && right.isFieldReference then .twoFields else .noConstant

/-- The comparison `e` of two operands. -/
def comparison (s : Scope) (e : Expr) (how : Comparison) (left right : Expr) : Compiled Filter :=
  match left.const?, right.const? with
  | some value, none => compareWith s e right how.converse value
  | none, some value => compareWith s e left how value
  | none, none => e.refuse (noConstantCause left right)
  | some _, some _ => e.refuse .noField

/-- The binary expression `e` as a comparison. -/
def binary (s : Scope) (e : Expr) (op : BinaryOp) (left right : Expr) : Compiled Filter :=
  match op with
  | .compare how => comparison s e how left right
  | _ => e.refuse .unclaimed

end QueryFilter.Compile
