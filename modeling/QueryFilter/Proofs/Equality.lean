import QueryFilter.Proofs.Lengths

/-!
Calls of `Equals` and comparisons with `==`. On fields they come to the same.
Remainders and lengths are no fields: a comparison has a filter of its own for
them, a call has none.
-/

namespace QueryFilter

/-! ### Operands -/

namespace Expr

/-- Two operands of which exactly one is a constant. -/
inductive OneConstant (operand : Expr) (value : Json) : Expr → Expr → Prop where
  | second (type : Ty) : operand.const? = none →
      OneConstant operand value operand (.const value type)
  | first (type : Ty) : operand.const? = none →
      OneConstant operand value (.const value type) operand

theorem OneConstant.const?_eq_none {operand : Expr} {value : Json} {a b : Expr}
    (h : OneConstant operand value a b) : operand.const? = none := by
  cases h <;> assumption

/-- A remainder or a length, which comparisons take without a field of its own. -/
def IsDerived (e : Expr) : Prop :=
  (∃ dividend divisor type, e = .binary .mod dividend divisor type) ∨
    ∃ array, Compile.lengthOf? e = some array

end Expr

theorem Json.isNull_iff {v : Json} : v.isNull = true ↔ v = .null := by
  cases v <;> simp [isNull]

namespace ClassMaps

/-- Null is only ever stored as null. -/
theorem storedForm_null {maps : ClassMaps} {encoder : Encoder} {w : Json}
    (h : maps.StoredForm encoder .null w) : w = .null := by
  rcases h with ⟨-, rfl⟩ | h
  · rfl
  · rw [encode] at h
    cases encoder with
    | string | array | dictionary | document =>
        cases h
        rfl
    | boolean | double | integer | enumeration => cases h

end ClassMaps

theorem Scope.encodeOrNull_eq_ok_iff {s : Scope} {encoder : Encoder} {value stored : Json}
    {e : Option Expr} :
    s.encodeOrNull encoder value e = .ok stored ↔ s.model.maps.StoredForm encoder value stored := by
  unfold encodeOrNull
  constructor
  · intro h
    split at h
    · rename_i hnull
      cases h
      exact .inl ⟨Json.isNull_iff.mp hnull, rfl⟩
    · exact .inr (mapError_eq_ok.mp h)
  · intro h
    split
    · rename_i hnull
      obtain rfl := Json.isNull_iff.mp hnull
      rw [ClassMaps.storedForm_null h]
      rfl
    · rename_i hnull
      exact mapError_eq_ok.mpr (h.resolve_left fun h => hnull (Json.isNull_iff.mpr h.1))

namespace Compile

variable {s : Scope} {a b e operand : Expr} {how : Comparison} {value : Json} {f : Filter}

/-! ### Comparisons of fields -/

/-- Only fields that are compared for equality are compared with null. -/
theorem compareWith_eq_ok_iff (hderived : ¬operand.IsDerived) :
    compareWith s e operand how value = .ok f ↔
      ∃ target, field s operand = .ok target ∧ (value.isNull = true → how.isEquality = true) ∧
        ∃ stored, s.model.maps.StoredForm target.encoder value stored ∧
          f = .test target.path (.compare how stored) := by
  unfold compareWith
  split
  · exact absurd (.inl ⟨_, _, _, rfl⟩) hderived
  · cases hlength : lengthOf? operand with
    | some array => exact absurd (.inr ⟨array, hlength⟩) hderived
    | none =>
        dsimp only
        constructor
        · intro h
          obtain ⟨target, htarget, h⟩ := bind_eq_ok.mp h
          split at h
          · rename_i hnull
            split at h
            · rename_i hequality
              cases h
              exact ⟨target, htarget, fun _ => hequality, .null,
                .inl ⟨Json.isNull_iff.mp hnull, rfl⟩, rfl⟩
            · cases h
          · rename_i hnull
            obtain ⟨stored, hstored, ⟨⟩⟩ := bind_eq_ok.mp h
            exact ⟨target, htarget, fun h => absurd h hnull, stored,
              .inr (mapError_eq_ok.mp hstored), rfl⟩
        · rintro ⟨target, htarget, hequality, stored, hstored, rfl⟩
          refine bind_eq_ok.mpr ⟨target, htarget, ?_⟩
          split
          · rename_i hnull
            obtain rfl := Json.isNull_iff.mp hnull
            rw [if_pos (hequality hnull), ClassMaps.storedForm_null hstored]
            rfl
          · rename_i hnull
            have hencode := hstored.resolve_left fun h => hnull (Json.isNull_iff.mpr h.1)
            exact bind_eq_ok.mpr ⟨stored, mapError_eq_ok.mpr hencode, rfl⟩

theorem compares_of_oneConstant (h : operand.OneConstant value a b) (type : Option Ty) :
    operand.Compares .eq value (.binary (.compare .eq) a b type) := by
  cases h with
  | second constant => exact .left constant type
  | first constant => exact .right constant type

/-! ### Calls -/

/-- A call of `Equals` tests the field that its operand is. -/
theorem equals_eq_ok_iff (h : operand.OneConstant value a b) {method : Method}
    (hmethod : method.isEquals = true) :
    equals s ⟨some a, method, [b]⟩ = .ok f ↔
      ∃ target, field s operand = .ok target ∧
        ∃ stored, s.model.maps.StoredForm target.encoder value stored ∧
          f = .test target.path (.eq stored) := by
  have htests : equals s ⟨some a, method, [b]⟩ = (do
      let f ← field s operand
      let stored ← s.encodeOrNull f.encoder value (some (.call (some a) method [b]))
      pure (.test f.path (.eq stored))) := by
    unfold equals
    rw [hmethod]
    cases h with
    | second constant hconst =>
        simp only [Call.operands?, hconst]
        rfl
    | first constant hconst => rfl
  rw [htests]
  simp only [bind_eq_ok, Scope.encodeOrNull_eq_ok_iff]
  constructor
  · rintro ⟨target, htarget, stored, hstored, ⟨⟩⟩
    exact ⟨target, htarget, stored, hstored, rfl⟩
  · rintro ⟨target, htarget, stored, hstored, rfl⟩
    exact ⟨target, htarget, stored, hstored, rfl⟩

theorem expression_equals {method : Method} (hmethod : method.isEquals = true)
    (hdepth : s.depth < s.maxDepth) :
    expression s (.call (some a) method [b]) = equals s.descend ⟨some a, method, [b]⟩ := by
  rw [expression_call hdepth, call, Method.shape?_of_isEquals hmethod]

/-- Nothing has a filter at the limit of depth. -/
theorem expression_ne_ok (hdepth : ¬s.depth < s.maxDepth) : expression s e ≠ .ok f := by
  intro h
  have hheight := (gives_height s e).of_ok h
  have hpos := e.height_pos
  omega

/-- Neither a remainder nor the length of a stored array is a field. -/
theorem field_ne_ok_of_isDerived (h : operand.IsDerived)
    (harray : ∀ array target, lengthOf? operand = some array → chain s array = .ok target →
      ∃ item, target.encoder = .array item) (target : Field) : field s operand ≠ .ok target := by
  intro hfield
  rcases h with ⟨dividend, divisor, type, rfl⟩ | ⟨array, hlength⟩
  · cases hfield
  · obtain ⟨name, type, -, rfl, -⟩ := lengthOf?_eq_some hlength
    have hchain : chain s (.member array name type) = .ok target := hfield
    obtain ⟨container, hcontainer, hmember⟩ := bind_eq_ok.mp hchain
    obtain ⟨item, hitem⟩ := harray array container hlength hcontainer
    -- an array has no members
    rw [memberField, ClassMaps.find?, hitem] at hmember
    cases hmember

/-- With one constant operand a call of `Equals` has a filter exactly if the
comparison with `==` has one, and it is the same, unless the other operand is a
remainder or the length of an array. For these the call has no filter, whatever
the comparison has. -/
theorem equals_agrees {s : Scope} {a b operand : Expr} {value : Json}
    (h : operand.OneConstant value a b) {method : Method} (hmethod : method.isEquals = true)
    (type : Option Ty) :
    (¬operand.IsDerived → ∀ f, expression s (.call (some a) method [b]) = .ok f ↔
      expression s (.binary (.compare .eq) a b type) = .ok f) ∧
    (operand.IsDerived →
      (∀ array target, lengthOf? operand = some array → chain s array = .ok target →
        ∃ item, target.encoder = .array item) →
      ∀ f, expression s (.call (some a) method [b]) ≠ .ok f) := by
  by_cases hdepth : s.depth < s.maxDepth
  · rw [expression_equals hmethod hdepth,
      expression_of_compares (compares_of_oneConstant h type) h.const?_eq_none hdepth]
    refine ⟨fun hderived f => ?_, fun hderived harray f hf => ?_⟩
    · rw [equals_eq_ok_iff h hmethod, compareWith_eq_ok_iff hderived]
      simp only [Comparison.isEquality, implies_true, true_and]
      rfl
    · obtain ⟨target, htarget, -⟩ := (equals_eq_ok_iff h hmethod).mp hf
      rw [field_descend] at htarget
      exact field_ne_ok_of_isDerived hderived harray target htarget
  · refine ⟨fun _ f => ?_, fun _ _ f => expression_ne_ok hdepth⟩
    exact ⟨fun hf => absurd hf (expression_ne_ok hdepth),
      fun hf => absurd hf (expression_ne_ok hdepth)⟩

/-- The first number of the first row. -/
def corner : Expr :=
  let index (n : Int) : Expr := .const (.int n) .int32
  .index (.index rows (index 0) (some (.array .int32))) (index 0) (some .int32)

theorem built_corner : corner.Built := by
  have hzero := Expr.built_const (.int 0) .int32
  have hrow : (Expr.index rows (.const (.int 0) .int32) (some (.array .int32))).Built :=
    .indexOf built_rows hzero rfl
  exact .indexOf hrow hzero rfl

def rowCount : Expr := .member rows "Length" (some .int32)

/-- The first number can be compared in both forms, the number of rows cannot. -/
theorem equals_agrees_corner :
    let s := Scope.document grid 64 "x" (.document "Grid" (some 0) 0) 0
    let one : Expr := .const (.int 1) .int32
    let f : Filter := .test ⟨["rows", "0", "0"]⟩ (.eq (.int 1))
    expression s (.binary (.compare .eq) one corner (some .boolean)) = .ok f ∧
      expression s (.call (some one) (.equals .int32) [corner]) = .ok f ∧
      ∀ g, expression s (.call (some rowCount) (.equals .int32) [one]) ≠ .ok g := by
  intro s one f
  have hcomparison : expression s (.binary (.compare .eq) one corner (some .boolean)) = .ok f := rfl
  have hmethod : (Method.equals .int32).isEquals = true := by decide
  have hagrees := equals_agrees (s := s)
    (.first .int32 rfl : corner.OneConstant (.int 1) one corner) hmethod (some .boolean)
  have hmisses := equals_agrees (s := s)
    (.second .int32 rfl : rowCount.OneConstant (.int 1) rowCount one) hmethod (some .boolean)
  have hcorner : ¬corner.IsDerived := by
    rintro (⟨_, _, _, h⟩ | ⟨_, h⟩) <;> cases h
  refine ⟨hcomparison, (hagrees.1 hcorner f).mpr hcomparison, ?_⟩
  refine hmisses.2 (.inr ⟨rows, rfl⟩) fun array target harray htarget => ?_
  cases (rfl : lengthOf? rowCount = some rows).symm.trans harray
  cases htarget
  exact ⟨_, rfl⟩

/-- Remainders and lengths that are equal to a constant by the comparison, and
that the call refuses; all is built by the checked constructors. -/
theorem equals_misses :
    let s := Scope.document grid 64 "x" (.document "Grid" (some 0) 0) 0
    let one : Expr := .const (.int 1) .int32
    let parity : Expr := .binary .mod corner (.const (.int 2) .int32) (some .int32)
    one.Built ∧ parity.Built ∧ rowCount.Built ∧
    ∀ operand ∈ [parity, rowCount], operand.type? = one.type? ∧ ∃ call comparison,
      Expr.callOn (some operand) (some (.equals .int32)) [some one] = .ok call ∧
      Expr.binaryOf (.compare .eq) (some operand) (some one) = .ok comparison ∧
      (∃ f, expression s comparison = .ok f) ∧ ¬∃ f, expression s call = .ok f := by
  intro s one parity
  have hparity : parity.Built :=
    .binaryOf built_corner (Expr.built_const (.int 2) .int32)
      (rfl : Expr.binaryOf .mod _ _ = .ok _)
  have hcount : rowCount.Built :=
    .memberOf built_rows (rfl : Expr.memberOf grid.schema _ "Length" = .ok _)
  refine ⟨Expr.built_const (.int 1) .int32, hparity, hcount, fun operand hoperand => ?_⟩
  rcases List.mem_pair.mp hoperand with rfl | rfl
  · exact ⟨rfl, _, _, rfl, rfl, ⟨_, rfl⟩, fun ⟨_, h⟩ => by cases h⟩
  · exact ⟨rfl, _, _, rfl, rfl, ⟨_, rfl⟩, fun ⟨_, h⟩ => by cases h⟩

end Compile

end QueryFilter
