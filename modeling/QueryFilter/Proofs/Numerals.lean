import QueryFilter.Model.Error

/-!
Decimal texts of integers. They are read back as the integers that they are the
texts of, so different integers have different texts.
-/

namespace QueryFilter

theorem isDigit_of_mem_toString {n : Nat} {c : Char} (h : c ∈ (toString n).toList) :
    c.isDigit = true := by
  rw [Nat.toString_eq_repr, Nat.toList_repr] at h
  exact Nat.isDigit_of_mem_toDigits (by omega) (by omega) h

theorem digits_toString (n : Nat) :
    (toString n).toList ≠ [] ∧ (toString n).toList.all Char.isDigit = true := by
  refine ⟨?_, List.all_eq_true.mpr fun c hc => isDigit_of_mem_toString hc⟩
  rw [Nat.toString_eq_repr, Nat.toList_repr]
  exact Nat.toDigits_ne_nil

namespace Flow

theorem digitsValue_toString (n : Nat) : digitsValue (toString n).toList = n := by
  have hvalue (cs : List Char) : digitsValue cs = Nat.ofDigitChars 10 cs 0 := by
    simp only [digitsValue, Nat.ofDigitChars_eq_foldl, Nat.mul_comm]
  rw [hvalue, Nat.toString_eq_repr, Nat.toList_repr, Nat.ofDigitChars_ten_toDigits]

theorem decimal?_of_digits {text : String} {cs : List Char} (htext : text.toList = cs)
    (hcs : cs ≠ [] ∧ cs.all Char.isDigit = true) : decimal? text = some (digitsValue cs) := by
  obtain ⟨c, rest, rfl⟩ := List.exists_cons_of_ne_nil hcs.1
  have hc : c.isDigit = true := List.all_eq_true.mp hcs.2 c List.mem_cons_self
  -- a digit is no sign
  have hminus : c ≠ '-' := by
    rintro rfl
    cases hc
  have hplus : c ≠ '+' := by
    rintro rfl
    cases hc
  unfold decimal?
  rw [htext]
  split
  rename_i hsign
  split at hsign
  · rename_i heq
    exact absurd (List.cons.inj heq).1 hminus
  · rename_i heq
    exact absurd (List.cons.inj heq).1 hplus
  · cases hsign
    exact if_pos hcs

theorem decimal?_of_minus {text : String} {cs : List Char} (htext : text.toList = '-' :: cs)
    (hcs : cs ≠ [] ∧ cs.all Char.isDigit = true) :
    decimal? text = some (-(digitsValue cs : Int)) := by
  unfold decimal?
  rw [htext]
  exact if_pos hcs

/-- Integers are read back from their decimal texts. -/
theorem decimal?_toString (n : Int) : decimal? (toString n) = some n := by
  cases n with
  | ofNat a =>
      have htext : (toString (Int.ofNat a)).toList = (toString a).toList := rfl
      rw [decimal?_of_digits htext (digits_toString a), digitsValue_toString]
      rfl
  | negSucc a =>
      have htext : (toString (Int.negSucc a)).toList = '-' :: (toString (a + 1)).toList :=
        String.toList_append
      rw [decimal?_of_minus htext (digits_toString (a + 1)), digitsValue_toString]
      rfl

end Flow

/-- Decimal texts of different integers are different. -/
theorem toString_int_inj {m n : Int} (h : toString m = toString n) : m = n := by
  have hread := congrArg Flow.decimal? h
  rw [Flow.decimal?_toString, Flow.decimal?_toString] at hread
  exact Option.some.inj hread

end QueryFilter
