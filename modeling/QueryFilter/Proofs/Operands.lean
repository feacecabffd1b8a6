import QueryFilter.Proofs.Numerals
import QueryFilter.Proofs.Truth

/-!
Stored values compare with stored constants as the native values do with the
native constants, for the comparisons that an encoder admits.
-/

namespace QueryFilter

/-! ### Native comparisons -/

theorem sameValue_comm (names : List String) (v w : Json) :
    sameValue names v w = sameValue names w v := by
  unfold sameValue
  cases Encoder.enumOrdinal? names v <;> cases Encoder.enumOrdinal? names w
  case some.some i j => exact BEq.comm
  all_goals exact Json.same_comm v w

theorem Comparison.holdsOf_converse (how : Comparison) (names : List String) (v w : Json) :
    how.converse.holdsOf names v w = how.holdsOf names w v := by
  cases how with
  | eq => exact sameValue_comm names v w
  | ne => exact congrArg (!·) (sameValue_comm names v w)
  | lt | le | gt | ge => cases v <;> cases w <;> rfl

theorem Comparison.isEquality_converse (how : Comparison) :
    how.converse.isEquality = how.isEquality := by
  cases how <;> rfl

theorem Encoder.admits_converse (how : Comparison) (encoder : Encoder) :
    encoder.admits how.converse = encoder.admits how := by
  have heq := how.isEquality_converse
  unfold admits
  split <;> first | exact heq | rfl

theorem sameValue_null (names : List String) (v : Json) :
    sameValue names v .null = v.same .null := by
  unfold sameValue
  cases Encoder.enumOrdinal? names v <;> rfl

/-! ### Stored scalars -/

theorem enumOrdinal?_lt {values : List String} {v : Json} {place : Nat}
    (h : Encoder.enumOrdinal? values v = some place) : place < values.length := by
  cases v with
  | string name =>
      exact (List.idxOf?_eq_some_iff.mp h).1
  | int n =>
      rw [Encoder.enumOrdinal?] at h
      split at h
      · cases h
        omega
      · cases h
  | null | bool | float | array | object => cases h

theorem sameValue_nil (v w : Json) : sameValue [] v w = v.same w := by
  have hnone (u : Json) : Encoder.enumOrdinal? [] u = none := by
    cases hu : Encoder.enumOrdinal? [] u with
    | none => rfl
    | some place => exact absurd (enumOrdinal?_lt hu) (Nat.not_lt_zero _)
  rw [sameValue, hnone v]

theorem Encoder.values_integer (width : Width) (representation : Representation) :
    (Encoder.integer width representation).valueType.values = [] := by
  cases width with
  | int32 | int64 => rfl

/-- Places of an enumeration are told apart by what they are stored as. -/
theorem same_encodeEnum {values : List String} (hnodup : values.Nodup)
    (representation : Representation) {i j : Nat} (hi : i < values.length)
    (hj : j < values.length) :
    (Encoder.encodeEnum values representation i).same
      (Encoder.encodeEnum values representation j) = (i == j) := by
  unfold Encoder.encodeEnum
  split
  · rw [List.getElem?_eq_getElem hi, List.getElem?_eq_getElem hj]
    rw [Bool.eq_iff_iff, beq_iff_eq]
    exact beq_iff_eq.trans (hnodup.getElem_inj_iff)
  · rw [Bool.eq_iff_iff, beq_iff_eq]
    exact beq_iff_eq.trans Int.ofNat_inj

/-- Equality of stored values is equality of the native ones. -/
theorem same_encode {maps : ClassMaps} {encoder : Encoder} (hadmits : encoder.admits .eq = true)
    (hnamed : encoder.valueType.values.Nodup) {v c w stored : Json}
    (hv : maps.encode encoder v = .ok w) (hc : maps.encode encoder c = .ok stored) :
    w.same stored = sameValue encoder.valueType.values v c := by
  cases encoder with
  | boolean =>
      obtain ⟨a, rfl, rfl⟩ := ClassMaps.encode_boolean_eq_ok hv
      obtain ⟨b, rfl, rfl⟩ := ClassMaps.encode_boolean_eq_ok hc
      rfl
  | string =>
      obtain ⟨rfl, rfl | ⟨s, rfl⟩⟩ := ClassMaps.encode_text_eq_ok hv <;>
        obtain ⟨rfl, rfl | ⟨t, rfl⟩⟩ := ClassMaps.encode_text_eq_ok hc <;> rfl
  | enumeration name values representation =>
      obtain ⟨i, hi, rfl⟩ := ClassMaps.encode_enumeration_eq_ok hv
      obtain ⟨j, hj, rfl⟩ := ClassMaps.encode_enumeration_eq_ok hc
      have hnodup : values.Nodup := hnamed
      change _ = sameValue values v c
      rw [same_encodeEnum hnodup representation (enumOrdinal?_lt hi) (enumOrdinal?_lt hj),
        sameValue, hi, hj]
  | integer width representation =>
      obtain ⟨m, rfl, rfl⟩ := ClassMaps.encode_integer_eq_ok hv
      obtain ⟨n, rfl, rfl⟩ := ClassMaps.encode_integer_eq_ok hc
      rw [Encoder.values_integer, sameValue_nil]
      cases representation with
      | int32 | int64 => rfl
      | string =>
          -- decimal texts tell integers apart, though they are in another order
          change (toString m == toString n) = (m == n)
          rw [Bool.eq_iff_iff, beq_iff_eq, beq_iff_eq]
          exact ⟨toString_int_inj, congrArg toString⟩
      | boolean | double => cases hadmits
  | double | array | dictionary | document => cases hadmits

/-! ### Comparisons with null -/

theorem Json.same_null (v : Json) : v.same .null = v.isNull := by
  cases v <;> rfl

theorem null_sameValue (names : List String) (v : Json) : sameValue names .null v = v.isNull := by
  rw [sameValue_comm, sameValue_null, Json.same_null]

/-- A value and its stored form; null stands for itself. -/
def ClassMaps.StoredForm (maps : ClassMaps) (encoder : Encoder) (v w : Json) : Prop :=
  (v = .null ∧ w = .null) ∨ maps.encode encoder v = .ok w

theorem isNull_encode {maps : ClassMaps} {how : Comparison} {encoder : Encoder}
    (hadmits : encoder.admits how = true) {v w : Json} (h : maps.encode encoder v = .ok w) :
    w.isNull = v.isNull := by
  cases encoder with
  | boolean =>
      obtain ⟨b, rfl, rfl⟩ := ClassMaps.encode_boolean_eq_ok h
      rfl
  | string =>
      obtain ⟨rfl, -⟩ := ClassMaps.encode_text_eq_ok h
      rfl
  | enumeration name values representation =>
      obtain ⟨place, hplace, rfl⟩ := ClassMaps.encode_enumeration_eq_ok h
      have hvalue : v.isNull = false := by cases v <;> first | rfl | cases hplace
      rw [hvalue, Encoder.encodeEnum]
      split
      · rw [List.getElem?_eq_getElem (enumOrdinal?_lt hplace)]
        rfl
      · rfl
  | integer width representation =>
      obtain ⟨n, rfl, rfl⟩ := ClassMaps.encode_integer_eq_ok h
      cases representation <;> rfl
  | double | array | dictionary | document => cases hadmits

theorem same_storedForm {maps : ClassMaps} {encoder : Encoder}
    (hadmits : encoder.admits .eq = true) (hnamed : encoder.valueType.values.Nodup)
    {v c w stored : Json} (hv : maps.StoredForm encoder v w)
    (hc : maps.StoredForm encoder c stored) :
    w.same stored = sameValue encoder.valueType.values v c := by
  rcases hv with ⟨rfl, rfl⟩ | hv
  · rw [null_sameValue, Json.same_comm, Json.same_null]
    rcases hc with ⟨rfl, rfl⟩ | hc
    · rfl
    · exact isNull_encode hadmits hc
  · rcases hc with ⟨rfl, rfl⟩ | hc
    · rw [sameValue_null, Json.same_null, Json.same_null]
      exact isNull_encode hadmits hv
    · exact same_encode hadmits hnamed hv hc

/-- Integers that are in order are stored as they are. -/
theorem storedForm_ordered {maps : ClassMaps} {how : Comparison} {encoder : Encoder}
    (hadmits : encoder.admits how = true) (horder : how.isEquality = false) {v w : Json}
    (h : maps.StoredForm encoder v w) : w = v ∧ (v = .null ∨ ∃ n, v = .int n) := by
  rcases h with ⟨rfl, rfl⟩ | h
  · exact ⟨rfl, .inl rfl⟩
  · cases encoder with
    | integer width representation =>
        obtain ⟨n, rfl, rfl⟩ := ClassMaps.encode_integer_eq_ok h
        cases representation with
        | int32 | int64 => exact ⟨rfl, .inr ⟨n, rfl⟩⟩
        | string =>
            rw [Encoder.admits, horder] at hadmits
            cases hadmits
        | boolean | double => cases hadmits
    | boolean | string | enumeration =>
        rw [Encoder.admits, horder] at hadmits
        cases hadmits
    | double | array | dictionary | document => cases hadmits

/-! ### Comparisons of fields -/

theorem Encoder.admits_eq {how : Comparison} {encoder : Encoder}
    (h : encoder.admits how = true) : encoder.admits .eq = true := by
  cases encoder with
  | integer width representation => cases representation <;> first | rfl | exact h
  | double | array | dictionary | document => exact h
  | boolean | string | enumeration => rfl

/-- A comparison of a field with a stored constant says what the comparison of
the native value with the native constant says. -/
theorem testHolds_compare {I : Interpretation Json} (hI : I.Reads) {maps : ClassMaps}
    {how : Comparison} {encoder : Encoder} (hadmits : encoder.admits how = true)
    (hnamed : encoder.valueType.values.Nodup) {d : Json} {field : Option String}
    {v c stored : Json} (hv : maps.StoredForm encoder v ((d.at? field).getD .null))
    (hc : maps.StoredForm encoder c stored)
    (horder : how.isEquality = false → c.isNull = false) :
    Filter.testHolds I d field (.compare how stored)
      = how.holdsOf encoder.valueType.values v c := by
  have hequal : I.holds d field (.eq stored) = sameValue encoder.valueType.values v c := by
    rw [hI.equality]
    exact same_storedForm (Encoder.admits_eq hadmits) hnamed hv hc
  have hordered (h : how.isEquality = false) : I.holds d field (.compare how stored)
      = how.holdsOf encoder.valueType.values v c := by
    obtain ⟨hat, hv⟩ := storedForm_ordered hadmits h hv
    obtain ⟨rfl, rfl | ⟨n, rfl⟩⟩ := storedForm_ordered hadmits h hc
    · -- null is no constant to order by
      cases horder h
    · obtain rfl | ⟨m, rfl⟩ := hv
      · rw [hI.unordered d field how n h hat]
        cases how <;> first | rfl | cases h
      · have hsome : d.at? field = some (.int m) := by
          cases hw : d.at? field with
          | none => rw [hw] at hat; cases hat
          | some w => rw [hw] at hat; exact congrArg some hat
        rw [hI.order d field how m n h hsome]
        cases how <;> first | rfl | cases h
  cases how with
  | eq => exact (beq_true _).trans hequal
  | ne => exact (beq_false _).trans (congrArg (!·) hequal)
  | lt | le | gt | ge => exact (beq_true _).trans (hordered rfl)

end QueryFilter
