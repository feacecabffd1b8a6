import QueryFilter.Proofs.Equality
import QueryFilter.Proofs.Rounds
import QueryFilter.Proofs.Typing

/-!
Membership in a constant array. Where the static types of members are those of
their encoders, what resolves to a field is compared as a field, so the items of
the array are encoded as the operands of equalities are: one filter with all of
them stands for the equalities with each.
-/

namespace QueryFilter

open List (Forall₂)

/-! ### Members of the types of their encoders -/

namespace Model

variable {model : Model} {root : Encoder}

/-- Inside an encoder, at any depth, the static types of mapped members are
those of their encoders. -/
def AgreesInside (model : Model) (root : Encoder) : Prop :=
  ∀ e, model.maps.Reaches root e → ∀ name entry, model.maps.find? e name = some entry →
    model.schema.memberType? e.valueType name = some entry.encoder.valueType

theorem agreesOn_agreesInside (model : Model) : model.AgreesOn model.AgreesInside where
  typed _ name entry h := h _ .root name entry
  parts _ h _ hpart e he := h e ((ClassMaps.reaches_of_mem_parts hpart).trans he)

theorem AgreesInside.part {part : Encoder} (h : model.AgreesInside root)
    (hpart : part ∈ model.maps.parts root) : model.AgreesInside part :=
  model.agreesOn_agreesInside.parts root h part hpart

theorem AgreesOn.agreesInside {P : Encoder → Prop} (h : model.AgreesOn P) (hroot : P root) :
    model.AgreesInside root :=
  fun e he name entry => h.typed e name entry (he.of_closed hroot h.parts)

/-- They are in a loaded model. -/
theorem Sound.agreesInside (h : model.Sound) (hroot : root ∈ model.registry.encoders) :
    model.AgreesInside root :=
  h.agreesOn.agreesInside (h.registered root hroot)

end Model

namespace Compile

variable {s : Scope} {Γ : List (String × Ty)} {e : Expr} {f : Field}

/-- What resolves to a field is a chain from a parameter. -/
theorem isFieldReference_of_chain : ∀ (e : Expr) (f : Field), chain s e = .ok f →
    e.isFieldReference = true
  | .param .., _, _ => rfl
  | .member object .., _, h => by
      obtain ⟨container, hcontainer, -⟩ := bind_eq_ok.mp h
      exact isFieldReference_of_chain object container hcontainer
  | .index object .., _, h => by
      obtain ⟨container, hcontainer, -⟩ := bind_eq_ok.mp h
      exact isFieldReference_of_chain object container hcontainer
  | .const .., _, h => by cases h
  | .call .., _, h => by cases h
  | .binary .., _, h => by cases h
  | .not _, _, h => by cases h
  | .lambda .., _, h => by cases h

/-- What resolves to a field is neither a remainder nor a length. -/
theorem not_isDerived_of_field (hs : s.BoundIn Γ s.model.AgreesInside)
    (he : e.BuiltOver s.model.schema Γ) (h : field s e = .ok f) : ¬e.IsDerived := by
  intro hderived
  -- a length is taken of what is an array by its type, so its encoder is that of an array
  refine field_ne_ok_of_isDerived hderived (fun array target hlength htarget => ?_) f h
  obtain ⟨name, type, element, rfl, helement, hkind⟩ := lengthOf?_eq_some hlength
  have harray : array.BuiltOver s.model.schema Γ :=
    he.partsBuilt.parts array (List.mem_singleton_self _)
  have htype :=
    ((fieldIn_chain s.model.agreesOn_agreesInside hs harray array).of_ok htarget).type
  rw [helement, Option.some.injEq] at htype
  rw [htype] at hkind
  exact isArray_of_kind hkind

end Compile

/-! ### Questions about a constant array -/

theorem Scope.encodeItems_eq_ok_iff {s : Scope} {encoder : Encoder} {array : Json}
    {blamed : Option Expr} {stored : List Json} :
    s.encodeItems encoder array blamed = .ok stored ↔
      ∃ items, array = .array items ∧
        Forall₂ (s.model.maps.encode encoder · = .ok ·) items stored := by
  unfold encodeItems
  cases array with
  | array items =>
      rw [mapError_eq_ok, ClassMaps.encodeItems_eq_mapM, mapM_eq_ok_iff]
      simp
  | null | bool | int | float | string | object =>
      exact iff_of_false (by rintro ⟨⟩) (by rintro ⟨_, ⟨⟩, _⟩)

/-- The calls that ask whether a constant array has the value of `e`. -/
inductive Expr.AsksAmong (array : Json) (e : Expr) : Expr → Prop where
  | sequence {method : Method} (type : Ty) : method.isSequenceContains = true →
      AsksAmong array e (.call none method [.const array type, e])
  | list {method : Method} (type : Ty) : method.isListContains = true →
      AsksAmong array e (.call (some (.const array type)) method [e])

namespace Compile

variable {s : Scope} {Γ : List (String × Ty)} {e call : Expr} {array : Json} {g : Filter}

theorem contains_const_eq_ok_iff {c : Call} {type : Ty}
    (hc : membership? c = some (.const array type, e)) :
    contains s c = .ok g ↔ ∃ f, field s e = .ok f ∧ ∃ items, array = .array items ∧
      ∃ stored, Forall₂ (s.model.maps.encode f.encoder · = .ok ·) items stored ∧
        g = .test f.path (.oneOf stored) := by
  unfold contains
  rw [hc]
  dsimp only [Expr.const?]
  constructor
  · intro h
    split at h
    · obtain ⟨f, hf, h⟩ := bind_eq_ok.mp h
      obtain ⟨stored, hstored, ⟨⟩⟩ := bind_eq_ok.mp h
      obtain ⟨items, hitems, hencoded⟩ := Scope.encodeItems_eq_ok_iff.mp hstored
      exact ⟨f, hf, items, hitems, stored, hencoded, rfl⟩
    · cases h
  · rintro ⟨f, hf, items, hitems, stored, hencoded, rfl⟩
    rw [if_pos (isFieldReference_of_chain e f (chain_of_field hf)), hf, ok_bind]
    exact bind_eq_ok.mpr
      ⟨stored, Scope.encodeItems_eq_ok_iff.mpr ⟨items, hitems, hencoded⟩, rfl⟩

theorem expression_of_asksAmong (h : e.AsksAmong array call) (hdepth : s.depth < s.maxDepth) :
    ∃ c type, membership? c = some (.const array type, e) ∧
      expression s call = contains s.descend c := by
  cases h with
  | @sequence method type hmethod =>
      refine ⟨⟨none, method, [.const array type, e]⟩, type, ?_, ?_⟩
      · rw [membership?, if_pos hmethod]
      · rw [expression_call hdepth, Compile.call, Method.shape?_of_isSequenceContains hmethod]
  | @list method type hmethod =>
      obtain ⟨hsequence, hshape⟩ := Method.shape?_of_isListContains hmethod
      refine ⟨⟨some (.const array type), method, [e]⟩, type, ?_, ?_⟩
      · simp [membership?, hsequence, hmethod, Call.operands?]
      · rw [expression_call hdepth, Compile.call, hshape]

/-- The question tests the field for the stored items. -/
theorem expression_asksAmong_eq_ok_iff (h : e.AsksAmong array call) :
    expression s call = .ok g ↔ s.depth < s.maxDepth ∧ ∃ f, field s e = .ok f ∧
      ∃ items, array = .array items ∧ ∃ stored,
        Forall₂ (s.model.maps.encode f.encoder · = .ok ·) items stored ∧
          g = .test f.path (.oneOf stored) := by
  by_cases hdepth : s.depth < s.maxDepth
  · obtain ⟨c, type, hc, hcall⟩ := expression_of_asksAmong h hdepth
    rw [hcall, contains_const_eq_ok_iff hc, field_descend, and_iff_right hdepth]
    rfl
  · exact iff_of_false (expression_ne_ok hdepth) fun h => hdepth h.1

/-- It has a filter exactly if the encoder of the field takes every item. -/
theorem exists_expression_asksAmong_iff (h : e.AsksAmong array call) :
    (∃ g, expression s call = .ok g) ↔ s.depth < s.maxDepth ∧
      ∃ f items, field s e = .ok f ∧ array = .array items ∧
        ∀ item ∈ items, ∃ w, s.model.maps.encode f.encoder item = .ok w := by
  simp only [expression_asksAmong_eq_ok_iff h]
  constructor
  · rintro ⟨g, hdepth, f, hf, items, hitems, stored, hstored, -⟩
    exact ⟨hdepth, f, items, hf, hitems,
      exists_mapM_eq_ok_iff.mp ⟨stored, mapM_eq_ok_iff.mpr hstored⟩⟩
  · rintro ⟨hdepth, f, items, hf, hitems, hencoded⟩
    obtain ⟨stored, hstored⟩ := exists_mapM_eq_ok_iff.mpr hencoded
    exact ⟨_, hdepth, f, hf, items, hitems, stored, mapM_eq_ok_iff.mp hstored, rfl⟩

theorem expression_equality (hs : s.BoundIn Γ s.model.AgreesInside)
    (he : e.BuiltOver s.model.schema Γ) (hdepth : s.depth < s.maxDepth) {f : Field}
    (hf : field s e = .ok f) {item w : Json} (hw : s.model.maps.encode f.encoder item = .ok w)
    {comparison : Expr} (h : e.Compares .eq item comparison) :
    expression s comparison = .ok (.test f.path (.eq w)) := by
  rw [expression_of_compares h (const?_of_field hf) hdepth,
    compareWith_eq_ok_iff (not_isDerived_of_field hs he hf), field_descend]
  exact ⟨f, hf, fun _ => rfl, w, .inr hw, rfl⟩

/-- Membership in a constant array is the disjunction of the equalities with its
items. The question has a filter exactly if the encoder of the field takes every
item, and is an error if it rejects one. The filter has the stored items in order,
and the comparison with each item is that of the same field with the stored one. -/
theorem membership_is_equalities (hs : s.BoundIn Γ s.model.AgreesInside)
    (he : e.BuiltOver s.model.schema Γ) (h : e.AsksAmong array call) :
    ((∃ g, expression s call = .ok g) ↔ s.depth < s.maxDepth ∧
      ∃ f items, field s e = .ok f ∧ array = .array items ∧
        ∀ item ∈ items, ∃ w, s.model.maps.encode f.encoder item = .ok w) ∧
    (∀ g, expression s call = .ok g → ∃ f items stored, field s e = .ok f ∧
      array = .array items ∧ g = .test f.path (.oneOf stored) ∧
      Forall₂ (fun item w => s.model.maps.encode f.encoder item = .ok w ∧
        ∀ comparison, e.Compares .eq item comparison →
          expression s comparison = .ok (.test f.path (.eq w))) items stored) ∧
    ∀ f items item rejected, field s e = .ok f → array = .array items → item ∈ items →
      s.model.maps.encode f.encoder item = .error rejected →
        ∃ error, expression s call = .error error := by
  have haccepts := exists_expression_asksAmong_iff (s := s) h
  refine ⟨haccepts, fun g hg => ?_, fun f items item rejected hf hitems hitem hrejected => ?_⟩
  · obtain ⟨hdepth, f, hf, items, hitems, stored, hstored, rfl⟩ :=
      (expression_asksAmong_eq_ok_iff h).mp hg
    exact ⟨f, items, stored, hf, hitems, rfl, hstored.imp fun item w hw =>
      ⟨hw, fun _ => expression_equality hs he hdepth hf hw⟩⟩
  · cases hcall : expression s call with
    | error error => exact ⟨error, rfl⟩
    | ok g =>
        obtain ⟨-, target, others, htarget, hothers, hencoded⟩ := haccepts.mp ⟨g, hcall⟩
        cases hf.symm.trans htarget
        cases hitems.symm.trans hothers
        obtain ⟨w, hw⟩ := hencoded item hitem
        cases hrejected.symm.trans hw

end Compile

open Compile in
/-- A tag that is one of two: the question takes a string and null, and refuses
a number. -/
theorem Shop.membership_is_equalities_tag :
    let s := (Scope.document model 64 "x" root 0).enter "t" .string
    let t : Expr := .param "t" .string
    let question (items : List Json) : Expr :=
      .call (some (.const (.array items) (.array .string))) (.listContains .string) [t]
    (∃ g, expression s (question [.string "a", .null]) = .ok g) ∧
      expression s (.binary (.compare .eq) (.const .null .string) t (some .boolean))
        = .ok (.test .root (.eq .null)) ∧
      ∃ error, expression s (question [.string "a", .int 1]) = .error error := by
  intro s t question
  obtain ⟨config, hconfig, hmodel⟩ := loaded
  have hagrees : model.AgreesInside root := by
    have hsound := Configuration.sound_of_ofText hconfig
    rw [hmodel] at hsound
    exact hsound.agreesInside (List.mem_singleton_self _)
  have htags : Encoder.array .string ∈ model.maps.parts root := List.mem_singleton_self _
  have hs : s.BoundIn [("t", .string), ("x", root.valueType)] model.AgreesInside :=
    (Scope.boundIn_document hagrees model 64 "x" 0).enter "t"
      ((hagrees.part htags).part (List.mem_singleton_self _))
  have ht : t.BuiltOver model.schema [("t", .string), ("x", root.valueType)] :=
    .parameter (fun _ hbound => hbound) (rfl : Expr.parameter "t" (some .string) = .ok _)
  have hquestion (items : List Json) : t.AsksAmong (.array items) (question items) :=
    .list (.array .string) (by decide)
  have hfield : field s t = .ok ⟨.root, .string⟩ := rfl
  have haccepts : ∃ g, expression s (question [.string "a", .null]) = .ok g := by
    refine (membership_is_equalities hs ht (hquestion _)).1.mpr
      ⟨by decide, _, _, hfield, rfl, fun item hitem => ?_⟩
    rcases List.mem_pair.mp hitem with rfl | rfl
    · exact ⟨_, rfl⟩
    · exact ⟨_, rfl⟩
  refine ⟨haccepts, ?_, ?_⟩
  · obtain ⟨g, hg⟩ := haccepts
    obtain ⟨f, items, stored, hf, hitems, -, hequal⟩ :=
      (membership_is_equalities hs ht (hquestion _)).2.1 g hg
    cases hfield.symm.trans hf
    cases hitems
    obtain _ | ⟨-, _ | ⟨⟨hnull, hcompare⟩, -⟩⟩ := hequal
    cases hnull
    exact hcompare _ (.right .string (some .boolean))
  · exact (membership_is_equalities hs ht (hquestion _)).2.2 _ _ (.int 1) _ hfield rfl
      (by simp) rfl

end QueryFilter
