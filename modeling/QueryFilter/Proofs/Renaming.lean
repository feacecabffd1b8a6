import QueryFilter.Proofs.Confinement
import QueryFilter.Proofs.Renamed

/-!
What the parameters of a predicate are called does not matter. Predicates that
differ in nothing else compile to the same filter, or are refused for the same
kind of reason and at the same place.
-/

namespace QueryFilter

/-! ### Scopes that bind the same -/

/-- A symbol but for its name. -/
def Symbol.anonymous (symbol : Symbol) : Symbol := { symbol with name := "" }

/-- Scopes that differ only in names. -/
structure Scope.Similar (names : List (String × String)) (s s' : Scope) : Prop where
  model : s'.model = s.model
  maxDepth : s'.maxDepth = s.maxDepth
  depth : s'.depth = s.depth
  level : s'.level = s.level
  finds : ∀ {x y : String}, SameBinder names x y →
    (s'.find? y).map Symbol.anonymous = (s.find? x).map Symbol.anonymous

namespace Scope

variable {names : List (String × String)} {s s' : Scope}

theorem similar_create (model : Model) (maxDepth : Nat) :
    Similar [] (create model maxDepth) (create model maxDepth) :=
  ⟨rfl, rfl, rfl, rfl, fun h => by rw [h]⟩

theorem Similar.descend (h : Similar names s s') : Similar names s.descend s'.descend :=
  ⟨h.model, h.maxDepth, congrArg (· + 1) h.depth, h.level, h.finds⟩

theorem Similar.bind (h : Similar names s s') (x y : String) (path : Path) (encoder : Encoder)
    (isItem : Bool) :
    Similar ((x, y) :: names) (s.bind x path encoder isItem) (s'.bind y path encoder isItem) where
  model := h.model
  maxDepth := h.maxDepth
  depth := h.depth
  level := h.level
  finds := by
    rintro a b (⟨rfl, rfl⟩ | ⟨ha, hb, hbinder⟩)
    · rw [find?_bind_self, find?_bind_self, h.level]
      rfl
    · rw [find?_bind_of_ne _ _ _ _ ha.symm, find?_bind_of_ne _ _ _ _ hb.symm]
      exact h.finds hbinder

theorem Similar.maxDepth_le_iff (h : Similar names s s') :
    s'.maxDepth ≤ s'.depth ↔ s.maxDepth ≤ s.depth := by
  rw [h.maxDepth, h.depth]

theorem Similar.enter (h : Similar names s s') (x y : String) (item : Encoder) :
    Similar ((x, y) :: names) (s.enter x item) (s'.enter y item) := by
  have hdeeper : Similar names { s with level := s.level + 1 }
      { s' with level := s'.level + 1 } :=
    ⟨h.model, h.maxDepth, h.depth, congrArg (· + 1) h.level, h.finds⟩
  exact hdeeper.bind x y .root item true

end Scope

/-! ### Results that agree -/

/-- Errors of one kind about parts that stand in the same place. A fault of
filter construction or rendering is about none. -/
def CompileError.Corresponds (w w' : Expr) (a b : CompileError) : Prop :=
  a.kind = b.kind ∧ (a.kind = .none ∨
    ∃ e e', a.expression = some e ∧ b.expression = some e' ∧ Expr.Aligned w w' e e')

/-- The same result, or corresponding errors. -/
def Compiled.Agree {α : Type} (w w' : Expr) : Compiled α → Compiled α → Prop
  | .ok a, .ok b => a = b
  | .error a, .error b => a.Corresponds w w' b
  | _, _ => False

section

variable {α β : Type} {w w' : Expr}

theorem Compiled.Agree.bind {x x' : Compiled α} {f f' : α → Compiled β} (hx : x.Agree w w' x')
    (hf : ∀ a, (f a).Agree w w' (f' a)) : (x >>= f).Agree w w' (x' >>= f') := by
  match x, x', hx with
  | .ok a, .ok _, rfl => exact hf a
  | .error _, .error _, h => exact h

theorem Compiled.Agree.ite {p : Prop} [Decidable p] {x x' y y' : Compiled α}
    (hx : x.Agree w w' x') (hy : y.Agree w w' y') :
    (if p then x else y).Agree w w' (if p then x' else y') := by
  split
  · exact hx
  · exact hy

theorem agree_refuse {e e' : Expr} (h : Expr.Aligned w w' e e') {cause cause' : Cause}
    (hkind : cause.kind = cause'.kind) :
    (e.refuse cause : Compiled α).Agree w w' (e'.refuse cause') :=
  ⟨hkind, .inr ⟨e, e', rfl, rfl, h⟩⟩

theorem agree_ofBuild (filter : Except FilterError Filter) :
    (Compiled.ofBuild filter).Agree w w' (Compiled.ofBuild filter) := by
  cases filter with
  | ok f => exact rfl
  | error error => exact ⟨rfl, .inl rfl⟩

variable {names : List (String × String)} {s s' : Scope} {e e' : Expr}

theorem agree_mapError {ε : Type} (he : Expr.Aligned w w' e e') (x : Except ε α)
    (cause : ε → Cause) :
    Compiled.Agree w w' (x.mapError fun error => ⟨cause error, some e⟩)
      (x.mapError fun error => ⟨cause error, some e'⟩) := by
  cases x with
  | ok a => exact rfl
  | error error => exact ⟨rfl, .inr ⟨e, e', rfl, rfl, he⟩⟩

theorem agree_encode (hs : Scope.Similar names s s') (he : Expr.Aligned w w' e e')
    (encoder : Encoder) (value : Json) :
    (s.encode encoder value (some e)).Agree w w' (s'.encode encoder value (some e')) := by
  unfold Scope.encode
  rw [hs.model]
  exact agree_mapError he _ _

theorem agree_encodeOrNull (hs : Scope.Similar names s s') (he : Expr.Aligned w w' e e')
    (encoder : Encoder) (value : Json) :
    (s.encodeOrNull encoder value (some e)).Agree w w' (s'.encodeOrNull encoder value (some e')) :=
  .ite rfl (agree_encode hs he encoder value)

theorem agree_encodeItems (hs : Scope.Similar names s s') (he : Expr.Aligned w w' e e')
    (encoder : Encoder) (values : Json) :
    (s.encodeItems encoder values (some e)).Agree w w'
      (s'.encodeItems encoder values (some e')) := by
  unfold Scope.encodeItems
  split
  · rw [hs.model]
    exact agree_mapError he _ _
  · exact ⟨rfl, .inr ⟨e, e', rfl, rfl, he⟩⟩

end

namespace Compile

open QueryFilter.Expr (Twins Aligned)
open Scope (Similar)

variable {w w' : Expr} {names : List (String × String)} {s s' : Scope}

/-! ### Fields and comparisons -/

theorem agree_memberField (hs : Similar names s s') {e e' : Expr} (he : Aligned w w' e e')
    (container : Field) (name : String) :
    (memberField s e container name).Agree w w' (memberField s' e' container name) := by
  unfold memberField
  rw [hs.model]
  cases s.model.maps.find? container.encoder name with
  | some entry => exact rfl
  | none => exact agree_refuse he rfl

theorem agree_indexField (hs : Similar names s s') {e e' : Expr} (he : Aligned w w' e e')
    (container : Field) (key : Option Json) :
    (indexField s e container key).Agree w w' (indexField s' e' container key) := by
  obtain ⟨path, encoder⟩ := container
  cases encoder with
  | array item =>
      dsimp only [indexField]
      cases key.bind Json.word? with
      | none => exact agree_refuse he rfl
      | some n => exact .ite (agree_refuse he rfl) rfl
  | dictionary layout keys values =>
      cases layout with
      | document =>
          cases key with
          | none => exact agree_refuse he rfl
          | some key =>
              refine (agree_encode hs he keys key).bind fun key => ?_
              cases key with
              | string key => exact rfl
              | _ => exact agree_refuse he rfl
      | _ => exact agree_refuse he rfl
  | _ => exact agree_refuse he rfl

/-- A name leads to the same symbol, except for what the symbol is called. -/
theorem find?_cases (hs : Similar names s s') {x y : String} (h : SameBinder names x y) :
    (s.find? x = none ∧ s'.find? y = none) ∨ ∃ symbol symbol', s.find? x = some symbol ∧
      s'.find? y = some symbol' ∧ symbol'.path = symbol.path ∧ symbol'.encoder = symbol.encoder ∧
      symbol'.isItem = symbol.isItem ∧ symbol'.level = symbol.level := by
  have hfind := hs.finds h
  cases hx : s.find? x with
  | none =>
      rw [hx, Option.map_none, Option.map_eq_none_iff] at hfind
      exact .inl ⟨rfl, hfind⟩
  | some symbol =>
      rw [hx, Option.map_some, Option.map_eq_some_iff] at hfind
      obtain ⟨symbol', hy, hsame⟩ := hfind
      obtain ⟨-, hpath, hencoder, hitem, hlevel⟩ := Symbol.mk.inj hsame
      exact .inr ⟨symbol, symbol', rfl, hy, hpath, hencoder, hitem, hlevel⟩

theorem agree_param (hs : Similar names s s') {x y : String} {type : Ty}
    (he : Aligned w w' (.param x type) (.param y type)) (h : SameBinder names x y) :
    (chain s (.param x type)).Agree w w' (chain s' (.param y type)) := by
  rw [chain, chain]
  obtain ⟨hx, hy⟩ | ⟨symbol, symbol', hx, hy, hpath, hencoder, -, hlevel⟩ := find?_cases hs h
  · rw [hx, hy]
    exact agree_refuse he rfl
  · rw [hx, hy]
    dsimp only
    rw [hpath, hencoder, hlevel, hs.level]
    exact .ite rfl (agree_refuse he rfl)

/-- A chain is the same field, whatever its parameter is called. -/
theorem agree_chain (hs : Similar names s s') :
    ∀ e e' : Expr, Twins w w' names e e' → (chain s e).Agree w w' (chain s' e')
  | .param x type, e', he => by
      obtain ⟨y, rfl, hbinder⟩ := he.param
      exact agree_param hs he.aligned hbinder
  | .member object name type, e', he => by
      obtain ⟨object', rfl, hobject⟩ := he.member
      exact (agree_chain hs object object' hobject).bind fun container =>
        agree_memberField hs he.aligned container name
  | .index object key type, e', he => by
      obtain ⟨object', key', rfl, hobject, hkey⟩ := he.index
      rw [chain, chain, hkey.renamed.const?_eq]
      exact (agree_chain hs object object' hobject).bind fun container =>
        agree_indexField hs he.aligned container key.const?
  | .const .., e', ⟨haligned, hrenamed⟩ | .call .., e', ⟨haligned, hrenamed⟩
  | .binary .., e', ⟨haligned, hrenamed⟩ | .not _, e', ⟨haligned, hrenamed⟩
  | .lambda .., e', ⟨haligned, hrenamed⟩ => by
      cases hrenamed
      all_goals exact agree_refuse haligned rfl

theorem isDocument_eq (hs : Similar names s s') {e e' : Expr} (h : e.Renamed names e') :
    isDocument s' e' = isDocument s e := by
  cases h with
  | param type hbinder =>
      obtain ⟨hx, hy⟩ | ⟨symbol, symbol', hx, hy, -, -, hitem, -⟩ := find?_cases hs hbinder
      · rw [isDocument, isDocument, hx, hy]
      · rw [isDocument, isDocument, hx, hy, Option.any_some, Option.any_some, hitem]
  | _ => rfl

theorem agree_field (hs : Similar names s s') {e e' : Expr} (he : Twins w w' names e e') :
    (field s e).Agree w w' (field s' e') := by
  unfold field
  rw [isDocument_eq hs he.renamed]
  exact .ite (agree_refuse he.aligned rfl) (agree_chain hs e e' he)

theorem agree_remainder (hs : Similar names s s') {e e' : Expr} (he : Aligned w w' e e')
    {dividend dividend' divisor divisor' : Expr} (hdividend : Twins w w' names dividend dividend')
    (hdivisor : Twins w w' names divisor divisor') (how : Comparison) (value : Json) :
    (remainder s e dividend divisor how value).Agree w w'
      (remainder s' e' dividend' divisor' how value) := by
  unfold remainder
  rw [hdivisor.renamed.const?_eq]
  refine .ite (agree_refuse he rfl) ?_
  cases divisor.const?.bind Json.word? with
  | none => exact agree_refuse he rfl
  | some d =>
      refine .ite (agree_refuse he rfl) ?_
      cases value.word? with
      | none => exact agree_refuse he rfl
      | some r =>
          refine (agree_field hs hdividend).bind fun f => ?_
          refine .ite ?_ (agree_refuse he rfl)
          exact (agree_ofBuild _).bind fun test => rfl

theorem agree_lengthTest {e e' : Expr} (he : Aligned w w' e e') (array : Path) (n : Int)
    (how : Comparison) : (lengthTest e array n how).Agree w w' (lengthTest e' array n how) := by
  cases how with
  | eq => exact agree_ofBuild _
  | ne => exact (agree_ofBuild _).bind fun test => rfl
  | gt | le => exact rfl
  | ge | lt => exact .ite (agree_refuse he rfl) rfl

theorem agree_arrayLength (hs : Similar names s s') {e e' array array' : Expr}
    (he : Aligned w w' e e') (harray : Twins w w' names array array') (how : Comparison)
    (value : Json) :
    (arrayLength s e array how value).Agree w w' (arrayLength s' e' array' how value) := by
  unfold arrayLength
  cases value.word? with
  | none => exact agree_refuse he rfl
  | some n =>
      refine .ite (agree_refuse he rfl) ?_
      exact (agree_field hs harray).bind fun f => agree_lengthTest he f.path n how

theorem lengthOf?_cases {e e' : Expr} (h : Twins w w' names e e') :
    (lengthOf? e = none ∧ lengthOf? e' = none) ∨ ∃ array array', lengthOf? e = some array ∧
      lengthOf? e' = some array' ∧ Twins w w' names array array' := by
  cases e with
  | member object name type =>
      obtain ⟨object', rfl, hobject⟩ := h.member
      rw [lengthOf?, lengthOf?, hobject.renamed.type?_eq]
      split
      · exact .inr ⟨object, object', rfl, rfl, hobject⟩
      · exact .inl ⟨rfl, rfl⟩
  | _ =>
      obtain ⟨-, hrenamed⟩ := h
      cases hrenamed
      all_goals exact .inl ⟨rfl, rfl⟩

theorem agree_compareWith (hs : Similar names s s') {e e' operand operand' : Expr}
    (he : Aligned w w' e e') (h : Twins w w' names operand operand') (how : Comparison)
    (value : Json) :
    (compareWith s e operand how value).Agree w w' (compareWith s' e' operand' how value) := by
  by_cases hmod : ∃ dividend divisor type, operand = .binary .mod dividend divisor type
  · obtain ⟨dividend, divisor, type, rfl⟩ := hmod
    obtain ⟨dividend', divisor', rfl, hdividend, hdivisor⟩ := h.binary
    exact agree_remainder hs he hdividend hdivisor how value
  -- a remainder is one under every renaming
  have hmod' (dividend divisor : Expr) (type : Option Ty)
      (hoperand' : operand' = .binary .mod dividend divisor type) : False := by
    obtain ⟨left, right, hoperand⟩ := (hoperand' ▸ h.renamed).of_binary
    exact hmod ⟨left, right, type, hoperand⟩
  rw [compareWith, compareWith]
  · obtain ⟨hx, hy⟩ | ⟨array, array', hx, hy, harray⟩ := lengthOf?_cases h
    · rw [hx, hy]
      refine (agree_field hs h).bind fun f => ?_
      refine .ite (.ite rfl (agree_refuse he rfl)) ?_
      exact (agree_encode hs he f.encoder value).bind fun stored => rfl
    · rw [hx, hy]
      exact agree_arrayLength hs he harray how value
  · exact hmod'
  · exact fun dividend divisor type hoperand => hmod ⟨dividend, divisor, type, hoperand⟩

theorem agree_comparison (hs : Similar names s s') {e e' left left' right right' : Expr}
    (he : Aligned w w' e e') (hleft : Twins w w' names left left')
    (hright : Twins w w' names right right') (how : Comparison) :
    (comparison s e how left right).Agree w w' (comparison s' e' how left' right') := by
  unfold comparison
  rw [hleft.renamed.const?_eq, hright.renamed.const?_eq]
  cases left.const? with
  | some value =>
      cases right.const? with
      | some _ => exact agree_refuse he rfl
      | none => exact agree_compareWith hs he hright how.converse value
  | none =>
      cases right.const? with
      | some value => exact agree_compareWith hs he hleft how value
      | none =>
          rw [noConstantCause, noConstantCause, hleft.renamed.isFieldReference_eq,
            hright.renamed.isFieldReference_eq]
          exact agree_refuse he rfl

theorem agree_binary (hs : Similar names s s') {e e' left left' right right' : Expr}
    (he : Aligned w w' e e') (hleft : Twins w w' names left left')
    (hright : Twins w w' names right right') (op : BinaryOp) :
    (binary s e op left right).Agree w w' (binary s' e' op left' right') := by
  cases op with
  | compare how => exact agree_comparison hs he hleft hright how
  | _ => exact agree_refuse he rfl

/-! ### Calls -/

variable {c c' : Call}

theorem agree_keyText (hs : Similar names s s') (hc : Call.Twins w w' names c c') {key key' : Expr}
    (hkey : Twins w w' names key key') (encoder : Encoder) :
    (keyText s c key encoder).Agree w w' (keyText s' c' key' encoder) := by
  unfold keyText
  rw [hkey.renamed.const?_eq, hs.model]
  cases key.const? with
  | none => exact agree_refuse hc.aligned rfl
  | some value =>
      dsimp only
      cases s.model.maps.encode encoder value with
      | error error => exact agree_refuse hc.aligned rfl
      | ok stored =>
          cases stored with
          | string key => exact rfl
          | _ => exact agree_refuse hc.aligned rfl

theorem agree_containsKey (hs : Similar names s s') (hc : Call.Twins w w' names c c') :
    (containsKey s c).Agree w w' (containsKey s' c') := by
  unfold containsKey
  rw [hc.method]
  cases c.method.isContainsKey with
  | false => exact agree_refuse hc.aligned rfl
  | true =>
      obtain ⟨hx, hy⟩ | ⟨object, key, object', key', hx, hy, hobject, hkey⟩ := hc.operands?
      · rw [hx, hy]
        exact agree_refuse hc.aligned rfl
      rw [hx, hy]
      refine (agree_field hs hobject).bind fun ⟨path, encoder⟩ => ?_
      cases encoder with
      | dictionary layout keys values =>
          cases layout with
          | document => exact (agree_keyText hs hc hkey keys).bind fun key => rfl
          | _ => exact agree_refuse hc.aligned rfl
      | _ => exact agree_refuse hc.aligned rfl

theorem agree_containsValue (hs : Similar names s s') (hc : Call.Twins w w' names c c') :
    (containsValue s c).Agree w w' (containsValue s' c') := by
  unfold containsValue
  rw [hc.method]
  cases c.method.isContainsValue with
  | false => exact agree_refuse hc.aligned rfl
  | true =>
      obtain ⟨hx, hy⟩ | ⟨object, value, object', value', hx, hy, hobject, hvalue⟩ := hc.operands?
      · rw [hx, hy]
        exact agree_refuse hc.aligned rfl
      rw [hx, hy]
      dsimp only
      rw [hvalue.renamed.const?_eq]
      refine (agree_field hs hobject).bind fun ⟨path, encoder⟩ => ?_
      cases encoder with
      | dictionary layout keys values =>
          dsimp only
          cases layout.valueStep? with
          | none => exact agree_refuse hc.aligned rfl
          | some step =>
              cases value.const? with
              | none => exact agree_refuse hc.aligned rfl
              | some constant =>
                  exact (agree_encode hs hc.aligned values constant).bind fun stored => rfl
      | _ => exact agree_refuse hc.aligned rfl

theorem agree_stringField (hs : Similar names s s') (hc : Call.Twins w w' names c c')
    {operand operand' : Expr} (h : Twins w w' names operand operand') :
    (stringField s c operand).Agree w w' (stringField s' c' operand') := by
  unfold stringField
  rw [h.renamed.isFieldReference_eq]
  refine .ite ?_ (agree_refuse hc.aligned rfl)
  exact (agree_field hs h).bind fun f => .ite rfl (agree_refuse hc.aligned rfl)

theorem agree_stringMatch (hs : Similar names s s') (hc : Call.Twins w w' names c c') :
    (stringMatch s c).Agree w w' (stringMatch s' c') := by
  unfold stringMatch
  rw [hc.method]
  cases c.method.isStringMatch with
  | false => exact agree_refuse hc.aligned rfl
  | true =>
      obtain ⟨hx, hy⟩ | ⟨object, arg, object', arg', hx, hy, hobject, harg⟩ := hc.operands?
      · rw [hx, hy]
        exact agree_refuse hc.aligned rfl
      rw [hx, hy]
      dsimp only
      rw [harg.renamed.const?_eq]
      refine (agree_stringField hs hc hobject).bind fun f => ?_
      cases arg.const?.bind Json.string? with
      | none => exact agree_refuse hc.aligned rfl
      | some literal => exact rfl

theorem agree_stringEmptiness (hs : Similar names s s') (hc : Call.Twins w w' names c c') :
    (stringEmptiness s c).Agree w w' (stringEmptiness s' c') := by
  unfold stringEmptiness
  rw [hc.method]
  cases c.method.isStringEmptiness with
  | false => exact agree_refuse hc.aligned rfl
  | true =>
      obtain ⟨hx, hy⟩ | ⟨operand, operand', _, _, hx, hy, hoperand, -⟩ := hc.args_cases
      · rw [hx, hy]
        exact agree_refuse hc.aligned rfl
      · rw [hx, hy]
        exact (agree_stringField hs hc hoperand).bind fun f => rfl

theorem membership?_twins (hc : Call.Twins w w' names c c') :
    Expr.TwinOperands w w' names (membership? c) (membership? c') := by
  unfold membership?
  rw [hc.method]
  split
  · obtain ⟨hx, hy⟩ | ⟨source, source', rest, rest', hx, hy, hsource, hrest⟩ := hc.args_cases
    · rw [hx, hy]
      exact .inl ⟨rfl, rfl⟩
    · rw [hx, hy]
      cases hrest with
      | nil => exact .inl ⟨rfl, rfl⟩
      | cons hvalue _ => exact .inr ⟨_, _, _, _, rfl, rfl, hsource, hvalue⟩
  · split
    · exact hc.operands?
    · exact .inl ⟨rfl, rfl⟩

theorem agree_itemEncoder (hc : Call.Twins w w' names c c') (f : Field) :
    (itemEncoder c f).Agree w w' (itemEncoder c' f) := by
  obtain ⟨path, encoder⟩ := f
  cases encoder with
  | array item => exact rfl
  | _ => exact agree_refuse hc.aligned rfl

theorem agree_contains (hs : Similar names s s') (hc : Call.Twins w w' names c c') :
    (contains s c).Agree w w' (contains s' c') := by
  unfold contains
  obtain ⟨hx, hy⟩ | ⟨source, value, source', value', hx, hy, hsource, hvalue⟩ :=
    membership?_twins hc
  · rw [hx, hy]
    exact agree_refuse hc.aligned rfl
  rw [hx, hy]
  dsimp only
  rw [hsource.renamed.const?_eq, hsource.renamed.isFieldReference_eq, hvalue.renamed.const?_eq,
    hvalue.renamed.isFieldReference_eq]
  cases source.const? with
  | some items =>
      refine .ite ?_ (agree_refuse hc.aligned rfl)
      refine (agree_field hs hvalue).bind fun f => ?_
      exact (agree_encodeItems hs hc.aligned f.encoder items).bind fun stored => rfl
  | none =>
      refine .ite ?_ (agree_refuse hc.aligned rfl)
      refine (agree_field hs hsource).bind fun f => ?_
      refine (agree_itemEncoder hc f).bind fun item => ?_
      cases value.const? with
      | some constant =>
          exact (agree_encodeOrNull hs hc.aligned item constant).bind fun stored => rfl
      | none => exact agree_refuse hc.aligned rfl

theorem agree_equals (hs : Similar names s s') (hc : Call.Twins w w' names c c') :
    (equals s c).Agree w w' (equals s' c') := by
  unfold equals
  rw [hc.method]
  cases c.method.isEquals with
  | false => exact agree_refuse hc.aligned rfl
  | true =>
      obtain ⟨hx, hy⟩ | ⟨object, arg, object', arg', hx, hy, hobject, harg⟩ := hc.operands?
      · rw [hx, hy]
        exact agree_refuse hc.aligned rfl
      rw [hx, hy]
      dsimp only
      -- the constant is the receiver of both or the argument of both
      obtain ⟨operand, other, operand', other', hpair, hpair', hoperand, hother⟩ :
          ∃ operand other operand' other',
            (if object.const?.isSome = true then (arg, object) else (object, arg))
              = (operand, other) ∧
            (if object'.const?.isSome = true then (arg', object') else (object', arg'))
              = (operand', other') ∧
            Twins w w' names operand operand' ∧ Twins w w' names other other' := by
        rw [hobject.renamed.const?_eq]
        split
        · exact ⟨_, _, _, _, rfl, rfl, harg, hobject⟩
        · exact ⟨_, _, _, _, rfl, rfl, hobject, harg⟩
      rw [hpair, hpair']
      dsimp only
      rw [hother.renamed.const?_eq, hother.renamed.isFieldReference_eq,
        hoperand.renamed.isFieldReference_eq]
      cases other.const? with
      | none => exact .ite (agree_refuse hc.aligned rfl) (agree_refuse hc.aligned rfl)
      | some value =>
          refine (agree_field hs hoperand).bind fun f => ?_
          exact (agree_encodeOrNull hs hc.aligned f.encoder value).bind fun stored => rfl

theorem agree_elemMatch (hc : Call.Twins w w' names c c') (path : Path) (body : Filter) :
    (elemMatch c path body).Agree w w' (elemMatch c' path body) := by
  cases body with
  | everything | nothing => exact rfl
  | _ =>
      unfold elemMatch
      dsimp only
      generalize Filter.isElemMatchBody _ = fits
      match fits with
      | .ok true => exact rfl
      | .ok false => exact agree_refuse hc.aligned rfl
      | .error error => exact ⟨rfl, .inl rfl⟩

theorem agree_any (hs : Similar names s s') (hc : Call.Twins w w' names c c')
    {body body' : Scope → Compiled Filter}
    (hbody : ∀ source source' x y type e e' rest rest' item,
      c.args = source :: .lambda x type e :: rest →
      c'.args = source' :: .lambda y type e' :: rest' → Twins w w' ((x, y) :: names) e e' →
      (body (s.enter x item)).Agree w w' (body' (s'.enter y item))) :
    (any s c body).Agree w w' (any s' c' body') := by
  unfold any
  rw [hc.method]
  cases c.method.isAny || c.method.isAnyWhere with
  | false => exact agree_refuse hc.aligned rfl
  | true =>
      obtain ⟨hx, hy⟩ | ⟨source, source', rest, rest', hx, hy, hsource, hrest⟩ := hc.args_cases
      · rw [hx, hy]
        exact agree_refuse hc.aligned rfl
      rw [hx, hy]
      refine (agree_field hs hsource).bind fun f => ?_
      refine (agree_itemEncoder hc f).bind fun item => ?_
      refine .ite rfl ?_
      cases hrest with
      | nil => exact agree_refuse hc.aligned rfl
      | @cons test test' rest rest' htest hrest =>
          cases test with
          | lambda x type e =>
              obtain ⟨y, e', rfl, he⟩ := htest.lambda
              refine (hbody source source' x y type e e' rest rest' item hx hy he).bind fun f' => ?_
              exact agree_elemMatch hc f.path f'
          | _ =>
              obtain ⟨-, hrenamed⟩ := htest
              cases hrenamed
              all_goals exact agree_refuse hc.aligned rfl

theorem agree_call (hs : Similar names s s') (hc : Call.Twins w w' names c c')
    {body body' : Scope → Compiled Filter}
    (hbody : ∀ source source' x y type e e' rest rest' item,
      c.args = source :: .lambda x type e :: rest →
      c'.args = source' :: .lambda y type e' :: rest' → Twins w w' ((x, y) :: names) e e' →
      (body (s.enter x item)).Agree w w' (body' (s'.enter y item))) :
    (call s c body).Agree w w' (call s' c' body') := by
  unfold call
  rw [hc.method]
  cases c.method.shape? with
  | none => exact agree_refuse hc.aligned rfl
  | some shape =>
      cases shape with
      | containsKey => exact agree_containsKey hs hc
      | containsValue => exact agree_containsValue hs hc
      | stringMatch => exact agree_stringMatch hs hc
      | stringEmptiness => exact agree_stringEmptiness hs hc
      | sequenceContains | listContains => exact agree_contains hs hc
      | any | anyWhere => exact agree_any hs hc hbody
      | equals => exact agree_equals hs hc

/-! ### Predicates -/

theorem agree_booleanField (hs : Similar names s s') {e e' : Expr} (he : Twins w w' names e e') :
    (booleanField s e).Agree w w' (booleanField s' e') := by
  unfold booleanField
  rw [he.renamed.isBoolean_eq]
  refine .ite ?_ (agree_refuse he.aligned rfl)
  refine (agree_field hs he).bind fun f => ?_
  exact (agree_encode hs he.aligned f.encoder _).bind fun stored => rfl

theorem agree_booleanConst {e e' : Expr} (he : Aligned w w' e e') (value : Json) :
    (booleanConst e value).Agree w w' (booleanConst e' value) := by
  unfold booleanConst
  split
  · exact rfl
  · exact rfl
  · exact agree_refuse he rfl

/-- What an expression compiles to in scopes that differ only in names does not
depend on the names, at any depth of nested predicates. -/
theorem agree_expression (s s' : Scope) (e e' : Expr) (names : List (String × String))
    (hs : Similar names s s') (he : Twins w w' names e e') :
    (expression s e).Agree w w' (expression s' e') := by
  -- the induction is on the first run, and the second is opened beside it
  fun_induction expression s e generalizing s' e' names with
  | case1 s e hdepth =>
      rw [expression.eq_def, if_pos (hs.maxDepth_le_iff.mpr hdepth)]
      exact agree_refuse he.aligned rfl
  | case2 s hdepth left right type ihl ihr =>
      obtain ⟨left', right', rfl, hleft, hright⟩ := he.binary
      rw [expression, if_neg (mt hs.maxDepth_le_iff.mp hdepth)]
      refine (ihl _ _ _ hs.descend hleft).bind fun l => ?_
      exact (ihr _ _ _ hs.descend hright).bind fun r => agree_ofBuild _
  | case3 s hdepth left right type ihl ihr =>
      obtain ⟨left', right', rfl, hleft, hright⟩ := he.binary
      rw [expression, if_neg (mt hs.maxDepth_le_iff.mp hdepth)]
      refine (ihl _ _ _ hs.descend hleft).bind fun l => ?_
      exact (ihr _ _ _ hs.descend hright).bind fun r => agree_ofBuild _
  | case4 s hdepth op left right type hand hor =>
      obtain ⟨left', right', rfl, hleft, hright⟩ := he.binary
      rw [expression, if_neg (mt hs.maxDepth_le_iff.mp hdepth)]
      · exact agree_binary hs.descend he.aligned hleft hright op
      · exact hand
      · exact hor
  | case5 s hdepth operand ih =>
      obtain ⟨operand', rfl, hoperand⟩ := he.not
      rw [expression, if_neg (mt hs.maxDepth_le_iff.mp hdepth)]
      exact (ih _ _ _ hs.descend hoperand).bind fun f => rfl
  | case6 s hdepth object method args ih =>
      obtain ⟨object', args', rfl, hc⟩ := he.call
      rw [expression, if_neg (mt hs.maxDepth_le_iff.mp hdepth)]
      refine agree_call hs.descend hc
        fun source source' x y type e e' rest rest' item hx hy hbody => ?_
      obtain rfl : args = source :: .lambda x type e :: rest := hx
      obtain rfl : args' = source' :: .lambda y type e' :: rest' := hy
      exact ih _ _ _ _ (hs.descend.enter x y item) hbody
  | case7 s hdepth object name type =>
      obtain ⟨object', rfl, -⟩ := he.member
      rw [expression, if_neg (mt hs.maxDepth_le_iff.mp hdepth)]
      exact agree_booleanField hs.descend he
  | case8 s hdepth object key type =>
      obtain ⟨object', key', rfl, -⟩ := he.index
      rw [expression, if_neg (mt hs.maxDepth_le_iff.mp hdepth)]
      exact agree_booleanField hs.descend he
  | case9 s hdepth name type =>
      obtain ⟨y, rfl, -⟩ := he.param
      rw [expression, if_neg (mt hs.maxDepth_le_iff.mp hdepth)]
      exact agree_booleanField hs.descend he
  | case10 s hdepth value type =>
      obtain rfl := he.const
      rw [expression, if_neg (mt hs.maxDepth_le_iff.mp hdepth)]
      exact agree_booleanConst he.aligned value
  | case11 s hdepth x type body =>
      obtain ⟨y, body', rfl, -⟩ := he.lambda
      rw [expression, if_neg (mt hs.maxDepth_le_iff.mp hdepth)]
      exact agree_refuse he.aligned rfl

theorem agree_predicate (model : Model) (maxDepth : Nat) {p q : Predicate}
    (h : p.toExpr.Renamed [] q.toExpr) :
    (predicate model maxDepth p).Agree p.toExpr q.toExpr (predicate model maxDepth q) := by
  have hwhole : Twins p.toExpr q.toExpr [] p.toExpr q.toExpr := ⟨Expr.aligned_whole _ _, h⟩
  obtain ⟨y, body', hq, hbody⟩ := hwhole.lambda
  obtain ⟨rfl, htype, rfl⟩ := Expr.lambda.inj hq
  have hparam : Aligned p.toExpr q.toExpr (.param p.name p.type) (.param q.name p.type) :=
    hwhole.aligned.child 0 rfl (congrArg (fun t => some (Expr.param q.name t)) htype)
  unfold predicate predicateIn
  rw [htype, hbody.renamed.isBoolean_eq]
  dsimp only [Scope.create]
  cases model.registry.find? p.type with
  | none => exact agree_refuse hparam rfl
  | some root =>
      refine .ite ?_ (agree_refuse hwhole.aligned rfl)
      exact agree_expression _ _ _ _ _ ((Scope.similar_create model maxDepth).bind ..) hbody

/-- Renaming the parameters of a predicate, so that they shadow each other or no
longer do, changes nothing: it compiles to the same filter, or is refused for
the same kind of reason, of the part in the same place. -/
theorem predicate_renamed (model : Model) (maxDepth : Nat) {p q : Predicate}
    (h : p.toExpr.Renamed [] q.toExpr) :
    (∃ f d, predicate model maxDepth p = .ok f ∧ predicate model maxDepth q = .ok f ∧
      f.render = .ok d) ∨
    ∃ a b e e', predicate model maxDepth p = .error a ∧ predicate model maxDepth q = .error b ∧
      a.kind = b.kind ∧ a.kind ≠ .none ∧ a.expression = some e ∧ b.expression = some e' ∧
      Aligned p.toExpr q.toExpr e e' := by
  have hagree := agree_predicate model maxDepth h
  cases hp : predicate model maxDepth p with
  | ok f =>
      obtain ⟨d, hd⟩ := predicate_renders hp
      cases hq : predicate model maxDepth q with
      | ok g =>
          rw [hp, hq] at hagree
          obtain rfl : f = g := hagree
          exact .inl ⟨f, d, rfl, rfl, hd⟩
      | error b =>
          rw [hp, hq] at hagree
          cases hagree
  | error a =>
      have hkind : a.kind ≠ .none := refused_iff.mp (predicate_refused hp)
      cases hq : predicate model maxDepth q with
      | ok g =>
          rw [hp, hq] at hagree
          cases hagree
      | error b =>
          rw [hp, hq] at hagree
          obtain ⟨hsame, hplace⟩ := hagree
          obtain ⟨e, e', he, he', haligned⟩ := hplace.resolve_left hkind
          exact .inr ⟨a, b, e, e', rfl, rfl, hsame, hkind, he, he', haligned⟩

/-- Whether some number is one. Each parameter has a name of its own. -/
def someOneApart : Predicate where
  name := "grid"
  type := .cls "Grid" (some 0)
  body := .call none (.anyWhere (.array .int32))
    [.member (.param "grid" (.cls "Grid" (some 0))) "Rows" (some (.array (.array .int32))),
      .lambda "row" (.array .int32) (.call none (.anyWhere .int32)
        [.param "row" (.array .int32), .lambda "n" .int32
          (.binary (.compare .eq) (.param "n" .int32) (.const (.int 1) .int32) (some .boolean))])]

theorem renamed_someOneApart : someOneApart.toExpr.Renamed [] someOne.toExpr := by
  have hany {names : List (String × String)} {source source' test test' : Expr} (element : Ty)
      (hsource : source.Renamed names source') (htest : test.Renamed names test') :
      Expr.Renamed names (.call none (.anyWhere element) [source, test])
        (.call none (.anyWhere element) [source', test']) := by
    refine .callStatic _ rfl fun arg arg' hmem => ?_
    rcases List.mem_pair.mp hmem with h | h
    · obtain ⟨rfl, rfl⟩ := Prod.mk.inj h
      exact hsource
    · obtain ⟨rfl, rfl⟩ := Prod.mk.inj h
      exact htest
  refine .lambda _ (hany _ (.member _ _ (.param _ (.inl ⟨rfl, rfl⟩))) ?_)
  refine .lambda _ (hany _ (.param _ (.inl ⟨rfl, rfl⟩)) ?_)
  exact .lambda _ (.binary _ _ (.param _ (.inl ⟨rfl, rfl⟩)) (.const _ _))

theorem predicate_renamed_someOneApart :
    let f : Filter := .elemMatch ⟨["rows"]⟩ (.elemMatch .root (.test .root (.eq (.int 1))))
    someOneApart.toExpr.Renamed [] someOne.toExpr ∧ predicate grid 64 someOneApart = .ok f ∧
      predicate grid 64 someOne = .ok f := by
  intro f
  have h : predicate grid 64 someOneApart = .ok f := rfl
  obtain ⟨g, d, hapart, hsame, -⟩ | ⟨a, b, e, e', ha, -⟩ :=
    predicate_renamed grid 64 renamed_someOneApart
  · obtain rfl : f = g := Except.ok.inj (h.symm.trans hapart)
    exact ⟨renamed_someOneApart, h, hsame⟩
  · cases h.symm.trans ha

end Compile

end QueryFilter
