import QueryFilter.Proofs.Renamed
import QueryFilter.Proofs.Rounds

/-!
What the text of an error quotes. A text can be refused by the printer only for
a value, and the values that are quoted are constants of the refused expression
or lie within them.
-/

namespace QueryFilter

/-! ### Parts of a value -/

/-- `v` is the value itself, one of its keys, or lies within an item or a
field. -/
inductive Json.Within (v : Json) : Json → Prop where
  | self : Within v v
  | item {items : List Json} {item : Json} :
      item ∈ items → Within v item → Within v (.array items)
  | key {fields : List (String × Json)} {field : String × Json} :
      field ∈ fields → v = .string field.1 → Within v (.object fields)
  | field {fields : List (String × Json)} {field : String × Json} :
      field ∈ fields → Within v field.2 → Within v (.object fields)

namespace Json

theorem Within.trans {u v w : Json} (huv : u.Within v) (hvw : v.Within w) : u.Within w := by
  induction hvw with
  | self => exact huv
  | item hitem _ ih => exact .item hitem ih
  | key hfield hkey =>
      -- nothing but itself lies within a string
      obtain rfl := hkey
      cases huv with
      | self => exact .key hfield rfl
  | field hfield _ ih => exact .field hfield ih

theorem within_of_mem_entries {v : Json} {entry : Json × Json} (h : entry ∈ v.entries) :
    entry.1.Within v ∧ entry.2.Within v := by
  cases v with
  | object fields =>
      obtain ⟨field, hfield, rfl⟩ := List.mem_map.mp h
      exact ⟨.key hfield rfl, .field hfield .self⟩
  | array items =>
      obtain ⟨pair, hpair, hentry⟩ := List.mem_filterMap.mp h
      obtain rfl := pair?_eq_some hentry
      exact ⟨.item hpair (.item List.mem_cons_self .self),
        .item hpair (.item (List.mem_cons_of_mem _ (List.mem_singleton_self _)) .self)⟩
  | null | bool | int | float | string => cases h

end Json

/-! ### Errors of encoding -/

/-- The value that an error quotes as JSON. -/
def EncodeError.quoted? : EncodeError → Option Json
  | .mismatch _ value => some value
  | _ => none

/-- An error that quotes no more than what lies within a value. -/
def EncodeError.Concerns (error : EncodeError) (v : Json) : Prop :=
  ∀ quoted, error.quoted? = some quoted → quoted.Within v

namespace EncodeError

theorem Concerns.trans {error : EncodeError} {v w : Json} (h : error.Concerns v)
    (hvw : v.Within w) : error.Concerns w := fun quoted hquoted => (h quoted hquoted).trans hvw

end EncodeError

namespace Encoder

theorem mismatch_concerns {α : Type} {e : Encoder} {v : Json} {error : EncodeError}
    (h : e.mismatch v = (.error error : Except EncodeError α)) : error.Concerns v := by
  cases h
  rintro quoted ⟨⟩
  exact .self

theorem encodeInteger_concerns {e : Encoder} {width : Width} {representation : Representation}
    {n : Int} {error : EncodeError}
    (h : e.encodeInteger width representation n = .error error) : error.Concerns (.int n) := by
  unfold encodeInteger at h
  split at h
  · exact mismatch_concerns h
  · split at h
    · cases h
      exact nofun
    · cases h

theorem encodeScalar_concerns {e : Encoder} {v : Json} {error : EncodeError}
    (h : e.encodeScalar v = .error error) : error.Concerns v := by
  cases e with
  | boolean =>
      cases v with
      | bool => cases h
      | _ => exact mismatch_concerns h
  | string =>
      cases v with
      | null | string => cases h
      | _ => exact mismatch_concerns h
  | double =>
      cases v with
      | int | float => cases h
      | _ => exact mismatch_concerns h
  | integer width representation =>
      cases v with
      | int n => exact encodeInteger_concerns h
      | _ => exact mismatch_concerns h
  | enumeration name values representation =>
      simp only [encodeScalar] at h
      split at h
      · cases h
      · exact mismatch_concerns h
  | array | dictionary | document =>
      cases v with
      | null => cases h
      | _ => exact mismatch_concerns h

end Encoder

namespace ClassMaps

variable {maps : ClassMaps}

theorem entryWith_eq_error {parts : Coding} {whole : Encoder} {layout : Layout}
    {key value : Encoder} {entry : Json × Json} {error : EncodeError}
    (h : entryWith parts whole layout key value entry = .error error) :
    parts key entry.1 = .error error ∨ error = .textKeys whole.kind ∨
      parts value entry.2 = .error error := by
  obtain h | ⟨k, -, h⟩ := bind_eq_error.mp h
  · exact .inl h
  · split at h
    · cases h
      exact .inr (.inl rfl)
    · exact .inr (.inr (bind_pure_eq_error.mp h))

theorem memberWith_eq_error {parts : Coding} {whole : Encoder} {field : String × Json}
    {error : EncodeError} (h : maps.memberWith parts whole field = .error error) :
    error = .unknownMember whole.kind field.1 ∨ ∃ e, parts e field.2 = .error error := by
  unfold memberWith at h
  split at h
  · exact .inr ⟨_, bind_pure_eq_error.mp h⟩
  · cases h
    exact .inl rfl

/-- A round fails because of the value itself or of one of its parts. -/
theorem round_concerns {parts : Coding} {e : Encoder} {v : Json} {error : EncodeError}
    (hparts : ∀ part w, w.height < v.height → parts part w = .error error → error.Concerns w)
    (h : maps.round parts e v = .error error) : error.Concerns v := by
  unfold round at h
  split at h
  · rename_i item items
    obtain ⟨w, hw, h⟩ := exists_of_mapM_eq_error (bind_pure_eq_error.mp h)
    exact (hparts item w (Json.height_lt_of_mem_items hw) h).trans (.item hw .self)
  · rename_i layout key value
    split at h
    · obtain ⟨entry, hentry, h⟩ := exists_of_mapM_eq_error (bind_pure_eq_error.mp h)
      have hheight := Json.height_lt_of_mem_entries hentry
      have hwithin := Json.within_of_mem_entries hentry
      obtain h | rfl | h := entryWith_eq_error h
      · exact (hparts key entry.1 hheight.1 h).trans hwithin.1
      · exact nofun
      · exact (hparts value entry.2 hheight.2 h).trans hwithin.2
    · exact Encoder.encodeScalar_concerns h
  · rename_i fields
    obtain ⟨field, hfield, h⟩ := exists_of_mapM_eq_error (bind_pure_eq_error.mp h)
    obtain rfl | ⟨part, h⟩ := memberWith_eq_error h
    · exact nofun
    · exact (hparts part field.2 (Json.height_lt_of_mem_fields hfield) h).trans
        (.field hfield .self)
  · exact Encoder.encodeScalar_concerns h

/-- What cannot be encoded lies within the value. -/
theorem encode_concerns (maps : ClassMaps) (e : Encoder) (v : Json) {error : EncodeError}
    (h : maps.encode e v = .error error) : error.Concerns v := by
  rw [encode_eq_round] at h
  exact round_concerns (fun part w _ h => encode_concerns maps part w h) h
termination_by v.height

theorem encodeItems_concerns {e : Encoder} {items : List Json} {error : EncodeError}
    (h : maps.encodeItems e items = .error error) : error.Concerns (.array items) := by
  rw [encodeItems_eq_mapM] at h
  obtain ⟨item, hitem, h⟩ := exists_of_mapM_eq_error h
  exact (encode_concerns maps e item h).trans (.item hitem .self)

end ClassMaps

/-! ### Errors of compilation -/

/-- The value that the reason of a refusal quotes as JSON. -/
def Cause.quoted? : Cause → Option Json
  | .notAnArray value => some value
  | .encoding error => error.quoted?
  | .keyNotText error => error.bind EncodeError.quoted?
  | _ => none

namespace Expr

/-- A value that lies within a constant among the parts of an expression, or the
one that a boolean field is compared with. -/
def Quotes (e : Expr) (v : Json) : Prop :=
  v = .bool true ∨ ∃ value type, .const value type ∈ e.children ∧ v.Within value

theorem eq_const_of_const? {e : Expr} {value : Json} (h : e.const? = some value) :
    ∃ type, e = .const value type := by
  cases e with
  | const value type =>
      cases h
      exact ⟨type, rfl⟩
  | _ => cases h

theorem quotes_of_const? {e part : Expr} {value : Json} (hpart : part ∈ e.children)
    (hvalue : part.const? = some value) : e.Quotes value := by
  obtain ⟨type, rfl⟩ := eq_const_of_const? hvalue
  exact .inr ⟨value, type, hpart, .self⟩

theorem Quotes.within {e : Expr} {v value : Json} (h : e.Quotes value) (hv : v.Within value) :
    e.Quotes v := by
  obtain rfl | ⟨whole, type, hpart, hwhole⟩ := h
  · cases hv with
    | self => exact .inl rfl
  · exact .inr ⟨whole, type, hpart, hv.trans hwhole⟩

end Expr

/-! ### Texts of expressions -/

namespace Expr

/-- Whether a value is a constant that stands somewhere in an expression. -/
def HasConstant (e : Expr) (value : Json) : Prop :=
  ∃ position type, e.at? position = some (.const value type)

variable {print : Printer} {refusal : TextError}

end Expr

/-! ### Errors of compilation -/

/-- Whether the reason of a refusal is made without a value or a method. -/
def Cause.isPlain : Cause → Bool
  | .notAnArray _ | .encoding _ | .keyNotText (some _) | .unknownMethod _ => false
  | .other .. | .build _ | .render _ => false
  | _ => true

namespace CompileError

/-- A refusal whose reason quotes what the refused expression quotes. The text of
a method is missing only where that method is the one which is called. -/
structure Explained (e : CompileError) : Prop where
  refused : e.isRefusal = true
  value : ∀ v, e.cause.quoted? = some v → ∃ part, e.expression = some part ∧ part.Quotes v
  method : e.cause = .unknownMethod none →
    ∃ object method args, e.expression = some (.call object method args) ∧ method.text? = none

theorem explained_of_isPlain {cause : Cause} (h : cause.isPlain = true) (e : Option Expr) :
    (CompileError.mk cause e).Explained := by
  cases cause with
  | notAnArray | encoding | unknownMethod | other | build | render => cases h
  | keyNotText error =>
      cases error with
      | none => exact ⟨rfl, nofun, nofun⟩
      | some error => cases h
  | _ => exact ⟨rfl, nofun, nofun⟩

theorem explained_encoding {error : EncodeError} {value : Json} {e : Expr}
    (herror : error.Concerns value) (he : e.Quotes value) :
    (CompileError.mk (.encoding error) (some e)).Explained :=
  ⟨rfl, fun v hv => ⟨e, rfl, he.within (herror v hv)⟩, nofun⟩

end CompileError

end QueryFilter
