import Mathlib.Algebra.Group.Int.Defs
import QueryFilter.Proofs.Described
import QueryFilter.Proofs.Integers

/-!
Integers and the words that they are stored in. An integer is accepted if it is
one of the type of its encoder, and it can be read back from what is stored.
Whether the stored form has room for it is never asked. That makes a difference
for long integers in short words alone, which no configuration can ask for.
-/

namespace QueryFilter

/-! ### Words -/

namespace Width

def bits : Width → Nat
  | .int32 => 32
  | .int64 => 64

/-- The integers of the signed words of a width. -/
def Has (width : Width) (n : Int) : Prop := -2 ^ (width.bits - 1) ≤ n ∧ n < 2 ^ (width.bits - 1)

instance (width : Width) (n : Int) : Decidable (width.Has n) := inferInstanceAs (Decidable (_ ∧ _))

theorem contains_iff_has {width : Width} {n : Int} : width.contains n = true ↔ width.Has n := by
  rw [contains_iff, Has]
  cases width with
  | int32 | int64 =>
      simp only [minimum, maximum, bits]
      omega

/-- Every word fits in a long one. -/
theorem Has.long {width : Width} {n : Int} (h : width.Has n) : Width.int64.Has n := by
  cases width with
  | int64 => exact h
  | int32 =>
      simp only [Has, bits] at h ⊢
      omega

end Width

namespace Representation

/-- The words that a representation consists of; a text is none. -/
def width? : Representation → Option Width
  | .int32 => some .int32
  | .int64 => some .int64
  | .boolean | .double | .string => none

/-- A representation has room for the integers of its words, or for all. -/
def HasRoom (r : Representation) (n : Int) : Prop := ∀ width ∈ r.width?, width.Has n

/-- There is room for an integer of a type in all words but those that are
shorter than it. -/
theorem hasRoom_or_short {width : Width} {n : Int} (h : width.Has n) (r : Representation) :
    r.HasRoom n ∨ (width = .int64 ∧ r = .int32 ∧ ¬ Width.int32.Has n) := by
  cases r with
  | boolean | double | string => exact .inl nofun
  | int64 =>
      left
      rintro _ ⟨⟩
      exact h.long
  | int32 =>
      by_cases hshort : Width.int32.Has n
      · left
        rintro _ ⟨⟩
        exact hshort
      · cases width with
        | int32 => exact absurd h hshort
        | int64 => exact .inr ⟨rfl, rfl, hshort⟩

/-- The integer that a stored number is, or that a stored text is in decimal. -/
def read? : Representation → Json → Option Int
  | .int32, .int n | .int64, .int n => some n
  | .string, .string text => Flow.decimal? text
  | _, _ => none

theorem read?_ofInt {r : Representation} (hr : r.IsExact) (n : Int) :
    r.read? (r.ofInt n) = some n := by
  rcases hr with rfl | rfl | rfl
  · rfl
  · rfl
  · exact Flow.decimal?_toString n

end Representation

namespace Json

/-- An integer of a type that a representation has room for. -/
def Storable (v : Json) (width : Width) (r : Representation) : Prop :=
  ∃ n, v = .int n ∧ width.Has n ∧ r.HasRoom n

/-- A long integer that is to be stored in a short word and is none. -/
def Overlong (v : Json) (width : Width) (r : Representation) : Prop :=
  width = .int64 ∧ r = .int32 ∧ ∃ n, v = .int n ∧ Width.int64.Has n ∧ ¬ Width.int32.Has n

theorem Overlong.not_storable {v : Json} {width : Width} {r : Representation}
    (h : v.Overlong width r) : ¬ v.Storable width r := by
  obtain ⟨rfl, rfl, n, rfl, -, hshort⟩ := h
  rintro ⟨_, ⟨⟩, -, hroom⟩
  exact hshort (hroom _ rfl)

theorem exists_has_iff {v : Json} {width : Width} {r : Representation} :
    (∃ n, v = .int n ∧ width.Has n) ↔ v.Storable width r ∨ v.Overlong width r := by
  constructor
  · rintro ⟨n, rfl, hn⟩
    rcases Representation.hasRoom_or_short hn r with hroom | ⟨rfl, rfl, hshort⟩
    · exact .inl ⟨n, rfl, hn, hroom⟩
    · exact .inr ⟨rfl, rfl, n, rfl, hn, hshort⟩
  · rintro (⟨n, rfl, hn, -⟩ | ⟨rfl, -, n, rfl, hn, -⟩)
    · exact ⟨n, rfl, hn⟩
    · exact ⟨n, rfl, hn⟩

end Json

/-! ### What is stored -/

theorem Encoder.integerOf_type (width : Width) {r : Representation} (hr : r.IsExact) :
    integerOf width.type r = .ok (.integer width r) := by
  have hboolean : r ≠ .boolean := by
    rintro rfl
    simp [Representation.IsExact] at hr
  cases width with
  | int32 | int64 => exact if_neg hboolean

namespace ClassMaps

variable {maps : ClassMaps} {width : Width} {r : Representation}

theorem encode_integer_eq_ok_iff {v w : Json} :
    maps.encode (.integer width r) v = .ok w ↔ ∃ n, v = .int n ∧ width.Has n ∧ w = r.ofInt n := by
  constructor
  · intro h
    obtain ⟨n, rfl, rfl⟩ := encode_integer_eq_ok h
    exact ⟨n, rfl, Width.contains_iff_has.mp (contains_of_encode h), rfl⟩
  · rintro ⟨n, rfl, hn, rfl⟩
    have hlong := Width.contains_iff_has.mpr hn.long
    rw [encode_int, Encoder.encodeScalar, Encoder.encodeInteger, hlong,
      Width.contains_iff_has.mpr hn]
    rfl

/-- An integer is accepted if it is of the type, whatever it is stored as. -/
theorem exists_encode_integer_iff {v : Json} :
    (∃ w, maps.encode (.integer width r) v = .ok w) ↔ v.Storable width r ∨ v.Overlong width r := by
  rw [← Json.exists_has_iff]
  simp only [encode_integer_eq_ok_iff]
  constructor
  · rintro ⟨_, n, rfl, hn, -⟩
    exact ⟨n, rfl, hn⟩
  · rintro ⟨n, rfl, hn⟩
    exact ⟨_, n, rfl, hn, rfl⟩

/-- Integers are told apart by what they are stored as. -/
theorem same_encode_integer_iff (hr : r.IsExact) {u v x y : Json}
    (hu : maps.encode (.integer width r) u = .ok x)
    (hv : maps.encode (.integer width r) v = .ok y) : x.same y = true ↔ u = v := by
  have hadmits : (Encoder.integer width r).admits .eq = true := by
    rcases hr with rfl | rfl | rfl <;> rfl
  have hnames := Encoder.values_integer width r
  have hsame := same_encode hadmits (hnames ▸ List.nodup_nil) hu hv
  rw [hnames, sameValue_nil] at hsame
  obtain ⟨m, rfl, -⟩ := encode_integer_eq_ok hu
  obtain ⟨n, rfl, -⟩ := encode_integer_eq_ok hv
  rw [hsame, Json.int.injEq]
  exact beq_iff_eq

/-- An encoder of integers accepts those of its type that its representation has
room for, and besides them only the long integers that it is to store in short
words. What it stores is read back as the integer, so no two are stored alike. -/
theorem integers_stored_exactly (maps : ClassMaps) (width : Width) {r : Representation}
    (hr : r.IsExact) :
    ∃ e, Encoder.integerOf width.type r = .ok e ∧
      (∀ v, (∃ w, maps.encode e v = .ok w) ↔ v.Storable width r ∨ v.Overlong width r) ∧
      (∀ v : Json, v.Overlong width r → ¬ v.Storable width r) ∧
      (∀ v w, maps.encode e v = .ok w → ∃ n, v = .int n ∧ r.read? w = some n) ∧
      (∀ u v x y, maps.encode e u = .ok x → maps.encode e v = .ok y →
        (x.same y = true ↔ u = v)) := by
  refine ⟨.integer width r, Encoder.integerOf_type width hr, fun v => exists_encode_integer_iff,
    fun v h => h.not_storable, fun v w h => ?_, fun u v x y hu hv => same_encode_integer_iff hr hu hv⟩
  obtain ⟨n, rfl, rfl⟩ := encode_integer_eq_ok h
  exact ⟨n, rfl, Representation.read?_ofInt hr n⟩

/-- The least long integer is stored as text, and the one after the greatest is
not. -/
theorem integers_stored_exactly_least :
    Representation.string.IsExact ∧
      (∃ w, (⟨[]⟩ : ClassMaps).encode (.integer .int64 .string) (.int (-2 ^ 63)) = .ok w ∧
        Representation.string.read? w = some (-2 ^ 63)) ∧
      ¬ ∃ w, (⟨[]⟩ : ClassMaps).encode (.integer .int64 .string) (.int (2 ^ 63)) = .ok w := by
  have hr : Representation.string.IsExact := .inr (.inr rfl)
  obtain ⟨_, ⟨⟩, haccepts, -, hreads, -⟩ := integers_stored_exactly ⟨[]⟩ .int64 hr
  refine ⟨hr, ?_, fun h => ?_⟩
  · have hleast : (Json.int (-2 ^ 63)).Storable .int64 .string :=
      ⟨-2 ^ 63, rfl, by decide, nofun⟩
    obtain ⟨w, hw⟩ := (haccepts _).mpr (.inl hleast)
    obtain ⟨n, ⟨⟩, hn⟩ := hreads _ w hw
    exact ⟨w, hw, hn⟩
  · rcases (haccepts _).mp h with ⟨_, ⟨⟩, hbound, -⟩ | ⟨-, hr, -⟩
    · exact absurd hbound (by decide)
    · cases hr

/-- A long integer is accepted for a short word that has no room for it. -/
theorem long_integer_in_short_word :
    Encoder.integerOf .int64 .int32 = .ok (.integer .int64 .int32) ∧
      (⟨[]⟩ : ClassMaps).encode (.integer .int64 .int32) (.int 3000000000)
        = .ok (.int 3000000000) ∧
      ¬ (Json.int 3000000000).Storable .int64 .int32 := by
  refine ⟨rfl, rfl, ?_⟩
  rintro ⟨_, ⟨⟩, -, hroom⟩
  exact absurd (hroom .int32 rfl) (by decide)

end ClassMaps

/-! ### Loaded models -/

/-- The integers of an encoder are stored in words of their own width or as
text. Classes are not looked into. -/
def Encoder.Roomy : Encoder → Prop
  | .integer width r => r = width.representation ∨ r = .string
  | .array item => item.Roomy
  | .dictionary _ key value => key.Roomy ∧ value.Roomy
  | .boolean | .string | .double | .enumeration .. | .document .. => True

theorem Encoder.Roomy.not_overlong {width : Width} {r : Representation}
    (h : (Encoder.integer width r).Roomy) (v : Json) : ¬ v.Overlong width r := by
  rintro ⟨rfl, rfl, -⟩
  rcases h with h | h <;> cases h

namespace Declaration

variable {classes : DeclaredClasses} {member : String}

theorem representationOf_eq_ok {node : Flow} {usual r : Representation} {place : String}
    (h : representationOf node usual place = .ok r) : r = usual ∨ r = .string := by
  unfold representationOf at h
  split at h
  · cases h
    exact .inl rfl
  · obtain ⟨name, -, h⟩ := bind_eq_ok.mp h
    split at h
    · split at h
      · cases h
        assumption
      · cases h
    · cases h

mutual

/-- A description asks for the usual words of a type or for text. -/
theorem roomy_encoderOf (hclasses : ∀ name encoder, classes.lookup name = some encoder →
    encoder.Roomy) {place : String} {encoder : Encoder} :
    (node : Flow) → encoderOf classes member place node = .ok encoder → encoder.Roomy
  | .null, h | .plain _, h | .quoted _, h | .sequence _, h => by cases h
  | .mapping entries, h => by
      cases made_of_encoderOf h with
      | string | boolean | double | enumeration => trivial
      | int32 hrepresentation | int64 hrepresentation => exact representationOf_eq_ok hrepresentation
      | array htype hitem =>
          rw [Encoder.Roomy]
          exact roomy_encoderUnder hclasses entries hitem
      | dictionary htype hkey hvalue =>
          rw [Encoder.Roomy]
          exact ⟨roomy_encoderUnder hclasses entries hkey,
            roomy_encoderUnder hclasses entries hvalue⟩
      | document htype hname hlookup =>
          -- classes are declared before, so the induction does not go into them
          exact hclasses _ encoder hlookup

theorem roomy_encoderUnder (hclasses : ∀ name encoder, classes.lookup name = some encoder →
    encoder.Roomy) {key place : String} {encoder : Encoder} :
    (entries : List (String × Flow)) →
      encoderUnder classes member key place entries = .ok encoder → encoder.Roomy
  | [], h => by cases h
  | (k, node) :: rest, h => by
      rw [encoderUnder] at h
      split at h
      · exact roomy_encoderOf hclasses node h
      · exact roomy_encoderUnder hclasses rest h

end

theorem Describes.roomy {descriptions : List (Option Flow)} {maps : List ClassMap}
    (h : Describes descriptions maps) {map : ClassMap} (hmap : map ∈ maps) {entry : MemberMap}
    (hentry : entry ∈ map.members) : entry.encoder.Roomy := by
  obtain ⟨_, -, hdefines⟩ := exists_of_forall₂_mem h.defines hmap
  obtain ⟨_, -, hmember⟩ := exists_of_forall₂_mem hdefines.members hentry
  refine roomy_encoderOf (fun name encoder hlookup => ?_) _ hmember.encoder
  obtain ⟨place, -, rfl⟩ := (lookup_classesOf h.distinct).mp hlookup
  trivial

/-- What lies inside a class of a described model is as its members are. -/
theorem Describes.roomy_of_reaches {descriptions : List (Option Flow)} {maps : List ClassMap}
    (h : Describes descriptions maps) {root e : Encoder}
    (hroot : root ∈ (ofMaps maps).registry.encoders) (he : (ofMaps maps).maps.Reaches root e) :
    e.Roomy := by
  obtain ⟨_, _, -, rfl⟩ := mem_registered_iff.mp hroot
  have hclass (name : String) (place : Nat) : (encoderAt name place).Roomy := trivial
  have hmapped : ∀ map ∈ (ofMaps maps).maps.maps, ∀ entry ∈ map.members, entry.encoder.Roomy :=
    fun _ hmap _ hentry => h.roomy hmap hentry
  exact ClassMaps.Reaches.of_closed (hclass _ _)
    (ClassMaps.parts_closed (fun _ hitem => hitem) (fun _ _ _ hentry => hentry) hmapped) he

end Declaration

/-- The integers of a loaded model are stored in words that have room for them. -/
theorem Configuration.exists_encode_iff_storable {reader : Reader} {text : String}
    {config : Configuration} (h : ofText reader text = .ok config) {root : Encoder}
    (hroot : root ∈ config.model.registry.encoders) {width : Width} {r : Representation}
    (he : config.model.maps.Reaches root (.integer width r)) (v : Json) :
    (∃ w, config.model.maps.encode (.integer width r) v = .ok w) ↔ v.Storable width r := by
  obtain ⟨descriptions, maps, hmaps, hmodel⟩ := describes_of_ofText h
  rw [hmodel] at hroot he
  rw [ClassMaps.exists_encode_integer_iff]
  exact or_iff_left ((hmaps.roomy_of_reaches hroot he).not_overlong v)

end QueryFilter
