import QueryFilter.Compile.Comparison
import QueryFilter.Proofs.Operands

/-!
Comparisons of integers, on what they are stored as. Numbers compare as the
integers do. Decimal texts tell integers apart, but are in an order of their
own, and no comparison is refused for it.
-/

namespace QueryFilter

namespace Comparison

/-- Whether a comparison holds of two texts, in the order of their bytes. -/
def holdsText : Comparison → String → String → Bool
  | .eq, s, t => s = t
  | .ne, s, t => s ≠ t
  | .lt, s, t => s < t
  | .le, s, t => s ≤ t
  | .gt, s, t => t < s
  | .ge, s, t => t ≤ s

/-- Whether a comparison holds of a stored value and a stored constant. A number
and a text have nothing to do with each other. -/
def holdsStored (how : Comparison) : Json → Json → Bool
  | .int m, .int n => how.holds m n
  | .string s, .string t => how.holdsText s t
  | _, _ => how == .ne

/-- Texts that stand for integers compare as these do if they are in the same
order, or if the order does not matter. -/
theorem holdsText_eq_holds_iff (how : Comparison) {s t : String} {m n : Int}
    (heq : s = t ↔ m = n) :
    how.holdsText s t = how.holds m n ↔ (how.isEquality = false → (s < t ↔ m < n)) := by
  cases how with
  | eq | ne => simp [holdsText, holds, isEquality, heq]
  | lt => simp only [holdsText, holds, isEquality, decide_eq_decide, forall_const]
  | le | gt | ge =>
      simp only [holdsText, holds, isEquality, decide_eq_decide, forall_const]
      grind

end Comparison

/-- The representations of integers that all integers can be read back from. -/
def Representation.IsExact (r : Representation) : Prop := r = .int32 ∨ r = .int64 ∨ r = .string

/-- A comparison asks for no order, or decimal texts are in the order of the
integers. -/
def Representation.Keeps (r : Representation) (how : Comparison) (m n : Int) : Prop :=
  r = .string → how.isEquality = false → (toString m < toString n ↔ m < n)

theorem Representation.keeps_converse {r : Representation} {how : Comparison} {m n : Int} :
    r.Keeps how.converse m n ↔ r.Keeps how m n := by
  rw [Keeps, Keeps, Comparison.isEquality_converse]

theorem Representation.holdsStored_ofInt_iff {r : Representation} (hr : r.IsExact)
    (how : Comparison) (m n : Int) :
    how.holdsStored (r.ofInt m) (r.ofInt n) = how.holds m n ↔ r.Keeps how m n := by
  rcases hr with rfl | rfl | rfl
  · simp [ofInt, Comparison.holdsStored, Keeps]
  · simp [ofInt, Comparison.holdsStored, Keeps]
  · have heq : toString m = toString n ↔ m = n := ⟨toString_int_inj, congrArg toString⟩
    simp only [ofInt, Comparison.holdsStored, Keeps, forall_const]
    exact how.holdsText_eq_holds_iff heq

namespace Compile

variable {s : Scope} {e operand : Expr} {path : Path} {encoder : Encoder} {how : Comparison}
  {value stored : Json}

theorem const?_of_field {f : Field} (h : field s operand = .ok f) : operand.const? = none := by
  cases operand with
  | const => cases h
  | _ => rfl

/-- A field that is no length is compared with the stored constant. -/
theorem compareWith_of_field (hfield : field s operand = .ok ⟨path, encoder⟩)
    (hlength : lengthOf? operand = none) (hnull : value.isNull = false)
    (hencode : s.model.maps.encode encoder value = .ok stored) :
    compareWith s e operand how value = .ok (.test path (.compare how stored)) := by
  unfold compareWith
  split
  · cases hfield
  · rw [hlength, hfield]
    refine bind_eq_ok.mpr ⟨_, rfl, ?_⟩
    rw [if_neg (by simp [hnull]), Scope.encode, hencode]
    rfl

/-- Lengths are not compared with stored constants. -/
theorem lengthTest_ne_compare (e : Expr) (array other : Path) (n : Int) (how op : Comparison)
    (x : Json) : lengthTest e array n how ≠ .ok (.test other (.compare op x)) := by
  intro h
  cases how with
  | eq =>
      rw [lengthTest, Filter.sizeOf] at h
      split at h <;> cases h
  | ne =>
      obtain ⟨_, -, h⟩ := bind_eq_ok.mp h
      cases h
  | gt | le => cases h
  | ge | lt =>
      rw [lengthTest] at h
      split at h <;> cases h

theorem lengthOf?_of_compareWith {e operand : Expr} {how op : Comparison} {value x : Json}
    {other : Path} (hfield : field s operand = .ok ⟨path, encoder⟩)
    (h : compareWith s e operand how value = .ok (.test other (.compare op x))) :
    lengthOf? operand = none := by
  unfold compareWith at h
  split at h
  · cases hfield
  · split at h
    · rename_i array hlength
      unfold arrayLength at h
      split at h
      · split at h
        · cases h
        · obtain ⟨f, -, h⟩ := bind_eq_ok.mp h
          exact absurd h (lengthTest_ne_compare e f.path other _ how op x)
      · cases h
    · assumption

/-- An integer field is compared with the stored form of an integer constant. -/
theorem compareWith_integer {width : Width} {r : Representation}
    (hfield : field s operand = .ok ⟨path, .integer width r⟩) {c : Int} {other : Path}
    {op : Comparison} {x : Json}
    (h : compareWith s e operand how (.int c) = .ok (.test other (.compare op x))) :
    other = path ∧ op = how ∧ x = r.ofInt c := by
  have hlength := lengthOf?_of_compareWith hfield h
  unfold compareWith at h
  split at h
  · cases hfield
  · rw [hlength] at h
    obtain ⟨f, hf, h⟩ := bind_eq_ok.mp h
    cases hfield.symm.trans hf
    obtain ⟨stored, hstored, ⟨⟩⟩ := bind_eq_ok.mp h
    obtain ⟨n, hn, rfl⟩ := ClassMaps.encode_integer_eq_ok (mapError_eq_ok.mp hstored)
    cases hn
    exact ⟨rfl, rfl, rfl⟩

/-- A comparison of an integer field with an integer constant on either side is
translated. On what the field is stored as it says what the comparison of the
integers says, but for the order of integers that are stored as text: there it
does so only where decimal texts happen to be in the order of the integers. -/
theorem comparison_of_integers {s : Scope} {operand : Expr} {path : Path} {width : Width}
    {r : Representation} (hfield : field s operand = .ok ⟨path, .integer width r⟩)
    (hr : r.IsExact) {v c : Int} {w : Json}
    (hv : s.model.maps.encode (.integer width r) (.int v) = .ok w) (e : Expr) (how : Comparison)
    (type : Ty) :
    (∀ other op x,
      comparison s e how operand (.const (.int c) type) = .ok (.test other (.compare op x)) →
      other = path ∧ (op.holdsStored w x = how.holds v c ↔ r.Keeps how v c)) ∧
    (∀ other op x,
      comparison s e how (.const (.int c) type) operand = .ok (.test other (.compare op x)) →
      other = path ∧ (op.holdsStored w x = how.holds c v ↔ r.Keeps how v c)) ∧
    (∀ stored, s.model.maps.encode (.integer width r) (.int c) = .ok stored →
      lengthOf? operand = none →
      comparison s e how operand (.const (.int c) type)
        = .ok (.test path (.compare how stored)) ∧
      comparison s e how (.const (.int c) type) operand
        = .ok (.test path (.compare how.converse stored))) := by
  have hconst := const?_of_field hfield
  obtain ⟨_, ⟨⟩, rfl⟩ := ClassMaps.encode_integer_eq_ok hv
  have hleft : comparison s e how operand (.const (.int c) type)
      = compareWith s e operand how (.int c) := by
    rw [comparison, hconst]
    rfl
  have hright : comparison s e how (.const (.int c) type) operand
      = compareWith s e operand how.converse (.int c) := by
    rw [comparison, hconst]
    rfl
  rw [hleft, hright]
  refine ⟨fun other op x h => ?_, fun other op x h => ?_, fun stored hc hlength => ?_⟩
  · obtain ⟨rfl, rfl, rfl⟩ := compareWith_integer hfield h
    exact ⟨rfl, Representation.holdsStored_ofInt_iff hr op v c⟩
  · obtain ⟨rfl, rfl, rfl⟩ := compareWith_integer hfield h
    refine ⟨rfl, ?_⟩
    rw [← how.holds_converse, Representation.holdsStored_ofInt_iff hr,
      Representation.keeps_converse]
  · exact ⟨compareWith_of_field hfield hlength rfl hc, compareWith_of_field hfield hlength rfl hc⟩

end Compile

namespace Stock

/-- A product whose code is a number that is stored as text. -/
def product : Encoder := .document "Product" (some 0) 0

def model : Model where
  schema := ⟨[⟨"Product", [("Code", .int32)]⟩]⟩
  maps := ⟨[⟨"Product", [⟨"Code", "Code", .integer .int32 .string⟩]⟩]⟩
  registry := ⟨[product]⟩

def scope : Scope := (Scope.create model 64).bind "x" .root product false

def code : Expr := .member (.param "x" product.valueType) "Code" (some .int32)

/-- Whether the code is below ten. -/
def small : Expr :=
  .binary (.compare .lt) code (.const (.int 10) .int32) (some .boolean)

/-- The code nine is not found below ten. -/
theorem comparison_of_integers_small :
    Compile.comparison scope small .lt code (.const (.int 10) .int32)
      = .ok (.test (Path.root.child "Code") (.compare .lt (.string "10"))) ∧
    ¬ (Comparison.lt.holdsStored (.string "9") (.string "10") = Comparison.lt.holds 9 10) := by
  have hfield : Compile.field scope code
      = .ok ⟨Path.root.child "Code", .integer .int32 .string⟩ := rfl
  have hcompares := Compile.comparison_of_integers hfield (.inr (.inr rfl))
    (rfl : model.maps.encode _ (.int 9) = .ok (.string "9")) small .lt (c := 10) .int32
  obtain ⟨hleft, -, htranslates⟩ := hcompares
  have hfilter := (htranslates (.string "10") rfl rfl).1
  refine ⟨hfilter, fun hsame => ?_⟩
  have hkeeps := (hleft _ _ _ hfilter).2.mp hsame rfl rfl
  revert hkeeps
  decide

/-- The comparison is translated, the product has a code below ten, and what is
stored of it does not pass. -/
theorem small_missed : ∃ other op x w,
    Compile.binary scope small (.compare .lt) code (.const (.int 10) .int32)
      = .ok (.test other (.compare op x)) ∧
    model.maps.encode (.integer .int32 .string) (.int 9) = .ok w ∧
    op.holdsStored w x = false ∧ Comparison.lt.holds 9 10 = true :=
  ⟨Path.root.child "Code", .lt, .string "10", .string "9", rfl, rfl, by decide, by decide⟩

end Stock

end QueryFilter
