import QueryFilter.Json.Reader
import QueryFilter.Proofs.Integers
import QueryFilter.Proofs.Junctions

/-!
Comparisons of the length of an array. Equality asks for the size, an order for
an item at the position next to the boundary, and both say of a stored array
what the comparison says of its length. A constant that is no length has no
filter.
-/

namespace QueryFilter

/-! ### Integer constants as signed words -/

/-- Half of what JSON can hold fits a signed word; the rest is read as negative. -/
theorem nonneg_bmod_iff {n : Int} (h : Json.fitsWord n = true) :
    0 ≤ n.bmod 0x10000000000000000 ↔ 0 ≤ n ∧ n < 0x8000000000000000 := by
  simp only [Json.fitsWord, Bool.and_eq_true, decide_eq_true_eq] at h
  rw [Int.bmod_def]
  split <;> omega

theorem bmod_eq_self_iff {n : Int} (h : Json.fitsWord n = true) :
    n.bmod 0x10000000000000000 = n ↔ n < 0x8000000000000000 := by
  simp only [Json.fitsWord, Bool.and_eq_true, decide_eq_true_eq] at h
  rw [Int.bmod_def]
  split <;> omega

/-! ### Stored arrays -/

theorem isPlain_toString (n : Nat) : IsPlain (toString n) := by
  have hdigits := (digits_toString n).1
  refine ⟨?_, ?_, ?_⟩
  · intro h
    exact hdigits (congrArg String.toList h)
  · intro h
    cases isDigit_of_mem_toString h
  obtain ⟨c, cs, hcs⟩ := List.exists_cons_of_ne_nil hdigits
  have hc : c.isDigit = true := isDigit_of_mem_toString (by rw [hcs]; exact List.mem_cons_self)
  have hdollar : c ≠ '$' := by
    rintro rfl
    cases hc
  rw [Query.isReserved, hcs]
  exact beq_false_of_ne (by simpa using hdollar)

/-- An interpretation that reads the arrays stored under a path: what their size
is, and at which positions they have an item. -/
structure Interpretation.ReadsArrays (I : Interpretation Json) (path : Path) : Prop where
  size : ∀ d items n, d.walk path.steps = some (.array items) →
    I.holds d path.field (.size n) = (items.length == n)
  item : ∀ d items (n : Nat), d.walk path.steps = some (.array items) →
    I.holds d (path.child (toString n)).field (.presence true) = items[n]?.isSome

namespace Interpretation

/-- Decides the tests that speak of size and of presence. -/
def ofShape : Interpretation Json where
  holds d field t :=
    match t, d.at? field with
    | .size n, some (.array items) => items.length == n
    | .presence expected, found => found.isSome == expected
    | _, _ => false
  items _ _ := []

theorem readsArrays_ofShape {path : Path} (h : path.Plain) : ofShape.ReadsArrays path where
  size d items n hitems := by simp [ofShape, d.at?_field h, hitems]
  item d items n hitems := by
    have hitem : d.at? (path.child (toString n)).field = items[n]? := by
      rw [d.at?_field (Path.plain_child h (isPlain_toString n)), Path.steps_child,
        Json.walk_concat, hitems, Option.bind_some, Json.step?_array]
    show ((d.at? (path.child (toString n)).field).isSome == true) = _
    rw [hitem, beq_true]

end Interpretation

/-! ### Filters of lengths -/

namespace Filter

/-- The filter that compares the length of the array at a path with a number. -/
inductive OfLength (array : Path) : Comparison → Nat → Filter → Prop where
  | eq (n : Nat) : OfLength array .eq n (.test array (.size n))
  | ne (n : Nat) : OfLength array .ne n (.not (.test array (.size n)))
  | gt (n : Nat) : OfLength array .gt n (.test (array.child (toString n)) (.presence true))
  | le (n : Nat) : OfLength array .le n (.test (array.child (toString n)) (.presence false))
  | ge (n : Nat) : OfLength array .ge (n + 1) (.test (array.child (toString n)) (.presence true))
  | lt (n : Nat) : OfLength array .lt (n + 1) (.test (array.child (toString n)) (.presence false))

/-- No length is below zero, so that boundary has no position next to it. -/
theorem exists_ofLength_iff (array : Path) (how : Comparison) (n : Nat) :
    (∃ f, OfLength array how n f) ↔ ¬(n = 0 ∧ (how = .ge ∨ how = .lt)) := by
  constructor
  · rintro ⟨f, h⟩
    cases h <;> simp
  · intro h
    cases how with
    | eq => exact ⟨_, .eq n⟩
    | ne => exact ⟨_, .ne n⟩
    | gt => exact ⟨_, .gt n⟩
    | le => exact ⟨_, .le n⟩
    | ge =>
        obtain ⟨m, rfl⟩ : ∃ m, n = m + 1 := Nat.exists_eq_succ_of_ne_zero (by simpa using h)
        exact ⟨_, .ge m⟩
    | lt =>
        obtain ⟨m, rfl⟩ : ∃ m, n = m + 1 := Nat.exists_eq_succ_of_ne_zero (by simpa using h)
        exact ⟨_, .lt m⟩

variable {I : Interpretation Json} {array : Path} {d : Json} {items : List Json}

theorem holds_presence (hI : I.ReadsArrays array)
    (hitems : d.walk array.steps = some (.array items)) (n : Nat) (expected : Bool) :
    holds I d (.test (array.child (toString n)) (.presence expected))
      = (decide (n < items.length) == expected) := by
  have hitem : items[n]?.isSome = decide (n < items.length) := by
    rw [Bool.eq_iff_iff]
    simp
  show (I.holds d (array.child (toString n)).field (.presence true) == expected) = _
  rw [hI.item d items n hitems, hitem]

/-- Of a stored array the filter says what the comparison says of its length. -/
theorem OfLength.holds_eq {how : Comparison} {n : Nat} {f : Filter} (h : OfLength array how n f)
    (hI : I.ReadsArrays array) (hitems : d.walk array.steps = some (.array items)) :
    f.holds I d = how.holds items.length n := by
  have hsize (n : Nat) : holds I d (.test array (.size n)) = (items.length == n) := by
    show (I.holds d array.field (.size n) == true) = _
    rw [hI.size d items n hitems, beq_true]
  have hpresence := holds_presence hI hitems
  rw [Bool.eq_iff_iff]
  cases h with
  | eq n =>
      rw [hsize]
      simp only [Comparison.holds, beq_iff_eq, decide_eq_true_eq]
      omega
  | ne n =>
      rw [holds, hsize]
      simp only [Comparison.holds, Bool.not_eq_true', beq_eq_false_iff_ne, decide_eq_true_eq]
      omega
  | gt n | le n | ge n | lt n =>
      rw [hpresence]
      simp only [Comparison.holds, beq_iff_eq, decide_eq_true_eq, decide_eq_false_iff_not]
      omega

end Filter

/-- A comparison with a constant on either side. -/
inductive Expr.Compares (operand : Expr) (how : Comparison) (value : Json) : Expr → Prop where
  | left (constant : Ty) (type : Option Ty) :
      Compares operand how value (.binary (.compare how) operand (.const value constant) type)
  | right (constant : Ty) (type : Option Ty) :
      Compares operand how value
        (.binary (.compare how.converse) (.const value constant) operand type)

namespace Compile

variable {s : Scope} {e operand array : Expr} {how : Comparison} {value : Json} {f g : Filter}

theorem expression_compare {left right : Expr} {type : Option Ty} (hdepth : s.depth < s.maxDepth) :
    expression s (.binary (.compare how) left right type)
      = comparison s.descend (.binary (.compare how) left right type) how left right := by
  rw [expression, if_neg (by omega), binary]
  · intro h
    cases h
  · intro h
    cases h

/-- The side of the constant is nothing to the filter. -/
theorem expression_of_compares (h : operand.Compares how value e) (hconst : operand.const? = none)
    (hdepth : s.depth < s.maxDepth) :
    expression s e = compareWith s.descend e operand how value := by
  cases h with
  | left constant type =>
      rw [expression_compare hdepth, comparison, hconst]
      rfl
  | right constant type =>
      rw [expression_compare hdepth, comparison, hconst]
      show compareWith s.descend _ operand how.converse.converse value = _
      rw [how.converse_converse]

theorem compareWith_of_lengthOf? (h : lengthOf? operand = some array) :
    compareWith s e operand how value = arrayLength s e array how value := by
  obtain ⟨name, type, -, rfl, -⟩ := lengthOf?_eq_some h
  unfold compareWith
  dsimp only
  rw [h]

theorem lengthTest_eq_ok_iff {path : Path} {n : Nat} :
    lengthTest e path n how = .ok f ↔ Filter.OfLength path how n f := by
  have hsize : Compiled.ofBuild (Filter.sizeOf path n) = .ok (.test path (.size n)) := by
    rw [Filter.sizeOf_of_nonneg path (Int.natCast_nonneg n)]
    rfl
  constructor
  · intro h
    cases how with
    | eq =>
        rw [lengthTest, hsize] at h
        cases h
        exact .eq n
    | ne =>
        rw [lengthTest, hsize] at h
        cases h
        exact .ne n
    | gt =>
        cases h
        exact .gt n
    | le =>
        cases h
        exact .le n
    | ge | lt =>
        -- the boundary is the position before
        cases n with
        | zero => cases h
        | succ m =>
            rw [lengthTest, if_neg (by omega), Int.natCast_succ, Int.add_sub_cancel] at h
            cases h
            constructor
  · intro h
    cases h with
    | eq n => exact hsize
    | ne n =>
        rw [lengthTest, hsize]
        rfl
    | gt n | le n => rfl
    | ge n | lt n =>
        rw [lengthTest, if_neg (by omega), Int.natCast_succ, Int.add_sub_cancel]
        rfl

theorem word?_eq_some_iff {w : Int} :
    value.word? = some w ↔ ∃ n, value = .int n ∧ n.bmod 0x10000000000000000 = w := by
  cases value <;> simp [Json.word?, Json.int?]

theorem arrayLength_eq_ok_iff (hvalue : ∀ n, value = .int n → Json.fitsWord n = true) :
    arrayLength s e array how value = .ok f ↔
      ∃ (n : Nat) (target : Field), value = .int n ∧ (n : Int) < 0x8000000000000000 ∧
        field s array = .ok target ∧ Filter.OfLength target.path how n f := by
  unfold arrayLength
  constructor
  · intro h
    split at h
    · rename_i w hw
      split at h
      · cases h
      · rename_i hnonneg
        obtain ⟨target, htarget, h⟩ := bind_eq_ok.mp h
        obtain ⟨n, rfl, rfl⟩ := word?_eq_some_iff.mp hw
        obtain ⟨hzero, hlt⟩ := (nonneg_bmod_iff (hvalue n rfl)).mp (Int.not_lt.mp hnonneg)
        obtain ⟨k, rfl⟩ := Int.eq_ofNat_of_zero_le hzero
        rw [(bmod_eq_self_iff (hvalue _ rfl)).mpr hlt] at h
        exact ⟨k, target, rfl, hlt, htarget, lengthTest_eq_ok_iff.mp h⟩
    · cases h
  · rintro ⟨n, target, rfl, hlt, htarget, h⟩
    have hw : (Json.int n).word? = some (n : Int) :=
      word?_eq_some_iff.mpr ⟨n, rfl, (bmod_eq_self_iff (hvalue n rfl)).mpr hlt⟩
    rw [hw]
    show (if (n : Int) < 0 then _ else _) = _
    rw [if_neg (by omega), htarget, ok_bind]
    exact lengthTest_eq_ok_iff.mpr h

theorem lengthOf?_member {element : Ty} (harray : array.type? = some (.array element))
    {name : String} (hname : name = "Length" ∨ name = "Count") (type : Option Ty) :
    lengthOf? (.member array name type) = some array := by
  rw [lengthOf?, if_pos ⟨hname, by rw [harray]; rfl⟩]

/-- A comparison of the length of an array with an integer constant on either
side has a filter exactly if the constant can be a length and the comparison is
no foregone one. The filter holds of every stored array of which the comparison
holds of its length. -/
theorem lengths_exact {s : Scope} {source : Expr} {array : Field}
    (hfield : field s source = .ok array) {element : Ty}
    (htype : source.type? = some (.array element)) {name : String}
    (hname : name = "Length" ∨ name = "Count") {n : Int} (hn : Json.fitsWord n = true)
    (hdepth : s.depth < s.maxDepth) {how : Comparison} {type : Option Ty} {e : Expr}
    (he : (Expr.member source name type).Compares how (.int n) e) :
    ((∃ f, expression s e = .ok f) ↔
      (0 ≤ n ∧ n < 0x8000000000000000) ∧ ¬(n = 0 ∧ (how = .ge ∨ how = .lt))) ∧
    ∀ f, expression s e = .ok f → ∀ (I : Interpretation Json) (d : Json) (items : List Json),
      I.ReadsArrays array.path → d.walk array.path.steps = some (.array items) →
      f.holds I d = how.holds items.length n := by
  have hcompiles (f : Filter) : expression s e = .ok f ↔
      ∃ k : Nat, n = k ∧ n < 0x8000000000000000 ∧ Filter.OfLength array.path how k f := by
    have hlength : arrayLength s.descend e source how (.int n) = expression s e := by
      rw [expression_of_compares he rfl hdepth,
        compareWith_of_lengthOf? (lengthOf?_member htype hname type)]
    have hword : ∀ m, Json.int n = .int m → Json.fitsWord m = true := by
      rintro _ ⟨⟩
      exact hn
    rw [← hlength, arrayLength_eq_ok_iff hword, field_descend, hfield]
    constructor
    · rintro ⟨k, target, ⟨⟩, hlt, ⟨⟩, h⟩
      exact ⟨k, rfl, hlt, h⟩
    · rintro ⟨k, rfl, hlt, h⟩
      exact ⟨k, array, rfl, hlt, rfl, h⟩
  constructor
  · simp only [hcompiles]
    constructor
    · rintro ⟨f, k, rfl, hlt, h⟩
      have hboundary := (Filter.exists_ofLength_iff array.path how k).mp ⟨f, h⟩
      exact ⟨⟨Int.natCast_nonneg k, hlt⟩, by rwa [Int.natCast_eq_zero]⟩
    · rintro ⟨⟨hzero, hlt⟩, hboundary⟩
      obtain ⟨k, rfl⟩ := Int.eq_ofNat_of_zero_le hzero
      rw [Int.natCast_eq_zero] at hboundary
      obtain ⟨f, h⟩ := (Filter.exists_ofLength_iff array.path how k).mpr hboundary
      exact ⟨f, k, rfl, hlt, h⟩
  · intro f hf I d items hI hitems
    obtain ⟨k, rfl, -, h⟩ := (hcompiles f).mp hf
    exact h.holds_eq hI hitems

/-- `3 > x.Rows.Length` of a document with two rows. -/
theorem lengths_exact_rows :
    let s := Scope.document grid 64 "x" (.document "Grid" (some 0) 0) 0
    let e : Expr := .binary (.compare .gt) (.const (.int 3) .int32)
      (.member rows "Length" (some .int32)) (some .boolean)
    let d : Json := .object [("rows", .array [.array [.int 1], .array []])]
    ∃ f, expression s e = .ok f ∧ f.holds .ofShape d = Comparison.lt.holds 2 3 := by
  intro s e d
  have hfield : field s rows = .ok ⟨⟨["rows"]⟩, .array (.array (.integer .int32 .int32))⟩ := rfl
  have hplain : Path.Plain ⟨["rows"]⟩ :=
    Path.plain_child Path.plain_root ⟨by decide, by decide, by decide⟩
  have hexact := lengths_exact hfield (n := 3) rfl (.inl rfl) rfl (by decide)
    (.right .int32 (some .boolean) : (Expr.member rows "Length" _).Compares .lt _ e)
  obtain ⟨f, hf⟩ := hexact.1.mpr (by decide)
  exact ⟨f, hf, hexact.2 f hf .ofShape d [.array [.int 1], .array []]
    (Interpretation.readsArrays_ofShape hplain) rfl⟩

end Compile

end QueryFilter
