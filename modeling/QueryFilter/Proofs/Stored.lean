import QueryFilter.Json.Walk
import QueryFilter.Proofs.Query

/-!
Query documents about stored documents. A field is what its dotted path leads
to, and what is not there counts as null.
-/

namespace QueryFilter

/-- A step that stays itself in a dotted path and is not taken for an
operator. -/
structure IsPlain (step : String) : Prop where
  nonempty : step ≠ ""
  undotted : '.' ∉ step.toList
  unreserved : Query.isReserved step = false

namespace Path

def Plain (p : Path) : Prop := ∀ step ∈ p.steps, IsPlain step

theorem plain_root : root.Plain := by
  intro step h
  cases h

theorem plain_child {p : Path} {step : String} (hp : p.Plain) (hstep : IsPlain step) :
    (p.child step).Plain := by
  intro other h
  rcases List.mem_append.mp h with h | h
  · exact hp other h
  · rw [List.mem_singleton.mp h]
    exact hstep

/-- The steps of a dotted path. -/
def stepsOf (text : String) : List String := (text.toList.splitOn '.').map String.ofList

theorem stepsOf_text {p : Path} (hp : p.Plain) (hroot : p.isRoot = false) :
    stepsOf p.text = p.steps := by
  have hsteps : p.steps ≠ [] := by
    intro h
    simp [isRoot, h] at hroot
  have hdots : ∀ cs ∈ p.steps.map String.toList, '.' ∉ cs := by
    intro cs hcs
    obtain ⟨step, hstep, rfl⟩ := List.mem_map.mp hcs
    exact (hp step hstep).undotted
  have htext : p.text.toList = ['.'].intercalate (p.steps.map String.toList) := by
    rw [text, String.toList_intercalate]
    rfl
  rw [stepsOf, htext, List.splitOn_intercalate '.' hdots (by simpa using hsteps), List.map_map]
  exact (List.map_congr_left fun step _ => String.ofList_toList).trans (List.map_id _)

/-- A plain path is not taken for an operator. -/
theorem isReserved_text {p : Path} (hp : p.Plain) : Query.isReserved p.text = false := by
  obtain ⟨steps⟩ := p
  cases steps with
  | nil => rfl
  | cons step steps =>
      have hstep : IsPlain step := hp step List.mem_cons_self
      -- only the first step can bring a dollar to the front
      cases steps with
      | nil =>
          rw [text, String.intercalate_singleton]
          exact hstep.unreserved
      | cons next rest =>
          obtain ⟨c, cs, hcs⟩ : ∃ c cs, step.toList = c :: cs :=
            List.exists_cons_of_ne_nil fun h => hstep.nonempty (String.toList_inj.mp h)
          have hreserved := hstep.unreserved
          rw [Query.isReserved, hcs] at hreserved
          rw [text, String.intercalate_cons_cons, Query.isReserved, String.toList_append,
            String.toList_append, hcs]
          exact hreserved

end Path

namespace Json

/-- The value of a field of a stored document; `none` is the document itself. -/
def at? (d : Json) : Option String → Option Json
  | none => some d
  | some text => d.walk (Path.stepsOf text)

theorem at?_field (d : Json) {p : Path} (hp : p.Plain) : d.at? p.field = d.walk p.steps := by
  unfold Path.field
  cases hroot : p.isRoot with
  | false =>
      rw [if_neg (by simp), at?, Path.stepsOf_text hp hroot]
  | true =>
      rw [(p.isRoot_iff).mp hroot]
      rfl

end Json

/-- An interpretation that reads stored documents. What is not there is equal
to null and in no order; of two integers the order counts. -/
structure Interpretation.Reads (I : Interpretation Json) : Prop where
  equality : ∀ d field value,
    I.holds d field (.eq value) = ((d.at? field).getD .null).same value
  order : ∀ d field how (m n : Int), how.isEquality = false →
    d.at? field = some (.int m) → I.holds d field (.compare how (.int n)) = how.holds m n
  unordered : ∀ d field how (n : Int), how.isEquality = false →
    (d.at? field).getD .null = .null → I.holds d field (.compare how (.int n)) = false
  size : ∀ d field items n, d.at? field = some (.array items) →
    I.holds d field (.size n) = (items.length == n)
  items : ∀ d field items, d.at? field = some (.array items) → I.items d field = items
  noItems : ∀ d field, (d.at? field).getD .null = .null → I.items d field = []

namespace Interpretation

/-- Decides the tests that speak of equality, order and length. -/
def ofStored : Interpretation Json where
  holds d field t :=
    match t, (d.at? field).getD .null with
    | .compare .eq value, u => u.same value
    | .compare how (.int n), .int m => how.holds m n
    | .size n, .array items => items.length == n
    | _, _ => false
  items d field :=
    match (d.at? field).getD .null with
    | .array items => items
    | _ => []

theorem reads_ofStored : ofStored.Reads where
  equality _ _ _ := rfl
  order d field how m n _ h := by
    simp only [ofStored, h, Option.getD_some]
    cases how <;> rfl
  unordered d field how n _ h := by
    simp only [ofStored, h]
    cases how <;> rfl
  size d field items n h := by simp [ofStored, h]
  items d field items h := by simp [ofStored, h]
  noItems d field h := by simp [ofStored, h]

end Interpretation

end QueryFilter
