import QueryFilter.Json.Basic

/-!
Walks through stored values. A step is a key of an object or the position of an
item of an array in decimal.
-/

namespace QueryFilter

/-- The number that a text is the decimal form of. -/
def position? (text : String) : Option Nat :=
  let n := Nat.ofDigitChars 10 text.toList 0
  if toString n = text then some n else none

theorem position?_toString (n : Nat) : position? (toString n) = some n := by
  have hdigits : Nat.ofDigitChars 10 (toString n).toList 0 = n := by
    rw [Nat.toString_eq_repr, Nat.toList_repr, Nat.ofDigitChars_ten_toDigits]
  simp only [position?, hdigits, if_true]

namespace Json

/-- What one step leads to. -/
def step? : Json → String → Option Json
  | .object fields, key => Fields.get? fields key
  | .array items, position => (position? position).bind fun n => items[n]?
  | _, _ => none

def walk (v : Json) : List String → Option Json
  | [] => some v
  | step :: steps => (v.step? step).bind fun next => walk next steps

@[simp] theorem walk_nil (v : Json) : v.walk [] = some v := rfl

theorem walk_cons (v : Json) (step : String) (steps : List String) :
    v.walk (step :: steps) = (v.step? step).bind (·.walk steps) := rfl

theorem walk_singleton (v : Json) (step : String) : v.walk [step] = v.step? step :=
  Option.bind_fun_some ..

theorem walk_append (v : Json) (first second : List String) :
    v.walk (first ++ second) = (v.walk first).bind (·.walk second) := by
  induction first generalizing v with
  | nil => rfl
  | cons step steps ih =>
      rw [List.cons_append, walk_cons, walk_cons, Option.bind_assoc]
      simp only [ih]

theorem walk_concat (v : Json) (steps : List String) (step : String) :
    v.walk (steps ++ [step]) = (v.walk steps).bind (·.step? step) := by
  rw [walk_append]
  congr
  funext next
  exact Option.bind_fun_some ..

theorem step?_object (fields : Fields) (key : String) :
    (Json.object fields).step? key = fields.get? key := rfl

theorem step?_array (items : List Json) (n : Nat) :
    (Json.array items).step? (toString n) = items[n]? := by
  rw [step?, position?_toString, Option.bind_some]

end Json

end QueryFilter
