import QueryFilter.Binary64.Basic

/-!
JSON values. Integers and doubles are told apart; an object is a list of
fields in ascending order of their keys, built by `Fields.insert`, which
replaces an equal key.
-/

namespace QueryFilter

inductive Json where
  | null
  | bool (b : Bool)
  | int (n : Int)
  | float (x : Binary64)
  | string (s : String)
  | array (items : List Json)
  | object (fields : List (String × Json))
  deriving Repr, Inhabited

abbrev Fields := List (String × Json)

namespace Fields

def insert (key : String) (value : Json) : Fields → Fields
  | [] => [(key, value)]
  | (k, v) :: rest =>
    if key < k then (key, value) :: (k, v) :: rest
    else if key = k then (key, value) :: rest
    else (k, v) :: insert key value rest

def ofPairs (pairs : List (String × Json)) : Fields :=
  pairs.foldl (fun fields pair => insert pair.1 pair.2 fields) []

def get? (fields : Fields) (key : String) : Option Json := fields.lookup key

@[simp] theorem get?_insert_self (fields : Fields) (key : String) (value : Json) :
    (insert key value fields).get? key = some value := by
  induction fields with
  | nil => simp [insert, get?]
  | cons field rest ih =>
    obtain ⟨k, v⟩ := field
    simp only [insert]
    split
    · simp [get?]
    · split
      · simp [get?]
      · rename_i h
        have : (key == k) = false := by simpa using h
        simpa [get?, List.lookup_cons, this] using ih

theorem get?_insert_of_ne (fields : Fields) {key other : String} (value : Json)
    (h : other ≠ key) : (insert key value fields).get? other = fields.get? other := by
  have hne : (other == key) = false := by simpa using h
  induction fields with
  | nil => simp [insert, get?, List.lookup_cons, hne]
  | cons field rest ih =>
    obtain ⟨k, v⟩ := field
    simp only [insert]
    split
    · simp [get?, List.lookup_cons, hne]
    · split
      · rename_i hk
        subst hk
        simp [get?, List.lookup_cons, hne]
      · simp only [get?, List.lookup_cons] at ih ⊢
        rw [ih]

end Fields

namespace Json

/-- An object of the given fields; the last one of equal keys counts. -/
def ofPairs (pairs : List (String × Json)) : Json := .object (Fields.ofPairs pairs)

def isNull : Json → Bool
  | .null => true
  | _ => false

def isObject : Json → Bool
  | .object _ => true
  | _ => false

def string? : Json → Option String
  | .string s => some s
  | _ => none

theorem string?_eq_some_iff {v : Json} {s : String} : v.string? = some s ↔ v = .string s := by
  cases v <;> simp [string?]

def int? : Json → Option Int
  | .int n => some n
  | _ => none

/-- A 64-bit signed reading of an integer, modulo `2 ^ 64`. -/
def word? (v : Json) : Option Int := v.int?.map (Int.bmod · 0x10000000000000000)

mutual

/-- Equality of values, except that an integer equals the double it rounds
to. Integers are compared as numbers, not as words: the unsigned ones from 2^63
on equal no negative one. -/
def same : Json → Json → Bool
  | .null, .null => true
  | .bool a, .bool b => a == b
  | .int a, .int b => a == b
  | .int a, .float y => (Binary64.ofInt a).numEq y
  | .float x, .int b => x.numEq (Binary64.ofInt b)
  | .float x, .float y => x.numEq y
  | .string a, .string b => a == b
  | .array xs, .array ys => sameItems xs ys
  | .object xs, .object ys => sameFields xs ys
  | _, _ => false

def sameItems : List Json → List Json → Bool
  | [], [] => true
  | x :: xs, y :: ys => same x y && sameItems xs ys
  | _, _ => false

def sameFields : List (String × Json) → List (String × Json) → Bool
  | [], [] => true
  | (k, x) :: xs, (l, y) :: ys => k == l && same x y && sameFields xs ys
  | _, _ => false

end

mutual

theorem same_comm : ∀ v w : Json, v.same w = w.same v
  | .null, w => by cases w <;> rfl
  | .bool a, w => by cases w <;> first | rfl | exact Bool.beq_comm
  | .int a, w => by cases w <;> first | rfl | exact Binary64.numEq_comm .. | exact BEq.comm
  | .float x, w => by cases w <;> first | rfl | exact Binary64.numEq_comm ..
  | .string a, w => by cases w <;> first | rfl | exact BEq.comm
  | .array xs, .array ys => sameItems_comm xs ys
  | .object xs, .object ys => sameFields_comm xs ys
  | .array _, .null | .array _, .bool _ | .array _, .int _ | .array _, .float _
  | .array _, .string _ | .array _, .object _ => rfl
  | .object _, .null | .object _, .bool _ | .object _, .int _ | .object _, .float _
  | .object _, .string _ | .object _, .array _ => rfl

theorem sameItems_comm : ∀ xs ys : List Json, sameItems xs ys = sameItems ys xs
  | [], [] => rfl
  | [], _ :: _ => rfl
  | _ :: _, [] => rfl
  | x :: xs, y :: ys => by rw [sameItems, sameItems, same_comm x y, sameItems_comm xs ys]

theorem sameFields_comm : ∀ xs ys : List (String × Json), sameFields xs ys = sameFields ys xs
  | [], [] => rfl
  | [], _ :: _ => rfl
  | _ :: _, [] => rfl
  | (k, x) :: xs, (l, y) :: ys => by
      rw [sameFields, sameFields, same_comm x y, sameFields_comm xs ys, BEq.comm (a := k)]

end

end Json

end QueryFilter
