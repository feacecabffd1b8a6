import QueryFilter.Method.Basic

/-!
Recognition of methods by signature: name, arity, receiver, visibility and the
kinds of the types that tell two methods of one name apart. The concrete class
of a receiver never counts, so any class with a fitting method is understood.
-/

namespace QueryFilter

namespace Method

/-- A public method that returns a truth value. -/
def asks (m : Method) (isStatic : Bool) (name : String) (arity : Nat) : Bool :=
  m.isStatic == isStatic && m.isPublic && m.returnsBoolean && m.name == name && m.arity == arity

/-- A method asks one question. -/
theorem asks_of_asks {m : Method} {isStatic : Bool} {name : String} {arity : Nat}
    (h : m.asks isStatic name arity = true) (isStatic' : Bool) (name' : String) (arity' : Nat) :
    m.asks isStatic' name' arity'
      = (isStatic == isStatic' && name == name' && arity == arity') := by
  simp only [asks, Bool.and_eq_true, beq_iff_eq] at h
  obtain ⟨⟨⟨⟨rfl, hpublic⟩, hreturns⟩, rfl⟩, rfl⟩ := h
  simp [asks, hpublic, hreturns]

theorem returnsBoolean_of_asks {m : Method} {isStatic : Bool} {name : String} {arity : Nat}
    (h : m.asks isStatic name arity = true) : m.returnsBoolean = true := by
  simp only [asks, Bool.and_eq_true] at h
  exact h.1.1.2

def declaredBy (m : Method) (kind : Ty.Kind) : Bool := m.declaring.any (·.kind == kind)

def takes (m : Method) (position : Nat) (kind : Ty.Kind) : Bool :=
  match m.params[position]? with
  | some (some t) => t.kind == kind
  | _ => false

def isContainsKey (m : Method) : Bool := m.asks false "ContainsKey" 1

def isContainsValue (m : Method) : Bool := m.asks false "ContainsValue" 1

def isStringMatch (m : Method) : Bool :=
  (m.asks false "Contains" 1 || m.asks false "StartsWith" 1 || m.asks false "EndsWith" 1)
    && m.declaredBy .string && m.takes 0 .string

def isStringEmptiness (m : Method) : Bool := m.asks true "IsNullOrEmpty" 1 && m.takes 0 .string

def isSequenceContains (m : Method) : Bool := m.asks true "Contains" 2 && m.takes 0 .array

def isListContains (m : Method) : Bool := m.asks false "Contains" 1 && m.declaredBy .array

def isAny (m : Method) : Bool := m.asks true "Any" 1 && m.takes 0 .array

def isAnyWhere (m : Method) : Bool :=
  m.asks true "Any" 2 && m.takes 0 .array && m.takes 1 .function

def isEquals (m : Method) : Bool := m.asks false "Equals" 1

/-- How a string is compared with a literal. -/
inductive StringMatch where
  | contains | startsWith | endsWith
  deriving DecidableEq, Repr

inductive Shape where
  | containsKey
  | containsValue
  | stringMatch (how : StringMatch)
  | stringEmptiness
  | sequenceContains
  | listContains
  | any
  | anyWhere
  | equals
  deriving DecidableEq, Repr

def Shape.text : Shape → String
  | .containsKey => "DictionaryContainsKey"
  | .containsValue => "DictionaryContainsValue"
  | .stringMatch .contains => "StringContains"
  | .stringMatch .startsWith => "StringStartsWith"
  | .stringMatch .endsWith => "StringEndsWith"
  | .stringEmptiness => "StringIsNullOrEmpty"
  | .sequenceContains => "EnumerableContains"
  | .listContains => "ListContains"
  | .any => "EnumerableAny"
  | .anyWhere => "EnumerableAnyWithPredicate"
  | .equals => "Equals"

/-- How a method of a string compares, by its name. -/
def matching (m : Method) : StringMatch :=
  if m.name = "Contains" then .contains
  else if m.name = "StartsWith" then .startsWith
  else .endsWith

/-- The shape of a method; a method of no shape cannot be expressed in a
filter. -/
def shape? (m : Method) : Option Shape :=
  if m.isContainsKey then some .containsKey
  else if m.isContainsValue then some .containsValue
  else if m.isStringMatch then some (.stringMatch m.matching)
  else if m.isStringEmptiness then some .stringEmptiness
  else if m.isSequenceContains then some .sequenceContains
  else if m.isListContains then some .listContains
  else if m.isAny then some .any
  else if m.isAnyWhere then some .anyWhere
  else if m.isEquals then some .equals
  else none

theorem shape?_of_isContainsKey {m : Method} (h : m.isContainsKey = true) :
    m.shape? = some .containsKey := by
  rw [shape?, if_pos h]

theorem shape?_of_isContainsValue {m : Method} (h : m.isContainsValue = true) :
    m.shape? = some .containsValue := by
  rw [shape?, if_neg, if_pos h]
  simp [isContainsKey, asks_of_asks h]

theorem shape?_of_isSequenceContains {m : Method} (h : m.isSequenceContains = true) :
    m.shape? = some .sequenceContains := by
  have hasks : m.asks true "Contains" 2 = true := (Bool.and_eq_true_iff.mp h).1
  rw [shape?, if_neg, if_neg, if_neg, if_neg, if_pos h]
  all_goals
    simp [isContainsKey, isContainsValue, isStringMatch, isStringEmptiness, asks_of_asks hasks]

theorem declaredBy_of_declaredBy {m : Method} {kind : Ty.Kind} (h : m.declaredBy kind = true)
    (other : Ty.Kind) : m.declaredBy other = (kind == other) := by
  unfold declaredBy at h ⊢
  cases hdeclaring : m.declaring with
  | none => simp [hdeclaring] at h
  | some t =>
    obtain rfl : t.kind = kind := by simpa [hdeclaring] using h
    rfl

theorem shape?_of_isListContains {m : Method} (h : m.isListContains = true) :
    m.isSequenceContains = false ∧ m.shape? = some .listContains := by
  obtain ⟨hasks, hdeclared⟩ := Bool.and_eq_true_iff.mp h
  have hsequence : m.isSequenceContains = false := by
    simp [isSequenceContains, asks_of_asks hasks]
  refine ⟨hsequence, ?_⟩
  rw [shape?, if_neg, if_neg, if_neg, if_neg, if_neg, if_pos h]
  all_goals
    simp [isContainsKey, isContainsValue, isStringMatch, isStringEmptiness, hsequence,
      asks_of_asks hasks, declaredBy_of_declaredBy hdeclared]

theorem shape?_of_isAny {m : Method} (h : m.isAny = true) : m.shape? = some .any := by
  have hasks : m.asks true "Any" 1 = true := (Bool.and_eq_true_iff.mp h).1
  rw [shape?, if_neg, if_neg, if_neg, if_neg, if_neg, if_neg, if_pos h]
  all_goals
    simp [isContainsKey, isContainsValue, isStringMatch, isStringEmptiness, isSequenceContains,
      isListContains, asks_of_asks hasks]

theorem shape?_of_isAnyWhere {m : Method} (h : m.isAnyWhere = true) :
    m.isAny = false ∧ m.shape? = some .anyWhere := by
  have hasks : m.asks true "Any" 2 = true :=
    (Bool.and_eq_true_iff.mp (Bool.and_eq_true_iff.mp h).1).1
  have hany : m.isAny = false := by simp [isAny, asks_of_asks hasks]
  refine ⟨hany, ?_⟩
  rw [shape?, if_neg, if_neg, if_neg, if_neg, if_neg, if_neg, if_neg, if_pos h]
  all_goals
    simp [isContainsKey, isContainsValue, isStringMatch, isStringEmptiness, isSequenceContains,
      isListContains, hany, asks_of_asks hasks]

theorem shape?_of_isEquals {m : Method} (h : m.isEquals = true) : m.shape? = some .equals := by
  have hasks : m.asks false "Equals" 1 = true := h
  rw [shape?, if_neg, if_neg, if_neg, if_neg, if_neg, if_neg, if_neg, if_neg, if_pos h]
  all_goals
    simp [isContainsKey, isContainsValue, isStringMatch, isStringEmptiness, isSequenceContains,
      isListContains, isAny, isAnyWhere, asks_of_asks hasks]

end Method

end QueryFilter
