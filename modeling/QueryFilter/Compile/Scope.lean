import QueryFilter.Encoding.Encode
import QueryFilter.Model.Basic
import QueryFilter.Path

/-!
What is known where an expression is compiled: the model, the parameters in
scope with the innermost first, how deep the expression lies and how many
predicates enclose it. Paths inside a nested predicate start at an item, so a
parameter counts only in the predicate that bound it.
-/

namespace QueryFilter

structure Symbol where
  name : String
  path : Path
  encoder : Encoder
  /-- A parameter of a nested predicate, which may itself be a field. -/
  isItem : Bool
  level : Nat
  deriving Repr

structure Scope where
  model : Model
  maxDepth : Nat
  symbols : List Symbol
  depth : Nat
  level : Nat
  deriving Repr

namespace Scope

def create (model : Model) (maxDepth : Nat) : Scope := ⟨model, maxDepth, [], 0, 0⟩

/-- Binds a parameter in the current predicate. -/
def bind (s : Scope) (name : String) (path : Path) (encoder : Encoder) (isItem : Bool) : Scope :=
  { s with symbols := ⟨name, path, encoder, isItem, s.level⟩ :: s.symbols }

/-- Opens a nested predicate whose parameter is an item of an array. -/
def enter (s : Scope) (name : String) (encoder : Encoder) : Scope :=
  { s with level := s.level + 1 }.bind name .root encoder true

def descend (s : Scope) : Scope := { s with depth := s.depth + 1 }

def find? (s : Scope) (name : String) : Option Symbol := s.symbols.find? (·.name == name)

@[simp] theorem find?_bind_self (s : Scope) (name : String) (path : Path) (encoder : Encoder)
    (isItem : Bool) :
    (s.bind name path encoder isItem).find? name = some ⟨name, path, encoder, isItem, s.level⟩ := by
  simp [bind, find?]

theorem find?_bind_of_ne (s : Scope) {name other : String} (path : Path) (encoder : Encoder)
    (isItem : Bool) (h : name ≠ other) :
    (s.bind name path encoder isItem).find? other = s.find? other := by
  simp [bind, find?, h]

@[simp] theorem find?_descend (s : Scope) (name : String) :
    s.descend.find? name = s.find? name := rfl

end Scope

end QueryFilter
