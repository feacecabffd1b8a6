/-!
Field paths. The empty path is the value that a filter is applied to: the
document itself, or the item of an array.
-/

namespace QueryFilter

structure Path where
  steps : List String
  deriving DecidableEq, Repr

namespace Path

def root : Path := ⟨[]⟩

def isRoot (p : Path) : Bool := p.steps.isEmpty

def child (p : Path) (step : String) : Path := ⟨p.steps ++ [step]⟩

def text (p : Path) : String := ".".intercalate p.steps

@[simp] theorem steps_child (p : Path) (step : String) :
    (p.child step).steps = p.steps ++ [step] := rfl

@[simp] theorem isRoot_child (p : Path) (step : String) : (p.child step).isRoot = false := by
  simp [isRoot]

theorem isRoot_iff (p : Path) : p.isRoot = true ↔ p = root := by
  cases p
  simp [isRoot, root]

end Path

end QueryFilter
