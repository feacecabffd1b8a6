import QueryFilter.Log.Compile
import QueryFilter.Proofs.Refusals

/-!
What compilation reports, whatever is logged. Lines of the log and messages are
made of texts, so besides a filter and a refusal there is a third end: a text
that cannot be made. It takes a value that the printer refuses or a method with
a parameter of no type, and such a value stands in the predicate or in the
filter that it is compiled to.
-/

namespace QueryFilter

/-! ### The texts of a compilation -/

/-- The values that the texts of a compilation are made of: whatever lies within
a constant of the predicate, the value of a boolean field that holds, and the
document of the filter. -/
inductive Predicate.Shows (model : Model) (maxDepth : Nat) (p : Predicate) : Json → Prop where
  | constant {value v : Json} :
      p.toExpr.HasConstant value → v.Within value → Shows model maxDepth p v
  | truth : Shows model maxDepth p (.bool true)
  | document {f : Filter} {d : Json} :
      Compile.predicate model maxDepth p = .ok f → f.render = .ok d → Shows model maxDepth p d

section

variable {print : Printer} {model : Model} {maxDepth : Nat} {p : Predicate} {t : TextError}

end

/-- A filter that renders, or a refusal without a filter. -/
def Outcome.Settled (o : Outcome) : Prop :=
  if o.success then o.kind = .none ∧ ∃ f d, o.filter = some f ∧ f.render = .ok d
  else o.filter = none ∧ o.kind ≠ .none

namespace Log

variable {print : Printer} {log : Log} {model : Model} {maxDepth : Nat} {p : Predicate}

/-- Two constants are not compared, and no message can quote one that is not
printed. -/
example (s t : String) :
    let same : Expr := .binary (.compare .eq) (.const (.string s) .string)
      (.const (.string t) .string) (some .boolean)
    (off.tryCompile (fun _ => none) Compile.grid 64 ⟨"x", .cls "Grid" (some 0), same⟩).2
      = .error (.text (.refused (.string s))) := rfl

end Log

end QueryFilter
