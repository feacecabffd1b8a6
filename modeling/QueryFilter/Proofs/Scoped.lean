import QueryFilter.Encoding.ClassMap
import QueryFilter.Expr.Basic
import QueryFilter.Filter.Basic

/-!
Expressions whose parameters are all of the innermost predicate around them,
and filters whose paths all start where the filter is asked: at the document,
or at the item of an array.
-/

namespace QueryFilter

/-! ### Parameters and what binds them -/

namespace Expr

mutual

/-- Whether every parameter is the one that the innermost predicate around it
binds; `own` is bound around the whole expression. -/
def Confined (own : String) : Expr → Prop
  | .param name _ => name = own
  | .const .. => True
  | .member object _ _ => object.Confined own
  | .index object key _ => object.Confined own ∧ key.Confined own
  | .call object _ args => objectConfined own object ∧ allConfined own args
  | .binary _ left right _ => left.Confined own ∧ right.Confined own
  | .not operand => operand.Confined own
  | .lambda name _ body => body.Confined name

def objectConfined (own : String) : Option Expr → Prop
  | some object => object.Confined own
  | none => True

def allConfined (own : String) : List Expr → Prop
  | [] => True
  | e :: es => e.Confined own ∧ allConfined own es

end

def isParam : Expr → Bool
  | .param .. => true
  | _ => false

mutual

/-- Whether parameters outside nested predicates are the start of a chain and
never stand by themselves. -/
def Grounded : Expr → Prop
  | .param .. => False
  | .const .. => True
  | .member object _ _ => object.isParam = true ∨ object.Grounded
  | .index object key _ => (object.isParam = true ∨ object.Grounded) ∧ key.Grounded
  | .call object _ args => objectGrounded object ∧ allGrounded args
  | .binary _ left right _ => left.Grounded ∧ right.Grounded
  | .not operand => operand.Grounded
  | .lambda .. => True

def objectGrounded : Option Expr → Prop
  | some object => object.Grounded
  | none => True

def allGrounded : List Expr → Prop
  | [] => True
  | e :: es => e.Grounded ∧ allGrounded es

end

end Expr

/-! ### Paths and where they start -/

/-- The steps that lead from a value of the encoder `root` to a value of an
encoder inside it. -/
inductive ClassMaps.Leads (maps : ClassMaps) (root : Encoder) : List String → Encoder → Prop where
  | start : Leads maps root [] root
  | member {steps : List String} {container : Encoder} {entry : MemberMap} :
      Leads maps root steps container → entry ∈ maps.members container →
      Leads maps root (steps ++ [entry.element]) entry.encoder
  | item {steps : List String} {item : Encoder} (n : Nat) :
      Leads maps root steps (.array item) → Leads maps root (steps ++ [toString n]) item
  | entry {steps : List String} {key value : Encoder} (text : String) :
      Leads maps root steps (.dictionary .document key value) →
      Leads maps root (steps ++ [text]) value

/-- A filter whose paths start at a value of the encoder `root`, and those in a
body of `elemMatch` at an item of the array: at a value of its item encoder, or
at an entry of a dictionary. -/
inductive Filter.Relative (maps : ClassMaps) : Encoder → Filter → Prop where
  | test {root inner : Encoder} {path : Path} (t : Test) :
      maps.Leads root path.steps inner → Relative maps root (.test path t)
  /-- Whether a field has a key or a position. -/
  | part {root inner : Encoder} {path : Path} (step : String) (expected : Bool) :
      maps.Leads root path.steps inner →
      Relative maps root (.test (path.child step) (.presence expected))
  | elemMatch {root item : Encoder} {path : Path} {body : Filter} :
      maps.Leads root path.steps (.array item) → Relative maps item body →
      Relative maps root (.elemMatch path body)
  | entries {root key value : Encoder} {layout : Layout} {path : Path} {step : String} (t : Test) :
      maps.Leads root path.steps (.dictionary layout key value) →
      layout.valueStep? = some step →
      Relative maps root (.elemMatch path (.test ⟨[step]⟩ t))
  | and {root : Encoder} {filters : List Filter} :
      (∀ f ∈ filters, Relative maps root f) → Relative maps root (.and filters)
  | or {root : Encoder} {filters : List Filter} :
      (∀ f ∈ filters, Relative maps root f) → Relative maps root (.or filters)
  | nor {root : Encoder} {filters : List Filter} :
      (∀ f ∈ filters, Relative maps root f) → Relative maps root (.nor filters)
  | not {root : Encoder} {f : Filter} : Relative maps root f → Relative maps root (.not f)
  | everything {root : Encoder} : Relative maps root .everything
  | nothing {root : Encoder} : Relative maps root .nothing

namespace Filter

variable {maps : ClassMaps} {root : Encoder}

theorem Relative.conjuncts {f g : Filter} (h : f.Relative maps root) (hg : g ∈ f.conjuncts) :
    g.Relative maps root := by
  cases f with
  | and filters =>
      cases h with
      | and hfilters => exact hfilters g hg
  | _ =>
      rw [List.mem_singleton.mp hg]
      exact h

theorem Relative.disjuncts {f g : Filter} (h : f.Relative maps root) (hg : g ∈ f.disjuncts) :
    g.Relative maps root := by
  cases f with
  | or filters =>
      cases h with
      | or hfilters => exact hfilters g hg
  | _ =>
      rw [List.mem_singleton.mp hg]
      exact h

theorem Relative.allOf_pair {f g : Filter} (hf : f.Relative maps root)
    (hg : g.Relative maps root) : (allOf [f, g]).Relative maps root := by
  refine .and fun k hk => ?_
  simp only [List.flatMap_cons, List.flatMap_nil, List.append_nil, List.mem_append] at hk
  exact hk.elim hf.conjuncts hg.conjuncts

theorem Relative.anyOf_pair {f g : Filter} (hf : f.Relative maps root)
    (hg : g.Relative maps root) : (anyOf [f, g]).Relative maps root := by
  refine .or fun k hk => ?_
  simp only [List.flatMap_cons, List.flatMap_nil, List.append_nil, List.mem_append] at hk
  exact hk.elim hf.disjuncts hg.disjuncts

theorem Relative.nonEmptyArray {path : Path} {inner : Encoder}
    (h : maps.Leads root path.steps inner) : (nonEmptyArray path).Relative maps root :=
  Relative.allOf_pair (.test _ h) (.not (.test _ h))

end Filter

end QueryFilter
