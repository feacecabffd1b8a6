import QueryFilter.Filter.Build
import QueryFilter.Proofs.Passes

/-!
Filters out of the checked constructors. Their combinations have parts,
conjunctions and disjunctions no parts of their own kind, and their divisors
are not zero.
-/

namespace QueryFilter

namespace Filter

/-- What the checked constructors build out of parts that they have built. -/
inductive Built : Filter → Prop where
  | presence (path : Path) (expected : Bool) : Built (.test path (.presence expected))
  | compare (path : Path) (how : Comparison) (value : Json) : Built (.test path (.compare how value))
  | oneOf (path : Path) (values : List Json) : Built (.test path (.oneOf values))
  | noneOf (path : Path) (values : List Json) : Built (.test path (.noneOf values))
  | regex (path : Path) (pattern options : String) : Built (.test path (.regex pattern options))
  | sizeOf {path : Path} {length : Int} {f : Filter} : sizeOf path length = .ok f → Built f
  | modOf {path : Path} {divisor remainder : Int} {f : Filter} :
      modOf path divisor remainder = .ok f → Built f
  | elemMatchOf {path : Path} {body f : Filter} :
      Built body → elemMatchOf path (some body) = .ok f → Built f
  | andOf {filters : List Filter} {f : Filter} :
      (∀ g ∈ filters, Built g) → andOf (filters.map some) = .ok f → Built f
  | orOf {filters : List Filter} {f : Filter} :
      (∀ g ∈ filters, Built g) → orOf (filters.map some) = .ok f → Built f
  | norOf {filters : List Filter} {f : Filter} :
      (∀ g ∈ filters, Built g) → norOf (filters.map some) = .ok f → Built f
  | notOf {g f : Filter} : Built g → notOf (some g) = .ok f → Built f
  | everything : Built .everything
  | nothing : Built .nothing

mutual

/-- All nodes of a filter, also inside `elemMatch`. -/
def nodes : Filter → List Filter
  | .test path t => [.test path t]
  | .elemMatch path body => .elemMatch path body :: body.nodes
  | .and filters => .and filters :: allNodes filters
  | .or filters => .or filters :: allNodes filters
  | .nor filters => .nor filters :: allNodes filters
  | .not filter => .not filter :: filter.nodes
  | .everything => [.everything]
  | .nothing => [.nothing]

def allNodes : List Filter → List Filter
  | [] => []
  | f :: fs => f.nodes ++ allNodes fs

end

theorem mem_allNodes {g : Filter} {filters : List Filter} :
    g ∈ allNodes filters ↔ ∃ f ∈ filters, g ∈ f.nodes := by
  induction filters with
  | nil => simp [allNodes]
  | cons f fs ih => simp [allNodes, ih]

theorem self_mem_nodes (f : Filter) : f ∈ f.nodes := by
  cases f <;> simp [nodes]

/-- What the constructors see to in a single node. -/
def Sound : Filter → Prop
  | .test _ (.mod divisor _) => divisor ≠ 0
  | .and filters => filters ≠ [] ∧ ∀ f ∈ filters, ∀ inner, f ≠ .and inner
  | .or filters => filters ≠ [] ∧ ∀ f ∈ filters, ∀ inner, f ≠ .or inner
  | .nor filters => filters ≠ []
  | _ => True

/-! ### What the constructors build -/

theorem sizeOf_eq_ok {path : Path} {length : Int} {f : Filter} (h : sizeOf path length = .ok f) :
    ∃ n, f = .test path (.size n) := by
  unfold sizeOf at h
  split at h
  · cases h
  · cases h
    exact ⟨_, rfl⟩

theorem modOf_eq_ok {path : Path} {divisor remainder : Int} {f : Filter}
    (h : modOf path divisor remainder = .ok f) :
    divisor ≠ 0 ∧ f = .test path (.mod divisor remainder) := by
  unfold modOf at h
  split at h
  · cases h
  · rename_i hdivisor
    cases h
    exact ⟨hdivisor, rfl⟩

theorem children_eq_ok {combinator : String} {filters built : List Filter}
    (h : children combinator (filters.map some) = .ok built) : filters ≠ [] ∧ built = filters := by
  unfold children at h
  rw [mapM_map_some fun _ => rfl, ok_bind] at h
  obtain ⟨hne, h⟩ := guard_eq_ok.mp h
  cases h
  exact ⟨by simpa using hne, rfl⟩

end Filter

/-! ### Conjunctions and disjunctions -/

/-- The two connectives that merge with parts of their own kind. -/
inductive Junction where
  | and
  | or
  deriving DecidableEq, Repr

namespace Junction

def node : Junction → List Filter → Filter
  | .and => .and
  | .or => .or

def parts : Junction → Filter → List Filter
  | .and => Filter.conjuncts
  | .or => Filter.disjuncts

/-- A junction in order, in which those among the parts are replaced by their
own parts. -/
def join (j : Junction) (filters : List Filter) : Filter := j.node (filters.flatMap j.parts)

@[simp] theorem parts_node (j : Junction) (filters : List Filter) :
    j.parts (j.node filters) = filters := by
  cases j <;> rfl

theorem parts_join (j : Junction) (filters : List Filter) :
    j.parts (j.join filters) = filters.flatMap j.parts := parts_node ..

theorem sound_node (j : Junction) (filters : List Filter) :
    (j.node filters).Sound ↔ filters ≠ [] ∧ ∀ f ∈ filters, ∀ inner, f ≠ j.node inner := by
  cases j <;> exact Iff.rfl

theorem mem_nodes_node (j : Junction) (g : Filter) (filters : List Filter) :
    g ∈ (j.node filters).nodes ↔ g = j.node filters ∨ ∃ f ∈ filters, g ∈ f.nodes := by
  cases j <;> simp [node, Filter.nodes, Filter.mem_allNodes]

/-- A filter is its only part, unless it is a junction of this kind. -/
theorem parts_eq (j : Junction) (f : Filter) :
    (∃ filters, f = j.node filters) ∨ (∀ inner, f ≠ j.node inner) ∧ j.parts f = [f] := by
  cases j <;> cases f <;> simp [node, parts, Filter.conjuncts, Filter.disjuncts]

theorem sound_join (j : Junction) {filters : List Filter} (hne : filters ≠ [])
    (h : ∀ f ∈ filters, ∀ g ∈ f.nodes, g.Sound) : ∀ g ∈ (j.join filters).nodes, g.Sound := by
  have hparts : ∀ f ∈ filters, j.parts f ≠ [] ∧ (∀ g ∈ j.parts f, ∀ inner, g ≠ j.node inner) ∧
      ∀ g ∈ j.parts f, ∀ k ∈ g.nodes, k.Sound := by
    intro f hf
    have hsound := h f hf
    obtain ⟨inner, rfl⟩ | ⟨hother, hself⟩ := j.parts_eq f
    · -- a junction among the parts is flat already
      obtain ⟨hinner, hflat⟩ := (j.sound_node inner).mp (hsound _ (Filter.self_mem_nodes _))
      rw [parts_node]
      exact ⟨hinner, hflat, fun g hg k hk =>
        hsound k ((j.mem_nodes_node k inner).mpr (.inr ⟨g, hg, hk⟩))⟩
    · rw [hself]
      simp only [List.mem_singleton, forall_eq]
      exact ⟨List.cons_ne_nil _ _, hother, hsound⟩
  intro g hg
  rcases (j.mem_nodes_node g _).mp hg with rfl | ⟨part, hpart, hg⟩
  · refine (j.sound_node _).mpr ⟨?_, fun part hpart => ?_⟩
    · obtain ⟨f, hf⟩ := List.exists_mem_of_ne_nil _ hne
      intro hnil
      exact (hparts f hf).1 (List.flatMap_eq_nil_iff.mp hnil f hf)
    · obtain ⟨f, hf, hpart⟩ := List.mem_flatMap.mp hpart
      exact (hparts f hf).2.1 part hpart
  · obtain ⟨f, hf, hpart⟩ := List.mem_flatMap.mp hpart
    exact (hparts f hf).2.2 part hpart g hg

end Junction

/-- Every node of a filter is as the constructors leave it. -/
theorem Filter.Built.sound {f : Filter} (h : f.Built) : ∀ g ∈ f.nodes, g.Sound := by
  induction h with
  | presence | compare | oneOf | noneOf | regex | everything | nothing =>
      simp [nodes, Sound]
  | sizeOf h =>
      obtain ⟨n, rfl⟩ := sizeOf_eq_ok h
      simp [nodes, Sound]
  | modOf h =>
      obtain ⟨hdivisor, rfl⟩ := modOf_eq_ok h
      simpa [nodes, Sound] using hdivisor
  | elemMatchOf _ h ih =>
      cases h
      simpa [nodes, Sound] using ih
  | andOf _ h ih =>
      obtain ⟨filters, hfilters, ⟨⟩⟩ := bind_eq_ok.mp h
      obtain ⟨hne, rfl⟩ := children_eq_ok hfilters
      exact Junction.sound_join .and hne ih
  | orOf _ h ih =>
      obtain ⟨filters, hfilters, ⟨⟩⟩ := bind_eq_ok.mp h
      obtain ⟨hne, rfl⟩ := children_eq_ok hfilters
      exact Junction.sound_join .or hne ih
  | norOf _ h ih =>
      obtain ⟨filters, hfilters, ⟨⟩⟩ := bind_eq_ok.mp h
      obtain ⟨hne, rfl⟩ := children_eq_ok hfilters
      intro g hg
      rcases List.mem_cons.mp hg with rfl | hg
      · exact hne
      · obtain ⟨part, hpart, hg⟩ := mem_allNodes.mp hg
        exact ih part hpart g hg
  | notOf _ h ih =>
      cases h
      simpa [nodes, Sound] using ih

end QueryFilter
