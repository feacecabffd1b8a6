import QueryFilter.Proofs.Location
import QueryFilter.Proofs.Reading
import QueryFilter.Proofs.Stored
import QueryFilter.Proofs.Totality

/-!
What a dotted path tells of its steps. The dots between steps and those inside
a step look the same, so a path tells fields apart up to dots inside steps.
-/

namespace QueryFilter

namespace Path

/-- The steps of a path, taken apart at the dots inside them. -/
def parts (p : Path) : List String := p.steps.flatMap stepsOf

/-- Whether no step holds a dot. -/
def Undotted (p : Path) : Prop := ∀ step ∈ p.steps, '.' ∉ step.toList

instance (p : Path) : Decidable p.Undotted :=
  inferInstanceAs (Decidable (∀ step ∈ p.steps, '.' ∉ step.toList))

theorem stepsOf_append_dot (first rest : String) :
    stepsOf (first ++ "." ++ rest) = stepsOf first ++ stepsOf rest := by
  have htext : (first ++ "." ++ rest).toList = first.toList ++ '.' :: rest.toList := by
    rw [String.toList_append, String.toList_append, List.append_assoc]
    rfl
  rw [stepsOf, htext, List.splitOn_eq_splitOnP, List.splitOnP_append_cons _ _ (by rfl),
    List.map_append]
  simp only [stepsOf, List.splitOn_eq_splitOnP]

/-- A dotted text is made of its steps. -/
theorem intercalate_stepsOf (text : String) : ".".intercalate (stepsOf text) = text := by
  apply String.toList_inj.mp
  rw [String.toList_intercalate, stepsOf, List.map_map]
  have hid : String.toList ∘ String.ofList = id := funext fun cs => String.toList_ofList
  rw [hid, List.map_id]
  exact List.intercalate_splitOn '.'

theorem stepsOf_intercalate {steps : List String} (h : steps ≠ []) :
    stepsOf (".".intercalate steps) = steps.flatMap stepsOf := by
  induction steps with
  | nil => exact absurd rfl h
  | cons step rest ih =>
      cases rest with
      | nil => simp
      | cons next rest =>
          rw [String.intercalate_cons_cons, stepsOf_append_dot, ih (List.cons_ne_nil _ _)]
          rfl

theorem stepsOf_text_eq_parts {p : Path} (h : p.isRoot = false) : stepsOf p.text = p.parts :=
  stepsOf_intercalate (by simpa [isRoot] using h)

/-- The text of a path leaves the parts of its steps, and nothing else. -/
theorem text_eq_iff {p q : Path} (hp : p.isRoot = false) (hq : q.isRoot = false) :
    p.text = q.text ↔ p.parts = q.parts := by
  constructor
  · intro h
    rw [← stepsOf_text_eq_parts hp, ← stepsOf_text_eq_parts hq, h]
  · intro h
    rw [← intercalate_stepsOf p.text, ← intercalate_stepsOf q.text, stepsOf_text_eq_parts hp,
      stepsOf_text_eq_parts hq, h]

theorem stepsOf_of_undotted {step : String} (h : '.' ∉ step.toList) : stepsOf step = [step] := by
  have hnone : ∀ cs ∈ [step.toList], '.' ∉ cs := by simpa using h
  have hsplit := List.splitOn_intercalate '.' hnone (List.cons_ne_nil _ _)
  rw [List.intercalate_singleton] at hsplit
  rw [stepsOf, hsplit, List.map_singleton, String.ofList_toList]

theorem parts_of_undotted {p : Path} (h : p.Undotted) : p.parts = p.steps := by
  have hstep : ∀ step ∈ p.steps, stepsOf step = [step] := fun step hmem =>
    stepsOf_of_undotted (h step hmem)
  rw [parts, List.flatMap_congr hstep, List.flatMap_singleton']

end Path

namespace Filter

/-- The field that an operation is about, or the negation of one. -/
def field? : Filter → Option Path
  | .test path _ => some path
  | .elemMatch path _ => some path
  | .not filter => filter.field?
  | _ => none

/-- An operation stands in its document under the text of its path. -/
theorem render_of_field? : ∀ (f : Filter) {p : Path} {d : Json}, f.field? = some p →
    f.render = .ok d ∨ f.renderNegation = .ok d → ∃ x, d = .single p.text x
  | .test path t, p, d, hfield, h => by
      cases hfield
      rcases h with h | h <;> exact ⟨_, (Query.atPath_eq_ok h).2⟩
  | .elemMatch path body, p, d, hfield, h => by
      cases hfield
      rw [render_elemMatch, renderNegation_elemMatch] at h
      rcases h with h | h
      · obtain ⟨document, _, h⟩ := bind_eq_ok.mp h
        exact ⟨_, (Query.atPath_eq_ok h).2⟩
      · obtain ⟨document, _, h⟩ := bind_eq_ok.mp h
        exact ⟨_, (Query.atPath_eq_ok h).2⟩
  | .not f, p, d, hfield, h => render_of_field? f hfield h.symm
  | .and _, _, _, hfield, _ | .or _, _, _, hfield, _ | .nor _, _, _, hfield, _ => by cases hfield
  | .everything, _, _, hfield, _ | .nothing, _, _, hfield, _ => by cases hfield

end Filter

theorem Scope.rooted_document (model : Model) (maxDepth : Nat) (name : String) (root : Encoder)
    (depth : Nat) : (document model maxDepth name root depth).Rooted :=
  rooted_bind (rooted_create model maxDepth) name .root root

namespace Compile

theorem isRoot_of_field {model : Model} {maxDepth depth : Nat} {name : String} {root : Encoder}
    {e : Expr} {f : Field} (h : field (Scope.document model maxDepth name root depth) e = .ok f) :
    f.path.isRoot = false :=
  (meets_field (Scope.rooted_document model maxDepth name root depth) e).of_ok h rfl

/-- Fields of a document have the same dotted path exactly if their steps are
the same once they are taken apart at the dots inside them. Where no step holds
a dot, the steps can be read off the path, and the documents of operations on
different fields have different keys. -/
theorem path_tells_parts {model : Model} {maxDepth depth : Nat} {name : String} {root : Encoder}
    {e e' : Expr} {f g : Field}
    (hf : field (Scope.document model maxDepth name root depth) e = .ok f)
    (hg : field (Scope.document model maxDepth name root depth) e' = .ok g) :
    (f.path.text = g.path.text ↔ f.path.parts = g.path.parts) ∧
      (f.path.Undotted → Path.stepsOf f.path.text = f.path.steps) ∧
      (f.path.Undotted → g.path.Undotted → f.path ≠ g.path →
        ∀ (a b : Filter) (d d' : Json), a.field? = some f.path → b.field? = some g.path →
          a.render = .ok d → b.render = .ok d' →
          ∃ k l x y, d = .single k x ∧ d' = .single l y ∧ k ≠ l) := by
  have hroot := isRoot_of_field hf
  have htext := Path.text_eq_iff hroot (isRoot_of_field hg)
  refine ⟨htext, fun hdots => ?_, fun hdots hdots' hne a b d d' ha hb hd hd' => ?_⟩
  · rw [Path.stepsOf_text_eq_parts hroot, Path.parts_of_undotted hdots]
  · obtain ⟨x, rfl⟩ := Filter.render_of_field? a ha (.inl hd)
    obtain ⟨y, rfl⟩ := Filter.render_of_field? b hb (.inl hd')
    refine ⟨_, _, x, y, rfl, rfl, fun hsame => hne ?_⟩
    have hsteps := htext.mp hsame
    rw [Path.parts_of_undotted hdots, Path.parts_of_undotted hdots'] at hsteps
    exact congrArg Path.mk hsteps

/-- A class with a dictionary of dictionaries. -/
def nested : Model where
  schema := .empty
  maps := ⟨[⟨"Post", [⟨"Tags", "t", .dictionary .document .string
    (.dictionary .document .string (.integer .int32 .int32))⟩]⟩]⟩
  registry := .empty

/-- The number under one key and then another. -/
def nestedEntry (first second : String) : Expr :=
  .index (.index (.member (.param "x" (.cls "Post" none)) "Tags" none)
    (.const (.string first) .string) none) (.const (.string second) .string) none

/-- An empty key is a step too. -/
theorem path_tells_parts_empty :
    let s := Scope.document nested 64 "x" (.document "Post" none 0) 0
    let f : Field := ⟨⟨["t", "", "b"]⟩, .integer .int32 .int32⟩
    let g : Field := ⟨⟨["t", "b", ""]⟩, .integer .int32 .int32⟩
    field s (nestedEntry "" "b") = .ok f ∧ field s (nestedEntry "b" "") = .ok g ∧
      Path.stepsOf "t..b" = ["t", "", "b"] ∧
      ∃ k l x y, (Filter.test f.path (.presence true)).render = .ok (.single k x) ∧
        (Filter.test g.path (.presence true)).render = .ok (.single l y) ∧ k ≠ l := by
  intro s f g
  have hf : field s (nestedEntry "" "b") = .ok f := rfl
  have hg : field s (nestedEntry "b" "") = .ok g := rfl
  obtain ⟨-, hsteps, hkeys⟩ := path_tells_parts hf hg
  have hdots : f.path.Undotted := by decide
  have hdots' : g.path.Undotted := by decide
  obtain ⟨k, l, x, y, hk, hl, hne⟩ := hkeys hdots hdots' (by decide)
    (.test f.path (.presence true)) (.test g.path (.presence true)) _ _ rfl rfl rfl rfl
  exact ⟨hf, hg, hsteps hdots, k, l, x, y, congrArg Except.ok hk, congrArg Except.ok hl, hne⟩

/-- A dot inside a key is not told from a dot between keys. -/
theorem path_forgets_dotted_key :
    let s := Scope.document nested 64 "x" (.document "Post" none 0) 0
    ∃ f g, field s (nestedEntry "a.b" "c") = .ok f ∧ field s (nestedEntry "a" "b.c") = .ok g ∧
      f.path ≠ g.path ∧ f.path.text = g.path.text ∧
      ∀ t, (Filter.test f.path t).render = (Filter.test g.path t).render :=
  ⟨⟨⟨["t", "a.b", "c"]⟩, .integer .int32 .int32⟩, ⟨⟨["t", "a", "b.c"]⟩, .integer .int32 .int32⟩,
    rfl, rfl, by decide, by decide, fun t => rfl⟩

end Compile

end QueryFilter
