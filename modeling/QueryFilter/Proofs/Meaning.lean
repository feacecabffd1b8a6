import QueryFilter.Proofs.Operands
import QueryFilter.Proofs.Reading
import QueryFilter.Proofs.Totality

/-!
Compilation keeps the meaning of predicates: what the query document of a
predicate says about a stored value is what the predicate says about the native
value. Inside a nested predicate the stored value is an item of an array, and
only the parameter of that predicate counts.
-/

namespace QueryFilter

/-! ### Scopes and what they stand for -/

/-- Why a predicate that keeps its meaning may still have no filter. -/
def Cause.isLimitation : Cause → Bool
  | .tooDeep _ | .encoding _ | .nullOrder | .outerParameter _ | .mixedPredicate => true
  | _ => false

def Limited (e : CompileError) : Prop := e.cause.isLimitation = true

theorem limited_refuse {α : Type} {gives : α → Prop} (e : Expr) (cause : Cause)
    (h : cause.isLimitation = true) : Compiled.Meets Limited gives (e.refuse cause) := h

def Encoder.isDocument : Encoder → Bool
  | .document .. => true
  | _ => false

namespace Scope

def encoders (s : Scope) : List (String × Encoder) :=
  s.symbols.map fun symbol => (symbol.name, symbol.encoder)

theorem lookup_encoders (s : Scope) (name : String) :
    s.encoders.lookup name = (s.find? name).map (·.encoder) := by
  unfold encoders find?
  induction s.symbols with
  | nil => rfl
  | cons symbol symbols ih =>
      rw [List.map_cons, List.lookup_cons, List.find?_cons, ih]
      by_cases hname : name = symbol.name
      · simp [hname]
      · have hleft : (name == symbol.name) = false := by simpa using hname
        have hright : (symbol.name == name) = false := by simpa using Ne.symm hname
        rw [hleft, hright]

/-- A scope whose own parameters stand for values that `current` governs. -/
structure Within (s : Scope) (root current : Encoder) : Prop where
  inside : s.model.maps.Reaches root current
  bounded : ∀ symbol ∈ s.symbols, symbol.level ≤ s.level
  reached : ∀ symbol ∈ s.symbols, s.model.maps.Reaches root symbol.encoder
  started : Compile.StartsAt s current
  documents : ∀ symbol ∈ s.symbols, symbol.isItem = false → symbol.encoder.isDocument = true

theorem Within.descend {s : Scope} {root current : Encoder} (h : s.Within root current) :
    s.descend.Within root current :=
  ⟨h.inside, h.bounded, h.reached, h.started, h.documents⟩

/-- Entering a nested predicate hides every parameter outside it. -/
theorem Within.enter {s : Scope} {root current item : Encoder} (h : s.Within root current)
    (hitem : s.model.maps.Reaches root item) (name : String) :
    (s.enter name item).Within root item where
  inside := hitem
  bounded symbol hsymbol := by
    rcases List.mem_cons.mp hsymbol with rfl | hsymbol
    · exact Nat.le_refl _
    · exact Nat.le_succ_of_le (h.bounded symbol hsymbol)
  reached symbol hsymbol := by
    rcases List.mem_cons.mp hsymbol with rfl | hsymbol
    · exact hitem
    · exact h.reached symbol hsymbol
  started other symbol hfind hlevel := by
    rcases List.mem_cons.mp (List.mem_of_find?_eq_some hfind) with rfl | hsymbol
    · exact ⟨rfl, rfl⟩
    · have hbound := h.bounded symbol hsymbol
      have henter : symbol.level = s.level + 1 := hlevel
      omega
  documents symbol hsymbol hdocument := by
    rcases List.mem_cons.mp hsymbol with rfl | hsymbol
    · cases hdocument
    · exact h.documents symbol hsymbol hdocument

/-- An environment in which the own parameters of a scope have the value `v`. -/
def Binds (s : Scope) (ρ : Expr.Env) (v : Json) : Prop :=
  ∀ name symbol, s.find? name = some symbol → symbol.level = s.level → ρ.lookup name = some v

theorem binds_enter {s : Scope} {root current : Encoder} (h : s.Within root current)
    (name : String) (item : Encoder) (ρ : Expr.Env) (v : Json) :
    (s.enter name item).Binds ((name, v) :: ρ) v := by
  intro other symbol hfind hlevel
  rcases List.mem_cons.mp (List.mem_of_find?_eq_some hfind) with rfl | hsymbol
  · have hname : name = other := by simpa using List.find?_some hfind
    simp [hname]
  · have hbound := h.bounded symbol hsymbol
    have henter : symbol.level = s.level + 1 := hlevel
    omega

end Scope

/-! ### Chains -/

section

variable {s : Scope} {root current : Encoder}

theorem Chain.typed (hs : s.Within root current) (hmodel : s.model.Agrees root) {e : Expr}
    {encoder : Encoder} (h : Chain s.model s.encoders e encoder) :
    e.type? = some encoder.valueType ∧ s.model.maps.Reaches root encoder := by
  induction h with
  | param hlookup =>
      rw [Scope.lookup_encoders] at hlookup
      obtain ⟨symbol, hfind, rfl⟩ := Option.map_eq_some_iff.mp hlookup
      exact ⟨rfl, hs.reached symbol (List.mem_of_find?_eq_some hfind)⟩
  | member _ howner hmember hentry ih =>
      obtain ⟨hmem, rfl⟩ := ClassMaps.find?_eq_some hentry
      rw [ih.1, Option.some.injEq] at howner
      rw [← howner, hmodel.typed _ ih.2 _ hmem] at hmember
      exact ⟨hmember.symm, .member ih.2 hmem⟩

theorem Chain.names_eq (hs : s.Within root current) (hmodel : s.model.Agrees root) {e : Expr}
    {encoder : Encoder} (h : Chain s.model s.encoders e encoder) :
    e.names = encoder.valueType.values := by
  rw [Expr.names, (h.typed hs hmodel).1]
  rfl

/-- A chain resolves to a plain path, unless its parameter is that of an outer
predicate, and has the value that the native chain has. -/
theorem limits_chain (hs : s.Within root current) (hmodel : s.model.Agrees root) {e : Expr}
    {encoder : Encoder} (h : Chain s.model s.encoders e encoder) :
    (Compile.chain s e).Meets Limited fun f => f.encoder = encoder ∧ f.path.Plain ∧
      ∀ ρ v, s.Binds ρ v →
        s.model.maps.chainValue? current v e = (e.value? ρ).map (encoder, ·) := by
  induction h with
  | @param name encoder hlookup =>
      rw [Scope.lookup_encoders] at hlookup
      obtain ⟨symbol, hfind, rfl⟩ := Option.map_eq_some_iff.mp hlookup
      rw [Compile.chain, hfind]
      change (if symbol.level = s.level then _ else _ : Compiled Field).Meets Limited _
      split
      · rename_i hlevel
        obtain ⟨hpath, hcurrent⟩ := hs.started name symbol hfind hlevel
        refine ⟨rfl, ?_, fun ρ v hρ => ?_⟩
        · rw [hpath]
          exact Path.plain_root
        · rw [Expr.value?, hρ name symbol hfind hlevel, hcurrent]
          rfl
      · exact limited_refuse _ _ rfl
  | @member object name container owner type entry hobject _ _ hentry ih =>
      rw [Compile.chain]
      refine ih.bind fun f hf => ?_
      obtain ⟨rfl, hplain, hvalue⟩ := hf
      rw [Compile.memberField, hentry]
      have hmem := (ClassMaps.find?_eq_some hentry).1
      have hreaches := (hobject.typed hs hmodel).2
      refine ⟨rfl, Path.plain_child hplain (hmodel.plain _ hreaches _ hmem), fun ρ v hρ => ?_⟩
      rw [ClassMaps.chainValue?, hvalue ρ v hρ, Expr.value?]
      cases object.value? ρ with
      | none => rfl
      | some u => rw [Option.map_some, Option.bind_some, ClassMaps.memberValue?, hentry]; rfl

/-- A field that is where the value of `e` is stored. -/
structure Field.Stands (s : Scope) (current : Encoder) (e : Expr) (encoder : Encoder)
    (f : Field) : Prop where
  encoder_eq : f.encoder = encoder
  plain : f.path.Plain
  stored : ∀ ρ v d, s.Binds ρ v → s.model.maps.encode current v = .ok d →
    Option.Rel (s.model.maps.encode encoder · = .ok ·) (e.value? ρ) (d.at? f.path.field)

theorem limits_field (hs : s.Within root current) (hmodel : s.model.Agrees root) {e : Expr}
    {encoder : Encoder} (h : Chain s.model s.encoders e encoder)
    (hscalar : encoder.isDocument = false) :
    (Compile.field s e).Meets Limited (Field.Stands s current e encoder) := by
  unfold Compile.field
  split
  · rename_i hdocument
    -- only the parameter of the whole predicate stands for the document
    cases h with
    | @param name encoder hlookup =>
        rw [Scope.lookup_encoders] at hlookup
        obtain ⟨symbol, hfind, rfl⟩ := Option.map_eq_some_iff.mp hlookup
        have hitem : symbol.isItem = false := by
          simpa [Compile.isDocument, hfind] using hdocument
        rw [hs.documents symbol (List.mem_of_find?_eq_some hfind) hitem] at hscalar
        cases hscalar
    | member => cases hdocument
  · have hlimits := limits_chain hs hmodel h
    cases hchain : Compile.chain s e with
    | error error => exact hlimits.of_error hchain
    | ok f =>
        obtain ⟨hencoder, hplain, hvalue⟩ := hlimits.of_ok hchain
        refine ⟨hencoder, hplain, fun ρ v d hρ hstored => ?_⟩
        have hdistinct := hmodel.distinct.inside hs.inside
        have hrel := (Compile.rel_chain hs.started hdistinct hstored e f hchain).2
        rw [hvalue ρ v hρ, hencoder] at hrel
        rw [Json.at?_field d hplain]
        exact ClassMaps.rel_of_map_left hrel fun u w hw => hw.2

theorem Chain.operand_eq {model : Model} {Γ : List (String × Encoder)} {e : Expr}
    {encoder : Encoder} (h : Chain model Γ e encoder) (ρ : Expr.Env) :
    e.const? = none ∧ e.operand ρ = (e.value? ρ).getD .null ∧
      e.truth ρ = ((e.value? ρ).getD .null).same (.bool true) := by
  cases h with
  | param => exact ⟨rfl, rfl, rfl⟩
  | member => exact ⟨rfl, rfl, rfl⟩

theorem storedForm_of_rel {maps : ClassMaps} {encoder : Encoder} {value stored : Option Json}
    (h : Option.Rel (maps.encode encoder · = .ok ·) value stored) :
    maps.StoredForm encoder (value.getD .null) (stored.getD .null) := by
  cases h with
  | none => exact .inl ⟨rfl, rfl⟩
  | some h => exact .inr h

theorem Encoder.isDocument_of_admits {how : Comparison} {encoder : Encoder}
    (h : encoder.admits how = true) : encoder.isDocument = false := by
  cases encoder <;> first | rfl | cases h

/-! ### Comparisons -/

theorem Model.Agrees.values_nodup {model : Model} (hmodel : model.Agrees root)
    {encoder : Encoder} (h : model.maps.Reaches root encoder) :
    encoder.valueType.values.Nodup := by
  cases encoder with
  | enumeration name values representation => exact hmodel.named name values representation h
  | integer width => cases width <;> exact .nil
  | _ => exact .nil

variable {I : Interpretation Json}

/-- A test of the field of a chain says what the comparison of its value with a
constant says. -/
structure Filter.Compares (I : Interpretation Json) (s : Scope) (current : Encoder)
    (operand : Expr) (encoder : Encoder) (how : Comparison) (value : Json) (f : Filter) :
    Prop where
  plain : ∀ p ∈ f.paths, p.Plain
  holds : ∀ ρ v d, s.Binds ρ v → s.model.maps.encode current v = .ok d →
    f.holds I d
      = how.holdsOf encoder.valueType.values ((operand.value? ρ).getD .null) value

theorem Field.Stands.compares (hI : I.Reads) {operand : Expr} {encoder : Encoder}
    {how : Comparison} (hadmits : encoder.admits how = true)
    (hnamed : encoder.valueType.values.Nodup) {f : Field}
    (hf : f.Stands s current operand encoder) {value stored : Json}
    (hstored : s.model.maps.StoredForm encoder value stored)
    (horder : how.isEquality = false → value.isNull = false) :
    (Filter.test f.path (.compare how stored)).Compares I s current operand encoder how value where
  plain p hp := by
    rw [List.mem_singleton.mp hp]
    exact hf.plain
  holds ρ v d hρ hd :=
    testHolds_compare hI hadmits hnamed (storedForm_of_rel (hf.stored ρ v d hρ hd)) hstored horder

theorem lengthOf?_of_chain (hs : s.Within root current) (hmodel : s.model.Agrees root)
    {e : Expr} {encoder : Encoder} (h : Chain s.model s.encoders e encoder) :
    Compile.lengthOf? e = none := by
  cases h with
  | param => rfl
  | @member object name container owner type entry hobject howner hmember hentry =>
      have hkind : object.type?.any (·.kind == .array) = false := by
        rw [(hobject.typed hs hmodel).1]
        cases container with
        | document => rfl
        | _ => cases hentry
      simp [Compile.lengthOf?, hkind]

theorem limits_compareWith (hI : I.Reads) (hs : s.Within root current)
    (hmodel : s.model.Agrees root) {operand : Expr} {encoder : Encoder}
    (h : Chain s.model s.encoders operand encoder) {how : Comparison}
    (hadmits : encoder.admits how = true) (e : Expr) (value : Json) :
    (Compile.compareWith s e operand how value).Meets Limited
      (Filter.Compares I s current operand encoder how value) := by
  have hnamed := hmodel.values_nodup (h.typed hs hmodel).2
  unfold Compile.compareWith
  split
  · cases h
  · -- a member named like a length is a member of a class, not of an array
    rw [lengthOf?_of_chain hs hmodel h]
    refine (limits_field hs hmodel h (Encoder.isDocument_of_admits hadmits)).bind fun f hf => ?_
    split
    · rename_i hnull
      split
      · rename_i heq
        refine hf.compares hI hadmits hnamed (.inl ⟨?_, rfl⟩) fun horder => ?_
        · cases value <;> first | rfl | cases hnull
        · rw [heq] at horder
          cases horder
      · exact limited_refuse _ _ rfl
    · rename_i hvalue
      rw [Scope.encode, hf.encoder_eq]
      cases hencode : s.model.maps.encode encoder value with
      | error error => exact rfl
      | ok stored =>
          have hsome : value.isNull = false := by simpa using hvalue
          exact hf.compares hI hadmits hnamed (.inr hencode) fun _ => hsome

/-- A filter that says of stored values what `e` says of native ones. -/
structure Filter.Expresses (I : Interpretation Json) (s : Scope) (current : Encoder) (e : Expr)
    (f : Filter) : Prop where
  plain : ∀ p ∈ f.paths, p.Plain
  holds : ∀ ρ v d, s.Binds ρ v → s.model.maps.encode current v = .ok d →
    f.holds I d = e.truth ρ

theorem limits_comparison (hI : I.Reads) (hs : s.Within root current)
    (hmodel : s.model.Agrees root) {e : Expr} {encoder : Encoder}
    (h : Chain s.model s.encoders e encoder) {how : Comparison}
    (hadmits : encoder.admits how = true) (value : Json) (type : Ty) (result : Option Ty) :
    let whole : Expr := .binary (.compare how) e (.const value type) result
    (Compile.comparison s whole how e (.const value type)).Meets Limited
      (Filter.Expresses I s current whole) := by
  intro whole
  have hconst := (h.operand_eq []).1
  have hnames : Expr.comparedNames e (.const value type) = encoder.valueType.values := by
    rw [Expr.comparedNames, hconst, ← h.names_eq hs hmodel]
    rfl
  rw [Compile.comparison, hconst]
  refine (limits_compareWith hI hs hmodel h hadmits whole value).mono fun f hf => ?_
  refine ⟨hf.plain, fun ρ v d hρ hd => ?_⟩
  rw [hf.holds ρ v d hρ hd, Expr.truth, hnames, (h.operand_eq ρ).2.1]
  rfl

theorem limits_converse (hI : I.Reads) (hs : s.Within root current)
    (hmodel : s.model.Agrees root) {e : Expr} {encoder : Encoder}
    (h : Chain s.model s.encoders e encoder) {how : Comparison}
    (hadmits : encoder.admits how = true) (value : Json) (type : Ty) (result : Option Ty) :
    let whole : Expr := .binary (.compare how) (.const value type) e result
    (Compile.comparison s whole how (.const value type) e).Meets Limited
      (Filter.Expresses I s current whole) := by
  intro whole
  have hconst := (h.operand_eq []).1
  have hnames : Expr.comparedNames (.const value type) e = encoder.valueType.values :=
    h.names_eq hs hmodel
  have hconverse : encoder.admits how.converse = true := by rw [Encoder.admits_converse, hadmits]
  rw [Compile.comparison, hconst]
  refine (limits_compareWith hI hs hmodel h hconverse whole value).mono fun f hf => ?_
  refine ⟨hf.plain, fun ρ v d hρ hd => ?_⟩
  rw [hf.holds ρ v d hρ hd, Comparison.holdsOf_converse, Expr.truth, hnames,
    (h.operand_eq ρ).2.1]
  rfl

theorem limits_booleanField (hI : I.Reads) (hs : s.Within root current)
    (hmodel : s.model.Agrees root) {e : Expr} (h : Chain s.model s.encoders e .boolean) :
    (Compile.booleanField s e).Meets Limited (Filter.Expresses I s current e) := by
  have hboolean : e.isBoolean = true := by
    rw [Expr.isBoolean, (h.typed hs hmodel).1]
    rfl
  rw [Compile.booleanField, if_pos hboolean]
  refine (limits_field hs hmodel h rfl).bind fun f hf => ?_
  have hencode : s.model.maps.encode .boolean (.bool true) = .ok (.bool true) := rfl
  rw [Scope.encode, hf.encoder_eq, hencode]
  have hnamed : Encoder.boolean.valueType.values.Nodup := List.nodup_nil
  have hcompares : (Filter.test f.path (.eq (.bool true))).Compares I s current e .boolean .eq
      (.bool true) := hf.compares hI rfl hnamed (.inr hencode) fun _ => rfl
  refine ⟨hcompares.plain, fun ρ v d hρ hd => ?_⟩
  rw [hcompares.holds ρ v d hρ hd, (h.operand_eq ρ).2.2]
  exact sameValue_nil _ _

/-! ### Connectives -/

theorem expresses_const (s : Scope) (current : Encoder) (b : Bool) :
    (Compile.booleanConst (.const (.bool b) .boolean) (.bool b)).Meets Limited
      (Filter.Expresses I s current (.const (.bool b) .boolean)) := by
  cases b with
  | true => exact ⟨nofun, fun _ _ _ _ _ => rfl⟩
  | false => exact ⟨nofun, fun _ _ _ _ _ => rfl⟩

theorem Filter.allPaths_append (fs gs : List Filter) :
    allPaths (fs ++ gs) = allPaths fs ++ allPaths gs := by
  induction fs with
  | nil => rfl
  | cons f fs ih => rw [List.cons_append, allPaths, allPaths, ih, List.append_assoc]

theorem Filter.allPaths_conjuncts (f : Filter) : allPaths f.conjuncts = f.paths := by
  cases f with
  | and filters => rfl
  | _ => exact List.append_nil _

theorem Filter.allPaths_disjuncts (f : Filter) : allPaths f.disjuncts = f.paths := by
  cases f with
  | or filters => rfl
  | _ => exact List.append_nil _

theorem Filter.paths_allOf_pair (f g : Filter) : (allOf [f, g]).paths = f.paths ++ g.paths := by
  rw [allOf, paths, List.flatMap_cons, List.flatMap_cons, List.flatMap_nil, List.append_nil,
    allPaths_append, allPaths_conjuncts, allPaths_conjuncts]

theorem Filter.paths_anyOf_pair (f g : Filter) : (anyOf [f, g]).paths = f.paths ++ g.paths := by
  rw [anyOf, paths, List.flatMap_cons, List.flatMap_cons, List.flatMap_nil, List.append_nil,
    allPaths_append, allPaths_disjuncts, allPaths_disjuncts]

theorem Filter.Expresses.and {left right : Expr} {f g : Filter}
    (hf : f.Expresses I s current left) (hg : g.Expresses I s current right)
    (result : Option Ty) :
    (Filter.allOf [f, g]).Expresses I s current (.binary .and left right result) where
  plain p hp := by
    rw [Filter.paths_allOf_pair, List.mem_append] at hp
    exact hp.elim (hf.plain p) (hg.plain p)
  holds ρ v d hρ hd := by
    rw [Filter.holds_allOf_pair, hf.holds ρ v d hρ hd, hg.holds ρ v d hρ hd, Expr.truth]

theorem Filter.Expresses.or {left right : Expr} {f g : Filter}
    (hf : f.Expresses I s current left) (hg : g.Expresses I s current right)
    (result : Option Ty) :
    (Filter.anyOf [f, g]).Expresses I s current (.binary .or left right result) where
  plain p hp := by
    rw [Filter.paths_anyOf_pair, List.mem_append] at hp
    exact hp.elim (hf.plain p) (hg.plain p)
  holds ρ v d hρ hd := by
    rw [Filter.holds_anyOf_pair, hf.holds ρ v d hρ hd, hg.holds ρ v d hρ hd, Expr.truth]

theorem Filter.Expresses.not {operand : Expr} {f : Filter}
    (hf : f.Expresses I s current operand) :
    (Filter.not f).Expresses I s current (.not operand) where
  plain := hf.plain
  holds ρ v d hρ hd := by rw [Filter.holds, hf.holds ρ v d hρ hd, Expr.truth]

/-! ### Items of arrays -/

theorem any_eq_of_forall₂ {α β : Type} {R : α → β → Prop} {xs : List α} {ys : List β}
    (h : List.Forall₂ R xs ys) {p : α → Bool} {q : β → Bool} (hpq : ∀ x y, R x y → p x = q y) :
    xs.any p = ys.any q := by
  induction h with
  | nil => rfl
  | cons hxy _ ih => rw [List.any_cons, List.any_cons, hpq _ _ hxy, ih]

theorem isEmpty_eq_of_forall₂ {α β : Type} {R : α → β → Prop} {xs : List α} {ys : List β}
    (h : List.Forall₂ R xs ys) : xs.isEmpty = ys.isEmpty := by
  cases h <;> rfl

/-- The items of a stored array are the stored items of the native one. -/
theorem Field.Stands.items (hI : I.Reads) {source : Expr} {item : Encoder} {f : Field}
    (hf : f.Stands s current source (.array item)) {ρ : Expr.Env} {v d : Json}
    (hρ : s.Binds ρ v) (hd : s.model.maps.encode current v = .ok d) :
    List.Forall₂ (s.model.maps.encode item · = .ok ·) (source.items ρ)
      (I.items d f.path.field) := by
  have hrel := hf.stored ρ v d hρ hd
  unfold Expr.items
  generalize source.value? ρ = value at hrel ⊢
  generalize hat : d.at? f.path.field = stored at hrel
  cases hrel with
  | none =>
      rw [hI.noItems d f.path.field (by rw [hat]; rfl)]
      exact .nil
  | some hw =>
      obtain ⟨rfl, rfl⟩ | ⟨vs, ws, rfl, rfl, hitems⟩ := ClassMaps.encode_array_eq_ok hw
      · rw [hI.noItems d f.path.field (by rw [hat]; rfl)]
        exact .nil
      · rw [hI.items d f.path.field ws hat]
        exact hitems

theorem Filter.paths_nonEmptyArray (path : Path) : (nonEmptyArray path).paths = [path, path] := rfl

theorem Field.Stands.nonEmptyArray (hI : I.Reads) {source : Expr} {item : Encoder} {f : Field}
    (hf : f.Stands s current source (.array item)) {ρ : Expr.Env} {v d : Json}
    (hρ : s.Binds ρ v) (hd : s.model.maps.encode current v = .ok d) :
    (Filter.nonEmptyArray f.path).holds I d = !(source.items ρ).isEmpty := by
  have hitems := isEmpty_eq_of_forall₂ (hf.items hI hρ hd)
  have hrel := hf.stored ρ v d hρ hd
  have hnull := hI.equality d f.path.field .null
  rw [hitems, Filter.nonEmptyArray, Filter.holds_allOf_pair]
  change ((I.holds d f.path.field (.eq .null) == false) &&
    !(I.holds d f.path.field (.size 0) == true)) = !(I.items d f.path.field).isEmpty
  generalize source.value? ρ = value at hrel
  generalize hat : d.at? f.path.field = stored at hrel
  rw [hat] at hnull
  cases hrel with
  | none =>
      rw [hnull, hI.noItems d f.path.field (by rw [hat]; rfl)]
      rfl
  | some hw =>
      obtain ⟨rfl, rfl⟩ | ⟨vs, ws, rfl, rfl, -⟩ := ClassMaps.encode_array_eq_ok hw
      · rw [hnull, hI.noItems d f.path.field (by rw [hat]; rfl)]
        rfl
      · rw [hnull, hI.size d f.path.field ws 0 hat, hI.items d f.path.field ws hat]
        cases ws <;> rfl

theorem expresses_any (hI : I.Reads) {source : Expr} {item : Encoder} {f : Field}
    (hf : f.Stands s current source (.array item)) (object : Option Expr) (method : Method) :
    (Filter.nonEmptyArray f.path).Expresses I s current (.call object method [source]) where
  plain p hp := by
    rw [Filter.paths_nonEmptyArray] at hp
    rcases List.mem_cons.mp hp with rfl | hp
    · exact hf.plain
    · rw [List.mem_singleton.mp hp]
      exact hf.plain
  holds ρ v d hρ hd := by
    rw [hf.nonEmptyArray hI hρ hd]
    rfl

/-- A nested predicate is asked of the items, each in the scope of its own. -/
theorem limits_elemMatch (hI : I.Reads) (hs : s.Within root current) {source body : Expr}
    {item : Encoder} {name : String} {f : Field}
    (hf : f.Stands s current source (.array item)) {inner : Filter}
    (hinner : inner.Expresses I (s.enter name item) item body) (hnested : inner.WellNested)
    (object : Option Expr) (method : Method) (type : Ty) :
    let c : Call := ⟨object, method, [source, .lambda name type body]⟩
    (Compile.elemMatch c f.path inner).Meets Limited
      (Filter.Expresses I s current c.toExpr) := by
  intro c
  -- what the filter of the predicate says of each item
  have hitem (ρ : Expr.Env) (y w : Json) (hw : s.model.maps.encode item y = .ok w) :
      inner.holds I w = body.truth ((name, y) :: ρ) :=
    hinner.holds _ y w (Scope.binds_enter hs name item ρ y) hw
  have htruth (ρ : Expr.Env) : c.toExpr.truth ρ
      = (source.items ρ).any fun y => body.truth ((name, y) :: ρ) := rfl
  have hstored {ρ : Expr.Env} {v d : Json} (hρ : s.Binds ρ v)
      (hd : s.model.maps.encode current v = .ok d) :
      c.toExpr.truth ρ = (I.items d f.path.field).any (inner.holds I) := by
    rw [htruth]
    exact any_eq_of_forall₂ (hf.items hI hρ hd) fun y w hw => (hitem ρ y w hw).symm
  unfold Compile.elemMatch
  split
  · -- a body that holds of everything leaves the question whether there are items
    refine ⟨(expresses_any hI hf object method).plain, fun ρ v d hρ hd => ?_⟩
    have hempty := isEmpty_eq_of_forall₂ (hf.items hI hρ hd)
    rw [hf.nonEmptyArray hI hρ hd, hstored hρ hd, hempty]
    cases I.items d f.path.field <;> rfl
  · -- a body that holds of nothing is held by no item
    refine ⟨nofun, fun ρ v d hρ hd => ?_⟩
    rw [hstored hρ hd]
    exact (List.any_eq_false.mpr fun _ _ => by simp [Filter.holds]).symm
  · obtain ⟨fits, hfits⟩ := Filter.isElemMatchBody_of_wellNested inner hnested
    rw [hfits]
    cases fits with
    | false => exact limited_refuse _ _ rfl
    | true =>
        refine ⟨fun p hp => ?_, fun ρ v d hρ hd => ?_⟩
        · rcases List.mem_cons.mp hp with rfl | hp
          · exact hf.plain
          · exact hinner.plain p hp
        · rw [hstored hρ hd, Filter.holds]

theorem itemEncoder_of_array (c : Call) {item : Encoder} {f : Field}
    (h : f.encoder = .array item) : Compile.itemEncoder c f = .ok item := by
  rw [Compile.itemEncoder, h]
  rfl

theorem limits_any (hI : I.Reads) (hs : s.Within root current) (hmodel : s.model.Agrees root)
    {source : Expr} {item : Encoder} (h : Chain s.model s.encoders source (.array item))
    {method : Method} (hmethod : method.isAny = true) (body : Scope → Compiled Filter) :
    (Compile.call s ⟨none, method, [source]⟩ body).Meets Limited
      (Filter.Expresses I s current (.call none method [source])) := by
  have hshape := Method.shape?_of_isAny hmethod
  rw [Compile.call, hshape]
  show (Compile.any s ⟨none, method, [source]⟩ body).Meets _ _
  rw [Compile.any, hmethod, Bool.true_or]
  refine (limits_field hs hmodel h rfl).bind fun f hf => ?_
  rw [itemEncoder_of_array _ hf.encoder_eq]
  exact expresses_any hI hf none method

theorem limits_anyWhere (hI : I.Reads) (hs : s.Within root current) (hmodel : s.model.Agrees root)
    {source : Expr} {item : Encoder} (h : Chain s.model s.encoders source (.array item))
    {method : Method} (hmethod : method.isAnyWhere = true) {name : String} {type : Ty}
    {e : Expr} {body : Scope → Compiled Filter}
    (hbody : (body (s.enter name item)).Meets Limited fun inner =>
      inner.Expresses I (s.enter name item) item e ∧ inner.WellNested) :
    (Compile.call s ⟨none, method, [source, .lambda name type e]⟩ body).Meets Limited
      (Filter.Expresses I s current (.call none method [source, .lambda name type e])) := by
  obtain ⟨hany, hshape⟩ := Method.shape?_of_isAnyWhere hmethod
  rw [Compile.call, hshape]
  show (Compile.any s ⟨none, method, [source, .lambda name type e]⟩ body).Meets _ _
  rw [Compile.any, hmethod, hany]
  refine (limits_field hs hmodel h rfl).bind fun f hf => ?_
  rw [itemEncoder_of_array _ hf.encoder_eq]
  refine hbody.bind fun inner hinner => ?_
  exact limits_elemMatch hI hs hf hinner.1 hinner.2 none method type

/-! ### Predicates -/

theorem Filter.Expresses.of_descend {e : Expr} {f : Filter}
    (h : f.Expresses I s.descend current e) : f.Expresses I s current e := ⟨h.plain, h.holds⟩

/-- What lies too deep is refused; the rest is compiled one step deeper. -/
theorem limits_descend (e : Expr) {x : Compiled Filter}
    (h : x.Meets Limited (Filter.Expresses I s.descend current e)) :
    (if s.maxDepth ≤ s.depth then e.refuse (.tooDeep s.maxDepth) else x : Compiled Filter).Meets
      Limited (Filter.Expresses I s current e) := by
  split
  · exact limited_refuse _ _ rfl
  · exact h.mono fun f hf => hf.of_descend

theorem Chain.expression_eq {model : Model} {Γ : List (String × Encoder)} {e : Expr}
    {encoder : Encoder} (h : Chain model Γ e encoder) (s : Scope) :
    Compile.expression s e = if s.maxDepth ≤ s.depth then e.refuse (.tooDeep s.maxDepth)
      else Compile.booleanField s.descend e := by
  cases h with
  | param => rw [Compile.expression]
  | member => rw [Compile.expression]

/-- A formula compiles to what it says, however deep it lies and whatever
predicates it lies in. -/
theorem limits_expression (hI : I.Reads) {model : Model} (hmodel : model.Agrees root)
    {Γ : List (String × Encoder)} {e : Expr} (h : Formula model Γ e) :
    ∀ (s : Scope) (current : Encoder), s.model = model → s.encoders = Γ →
      s.Within root current →
      (Compile.expression s e).Meets Limited (Filter.Expresses I s current e) := by
  induction h with
  | const b =>
      intro s current _ _ _
      rw [Compile.expression]
      exact limits_descend _ (expresses_const s.descend current b)
  | and _ _ ihl ihr =>
      intro s current hm hΓ hs
      have hleft := ihl s.descend current hm hΓ hs.descend
      have hright := ihr s.descend current hm hΓ hs.descend
      rw [Compile.expression]
      exact limits_descend _ (hleft.bind fun l hl => hright.bind fun r hr => hl.and hr _)
  | or _ _ ihl ihr =>
      intro s current hm hΓ hs
      have hleft := ihl s.descend current hm hΓ hs.descend
      have hright := ihr s.descend current hm hΓ hs.descend
      rw [Compile.expression]
      exact limits_descend _ (hleft.bind fun l hl => hright.bind fun r hr => hl.or hr _)
  | not _ ih =>
      intro s current hm hΓ hs
      have hoperand := ih s.descend current hm hΓ hs.descend
      rw [Compile.expression]
      exact limits_descend _ (hoperand.bind fun f hf => hf.not)
  | boolean hchain =>
      intro s current hm hΓ hs
      subst hm hΓ
      rw [hchain.expression_eq s]
      exact limits_descend _ (limits_booleanField hI hs.descend hmodel hchain)
  | compare value type hchain hadmits =>
      intro s current hm hΓ hs
      subst hm hΓ
      rw [Compile.expression]
      · exact limits_descend _ (limits_comparison hI hs.descend hmodel hchain hadmits value type _)
      · intro h
        cases h
      · intro h
        cases h
  | converse value type hchain hadmits =>
      intro s current hm hΓ hs
      subst hm hΓ
      rw [Compile.expression]
      · exact limits_descend _ (limits_converse hI hs.descend hmodel hchain hadmits value type _)
      · intro h
        cases h
      · intro h
        cases h
  | any hmethod hchain =>
      intro s current hm hΓ hs
      subst hm hΓ
      rw [Compile.expression]
      exact limits_descend _ (limits_any hI hs.descend hmodel hchain hmethod _)
  | @anyWhere Γ method source body name type item hmethod hchain _ _ ih =>
      intro s current hm hΓ hs
      subst hm hΓ
      -- the items are in reach, and the body is compiled in their scope
      have hitem := ClassMaps.Reaches.item (hchain.typed hs hmodel).2
      have hexpresses := ih (s.descend.enter name item) item rfl rfl (hs.descend.enter hitem name)
      have hplaced := Compile.meets_expression _ body (s.descend.rooted_enter name item)
      have hbody := (hexpresses.and hplaced).mono fun f hf =>
        (⟨hf.1, hf.2.1⟩ : f.Expresses I (s.descend.enter name item) item body ∧ f.WellNested)
      rw [Compile.expression]
      exact limits_descend _ (limits_anyWhere hI hs.descend hmodel hchain hmethod hbody)

theorem Formula.isBoolean (hs : s.Within root current) (hmodel : s.model.Agrees root) {e : Expr}
    (h : Formula s.model s.encoders e) : e.isBoolean = true := by
  cases h with
  | boolean hchain =>
      rw [Expr.isBoolean, (hchain.typed hs hmodel).1]
      rfl
  | any hmethod => exact Method.returnsBoolean_of_asks (Bool.and_eq_true_iff.mp hmethod).1
  | anyWhere hmethod =>
      exact Method.returnsBoolean_of_asks
        (Bool.and_eq_true_iff.mp (Bool.and_eq_true_iff.mp hmethod).1).1
  | _ => rfl

namespace Scope

theorem within_document (model : Model) (maxDepth : Nat) (name : String) (depth : Nat)
    (hroot : root.isDocument = true) :
    (document model maxDepth name root depth).Within root root where
  inside := .root
  bounded symbol hsymbol := by
    rw [List.mem_singleton.mp hsymbol]
    exact Nat.le_refl _
  reached symbol hsymbol := by
    rw [List.mem_singleton.mp hsymbol]
    exact .root
  started := Compile.startsAt_document model maxDepth name root depth
  documents symbol hsymbol _ := by
    rw [List.mem_singleton.mp hsymbol]
    exact hroot

theorem binds_document (model : Model) (maxDepth : Nat) (name : String) (depth : Nat) (v : Json) :
    (document model maxDepth name root depth).Binds [(name, v)] v := by
  intro other symbol hfind _
  have hname : symbol.name = other := by simpa using List.find?_some hfind
  rw [List.mem_singleton.mp (List.mem_of_find?_eq_some hfind)] at hname
  rw [← hname]
  exact List.lookup_cons_self

end Scope

theorem Compile.predicate_of_find {model : Model} {p : Predicate}
    (hfind : model.registry.find? p.type = some root) (hboolean : p.body.isBoolean = true)
    (maxDepth : Nat) :
    Compile.predicate model maxDepth p
      = Compile.expression (Scope.document model maxDepth p.name root 0) p.body := by
  have hmodel : (Scope.create model maxDepth).model = model := rfl
  rw [Compile.predicate, Compile.predicateIn, hmodel, hfind]
  exact if_pos hboolean

/-- The query document of a predicate over a class says of every stored value
what the predicate says of the native one. A predicate has no document only
where it is too deep, a constant is not a value of the member, null is put in
order, or a nested predicate asks of an outer parameter or both of an item and
of its members. -/
theorem Compile.predicate_means (hI : I.Reads) {model : Model} (hmodel : model.Agrees root)
    (hroot : root.isDocument = true) {p : Predicate}
    (hfind : model.registry.find? p.type = some root)
    (hbody : Formula model [(p.name, root)] p.body) (maxDepth : Nat) :
    (Compile.predicate model maxDepth p).Meets Limited fun f =>
      ∃ document, f.render = .ok document ∧ ∀ v d, model.maps.encode root v = .ok d →
        Query.holds I d document = p.body.truth [(p.name, v)] := by
  have hs := Scope.within_document model maxDepth p.name 0 hroot
  have hmeets := limits_expression hI hmodel hbody _ root rfl rfl hs
  have hpredicate := Compile.predicate_of_find hfind (hbody.isBoolean hs hmodel) maxDepth
  -- what compiles also renders, and the document is read as the filter
  cases h : Compile.predicate model maxDepth p with
  | error e => exact hmeets.of_error (hpredicate ▸ h)
  | ok f =>
      have hf := hmeets.of_ok (hpredicate ▸ h)
      obtain ⟨document, hrender⟩ := Compile.predicate_renders h
      have hpaths : Query.Unreserved f.paths := fun path hpath =>
        Path.isReserved_text (hf.plain path hpath)
      obtain ⟨fields, rfl, -, hholds⟩ := Query.reads_render I f document hpaths hrender
      refine ⟨_, hrender, fun v d hd => ?_⟩
      rw [← hf.holds _ v d (Scope.binds_document model maxDepth p.name 0 v) hd]
      exact hholds d

end

namespace Orders

/-- The state of a line, by its name or its place. -/
def state : Ty := .enumeration "State" ["Open", "Closed"]

def order : Encoder := .document "Order" (some 0) 0

def line : Encoder := .document "Line" (some 1) 1

/-- Orders, which are paid or not, with lines of so many things. -/
def model : Model where
  schema := ⟨[⟨"Order", [("Paid", .boolean), ("Lines", .array line.valueType)]⟩,
    ⟨"Line", [("Count", .int32), ("State", state)]⟩]⟩
  maps := ⟨[⟨"Order", [⟨"Paid", "p", .boolean⟩, ⟨"Lines", "lines", .array line⟩]⟩,
    ⟨"Line", [⟨"Count", "n", .integer .int32 .int64⟩,
      ⟨"State", "s", .enumeration "State" ["Open", "Closed"] .string⟩]⟩]⟩
  registry := ⟨[order]⟩

def paid : Expr := .member (.param "o" order.valueType) "Paid" (some .boolean)

def lines : Expr := .member (.param "o" order.valueType) "Lines" (some (.array line.valueType))

def count : Expr := .member (.param "l" line.valueType) "Count" (some .int32)

def lineState : Expr := .member (.param "l" line.valueType) "State" (some state)

/-- A closed line of two things or more. -/
def large : Expr :=
  .binary .and (.binary (.compare .le) (.const (.int 2) .int32) count (some .boolean))
    (.binary (.compare .eq) lineState (.const (.int 1) state) (some .boolean)) (some .boolean)

/-- Orders that are not paid and have a large line. -/
def owed : Predicate where
  name := "o"
  type := order.valueType
  body := .binary .and (.not paid)
    (.call none (.anyWhere line.valueType) [lines, .lambda "l" line.valueType large])
    (some .boolean)

theorem agrees : model.Agrees order := by
  let encoders : List Encoder := [order, .boolean, .array line, line, .integer .int32 .int64,
    .enumeration "State" ["Open", "Closed"] .string]
  have hmem : ∀ e, model.maps.Reaches order e → e ∈ encoders := fun e h =>
    h.mem_of_closed (by decide) (by decide)
  have htyped : ∀ e ∈ encoders, ∀ entry ∈ model.maps.members e,
      model.schema.memberType? e.valueType entry.member = some entry.encoder.valueType := by
    decide
  have hplain : ∀ e ∈ encoders, ∀ entry ∈ model.maps.members e, entry.element ≠ "" ∧
      '.' ∉ entry.element.toList ∧ Query.isReserved entry.element = false := by decide
  have hnamed : ∀ e ∈ encoders, e.valueType.values.Nodup := by decide
  refine ⟨fun e h => htyped e (hmem e h), ClassMaps.distinctElements_of_forall (by decide) order,
    fun e h entry hentry => ?_, fun name values representation h => hnamed _ (hmem _ h)⟩
  obtain ⟨hnonempty, hundotted, hunreserved⟩ := hplain e (hmem e h) entry hentry
  exact ⟨hnonempty, hundotted, hunreserved⟩

theorem chain_member {Γ : List (String × Encoder)} {object : Expr} {container : Encoder}
    (h : Chain model Γ object container) (name : String) {entry : MemberMap}
    (hentry : model.maps.find? container name = some entry)
    (htype : object.type?.bind (model.schema.memberType? · name) = some entry.encoder.valueType) :
    Chain model Γ (.member object name (some entry.encoder.valueType)) entry.encoder := by
  obtain ⟨owner, howner, hmember⟩ := Option.bind_eq_some_iff.mp htype
  exact .member h howner hmember hentry

theorem formula_owed : Formula model [(owed.name, order)] owed.body := by
  have horder : Chain model [("o", order)] (.param "o" order.valueType) order := .param rfl
  have hline : Chain model [("l", line), ("o", order)] (.param "l" line.valueType) line :=
    .param rfl
  have hpaid := chain_member horder "Paid" rfl rfl
  have hlines := chain_member horder "Lines" rfl rfl
  have hcount := chain_member hline "Count" rfl rfl
  have hstate := chain_member hline "State" rfl rfl
  have hlarge : Formula model [("l", line), ("o", order)] large :=
    .and (.converse _ _ hcount rfl) (.compare _ _ hstate rfl)
  exact .and (.not (.boolean hpaid)) (.anyWhere (by decide) hlines rfl hlarge)

theorem predicate_means_owed :
    let v : Json := .object [("Lines", .array [
      .object [("Count", .int 1), ("State", .string "Closed")],
      .object [("Count", .int 3), ("State", .int 1)]])]
    let d : Json := .object [("lines", .array [
      .object [("n", .int 1), ("s", .string "Closed")],
      .object [("n", .int 3), ("s", .string "Closed")]])]
    model.maps.encode order v = .ok d ∧
      ∃ f document, Compile.predicate model 64 owed = .ok f ∧ f.render = .ok document ∧
        Query.holds .ofStored d document = true := by
  intro v d
  have hstored : model.maps.encode order v = .ok d := rfl
  have hmeans := Compile.predicate_means Interpretation.reads_ofStored agrees rfl (p := owed)
    rfl formula_owed 64
  have hok : (Compile.predicate model 64 owed).toOption.isSome = true := by decide
  refine ⟨hstored, ?_⟩
  cases h : Compile.predicate model 64 owed with
  | error e =>
      rw [h] at hok
      cases hok
  | ok f =>
      obtain ⟨document, hrender, hholds⟩ := hmeans.of_ok h
      refine ⟨f, document, rfl, hrender, ?_⟩
      rw [hholds v d hstored]
      decide

end Orders

end QueryFilter
