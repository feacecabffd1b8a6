import QueryFilter.Compile.Predicate
import QueryFilter.Flow.Reader
import QueryFilter.Proofs.Checked
import QueryFilter.Proofs.Location
import QueryFilter.Proofs.Referred
import QueryFilter.Proofs.Totality

/-!
In a loaded model static types and encoders agree: wherever a field is found
for a part of a checked predicate, the encoder of the field is of the type of
the part. So what is an array or a string by its type is stored as one.
-/

namespace QueryFilter

/-! ### Expressions over typed parameters -/

/-- Every class of `known` is still there with the members that it had, in
front of any that were added to it. -/
def Schema.Extends (schema known : Schema) : Prop :=
  ∀ t, known.members t <+: schema.members t

theorem Schema.Extends.refl (schema : Schema) : schema.Extends schema :=
  fun t => List.prefix_refl (schema.members t)

theorem Schema.memberType?_of_extends {schema known : Schema} (h : schema.Extends known)
    {name member : String} {place : Option Nat} {type : Ty}
    (hknown : known.memberType? (.cls name place) member = some type) :
    schema.memberType? (.cls name place) member = some type := by
  rw [memberType?_cls] at hknown ⊢
  obtain ⟨more, hmore⟩ := h (.cls name place)
  rw [← hmore, List.lookup_append, hknown, Option.some_or]

namespace Expr

/-- The predicate of an `Any` is over values of the element type of its source. -/
def OverItems (method : Method) (args : List Expr) : Prop :=
  method.isAnyWhere = true → ∀ source name type body rest element,
    args = source :: .lambda name type body :: rest → source.type? = some (.array element) →
      type = element

/-- What the checked constructors build over the parameters `Γ`, the innermost
first, with the classes of `known`. A parameter is used as what it was bound as,
and that of the predicate of an `Any` is an item of its source. -/
inductive BuiltOver (known : Schema) : List (String × Ty) → Expr → Prop where
  | parameter {Γ : List (String × Ty)} {name : String} {type : Option Ty} {e : Expr} :
      (∀ bound, Γ.lookup name = some bound → type = some bound) →
      parameter name type = .ok e → BuiltOver known Γ e
  | constant {Γ : List (String × Ty)} {value : Json} {type : Option Ty} {e : Expr} :
      constant value type = .ok e → BuiltOver known Γ e
  | memberOf {Γ : List (String × Ty)} {schema : Schema} {object e : Expr} {name : String} :
      schema.Extends known → BuiltOver known Γ object →
      memberOf schema (some object) name = .ok e → BuiltOver known Γ e
  | indexOf {Γ : List (String × Ty)} {object key e : Expr} :
      BuiltOver known Γ object → BuiltOver known Γ key →
      indexOf (some object) (some key) = .ok e → BuiltOver known Γ e
  | callOn {Γ : List (String × Ty)} {object e : Expr} {method : Method} {args : List Expr} :
      BuiltOver known Γ object → (∀ arg ∈ args, BuiltOver known Γ arg) →
      callOn (some object) (some method) (args.map some) = .ok e → BuiltOver known Γ e
  | callStatic {Γ : List (String × Ty)} {method : Method} {args : List Expr} {e : Expr} :
      (∀ arg ∈ args, BuiltOver known Γ arg) → OverItems method args →
      callStatic (some method) (args.map some) = .ok e → BuiltOver known Γ e
  | binaryOf {Γ : List (String × Ty)} {op : BinaryOp} {left right e : Expr} :
      BuiltOver known Γ left → BuiltOver known Γ right →
      binaryOf op (some left) (some right) = .ok e → BuiltOver known Γ e
  | notOf {Γ : List (String × Ty)} {operand e : Expr} :
      BuiltOver known Γ operand → notOf (some operand) = .ok e → BuiltOver known Γ e
  | lambdaOf {Γ : List (String × Ty)} {name : String} {type : Ty} {body e : Expr} :
      BuiltOver known ((name, type) :: Γ) body →
      lambdaOf (some (.param name type)) (some body) = .ok e → BuiltOver known Γ e

/-! ### What the constructors say of types -/

theorem typed_eq_ok {what : String} {e : Expr} {t : Ty} (h : typed what e = .ok t) :
    e.type? = some t := by
  unfold typed at h
  split at h
  · cases h
    assumption
  · cases h

theorem parameter_eq_ok {name : String} {type : Option Ty} {e : Expr}
    (h : parameter name type = .ok e) : ∃ t, type = some t ∧ e = .param name t := by
  obtain ⟨t, htype, ⟨⟩⟩ := bind_eq_ok.mp h
  cases type with
  | none => cases htype
  | some t =>
      cases htype
      exact ⟨t, rfl, rfl⟩

theorem constant_eq_ok {value : Json} {type : Option Ty} {e : Expr}
    (h : constant value type = .ok e) : ∃ t, e = .const value t := by
  obtain ⟨t, -, ⟨⟩⟩ := bind_eq_ok.mp h
  exact ⟨t, rfl⟩

theorem memberOf_typed {schema : Schema} {object e : Expr} {name : String}
    (h : memberOf schema (some object) name = .ok e) :
    ∃ owner type, object.type? = some owner ∧ schema.memberType? owner name = some type ∧
      e = .member object name (some type) := by
  obtain ⟨_, ⟨⟩, h⟩ := bind_eq_ok.mp h
  obtain ⟨owner, howner, h⟩ := bind_eq_ok.mp h
  split at h
  · cases h
    exact ⟨owner, _, typed_eq_ok howner, by assumption, rfl⟩
  · cases h

theorem indexOf_typed {object key e : Expr} (h : indexOf (some object) (some key) = .ok e) :
    ∃ owner type, object.type? = some owner ∧ owner.element? = some type ∧
      e = .index object key (some type) := by
  obtain ⟨_, ⟨⟩, h⟩ := bind_eq_ok.mp h
  obtain ⟨_, ⟨⟩, h⟩ := bind_eq_ok.mp h
  obtain ⟨owner, howner, h⟩ := bind_eq_ok.mp h
  obtain ⟨k, -, h⟩ := bind_eq_ok.mp h
  split at h
  · split at h
    · cases h
      exact ⟨_, _, typed_eq_ok howner, rfl, rfl⟩
    · cases h
  · split at h
    · cases h
      exact ⟨_, _, typed_eq_ok howner, rfl, rfl⟩
    · cases h
  · cases h

theorem lambdaOf_param_eq_ok {name : String} {type : Ty} {body e : Expr}
    (h : lambdaOf (some (.param name type)) (some body) = .ok e) : e = .lambda name type body := by
  cases h
  rfl

/-- The parts that are compiled in the scope of the whole. -/
def parts : Expr → List Expr
  | .member object _ _ => [object]
  | .index object key _ => [object, key]
  | .call object _ args => object.toList ++ args
  | .binary _ left right _ => [left, right]
  | .not operand => [operand]
  | .param .. | .const .. | .lambda .. => []

/-- The parts of what was built are built. -/
structure PartsBuilt (known : Schema) (Γ : List (String × Ty)) (e : Expr) : Prop where
  parts : ∀ part ∈ e.parts, part.BuiltOver known Γ
  call : ∀ object method args, e = .call object method args →
    object.isSome = !method.isStatic ∧ OverItems method args
  body : ∀ name type body, e = .lambda name type body → body.BuiltOver known ((name, type) :: Γ)

theorem overItems_of_instance {method : Method} (h : method.isStatic = false) (args : List Expr) :
    OverItems method args := by
  intro hany
  simp [Method.isAnyWhere, Method.asks, h] at hany

theorem BuiltOver.partsBuilt {known : Schema} {Γ : List (String × Ty)} {e : Expr}
    (h : e.BuiltOver known Γ) : e.PartsBuilt known Γ := by
  cases h with
  | parameter _ h =>
      obtain ⟨t, -, rfl⟩ := parameter_eq_ok h
      constructor <;> simp [Expr.parts]
  | constant h =>
      obtain ⟨t, rfl⟩ := constant_eq_ok h
      constructor <;> simp [Expr.parts]
  | memberOf _ hobject h =>
      obtain ⟨owner, type, -, -, rfl⟩ := memberOf_typed h
      constructor <;> simp [Expr.parts, hobject]
  | indexOf hobject hkey h =>
      obtain ⟨owner, type, -, -, rfl⟩ := indexOf_typed h
      constructor <;> simp [Expr.parts, hobject, hkey]
  | callOn hobject hargs h =>
      obtain ⟨rfl, hstatic, -⟩ := callOn_eq_ok h
      constructor
      · simpa [Expr.parts, hobject] using hargs
      · rintro _ _ _ ⟨⟩
        exact ⟨by simp [hstatic], overItems_of_instance hstatic _⟩
      · simp
  | callStatic hargs hitems h =>
      obtain ⟨rfl, hstatic, -⟩ := callStatic_eq_ok h
      constructor
      · simpa [Expr.parts] using hargs
      · rintro _ _ _ ⟨⟩
        exact ⟨by simp [hstatic], hitems⟩
      · simp
  | binaryOf hleft hright h =>
      obtain ⟨type, rfl⟩ := binaryOf_eq_ok h
      constructor <;> simp [Expr.parts, hleft, hright]
  | notOf hoperand h =>
      obtain rfl := notOf_eq_ok h
      constructor <;> simp [Expr.parts, hoperand]
  | lambdaOf hbody h =>
      obtain rfl := lambdaOf_param_eq_ok h
      constructor
      · simp [Expr.parts]
      · simp
      · rintro _ _ _ ⟨⟩
        exact hbody

end Expr

/-! ### Models whose types and encoders agree -/

/-- An encoder all of whose classes are mapped by the model. -/
def Encoder.KnownTo (maps : ClassMaps) (encoder : Encoder) : Prop :=
  ∀ c ∈ encoder.classes, ∃ (place : Nat) (map : ClassMap),
    maps.maps[place]? = some map ∧ c = Declaration.encoderAt map.className place

/-- A model whose mapped members are of the types of their encoders. -/
structure Model.Sound (model : Model) : Prop where
  registered : ∀ encoder ∈ model.registry.encoders, encoder.KnownTo model.maps
  mapped : ∀ map ∈ model.maps.maps, ∀ entry ∈ map.members, entry.encoder.KnownTo model.maps
  typed : ∀ (place : Nat) (map : ClassMap) (member : String), model.maps.maps[place]? = some map →
    model.schema.memberType? (Declaration.encoderAt map.className place).valueType member
      = (map.members.find? (·.member == member)).map (·.encoder.valueType)

theorem Declaration.sound_ofMaps {descriptions : List (Option Flow)} {maps : List ClassMap}
    (h : Describes descriptions maps) : (ofMaps maps).Sound where
  registered encoder hencoder c hc := by
    obtain ⟨place, map, hmap, rfl⟩ := mem_registered_iff.mp hencoder
    exact ⟨place, map, hmap, List.mem_singleton.mp hc⟩
  mapped map hmap entry hentry c hc := by
    obtain ⟨graph, -, hlinked⟩ := h.linked
    obtain ⟨place, inner, hinner, rfl, -⟩ := hlinked map hmap entry hentry c hc
    exact ⟨place, inner, hinner, rfl⟩
  typed place map member hmap := memberType?_ofMaps hmap map.className member

theorem Configuration.sound_of_ofText {reader : Reader} {text : String} {config : Configuration}
    (h : Configuration.ofText reader text = .ok config) : config.model.Sound := by
  obtain ⟨descriptions, maps, hmaps, hmodel⟩ := describes_of_ofText h
  rw [hmodel]
  exact Declaration.sound_ofMaps hmaps

theorem Model.Sound.member {model : Model} (h : model.Sound) {container : Encoder}
    (hknown : container.KnownTo model.maps) {name : String} {entry : MemberMap}
    (hentry : model.maps.find? container name = some entry) :
    model.schema.memberType? container.valueType name = some entry.encoder.valueType ∧
      entry.encoder.KnownTo model.maps := by
  cases container with
  | document className _ _ =>
      obtain ⟨place, map, hmap, heq⟩ := hknown _ (List.mem_singleton_self _)
      have hfind : map.members.find? (·.member == name) = some entry := by
        rw [heq] at hentry
        simpa [ClassMaps.find?, ClassMaps.members, Declaration.encoderAt, hmap] using hentry
      refine ⟨?_, h.mapped map (List.mem_of_getElem? hmap) entry (List.mem_of_find?_eq_some hfind)⟩
      rw [heq, h.typed place map name hmap, hfind]
      rfl
  | _ => cases hentry

/-- A set of encoders that has the parts of all that are in it, and in which the
static types of members are those of their encoders. -/
structure Model.AgreesOn (model : Model) (P : Encoder → Prop) : Prop where
  typed : ∀ container name entry, P container → model.maps.find? container name = some entry →
    model.schema.memberType? container.valueType name = some entry.encoder.valueType
  parts : ∀ container, P container → ∀ part ∈ model.maps.parts container, P part

theorem Model.Sound.agreesOn {model : Model} (h : model.Sound) :
    model.AgreesOn (Encoder.KnownTo model.maps) where
  typed _ _ _ hknown hentry := (h.member hknown hentry).1
  parts := ClassMaps.parts_closed (fun _ hknown => hknown)
    (fun _ _ _ hknown => ⟨fun c hc => hknown c (List.mem_append_left _ hc),
      fun c hc => hknown c (List.mem_append_right _ hc)⟩) h.mapped

/-! ### Fields of the types of their expressions -/

namespace Scope

/-- The parameters of a scope stand for values of the types in `Γ`, with
encoders in `P`. -/
def BoundIn (s : Scope) (Γ : List (String × Ty)) (P : Encoder → Prop) : Prop :=
  ∀ name symbol, s.find? name = some symbol →
    Γ.lookup name = some symbol.encoder.valueType ∧ P symbol.encoder

theorem BoundIn.enter {s : Scope} {Γ : List (String × Ty)} {P : Encoder → Prop}
    (h : s.BoundIn Γ P) (name : String) {item : Encoder} (hitem : P item) :
    (s.enter name item).BoundIn ((name, item.valueType) :: Γ) P := by
  intro other symbol hfind
  by_cases hname : name = other
  · subst hname
    rw [Scope.enter, find?_bind_self, Option.some.injEq] at hfind
    subst hfind
    exact ⟨List.lookup_cons_self, hitem⟩
  · rw [Scope.enter, find?_bind_of_ne _ _ _ _ hname] at hfind
    rw [List.lookup_cons, beq_false_of_ne (Ne.symm hname)]
    exact h other symbol hfind

theorem boundIn_document {P : Encoder → Prop} {root : Encoder} (hroot : P root) (model : Model)
    (maxDepth : Nat) (name : String) (depth : Nat) :
    (document model maxDepth name root depth).BoundIn [(name, root.valueType)] P := by
  intro other symbol hfind
  have hsymbol : symbol = ⟨name, .root, root, false, 0⟩ :=
    List.mem_singleton.mp (List.mem_of_find?_eq_some hfind)
  have hname : symbol.name = other := by simpa using List.find?_some hfind
  subst hsymbol hname
  exact ⟨List.lookup_cons_self, hroot⟩

/-- A scope whose parameters stand for values of the types in `Γ`. -/
structure TypedBy (s : Scope) (Γ : List (String × Ty)) : Prop where
  bound : ∀ name symbol, s.find? name = some symbol →
    Γ.lookup name = some symbol.encoder.valueType ∧ symbol.encoder.KnownTo s.model.maps

theorem TypedBy.enter {s : Scope} {Γ : List (String × Ty)} (h : s.TypedBy Γ) (name : String)
    {item : Encoder} (hitem : item.KnownTo s.model.maps) :
    (s.enter name item).TypedBy ((name, item.valueType) :: Γ) :=
  ⟨BoundIn.enter (P := Encoder.KnownTo s.model.maps) h.bound name hitem⟩

theorem typedBy_document {model : Model} (hmodel : model.Sound) {root : Encoder}
    (hroot : root ∈ model.registry.encoders) (maxDepth : Nat) (name : String) (depth : Nat) :
    (document model maxDepth name root depth).TypedBy [(name, root.valueType)] :=
  ⟨boundIn_document (hmodel.registered root hroot) model maxDepth name depth⟩

end Scope

/-- What a call asks about: its receiver, or else its first argument. -/
def Call.subject? (c : Call) : Option Expr := c.object.or c.args.head?

namespace Compile

variable {s : Scope} {Γ : List (String × Ty)}

/-- A field and an expression of one type. -/
structure FieldOf (s : Scope) (e : Expr) (f : Field) : Prop where
  type : e.type? = some f.encoder.valueType
  known : f.encoder.KnownTo s.model.maps

/-- The same with an encoder in `P`. -/
structure FieldIn (P : Encoder → Prop) (e : Expr) (f : Field) : Prop where
  type : e.type? = some f.encoder.valueType
  inside : P f.encoder

/-- An error that takes no string for something else. -/
def Blames (operand : Expr) (error : CompileError) : Prop :=
  ∀ path, error.cause = .fieldNotString path → operand.type? ≠ some .string

theorem blames_refuse {α : Type} {gives : α → Prop} (operand e : Expr) {cause : Cause}
    (h : ∀ path, cause ≠ .fieldNotString path) :
    Compiled.Meets (Blames operand) gives (e.refuse cause) :=
  fun path hcause => absurd hcause (h path)

theorem blames_encode (operand : Expr) (s : Scope) (encoder : Encoder) (value : Json)
    (e : Option Expr) : (s.encode encoder value e).Meets (Blames operand) fun _ => True := by
  unfold Scope.encode
  cases s.model.maps.encode encoder value with
  | ok stored => trivial
  | error error =>
      intro path hcause
      cases hcause

theorem fieldIn_memberField {P : Encoder → Prop} (hP : s.model.AgreesOn P) {schema : Schema}
    (hschema : schema.Extends s.model.schema) {object e : Expr} {name : String}
    (he : Expr.memberOf schema (some object) name = .ok e) {container : Field}
    (hcontainer : FieldIn P object container) (operand : Expr) :
    (memberField s e container name).Meets (Blames operand) (FieldIn P e) := by
  obtain ⟨owner, type, howner, htype, rfl⟩ := Expr.memberOf_typed he
  rw [hcontainer.type, Option.some.injEq] at howner
  subst howner
  unfold memberField
  split
  · rename_i entry hentry
    have hmember := hP.typed _ _ _ hcontainer.inside hentry
    have hinside := hP.parts _ hcontainer.inside _ (ClassMaps.mem_parts_of_find? hentry)
    have hsame : schema.memberType? container.encoder.valueType name
        = some entry.encoder.valueType := by
      cases hcls : container.encoder.valueType with
      | cls className place =>
          rw [hcls] at hmember
          exact Schema.memberType?_of_extends hschema hmember
      | _ =>
          -- only classes have members of their own
          rw [hcls] at hmember
          exact hmember
    exact ⟨htype.symm.trans hsame, hinside⟩
  · exact blames_refuse _ _ (by simp)

theorem fieldIn_indexField {P : Encoder → Prop} (hP : s.model.AgreesOn P) {object key e : Expr}
    (he : Expr.indexOf (some object) (some key) = .ok e) {container : Field}
    (hcontainer : FieldIn P object container) (operand : Expr) :
    (indexField s e container key.const?).Meets (Blames operand) (FieldIn P e) := by
  obtain ⟨owner, type, howner, htype, rfl⟩ := Expr.indexOf_typed he
  rw [hcontainer.type, Option.some.injEq] at howner
  subst howner
  have hinside := hcontainer.inside
  unfold indexField
  split
  · rename_i item hitem
    rw [hitem] at htype hinside
    split
    · split
      · exact blames_refuse _ _ (by simp)
      · exact ⟨htype.symm, hP.parts _ hinside _ (List.mem_singleton_self _)⟩
    · exact blames_refuse _ _ (by simp)
  · rename_i keyEncoder value hdictionary
    rw [hdictionary] at htype hinside
    split
    · exact blames_refuse _ _ (by simp)
    · refine (blames_encode ..).bind fun stored _ => ?_
      split
      · exact ⟨htype.symm, hP.parts _ hinside _ (List.mem_pair.mpr (.inr rfl))⟩
      · exact blames_refuse _ _ (by simp)
  · exact blames_refuse _ _ (by simp)
  · exact blames_refuse _ _ (by simp)

/-- The encoder at the end of a chain is of the type of the chain. -/
theorem fieldIn_chain {P : Encoder → Prop} (hP : s.model.AgreesOn P) (hs : s.BoundIn Γ P)
    {e : Expr} (he : e.BuiltOver s.model.schema Γ) (operand : Expr) :
    (chain s e).Meets (Blames operand) (FieldIn P e) := by
  induction he with
  | parameter hbound hparam =>
      obtain ⟨t, rfl, rfl⟩ := Expr.parameter_eq_ok hparam
      rw [chain]
      split
      · exact blames_refuse _ _ (by simp)
      · rename_i symbol hfind
        obtain ⟨hlookup, hinside⟩ := hs _ symbol hfind
        split
        · exact ⟨hbound _ hlookup, hinside⟩
        · exact blames_refuse _ _ (by simp)
  | memberOf hschema _ hmember ih =>
      obtain ⟨type, heq⟩ := Expr.memberOf_eq_ok hmember
      rw [heq, chain, ← heq]
      exact (ih hs).bind fun container hcontainer =>
        fieldIn_memberField hP hschema hmember hcontainer operand
  | indexOf _ _ hindex ih _ =>
      obtain ⟨type, heq⟩ := Expr.indexOf_eq_ok hindex
      rw [heq, chain, ← heq]
      exact (ih hs).bind fun container hcontainer =>
        fieldIn_indexField hP hindex hcontainer operand
  | constant h =>
      obtain ⟨t, rfl⟩ := Expr.constant_eq_ok h
      exact blames_refuse _ _ (by simp)
  | callOn _ _ h =>
      obtain ⟨rfl, -, -⟩ := Expr.callOn_eq_ok h
      exact blames_refuse _ _ (by simp)
  | callStatic _ _ h =>
      obtain ⟨rfl, -, -⟩ := Expr.callStatic_eq_ok h
      exact blames_refuse _ _ (by simp)
  | binaryOf _ _ h =>
      obtain ⟨type, rfl⟩ := Expr.binaryOf_eq_ok h
      exact blames_refuse _ _ (by simp)
  | notOf _ h =>
      obtain rfl := Expr.notOf_eq_ok h
      exact blames_refuse _ _ (by simp)
  | lambdaOf _ h =>
      obtain rfl := Expr.lambdaOf_param_eq_ok h
      exact blames_refuse _ _ (by simp)

/-- A field is of the type of its expression. -/
theorem fieldOf_field (hmodel : s.model.Sound) (hs : s.TypedBy Γ) {e : Expr}
    (he : e.BuiltOver s.model.schema Γ) (operand : Expr) :
    (field s e).Meets (Blames operand) (FieldOf s e) := by
  unfold field
  split
  · exact blames_refuse _ _ (by simp)
  · exact (fieldIn_chain hmodel.agreesOn hs.bound he operand).mono fun f hf => ⟨hf.type, hf.inside⟩

/-! ### The parts of a predicate and their scopes -/

/-- The expressions that are compiled along with `e`, with their scopes: parts
in the scope of the whole, at any depth, and the predicate of an `Any` in that
of an item of its source. -/
inductive Visits (s : Scope) (e : Expr) : Scope → Expr → Prop where
  | whole : Visits s e s e
  | deeper {t : Scope} {part : Expr} : Visits s e t part → Visits s e t.descend part
  | part {t : Scope} {outer part : Expr} :
      Visits s e t outer → part ∈ outer.parts → Visits s e t part
  | item {t : Scope} {object : Option Expr} {method : Method} {source body : Expr} {name : String}
      {type : Ty} {rest : List Expr} {f : Field} {item : Encoder} :
      Visits s e t (.call object method (source :: .lambda name type body :: rest)) →
      method.isAnyWhere = true → field t source = .ok f → f.encoder = .array item →
      Visits s e (t.enter name item) body

/-- An expression over the parameters of its scope. -/
structure Typed (model : Model) (s : Scope) (e : Expr) : Prop where
  model : s.model = model
  sound : s.model.Sound
  built : ∃ Γ, s.TypedBy Γ ∧ e.BuiltOver s.model.schema Γ

theorem Typed.field_eq_ok {model : Model} {e : Expr} (h : Typed model s e) {f : Field}
    (hf : field s e = .ok f) : FieldOf s e f := by
  obtain ⟨Γ, hs, he⟩ := h.built
  exact (fieldOf_field h.sound hs he e).of_ok hf

theorem Typed.part {model : Model} {outer part : Expr} (h : Typed model s outer)
    (hpart : part ∈ outer.parts) : Typed model s part := by
  obtain ⟨Γ, hs, he⟩ := h.built
  exact ⟨h.model, h.sound, Γ, hs, he.partsBuilt.parts part hpart⟩

theorem Typed.item {model : Model} {object : Option Expr} {method : Method} {source body : Expr}
    {name : String} {type : Ty} {rest : List Expr} {f : Field} {item : Encoder}
    (h : Typed model s (.call object method (source :: .lambda name type body :: rest)))
    (hany : method.isAnyWhere = true) (hf : field s source = .ok f)
    (hitem : f.encoder = .array item) : Typed model (s.enter name item) body := by
  have htyped : Typed model s source := h.part (by simp [Expr.parts])
  have hfield := htyped.field_eq_ok hf
  have hsource : source.type? = some (.array item.valueType) := by
    rw [hfield.type, hitem, Encoder.valueType]
  have hknown : item.KnownTo s.model.maps := by
    have hknown := hfield.known
    rwa [hitem] at hknown
  obtain ⟨Γ, hs, he⟩ := h.built
  have htype : type = item.valueType :=
    (he.partsBuilt.call _ _ _ rfl).2 hany source name type body rest _ rfl hsource
  have hlambda := he.partsBuilt.parts (.lambda name type body) (by simp [Expr.parts])
  refine ⟨h.model, h.sound, _, hs.enter name hknown, ?_⟩
  rw [← htype]
  exact hlambda.partsBuilt.body _ _ _ rfl

theorem Visits.typed {model : Model} {e part : Expr} {t : Scope} (h : Visits s e t part)
    (hs : Typed model s e) : Typed model t part := by
  induction h with
  | whole => exact hs
  | deeper _ ih =>
      obtain ⟨Γ, ht, hpart⟩ := ih.built
      exact ⟨ih.model, ih.sound, Γ, ⟨ht.bound⟩, hpart⟩
  | part _ hpart ih => exact ih.part hpart
  | item _ hany hf hitem ih => exact ih.item hany hf hitem

/-! ### What follows of arrays and strings -/

theorem isArray_of_kind {encoder : Encoder} (h : encoder.valueType.kind = .array) :
    ∃ item, encoder = .array item := by
  cases encoder with
  | array item => exact ⟨item, rfl⟩
  | integer width => cases width <;> cases h
  | _ => cases h

/-- The array whose length is compared is stored as an array. -/
theorem compareWith_length {model : Model} {e operand array : Expr} (h : Typed model s operand)
    (hlength : lengthOf? operand = some array) {how : Comparison} {value : Json} {filter : Filter}
    (hfilter : compareWith s e operand how value = .ok filter) :
    ∃ f item n, field s array = .ok f ∧ f.encoder = .array item ∧
      lengthTest e f.path n how = .ok filter := by
  obtain ⟨name, type, element, rfl, helement, hkind⟩ := lengthOf?_eq_some hlength
  rw [compareWith, hlength] at hfilter
  · dsimp only [arrayLength] at hfilter
    split at hfilter
    · split at hfilter
      · cases hfilter
      · obtain ⟨f, hf, hfilter⟩ := bind_eq_ok.mp hfilter
        have harray : Typed model s array := h.part (by simp [Expr.parts])
        have htype := (harray.field_eq_ok hf).type
        rw [helement, Option.some.injEq] at htype
        rw [htype] at hkind
        obtain ⟨item, hitem⟩ := isArray_of_kind hkind
        exact ⟨f, item, _, hf, hitem, hfilter⟩
    · cases hfilter
  · simp

theorem comparison_length {model : Model} {left right array : Expr} {how : Comparison}
    {type : Option Ty} (h : Typed model s (.binary (.compare how) left right type))
    (hlength : lengthOf? left = some array ∨ lengthOf? right = some array) {filter : Filter}
    (hfilter : comparison s (.binary (.compare how) left right type) how left right = .ok filter) :
    ∃ f item n how', field s array = .ok f ∧ f.encoder = .array item ∧
      lengthTest (.binary (.compare how) left right type) f.path n how' = .ok filter := by
  have hconst (e : Expr) (he : e.const?.isSome = true) : lengthOf? e = none := by
    cases e with
    | const => rfl
    | _ => cases he
  have hleft : Typed model s left := h.part (by simp [Expr.parts])
  have hright : Typed model s right := h.part (by simp [Expr.parts])
  unfold comparison at hfilter
  split at hfilter
  · rename_i value hvalue hnone
    rw [hconst left (by simp [hvalue])] at hlength
    obtain ⟨f, item, n, hf⟩ := compareWith_length hright (hlength.resolve_left nofun) hfilter
    exact ⟨f, item, n, _, hf⟩
  · rename_i value hnone hvalue
    rw [hconst right (by simp [hvalue])] at hlength
    obtain ⟨f, item, n, hf⟩ := compareWith_length hleft (hlength.resolve_right nofun) hfilter
    exact ⟨f, item, n, _, hf⟩
  · cases hfilter
  · cases hfilter

theorem blames_stringField {model : Model} (c : Call) {operand : Expr} (h : Typed model s operand) :
    (stringField s c operand).Meets (Blames operand) fun _ => True := by
  unfold stringField
  split
  · obtain ⟨Γ, hs, he⟩ := h.built
    refine (fieldOf_field h.sound hs he operand).bind fun f hf => ?_
    split
    · trivial
    · rename_i hkind
      intro path _ hstring
      rw [hf.type, Option.some.injEq] at hstring
      rw [hstring] at hkind
      exact hkind rfl
  · exact blames_refuse _ _ (by simp)

theorem blames_stringMatch {model : Model} {c : Call} (h : Typed model s c.toExpr)
    {operand : Expr} (hsubject : c.subject? = some operand) :
    (stringMatch s c).Meets (Blames operand) fun _ => True := by
  unfold stringMatch
  split
  · rename_i object arg _ hoperands
    have hobject : c.object = some object := by
      unfold Call.operands? at hoperands
      split at hoperands
      · cases hoperands
        assumption
      · cases hoperands
    obtain rfl : object = operand := by simpa [Call.subject?, hobject] using hsubject
    have hpart : object ∈ c.toExpr.parts := by simp [Call.toExpr, Expr.parts, hobject]
    refine (blames_stringField c (h.part hpart)).bind fun f _ => ?_
    split
    · trivial
    · exact blames_refuse _ _ (by simp)
  · exact blames_refuse _ _ (by simp)

theorem blames_stringEmptiness {model : Model} {c : Call} (h : Typed model s c.toExpr)
    {operand : Expr} (hsubject : c.subject? = some operand) :
    (stringEmptiness s c).Meets (Blames operand) fun _ => True := by
  unfold stringEmptiness
  split
  · rename_i first rest hasks hargs
    have hstatic : c.method.isStatic = true := by
      simp [Method.isStringEmptiness, Method.asks] at hasks
      exact hasks.1.1.1.1.1
    obtain ⟨Γ, -, he⟩ := h.built
    have hobject : c.object = none := by
      have hsome := (he.partsBuilt.call _ _ _ rfl).1
      simpa [hstatic] using hsome
    obtain rfl : first = operand := by simpa [Call.subject?, hobject, hargs] using hsubject
    have hpart : first ∈ c.toExpr.parts := by simp [Call.toExpr, Expr.parts, hargs]
    exact (blames_stringField c (h.part hpart)).bind fun f _ => trivial
  · exact blames_refuse _ _ (by simp)

/-! ### Loaded models -/

theorem typed_document {model : Model} (hmodel : model.Sound) {root : Encoder}
    (hroot : root ∈ model.registry.encoders) {p : Predicate} (htype : p.type = root.valueType)
    (hbuilt : p.toExpr.BuiltOver model.schema []) (maxDepth : Nat) :
    Typed model (.document model maxDepth p.name root 0) p.body := by
  refine ⟨rfl, hmodel, _, Scope.typedBy_document hmodel hroot maxDepth p.name 0, ?_⟩
  rw [← htype]
  exact hbuilt.partsBuilt.body _ _ _ rfl

/-- In a loaded model every field that is found for a part of a predicate is of
the static type of the part. So a compared length is that of a field that is
stored as an array, and what is a string by its type is never refused as no
string. -/
theorem loaded_types_agree {reader : Reader} {text : String} {config : Configuration}
    (h : Configuration.ofText reader text = .ok config) {root : Encoder}
    (hroot : root ∈ config.model.registry.encoders) {p : Predicate}
    (htype : p.type = root.valueType) (hbuilt : p.toExpr.BuiltOver config.model.schema [])
    {maxDepth : Nat} {s : Scope} {e : Expr}
    (hvisits : Visits (.document config.model maxDepth p.name root 0) p.body s e) :
    config.model.registry.find? p.type = some root ∧
    (∀ f, field s e = .ok f → e.type? = some f.encoder.valueType) ∧
    (∀ how left right type array filter, e = .binary (.compare how) left right type →
      lengthOf? left = some array ∨ lengthOf? right = some array →
      comparison s e how left right = .ok filter →
        ∃ f item n how, field s array = .ok f ∧ f.encoder = .array item ∧
          lengthTest e f.path n how = .ok filter) ∧
    (∀ (c : Call) (operand : Expr), e = c.toExpr → c.subject? = some operand →
      operand.type? = some .string → ∀ path blamed,
        stringMatch s c ≠ .error ⟨.fieldNotString path, blamed⟩ ∧
        stringEmptiness s c ≠ .error ⟨.fieldNotString path, blamed⟩) := by
  have htyped := hvisits.typed
    (typed_document (Configuration.sound_of_ofText h) hroot htype hbuilt maxDepth)
  refine ⟨?_, fun f hf => (htyped.field_eq_ok hf).type, ?_, ?_⟩
  · obtain ⟨descriptions, maps, -, hmodel⟩ := Configuration.describes_of_ofText h
    rw [hmodel] at hroot ⊢
    rw [htype]
    exact Declaration.find?_registered hroot
  · rintro how left right type array filter rfl hlength hfilter
    exact comparison_length htyped hlength hfilter
  · rintro c operand rfl hsubject hstring path blamed
    constructor
    · intro herror
      exact (blames_stringMatch htyped hsubject).of_error herror path rfl hstring
    · intro herror
      exact (blames_stringEmptiness htyped hsubject).of_error herror path rfl hstring

end Compile

namespace Shop

def text : String :=
  "\x7b\"classes\": [\x7b\"name\": \"Shop\", \"members\": [\x7b\"name\": \"Tags\", \"type\": \"array\", "
    ++ "\"element\": \x7b\"type\": \"string\"\x7d\x7d]\x7d]\x7d"

def root : Encoder := .document "Shop" (some 0) 0

def model : Model := Declaration.ofMaps [⟨"Shop", [⟨"Tags", "Tags", .array .string⟩]⟩]

def tags : Expr := .member (.param "x" root.valueType) "Tags" (some (.array .string))

/-- Whether there is more than one tag. -/
def several : Expr :=
  .binary (.compare .gt) (.member tags "Length" (some .int32)) (.const (.int 1) .int32)
    (some .boolean)

def starts : Call := ⟨some (.param "t" .string), .startsWith, [.const (.string "a") .string]⟩

/-- More than one tag, and one that starts with a letter. -/
def tagged : Predicate where
  name := "x"
  type := root.valueType
  body := .binary .and several
    (.call none (.anyWhere .string) [tags, .lambda "t" .string starts.toExpr]) (some .boolean)

theorem loaded : ∃ config, Configuration.ofText .json text = .ok config ∧ config.model = model :=
  Configuration.model_of_maps (by decide +kernel)

theorem built_tagged : tagged.toExpr.BuiltOver model.schema [] := by
  have hparam {Γ : List (String × Ty)} (name : String) (type : Ty)
      (h : Γ.lookup name = some type) : (Expr.param name type).BuiltOver model.schema Γ :=
    .parameter (fun _ hbound => h.symm.trans hbound)
      (rfl : Expr.parameter name (some type) = .ok _)
  have hconst {Γ : List (String × Ty)} (value : Json) (type : Ty) :
      (Expr.const value type).BuiltOver model.schema Γ :=
    .constant (rfl : Expr.constant value (some type) = .ok _)
  have htags : tags.BuiltOver model.schema [("x", root.valueType)] :=
    .memberOf (.refl _) (hparam "x" root.valueType rfl)
      (rfl : Expr.memberOf model.schema (some (.param "x" root.valueType)) "Tags" = .ok _)
  have hlength := Expr.BuiltOver.memberOf (.refl _) htags
    (rfl : Expr.memberOf model.schema (some tags) "Length" = .ok _)
  have hseveral := Expr.BuiltOver.binaryOf hlength (hconst (.int 1) .int32)
    (rfl : Expr.binaryOf (.compare .gt) (some (.member tags "Length" (some .int32)))
      (some (.const (.int 1) .int32)) = .ok _)
  have hstarts : starts.toExpr.BuiltOver model.schema [("t", .string), ("x", root.valueType)] :=
    .callOn (hparam "t" .string rfl) (by simp [hconst])
      (rfl : Expr.callOn (some (.param "t" .string)) (some .startsWith)
        ([.const (.string "a") .string].map some) = .ok _)
  have hlambda := Expr.BuiltOver.lambdaOf hstarts
    (rfl : Expr.lambdaOf (some (.param "t" .string)) (some starts.toExpr) = .ok _)
  have hargs : ∀ arg ∈ [tags, .lambda "t" .string starts.toExpr],
      arg.BuiltOver model.schema [("x", root.valueType)] := by
    simp [htags, hlambda]
  have hitems : Expr.OverItems (.anyWhere .string)
      [tags, .lambda "t" .string starts.toExpr] := by
    rintro - _ _ _ _ _ _ ⟨⟩ ⟨⟩
    rfl
  have hany := Expr.BuiltOver.callStatic hargs hitems
    (rfl : Expr.callStatic (some (.anyWhere .string))
      ([tags, .lambda "t" .string starts.toExpr].map some) = .ok _)
  have hand := Expr.BuiltOver.binaryOf hseveral hany
    (rfl : Expr.binaryOf .and (some several)
      (some (.call none (.anyWhere .string) [tags, .lambda "t" .string starts.toExpr])) = .ok _)
  exact .lambdaOf hand
    (rfl : Expr.lambdaOf (some (.param "x" root.valueType)) (some tagged.body) = .ok _)

open Compile in
theorem loaded_types_agree_tagged :
    ∃ config, Configuration.ofText .json text = .ok config ∧ config.model = model ∧
      let outer := (Scope.document model 64 "x" root 0).descend
      let inner := outer.enter "t" .string
      (∃ f item n how, field outer tags = .ok f ∧ f.encoder = .array item ∧
        lengthTest several f.path n how = .ok (hasItem ⟨["Tags"]⟩ 1 true)) ∧
      ∀ path blamed, stringMatch inner starts ≠ .error ⟨.fieldNotString path, blamed⟩ := by
  obtain ⟨⟨maxDepth, level, _⟩, hconfig, rfl⟩ := loaded
  have hbody : Visits (Scope.document model 64 "x" root 0) tagged.body
      (Scope.document model 64 "x" root 0).descend tagged.body := .deeper .whole
  have hseveral : Visits (Scope.document model 64 "x" root 0) tagged.body
      (Scope.document model 64 "x" root 0).descend several :=
    hbody.part (by simp [tagged, Expr.parts])
  have hany : Visits (Scope.document model 64 "x" root 0) tagged.body
      (Scope.document model 64 "x" root 0).descend
      (.call none (.anyWhere .string) [tags, .lambda "t" .string starts.toExpr]) :=
    hbody.part (by simp [tagged, Expr.parts])
  have hfield : field (Scope.document model 64 "x" root 0).descend tags
      = .ok ⟨⟨["Tags"]⟩, .array .string⟩ := rfl
  have hstarts := hany.item (by decide) hfield rfl
  have hroot : root ∈ model.registry.encoders := List.mem_singleton_self _
  refine ⟨_, hconfig, rfl, ?_, ?_⟩
  · exact (loaded_types_agree hconfig hroot rfl built_tagged hseveral).2.2.1 _ _ _ _ tags _ rfl
      (.inl rfl) rfl
  · intro path blamed
    exact ((loaded_types_agree hconfig hroot rfl built_tagged hstarts).2.2.2 starts _ rfl rfl rfl
      path blamed).1

end Shop

end QueryFilter
