import QueryFilter.Proofs.Loaded
import QueryFilter.Proofs.Rounds
import QueryFilter.Proofs.Totality
import QueryFilter.Proofs.Unplaced

/-!
Models that have the same classes, wherever they keep them. Encoders match if
they have the same structure and each refers to a class of the same name; what
matches encodes alike, and every predicate compiles to the same filter under
both models, or is refused for the same cause.
-/

namespace QueryFilter

open List (Forall₂)

/-! ### Encoders that match -/

/-- Encoders of one structure, of models whose classes have the names `names`
and `names'` in order. Classes are matched by name. -/
inductive Encoder.Matches (names names' : List String) : Encoder → Encoder → Prop where
  | boolean : Matches names names' .boolean .boolean
  | string : Matches names names' .string .string
  | double : Matches names names' .double .double
  | integer (width : Width) (representation : Representation) :
      Matches names names' (.integer width representation) (.integer width representation)
  | enumeration (name : String) (values : List String) (representation : Representation) :
      Matches names names' (.enumeration name values representation)
        (.enumeration name values representation)
  | array {item item' : Encoder} : Matches names names' item item' →
      Matches names names' (.array item) (.array item')
  | dictionary {key key' value value' : Encoder} (layout : Layout) :
      Matches names names' key key' → Matches names names' value value' →
      Matches names names' (.dictionary layout key value) (.dictionary layout key' value')
  | document {name : String} {place place' : Nat} : names[place]? = some name →
      names'[place']? = some name →
      Matches names names' (Declaration.encoderAt name place) (Declaration.encoderAt name place')

/-- Entries for one member and one element, whose encoders match. -/
structure MemberMap.Matches (names names' : List String) (entry entry' : MemberMap) : Prop where
  member : entry'.member = entry.member
  element : entry'.element = entry.element
  encoder : entry.encoder.Matches names names' entry'.encoder

section

variable {names names' : List String} {e e' : Encoder}

theorem Encoder.Matches.unplaced_valueType (h : e.Matches names names' e') :
    e'.valueType.unplaced = e.valueType.unplaced := by
  induction h with
  | array _ ih => rw [valueType, valueType, Ty.unplaced, Ty.unplaced, ih]
  | dictionary _ _ _ ihkey ihvalue =>
      rw [valueType, valueType, Ty.unplaced, Ty.unplaced, ihkey, ihvalue]
  | _ => rfl

theorem Encoder.Matches.name_valueType (h : e.Matches names names' e') :
    e'.valueType.name = e.valueType.name := by
  rw [← Ty.name_unplaced, h.unplaced_valueType, Ty.name_unplaced]

theorem Encoder.Matches.kind_valueType (h : e.Matches names names' e') :
    e'.valueType.kind = e.valueType.kind := by
  rw [← Ty.kind_unplaced, h.unplaced_valueType, Ty.kind_unplaced]

theorem Encoder.Matches.kind_eq (h : e.Matches names names' e') : e'.kind = e.kind := by
  cases h with
  | array hitem => exact congrArg (fun name => "ArraySerializer<" ++ name ++ ">") hitem.name_valueType
  | dictionary _ hkey hvalue =>
      exact congrArg₂ (fun key value => "DictionarySerializer<" ++ key ++ ", " ++ value ++ ">")
        hkey.name_valueType hvalue.name_valueType
  | _ => rfl

theorem Encoder.Matches.representation?_eq (h : e.Matches names names' e') :
    e'.representation? = e.representation? := by
  cases h <;> rfl

theorem Encoder.Matches.isNumeric_eq (h : e.Matches names names' e') :
    e'.isNumeric = e.isNumeric := by
  rw [isNumeric, isNumeric, h.representation?_eq]

theorem Encoder.Matches.encodeScalar_eq (h : e.Matches names names' e') (v : Json) :
    e'.encodeScalar v = e.encodeScalar v := by
  have hmismatch : (e'.mismatch v : Except EncodeError Json) = e.mismatch v := by
    rw [mismatch, mismatch, h.kind_eq]
  cases h with
  | array hitem | dictionary _ hkey hvalue | document => cases v <;> first | rfl | exact hmismatch
  | _ => rfl

end

/-! ### Models that match -/

namespace Model

/-- The names of the classes of a model, in order. -/
def classNames (model : Model) : List String := model.maps.maps.map ClassMap.className

/-- An encoder of one model and its counterpart in another. -/
abbrev Match (model model' : Model) : Encoder → Encoder → Prop :=
  Encoder.Matches model.classNames model'.classNames

/-- Models whose classes have the same names and the same members, in any
order. -/
structure Matches (model model' : Model) : Prop where
  members : ∀ e e', model.Match model' e e' →
    Forall₂ (MemberMap.Matches model.classNames model'.classNames) (model.maps.members e)
      (model'.maps.members e')
  roots : ∀ t t' : Ty, t'.name = t.name →
    Option.Rel (model.Match model') (model.registry.find? t) (model'.registry.find? t')

variable {model model' : Model}

theorem Matches.find? (h : model.Matches model') {e e' : Encoder} (he : model.Match model' e e')
    (name : String) :
    Option.Rel (MemberMap.Matches model.classNames model'.classNames) (model.maps.find? e name)
      (model'.maps.find? e' name) := by
  unfold ClassMaps.find?
  have hmembers := h.members e e' he
  generalize model.maps.members e = entries at hmembers ⊢
  generalize model'.maps.members e' = entries' at hmembers ⊢
  induction hmembers with
  | nil => exact .none
  | @cons entry entry' entries entries' hentry _ ih =>
      rw [List.find?_cons, List.find?_cons, hentry.member]
      cases entry.member == name with
      | true => exact .some hentry
      | false => exact ih

theorem entryWith_eq {parts parts' : ClassMaps.Coding} {whole whole' : Encoder} {layout : Layout}
    {key key' value value' : Encoder} {entry : Json × Json} (hkind : whole'.kind = whole.kind)
    (hkey : parts' key' entry.1 = parts key entry.1)
    (hvalue : parts' value' entry.2 = parts value entry.2) :
    ClassMaps.entryWith parts' whole' layout key' value' entry =
      ClassMaps.entryWith parts whole layout key value entry := by
  rw [ClassMaps.entryWith, ClassMaps.entryWith, hkind, hkey, hvalue]

theorem Matches.memberWith_eq (h : model.Matches model') {parts parts' : ClassMaps.Coding}
    {whole whole' : Encoder} (hwhole : model.Match model' whole whole') {field : String × Json}
    (hparts : ∀ part part', model.Match model' part part' →
      parts' part' field.2 = parts part field.2) :
    model'.maps.memberWith parts' whole' field = model.maps.memberWith parts whole field := by
  have hfind := h.find? hwhole field.1
  unfold ClassMaps.memberWith
  generalize model.maps.find? whole field.1 = found at hfind ⊢
  generalize model'.maps.find? whole' field.1 = found' at hfind ⊢
  cases hfind with
  | none => rw [hwhole.kind_eq]
  | some hentry =>
      dsimp only
      rw [hparts _ _ hentry.encoder, hentry.element]

/-- What matches encodes alike, to the same stored value or with the same
error. -/
theorem Matches.encode_eq (h : model.Matches model') {e e' : Encoder}
    (he : model.Match model' e e') (v : Json) : model'.maps.encode e' v = model.maps.encode e v := by
  induction hn : v.height using Nat.strongRecOn generalizing e e' v with
  | ind n ih =>
      subst hn
      have hpart {part part' : Encoder} (hmatch : model.Match model' part part') {w : Json}
          (hw : w.height < v.height) : model'.maps.encode part' w = model.maps.encode part w :=
        ih w.height hw hmatch w rfl
      have hscalar := he.encodeScalar_eq v
      have hkind := he.kind_eq
      rw [ClassMaps.encode_eq_round, ClassMaps.encode_eq_round]
      cases he with
      | boolean | string | double | integer | enumeration => exact hscalar
      | array hitem =>
          cases v with
          | array items =>
              dsimp only [ClassMaps.round]
              rw [mapM_congr fun w hw => hpart hitem (Json.height_lt_of_mem_items hw)]
          | _ => exact hscalar
      | dictionary layout hkey hvalue =>
          dsimp only [ClassMaps.round]
          rw [mapM_congr fun entry hentry => entryWith_eq hkind
            (hpart hkey (Json.height_lt_of_mem_entries hentry).1)
            (hpart hvalue (Json.height_lt_of_mem_entries hentry).2), hscalar]
      | document hplace hplace' =>
          cases v with
          | object fields =>
              have hmembers := mapM_congr fun field hfield =>
                h.memberWith_eq (.document hplace hplace') fun part part' hmatch =>
                  hpart hmatch (Json.height_lt_of_mem_fields hfield)
              exact congrArg (· >>= fun elements => pure (Json.ofPairs elements)) hmembers
          | _ => exact hscalar

theorem Matches.encodeItems_eq (h : model.Matches model') {e e' : Encoder}
    (he : model.Match model' e e') (vs : List Json) :
    model'.maps.encodeItems e' vs = model.maps.encodeItems e vs := by
  rw [ClassMaps.encodeItems_eq_mapM, ClassMaps.encodeItems_eq_mapM]
  exact mapM_congr fun v _ => h.encode_eq he v

end Model

/-! ### Runs that match -/

/-- Results that stand in a relation, or errors that are the same but for what
`forget` takes from them. -/
def Alike {ε α β : Type} (forget : ε → ε) (R : α → β → Prop) : Except ε α → Except ε β → Prop
  | .ok a, .ok b => R a b
  | .error e, .error e' => e' = forget e
  | _, _ => False

section

variable {ε α β γ δ : Type} {forget : ε → ε} {R : α → β → Prop} {Q : γ → δ → Prop}

theorem Alike.bind {x : Except ε α} {x' : Except ε β} {f : α → Except ε γ} {f' : β → Except ε δ}
    (hx : Alike forget R x x') (hf : ∀ a b, R a b → Alike forget Q (f a) (f' b)) :
    Alike forget Q (x >>= f) (x' >>= f') := by
  match x, x', hx with
  | .ok a, .ok b, h => exact hf a b h
  | .error _, .error _, h => exact h

theorem Alike.bind_same {x x' : Except ε α} {f : α → Except ε γ} {f' : α → Except ε δ}
    (hx : Alike forget (fun a b => b = a) x x') (hf : ∀ a, Alike forget Q (f a) (f' a)) :
    Alike forget Q (x >>= f) (x' >>= f') :=
  hx.bind fun a _ hab => hab ▸ hf a

/-- A step that both runs take alike. -/
theorem Alike.after (x : Except ε α) {f : α → Except ε γ} {f' : α → Except ε δ}
    (hf : ∀ a, Alike id Q (f a) (f' a)) : Alike id Q (x >>= f) (x >>= f') := by
  cases x with
  | ok a => exact hf a
  | error e => exact rfl

theorem Alike.ite {p : Prop} [Decidable p] {x y : Except ε α} {x' y' : Except ε β}
    (hx : Alike forget R x x') (hy : Alike forget R y y') :
    Alike forget R (if p then x else y) (if p then x' else y') := by
  split
  · exact hx
  · exact hy

theorem Alike.eq {x x' : Except ε α} (h : Alike forget (fun a b => b = a) x x') :
    x' = x.mapError forget := by
  match x, x', h with
  | .ok _, .ok _, rfl => rfl
  | .error _, .error _, h => exact congrArg Except.error h

end

/-- Results that stand in a relation, or errors that differ in the places of
classes at most. -/
abbrev Compiled.Alike {α β : Type} (R : α → β → Prop) : Compiled α → Compiled β → Prop :=
  QueryFilter.Alike CompileError.unplaced R

theorem alike_refuse {α β : Type} {R : α → β → Prop} (e : Expr) (cause : Cause) :
    (e.refuse cause : Compiled α).Alike R (e.unplaced.refuse cause : Compiled β) := rfl

/-- The same filter under both models. -/
abbrev Compiled.SameFilter : Compiled Filter → Compiled Filter → Prop :=
  Compiled.Alike fun f g => g = f

theorem alike_ofBuild (filter : Except FilterError Filter) :
    (Compiled.ofBuild filter).SameFilter (Compiled.ofBuild filter) := by
  cases filter <;> exact rfl

/-- Symbols that differ in their encoders, which match. -/
structure Symbol.Matches (model model' : Model) (symbol symbol' : Symbol) : Prop where
  name : symbol'.name = symbol.name
  path : symbol'.path = symbol.path
  encoder : model.Match model' symbol.encoder symbol'.encoder
  isItem : symbol'.isItem = symbol.isItem
  level : symbol'.level = symbol.level

/-- The same scope over models that match. -/
structure Scope.Matches (s s' : Scope) : Prop where
  model : s.model.Matches s'.model
  maxDepth : s'.maxDepth = s.maxDepth
  depth : s'.depth = s.depth
  level : s'.level = s.level
  symbols : Forall₂ (Symbol.Matches s.model s'.model) s.symbols s'.symbols

/-- The same field, under encoders that match. -/
structure Field.Matches (model model' : Model) (f f' : Field) : Prop where
  path : f'.path = f.path
  encoder : model.Match model' f.encoder f'.encoder

namespace Scope

variable {s s' : Scope}

theorem matches_create {model model' : Model} (h : model.Matches model') (maxDepth : Nat) :
    (create model maxDepth).Matches (create model' maxDepth) := ⟨h, rfl, rfl, rfl, .nil⟩

theorem Matches.descend (h : s.Matches s') : s.descend.Matches s'.descend :=
  ⟨h.model, h.maxDepth, congrArg (· + 1) h.depth, h.level, h.symbols⟩

theorem Matches.le_iff (h : s.Matches s') : s'.maxDepth ≤ s'.depth ↔ s.maxDepth ≤ s.depth := by
  rw [h.maxDepth, h.depth]

theorem Matches.bind (h : s.Matches s') (name : String) (path : Path) {e e' : Encoder}
    (he : s.model.Match s'.model e e') (isItem : Bool) :
    (s.bind name path e isItem).Matches (s'.bind name path e' isItem) :=
  ⟨h.model, h.maxDepth, h.depth, h.level, .cons ⟨rfl, rfl, he, rfl, h.level⟩ h.symbols⟩

theorem Matches.enter (h : s.Matches s') (name : String) {e e' : Encoder}
    (he : s.model.Match s'.model e e') : (s.enter name e).Matches (s'.enter name e') := by
  have hdeeper : Matches { s with level := s.level + 1 } { s' with level := s'.level + 1 } :=
    ⟨h.model, h.maxDepth, h.depth, congrArg (· + 1) h.level, h.symbols⟩
  exact hdeeper.bind name .root he true

theorem Matches.find? (h : s.Matches s') (name : String) :
    Option.Rel (Symbol.Matches s.model s'.model) (s.find? name) (s'.find? name) := by
  have hsymbols := h.symbols
  unfold Scope.find?
  generalize s.symbols = symbols at hsymbols ⊢
  generalize s'.symbols = symbols' at hsymbols ⊢
  induction hsymbols with
  | nil => exact .none
  | @cons symbol symbol' symbols symbols' hsymbol _ ih =>
      rw [List.find?_cons, List.find?_cons, hsymbol.name]
      cases symbol.name == name with
      | true => exact .some hsymbol
      | false => exact ih

theorem alike_encode (h : s.Matches s') {encoder encoder' : Encoder}
    (hencoder : s.model.Match s'.model encoder encoder') (value : Json) (e : Expr) :
    (s.encode encoder value (some e)).Alike (fun v w => w = v)
      (s'.encode encoder' value (some e.unplaced)) := by
  unfold Scope.encode
  rw [h.model.encode_eq hencoder]
  cases s.model.maps.encode encoder value <;> exact rfl

theorem alike_encodeOrNull (h : s.Matches s') {encoder encoder' : Encoder}
    (hencoder : s.model.Match s'.model encoder encoder') (value : Json) (e : Expr) :
    (s.encodeOrNull encoder value (some e)).Alike (fun v w => w = v)
      (s'.encodeOrNull encoder' value (some e.unplaced)) :=
  .ite rfl (alike_encode h hencoder value e)

theorem alike_encodeItems (h : s.Matches s') {encoder encoder' : Encoder}
    (hencoder : s.model.Match s'.model encoder encoder') (values : Json) (e : Expr) :
    (s.encodeItems encoder values (some e)).Alike (fun v w => w = v)
      (s'.encodeItems encoder' values (some e.unplaced)) := by
  unfold Scope.encodeItems
  split
  · rename_i items
    rw [h.model.encodeItems_eq hencoder]
    cases s.model.maps.encodeItems encoder items <;> exact rfl
  · exact rfl

end Scope

namespace Compile

variable {s s' : Scope}

/-! ### Fields and comparisons -/

theorem alike_memberField (h : s.Matches s') {container container' : Field}
    (hcontainer : container.Matches s.model s'.model container') (e : Expr) (name : String) :
    (memberField s e container name).Alike (Field.Matches s.model s'.model)
      (memberField s' e.unplaced container' name) := by
  have hfind := h.model.find? hcontainer.encoder name
  unfold memberField
  rw [hcontainer.encoder.kind_eq]
  generalize s.model.maps.find? container.encoder name = found at hfind ⊢
  generalize s'.model.maps.find? container'.encoder name = found' at hfind ⊢
  cases hfind with
  | none => exact alike_refuse e _
  | some hentry =>
      refine ⟨?_, hentry.encoder⟩
      dsimp only [Field.child]
      rw [hcontainer.path, hentry.element]

theorem alike_indexField (h : s.Matches s') {container container' : Field}
    (hcontainer : container.Matches s.model s'.model container') (e : Expr) (key : Option Json) :
    (indexField s e container key).Alike (Field.Matches s.model s'.model)
      (indexField s' e.unplaced container' key) := by
  obtain ⟨path, encoder⟩ := container
  obtain ⟨path', encoder'⟩ := container'
  obtain ⟨hpath, hencoder⟩ := hcontainer
  obtain rfl : path' = path := hpath
  have hkind := hencoder.kind_eq
  cases hencoder with
  | array hitem =>
      dsimp only [indexField]
      cases key.bind Json.word? with
      | none => exact alike_refuse e _
      | some n => exact .ite (alike_refuse e _) ⟨rfl, hitem⟩
  | dictionary layout hkey hvalue =>
      cases layout with
      | document =>
          cases key with
          | none => exact alike_refuse e _
          | some key =>
              refine (Scope.alike_encode h hkey key e).bind_same fun stored => ?_
              cases stored with
              | string text => exact ⟨rfl, hvalue⟩
              | _ => exact alike_refuse e _
      | _ => exact alike_refuse e _
  | _ =>
      dsimp only at hkind
      dsimp only [indexField]
      rw [hkind]
      exact alike_refuse e _

/-- A chain of members and indexes is the same field. -/
theorem alike_chain (h : s.Matches s') :
    (e : Expr) → (chain s e).Alike (Field.Matches s.model s'.model) (chain s' e.unplaced)
  | .param name type => by
      have hfind := h.find? name
      rw [Expr.unplaced, chain, chain]
      generalize s.find? name = found at hfind ⊢
      generalize s'.find? name = found' at hfind ⊢
      cases hfind with
      | none => exact alike_refuse (.param name type) _
      | some hsymbol =>
          dsimp only
          rw [hsymbol.level, h.level]
          exact .ite ⟨hsymbol.path, hsymbol.encoder⟩ (alike_refuse (.param name type) _)
  | .member object name type => by
      rw [Expr.unplaced, chain, chain]
      exact (alike_chain h object).bind fun container container' hcontainer =>
        alike_memberField h hcontainer (.member object name type) name
  | .index object key type => by
      rw [Expr.unplaced, chain, chain, Expr.const?_unplaced]
      exact (alike_chain h object).bind fun container container' hcontainer =>
        alike_indexField h hcontainer (.index object key type) key.const?
  | .const value type => alike_refuse (.const value type) _
  | .call object method args => alike_refuse (.call object method args) _
  | .binary op left right type => alike_refuse (.binary op left right type) _
  | .not operand => alike_refuse (.not operand) _
  | .lambda name type body => alike_refuse (.lambda name type body) _

theorem isDocument_unplaced (h : s.Matches s') (e : Expr) :
    isDocument s' e.unplaced = isDocument s e := by
  cases e with
  | param name type =>
      have hfind := h.find? name
      rw [Expr.unplaced, isDocument, isDocument]
      generalize s.find? name = found at hfind ⊢
      generalize s'.find? name = found' at hfind ⊢
      cases hfind with
      | none => rfl
      | some hsymbol => rw [Option.any_some, Option.any_some, hsymbol.isItem]
  | _ => rfl

theorem alike_field (h : s.Matches s') (e : Expr) :
    (field s e).Alike (Field.Matches s.model s'.model) (field s' e.unplaced) := by
  unfold field
  rw [isDocument_unplaced h]
  exact .ite (alike_refuse e _) (alike_chain h e)

theorem alike_remainder (h : s.Matches s') (e dividend divisor : Expr) (how : Comparison)
    (value : Json) : (remainder s e dividend divisor how value).SameFilter
      (remainder s' e.unplaced dividend.unplaced divisor.unplaced how value) := by
  unfold remainder
  rw [Expr.const?_unplaced]
  refine .ite (alike_refuse e _) ?_
  cases divisor.const?.bind Json.word? with
  | none => exact alike_refuse e _
  | some d =>
      refine .ite (alike_refuse e _) ?_
      cases value.word? with
      | none => exact alike_refuse e _
      | some r =>
          refine (alike_field h dividend).bind fun f f' hf => ?_
          rw [hf.encoder.isNumeric_eq, hf.encoder.representation?_eq, hf.encoder.kind_eq, hf.path]
          exact .ite ((alike_ofBuild _).bind_same fun test => rfl) (alike_refuse e _)

theorem alike_lengthTest (e : Expr) (array : Path) (n : Int) (how : Comparison) :
    (lengthTest e array n how).SameFilter (lengthTest e.unplaced array n how) := by
  cases how with
  | eq => exact alike_ofBuild _
  | ne => exact (alike_ofBuild _).bind_same fun test => rfl
  | gt | le => exact rfl
  | ge | lt => exact .ite (alike_refuse e _) rfl

theorem alike_arrayLength (h : s.Matches s') (e array : Expr) (how : Comparison) (value : Json) :
    (arrayLength s e array how value).SameFilter
      (arrayLength s' e.unplaced array.unplaced how value) := by
  unfold arrayLength
  cases value.word? with
  | none => exact alike_refuse e _
  | some n =>
      refine .ite (alike_refuse e _) ((alike_field h array).bind fun f f' hf => ?_)
      rw [hf.path]
      exact alike_lengthTest e f.path n how

theorem alike_compareWith (h : s.Matches s') (e operand : Expr) (how : Comparison) (value : Json) :
    (compareWith s e operand how value).SameFilter
      (compareWith s' e.unplaced operand.unplaced how value) := by
  by_cases hmod : ∃ dividend divisor type, operand = .binary .mod dividend divisor type
  · obtain ⟨dividend, divisor, type, rfl⟩ := hmod
    exact alike_remainder h e dividend divisor how value
  -- what is no remainder is none without places
  have hmod' (dividend divisor : Expr) (type : Option Ty)
      (hoperand : operand.unplaced = .binary .mod dividend divisor type) : False := by
    cases operand with
    | binary op left right type =>
        cases hoperand
        exact hmod ⟨left, right, type, rfl⟩
    | _ => cases hoperand
  rw [compareWith, compareWith, lengthOf?_unplaced]
  · cases lengthOf? operand with
    | some array => exact alike_arrayLength h e array how value
    | none =>
        refine (alike_field h operand).bind fun f f' hf => ?_
        rw [hf.path]
        refine .ite (.ite rfl (alike_refuse e _)) ?_
        exact (Scope.alike_encode h hf.encoder value e).bind_same fun stored => rfl
  · exact hmod'
  · exact fun dividend divisor type hoperand => hmod ⟨dividend, divisor, type, hoperand⟩

theorem alike_comparison (h : s.Matches s') (e : Expr) (how : Comparison) (left right : Expr) :
    (comparison s e how left right).SameFilter
      (comparison s' e.unplaced how left.unplaced right.unplaced) := by
  unfold comparison
  rw [Expr.const?_unplaced, Expr.const?_unplaced]
  cases left.const? with
  | some value =>
      cases right.const? with
      | some _ => exact alike_refuse e _
      | none => exact alike_compareWith h e right how.converse value
  | none =>
      cases right.const? with
      | some value => exact alike_compareWith h e left how value
      | none =>
          rw [noConstantCause, noConstantCause, Expr.isFieldReference_unplaced,
            Expr.isFieldReference_unplaced]
          exact alike_refuse e _

theorem alike_binary (h : s.Matches s') (e : Expr) (op : BinaryOp) (left right : Expr) :
    (binary s e op left right).SameFilter
      (binary s' e.unplaced op left.unplaced right.unplaced) := by
  cases op with
  | compare how => exact alike_comparison h e how left right
  | _ => exact alike_refuse e _

/-! ### Calls -/

theorem alike_refuseCall {α β : Type} {R : α → β → Prop} (c : Call) (cause : Cause) :
    (c.refuse cause : Compiled α).Alike R (c.unplaced.refuse cause : Compiled β) := by
  rw [Call.refuse, Call.refuse, Call.toExpr_unplaced]
  exact alike_refuse c.toExpr cause

theorem alike_keyText (h : s.Matches s') (c : Call) (key : Expr) {encoder encoder' : Encoder}
    (hencoder : s.model.Match s'.model encoder encoder') :
    (keyText s c key encoder).Alike (fun t u => u = t)
      (keyText s' c.unplaced key.unplaced encoder') := by
  unfold keyText
  rw [Expr.const?_unplaced]
  cases key.const? with
  | none => exact alike_refuseCall c _
  | some value =>
      dsimp only
      rw [h.model.encode_eq hencoder]
      cases s.model.maps.encode encoder value with
      | error error => exact alike_refuseCall c _
      | ok stored =>
          cases stored with
          | string key => exact rfl
          | _ => exact alike_refuseCall c _

theorem alike_containsKey (h : s.Matches s') (c : Call) :
    (containsKey s c).SameFilter (containsKey s' c.unplaced) := by
  unfold containsKey
  rw [Call.operands?_unplaced]
  dsimp only [Call.unplaced]
  rw [Method.isContainsKey_unplaced]
  cases c.method.isContainsKey with
  | false => exact alike_refuseCall c _
  | true =>
      rcases c.operands? with _ | ⟨object, key⟩
      · exact alike_refuseCall c _
      refine (alike_field h object).bind fun f f' hf => ?_
      obtain ⟨path, encoder⟩ := f
      obtain ⟨path', encoder'⟩ := f'
      obtain ⟨hpath, hencoder⟩ := hf
      obtain rfl : path' = path := hpath
      have hkind := hencoder.kind_eq
      cases hencoder with
      | dictionary layout hkey hvalue =>
          cases layout with
          | document => exact (alike_keyText h c key hkey).bind_same fun key => rfl
          | _ => exact alike_refuseCall c _
      | _ =>
          dsimp only at hkind ⊢
          rw [hkind]
          exact alike_refuseCall c _

theorem alike_containsValue (h : s.Matches s') (c : Call) :
    (containsValue s c).SameFilter (containsValue s' c.unplaced) := by
  unfold containsValue
  rw [Call.operands?_unplaced, Call.toExpr_unplaced]
  dsimp only [Call.unplaced]
  rw [Method.isContainsValue_unplaced]
  cases c.method.isContainsValue with
  | false => exact alike_refuseCall c _
  | true =>
      rcases c.operands? with _ | ⟨object, value⟩
      · exact alike_refuseCall c _
      dsimp only [Option.map_some, Prod.map]
      rw [Expr.const?_unplaced]
      refine (alike_field h object).bind fun f f' hf => ?_
      obtain ⟨path, encoder⟩ := f
      obtain ⟨path', encoder'⟩ := f'
      obtain ⟨hpath, hencoder⟩ := hf
      obtain rfl : path' = path := hpath
      have hkind := hencoder.kind_eq
      cases hencoder with
      | dictionary layout hkey hvalue =>
          dsimp only
          cases layout.valueStep? with
          | none => exact alike_refuseCall c _
          | some step =>
              cases value.const? with
              | none => exact alike_refuseCall c _
              | some constant =>
                  exact (Scope.alike_encode h hvalue constant c.toExpr).bind_same fun stored => rfl
      | _ =>
          dsimp only at hkind ⊢
          rw [hkind]
          exact alike_refuseCall c _

theorem alike_stringField (h : s.Matches s') (c : Call) (operand : Expr) :
    (stringField s c operand).Alike (Field.Matches s.model s'.model)
      (stringField s' c.unplaced operand.unplaced) := by
  unfold stringField
  rw [Expr.isFieldReference_unplaced]
  refine .ite ((alike_field h operand).bind fun f f' hf => ?_) (alike_refuseCall c _)
  rw [hf.encoder.kind_valueType, hf.path]
  exact .ite hf (alike_refuseCall c _)

theorem alike_stringMatch (h : s.Matches s') (c : Call) :
    (stringMatch s c).SameFilter (stringMatch s' c.unplaced) := by
  unfold stringMatch
  rw [Call.operands?_unplaced]
  dsimp only [Call.unplaced]
  rw [Method.isStringMatch_unplaced, Method.matching_unplaced]
  cases c.method.isStringMatch with
  | false => exact alike_refuseCall c _
  | true =>
      rcases c.operands? with _ | ⟨object, arg⟩
      · exact alike_refuseCall c _
      dsimp only [Option.map_some, Prod.map]
      rw [Expr.const?_unplaced]
      refine (alike_stringField h c object).bind fun f f' hf => ?_
      cases arg.const?.bind Json.string? with
      | none => exact alike_refuseCall c _
      | some literal =>
          dsimp only
          rw [hf.path]
          exact rfl

theorem alike_stringEmptiness (h : s.Matches s') (c : Call) :
    (stringEmptiness s c).SameFilter (stringEmptiness s' c.unplaced) := by
  unfold stringEmptiness
  obtain ⟨object, method, args⟩ := c
  dsimp only [Call.unplaced]
  rw [Method.isStringEmptiness_unplaced]
  cases method.isStringEmptiness with
  | false => exact alike_refuseCall _ _
  | true =>
      cases args with
      | nil => exact alike_refuseCall _ _
      | cons operand rest =>
          refine (alike_stringField h ⟨object, method, operand :: rest⟩ operand).bind
            fun f f' hf => ?_
          rw [hf.path]
          exact rfl

theorem alike_itemEncoder (c : Call) {f f' : Field} (hf : f.Matches s.model s'.model f') :
    (itemEncoder c f).Alike (s.model.Match s'.model) (itemEncoder c.unplaced f') := by
  obtain ⟨path, encoder⟩ := f
  obtain ⟨path', encoder'⟩ := f'
  obtain ⟨hpath, hencoder⟩ := hf
  obtain rfl : path' = path := hpath
  cases hencoder with
  | array hitem => exact hitem
  | _ => exact alike_refuseCall c _

theorem alike_contains (h : s.Matches s') (c : Call) :
    (contains s c).SameFilter (contains s' c.unplaced) := by
  unfold contains
  rw [membership?_unplaced, Call.toExpr_unplaced]
  rcases membership? c with _ | ⟨source, value⟩
  · exact alike_refuseCall c _
  dsimp only [Option.map_some, Prod.map]
  rw [Expr.const?_unplaced, Expr.const?_unplaced, Expr.isFieldReference_unplaced,
    Expr.isFieldReference_unplaced]
  cases source.const? with
  | some items =>
      refine .ite ((alike_field h value).bind fun f f' hf => ?_) (alike_refuseCall c _)
      rw [hf.path]
      exact (Scope.alike_encodeItems h hf.encoder items c.toExpr).bind_same fun stored => rfl
  | none =>
      refine .ite ((alike_field h source).bind fun f f' hf => ?_) (alike_refuseCall c _)
      rw [hf.path]
      refine (alike_itemEncoder c hf).bind fun item item' hitem => ?_
      cases value.const? with
      | some constant =>
          exact (Scope.alike_encodeOrNull h hitem constant c.toExpr).bind_same fun stored => rfl
      | none => exact alike_refuseCall c _

theorem alike_equals (h : s.Matches s') (c : Call) :
    (equals s c).SameFilter (equals s' c.unplaced) := by
  unfold equals
  rw [Call.operands?_unplaced, Call.toExpr_unplaced]
  dsimp only [Call.unplaced]
  rw [Method.isEquals_unplaced]
  cases c.method.isEquals with
  | false => exact alike_refuseCall c _
  | true =>
      rcases c.operands? with _ | ⟨object, arg⟩
      · exact alike_refuseCall c _
      dsimp only [Option.map_some, Prod.map]
      rw [Expr.const?_unplaced]
      -- the constant is the receiver of both or the argument of both
      obtain ⟨operand, other, hpair, hpair'⟩ : ∃ operand other,
          (if object.const?.isSome = true then (arg, object) else (object, arg))
            = (operand, other) ∧
          (if object.const?.isSome = true then (arg.unplaced, object.unplaced)
            else (object.unplaced, arg.unplaced)) = (operand.unplaced, other.unplaced) := by
        split
        · exact ⟨_, _, rfl, rfl⟩
        · exact ⟨_, _, rfl, rfl⟩
      rw [hpair, hpair']
      dsimp only
      rw [Expr.const?_unplaced, Expr.isFieldReference_unplaced, Expr.isFieldReference_unplaced]
      cases other.const? with
      | none => exact .ite (alike_refuseCall c _) (alike_refuseCall c _)
      | some value =>
          refine (alike_field h operand).bind fun f f' hf => ?_
          rw [hf.path]
          exact (Scope.alike_encodeOrNull h hf.encoder value c.toExpr).bind_same fun stored => rfl

theorem alike_elemMatch (c : Call) (path : Path) (body : Filter) :
    (elemMatch c path body).SameFilter (elemMatch c.unplaced path body) := by
  cases body with
  | everything | nothing => exact rfl
  | _ =>
      unfold elemMatch
      dsimp only
      generalize Filter.isElemMatchBody _ = fits
      match fits with
      | .ok true => exact rfl
      | .ok false => exact alike_refuseCall c _
      | .error error => exact rfl

theorem alike_any (h : s.Matches s') (c : Call) {body body' : Scope → Compiled Filter}
    (hbody : ∀ source name type e rest item item', c.args = source :: .lambda name type e :: rest →
      s.model.Match s'.model item item' →
      (body (s.enter name item)).SameFilter (body' (s'.enter name item'))) :
    (any s c body).SameFilter (any s' c.unplaced body') := by
  have hany : c.unplaced.method.isAny = c.method.isAny := c.method.isAny_unplaced
  have hwhere : c.unplaced.method.isAnyWhere = c.method.isAnyWhere := c.method.isAnyWhere_unplaced
  unfold any
  rw [hany, hwhere]
  obtain ⟨object, method, args⟩ := c
  cases method.isAny || method.isAnyWhere with
  | false => exact alike_refuseCall _ _
  | true =>
      cases args with
      | nil => exact alike_refuseCall _ _
      | cons source rest =>
          refine (alike_field h source).bind fun f f' hf => ?_
          refine (alike_itemEncoder ⟨object, method, source :: rest⟩ hf).bind
            fun item item' hitem => ?_
          rw [hf.path]
          refine .ite rfl ?_
          cases rest with
          | nil => exact alike_refuseCall ⟨object, method, [source]⟩ _
          | cons test rest =>
              cases test with
              | lambda name type e =>
                  refine (hbody source name type e rest item item' rfl hitem).bind_same
                    fun inner => ?_
                  exact alike_elemMatch ⟨object, method, source :: .lambda name type e :: rest⟩
                    f.path inner
              | _ => exact alike_refuseCall _ _

theorem alike_call (h : s.Matches s') (c : Call) {body body' : Scope → Compiled Filter}
    (hbody : ∀ source name type e rest item item', c.args = source :: .lambda name type e :: rest →
      s.model.Match s'.model item item' →
      (body (s.enter name item)).SameFilter (body' (s'.enter name item'))) :
    (call s c body).SameFilter (call s' c.unplaced body') := by
  have hshape : c.unplaced.method.shape? = c.method.shape? := c.method.shape?_unplaced
  have htext : c.unplaced.method.text? = c.method.text? := c.method.text?_unplaced
  unfold call
  rw [hshape, htext]
  cases c.method.shape? with
  | none => exact alike_refuseCall c _
  | some shape =>
      cases shape with
      | containsKey => exact alike_containsKey h c
      | containsValue => exact alike_containsValue h c
      | stringMatch => exact alike_stringMatch h c
      | stringEmptiness => exact alike_stringEmptiness h c
      | sequenceContains | listContains => exact alike_contains h c
      | any | anyWhere => exact alike_any h c hbody
      | equals => exact alike_equals h c

/-! ### Predicates -/

theorem alike_booleanField (h : s.Matches s') (e : Expr) :
    (booleanField s e).SameFilter (booleanField s' e.unplaced) := by
  unfold booleanField
  rw [Expr.isBoolean_unplaced]
  refine .ite ((alike_field h e).bind fun f f' hf => ?_) (alike_refuse e _)
  rw [hf.path]
  exact (Scope.alike_encode h hf.encoder _ e).bind_same fun stored => rfl

theorem alike_booleanConst (e : Expr) (value : Json) :
    (booleanConst e value).SameFilter (booleanConst e.unplaced value) := by
  unfold booleanConst
  split
  · exact rfl
  · exact rfl
  · exact alike_refuse e _

/-- What an expression compiles to does not depend on the places of classes, at
any depth of nested predicates. -/
theorem alike_expression (s s' : Scope) (e : Expr) (h : s.Matches s') :
    (expression s e).SameFilter (expression s' e.unplaced) := by
  -- the second run is opened beside the first
  fun_induction expression s e generalizing s' with
  | case1 e s hdepth =>
      rw [expression.eq_def, if_pos (h.le_iff.mpr hdepth), h.maxDepth]
      exact alike_refuse e _
  | case2 s hdepth left right type ihl ihr | case3 s hdepth left right type ihl ihr =>
      rw [Expr.unplaced, expression, if_neg (mt h.le_iff.mp hdepth)]
      exact (ihl _ h.descend).bind_same fun l =>
        (ihr _ h.descend).bind_same fun r => alike_ofBuild _
  | case4 s hdepth op left right type hand hor =>
      rw [Expr.unplaced, expression, if_neg (mt h.le_iff.mp hdepth)]
      · exact alike_binary h.descend (.binary op left right type) op left right
      · exact hand
      · exact hor
  | case5 s hdepth operand ih =>
      rw [Expr.unplaced, expression, if_neg (mt h.le_iff.mp hdepth)]
      exact (ih _ h.descend).bind_same fun f => rfl
  | case6 s hdepth object method args ih =>
      rw [Expr.unplaced_call, expression, if_neg (mt h.le_iff.mp hdepth)]
      refine alike_call h.descend ⟨object, method, args⟩
        fun source name type e rest item item' hargs hitem => ?_
      obtain rfl : args = source :: .lambda name type e :: rest := hargs
      exact ih _ _ (h.descend.enter name hitem)
  | case7 s hdepth object name type =>
      rw [Expr.unplaced, expression, if_neg (mt h.le_iff.mp hdepth)]
      exact alike_booleanField h.descend (.member object name type)
  | case8 s hdepth object key type =>
      rw [Expr.unplaced, expression, if_neg (mt h.le_iff.mp hdepth)]
      exact alike_booleanField h.descend (.index object key type)
  | case9 s hdepth name type =>
      rw [Expr.unplaced, expression, if_neg (mt h.le_iff.mp hdepth)]
      exact alike_booleanField h.descend (.param name type)
  | case10 s hdepth value type =>
      rw [Expr.unplaced, expression, if_neg (mt h.le_iff.mp hdepth)]
      exact alike_booleanConst (.const value type) value
  | case11 s hdepth name type body =>
      rw [Expr.unplaced, expression, if_neg (mt h.le_iff.mp hdepth)]
      exact alike_refuse (.lambda name type body) _

theorem alike_predicate {model model' : Model} (h : model.Matches model') (maxDepth : Nat)
    (p : Predicate) :
    (predicate model maxDepth p).SameFilter (predicate model' maxDepth p.unplaced) := by
  have hroot := h.roots p.type p.type.unplaced p.type.name_unplaced
  unfold predicate predicateIn Predicate.unplaced
  dsimp only [Scope.create]
  rw [Expr.isBoolean_unplaced, Ty.name_unplaced]
  generalize model.registry.find? p.type = root at hroot ⊢
  generalize model'.registry.find? p.type.unplaced = root' at hroot ⊢
  cases hroot with
  | none => exact alike_refuse (.param p.name p.type) _
  | some hroot =>
      refine .ite ?_ (alike_refuse p.toExpr _)
      exact alike_expression _ _ _ ((Scope.matches_create h maxDepth).bind p.name .root hroot false)

/-- Predicates that differ at most in the places of classes compile to the same
filter under models that match, or are refused for the same cause. -/
theorem predicate_eq_of_matches {model model' : Model} (h : model.Matches model')
    (hself : model'.Matches model') (maxDepth : Nat) {p p' : Predicate}
    (hp : p'.unplaced = p.unplaced) :
    (predicate model' maxDepth p').mapError CompileError.unplaced =
      (predicate model maxDepth p).mapError CompileError.unplaced := by
  rw [← (alike_predicate h maxDepth p).eq, ← (alike_predicate hself maxDepth p').eq, hp]

end Compile

end QueryFilter
