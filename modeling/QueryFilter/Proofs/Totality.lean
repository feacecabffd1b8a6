import QueryFilter.Compile.Predicate
import QueryFilter.Proofs.Placement
import QueryFilter.Proofs.Quoted

/-!
Every compilation ends in a filter that renders or in a refusal. Compiled
filters are well nested, and outside nested predicates they ask nothing of the
document itself; no filter is built or rendered in vain on the way. A refusal
quotes constants of the expression that it refuses.
-/

namespace QueryFilter

/-! ### Results of compilation -/

/-- A result of which `gives` holds, or an error of which `fails` holds. -/
def Compiled.Meets {α : Type} (fails : CompileError → Prop) (gives : α → Prop) :
    Compiled α → Prop
  | .ok a => gives a
  | .error e => fails e

namespace Compiled.Meets

variable {α β : Type} {fails : CompileError → Prop} {gives : α → Prop} {ends : β → Prop}

theorem bind {x : Compiled α} {f : α → Compiled β} (hx : x.Meets fails gives)
    (hf : ∀ a, gives a → (f a).Meets fails ends) : (x >>= f).Meets fails ends := by
  cases x with
  | ok a => exact hf a hx
  | error e => exact hx

theorem imp {x : Compiled α} {refuses : CompileError → Prop} (hx : x.Meets fails gives)
    (h : ∀ e, fails e → refuses e) : x.Meets refuses gives := by
  cases x with
  | ok a => exact hx
  | error e => exact h e hx

theorem mono {x : Compiled α} {holds : α → Prop} (hx : x.Meets fails gives)
    (h : ∀ a, gives a → holds a) : x.Meets fails holds := by
  cases x with
  | ok a => exact h a hx
  | error e => exact hx

theorem and {x : Compiled α} {refuses : CompileError → Prop} {holds : α → Prop}
    (hx : x.Meets fails gives) (h : x.Meets refuses holds) :
    x.Meets fails fun a => gives a ∧ holds a := by
  cases x with
  | ok a => exact ⟨hx, h⟩
  | error e => exact hx

theorem of_ok {x : Compiled α} (hx : x.Meets fails gives) {a : α} (h : x = .ok a) : gives a := by
  rw [h] at hx
  exact hx

theorem of_error {x : Compiled α} (hx : x.Meets fails gives) {e : CompileError}
    (h : x = .error e) : fails e := by
  rw [h] at hx
  exact hx

end Compiled.Meets

/-- The errors that a compilation may end in. -/
def Refused (e : CompileError) : Prop := e.isRefusal = true

theorem refused_iff {e : CompileError} : Refused e ↔ e.kind ≠ .none := by
  simp [Refused, CompileError.isRefusal]

theorem meets_refuse {α : Type} {gives : α → Prop} (e : Expr) (cause : Cause)
    (h : cause.isPlain = true) :
    Compiled.Meets CompileError.Explained gives (e.refuse cause) :=
  CompileError.explained_of_isPlain h (some e)

/-! ### Scopes and fields -/

/-- Outside nested predicates a parameter stands for the document. -/
def Scope.Rooted (s : Scope) : Prop := s.level = 0 → ∀ symbol ∈ s.symbols, symbol.isItem = false

namespace Scope

theorem rooted_create (model : Model) (maxDepth : Nat) : (create model maxDepth).Rooted := by
  intro _ symbol h
  cases h

theorem rooted_descend (s : Scope) (h : s.Rooted) : s.descend.Rooted := h

theorem rooted_bind {s : Scope} (h : s.Rooted) (name : String) (path : Path) (encoder : Encoder) :
    (s.bind name path encoder false).Rooted := by
  intro hlevel symbol hsymbol
  rcases List.mem_cons.mp hsymbol with rfl | hsymbol
  · rfl
  · exact h hlevel symbol hsymbol

theorem rooted_enter (s : Scope) (name : String) (encoder : Encoder) :
    (s.enter name encoder).Rooted := by
  intro hlevel
  simp [enter, bind] at hlevel

section

variable {s : Scope} {e : Expr} {value : Json}

theorem meets_encode (encoder : Encoder) (h : e.Quotes value) :
    (s.encode encoder value (some e)).Meets CompileError.Explained fun _ => True := by
  unfold encode
  cases hencode : s.model.maps.encode encoder value with
  | ok stored => trivial
  | error error =>
      exact CompileError.explained_encoding (ClassMaps.encode_concerns _ _ _ hencode) h

theorem meets_encodeOrNull (encoder : Encoder) (h : e.Quotes value) :
    (s.encodeOrNull encoder value (some e)).Meets CompileError.Explained fun _ => True := by
  unfold encodeOrNull
  split
  · trivial
  · exact meets_encode encoder h

theorem meets_encodeItems (encoder : Encoder) (h : e.Quotes value) :
    (s.encodeItems encoder value (some e)).Meets CompileError.Explained fun _ => True := by
  unfold encodeItems
  split
  · rename_i items
    cases hencode : s.model.maps.encodeItems encoder items with
    | ok stored => trivial
    | error error =>
        exact CompileError.explained_encoding (ClassMaps.encodeItems_concerns hencode) h
  · refine ⟨rfl, ?_, nofun⟩
    rintro v ⟨⟩
    exact ⟨e, rfl, h⟩

end

end Scope

namespace Compile

theorem meets_memberField (s : Scope) (e : Expr) (container : Field) (name : String) :
    (memberField s e container name).Meets CompileError.Explained fun f => f.path.isRoot = false := by
  unfold memberField
  split
  · exact Path.isRoot_child ..
  · exact meets_refuse _ _ rfl

theorem meets_indexField (s : Scope) {e : Expr} (container : Field) {key : Option Json}
    (hkey : ∀ value, key = some value → e.Quotes value) :
    (indexField s e container key).Meets CompileError.Explained fun f => f.path.isRoot = false := by
  unfold indexField
  split
  · split
    · split
      · exact meets_refuse _ _ rfl
      · exact Path.isRoot_child ..
    · exact meets_refuse _ _ rfl
  · split
    · exact meets_refuse _ _ rfl
    · refine (Scope.meets_encode _ (hkey _ rfl)).bind fun key _ => ?_
      split
      · exact Path.isRoot_child ..
      · exact meets_refuse _ _ rfl
  · exact meets_refuse _ _ rfl
  · exact meets_refuse _ _ rfl

/-- A chain whose path is the root is a parameter. -/
theorem meets_chain (s : Scope) (e : Expr) :
    (chain s e).Meets CompileError.Explained fun f => f.path.isRoot = true →
      ∃ name type symbol, e = .param name type ∧ s.find? name = some symbol := by
  fun_induction chain s e with
  | case1 => exact meets_refuse _ _ rfl
  | case2 name type symbol hfind => exact fun _ => ⟨name, type, symbol, rfl, hfind⟩
  | case3 => exact meets_refuse _ _ rfl
  | case4 object name type ih =>
      refine ih.bind fun container _ => ?_
      refine (meets_memberField ..).mono fun f hf hroot => ?_
      rw [hf] at hroot
      cases hroot
  | case5 object key type ih =>
      refine ih.bind fun container _ => ?_
      have hkey : key ∈ (Expr.index object key type).children := by simp [Expr.children]
      refine (meets_indexField s container fun value => Expr.quotes_of_const? hkey).mono
        fun f hf hroot => ?_
      rw [hf] at hroot
      cases hroot
  | case6 => exact meets_refuse _ _ rfl

/-- Outside nested predicates no field is the document itself. -/
theorem meets_field {s : Scope} (hs : s.Rooted) (e : Expr) :
    (field s e).Meets CompileError.Explained fun f => s.level = 0 → f.path.isRoot = false := by
  unfold field
  split
  · exact meets_refuse _ _ rfl
  · rename_i hdocument
    refine (meets_chain s e).mono fun f hf hlevel => ?_
    cases hroot : f.path.isRoot with
    | false => rfl
    | true =>
        -- a bare parameter would be the document, which was refused before
        obtain ⟨name, type, symbol, rfl, hfind⟩ := hf hroot
        have hitem := hs hlevel symbol (List.mem_of_find?_eq_some hfind)
        simp [isDocument, hfind, hitem] at hdocument

end Compile

/-! ### Filters in their places -/

/-- A filter that can stand inside `level` nested predicates. -/
def Filter.Placed (level : Nat) (f : Filter) : Prop :=
  f.WellNested ∧ (level = 0 → f.mentionsItem = false)

namespace Filter

theorem placed_test {level : Nat} {path : Path} (t : Test)
    (h : level = 0 → path.isRoot = false) : (test path t).Placed level := ⟨trivial, h⟩

theorem placed_not {level : Nat} {f : Filter} (h : f.Placed level) : (not f).Placed level := h

theorem placed_everything (level : Nat) : everything.Placed level := ⟨trivial, fun _ => rfl⟩

theorem placed_nothing (level : Nat) : nothing.Placed level := ⟨trivial, fun _ => rfl⟩

theorem placed_of_mem {level : Nat} {filters : List Filter} (h : (and filters).Placed level)
    {f : Filter} (hf : f ∈ filters) : f.Placed level := by
  refine ⟨(allWellNested_iff filters).mp h.1 f hf, fun hlevel => ?_⟩
  have hm := h.2 hlevel
  rw [mentionsItem, anyMentionsItem_eq, List.any_eq_false] at hm
  simpa using hm f hf

theorem placed_conjuncts {level : Nat} {f g : Filter} (h : f.Placed level)
    (hg : g ∈ f.conjuncts) : g.Placed level := by
  cases f with
  | and filters => exact placed_of_mem h hg
  | _ =>
      rw [List.mem_singleton.mp hg]
      exact h

theorem placed_disjuncts {level : Nat} {f g : Filter} (h : f.Placed level)
    (hg : g ∈ f.disjuncts) : g.Placed level := by
  cases f with
  | or filters => exact placed_of_mem h hg
  | _ =>
      rw [List.mem_singleton.mp hg]
      exact h

theorem placed_and {level : Nat} {filters : List Filter}
    (h : ∀ f ∈ filters, f.Placed level) : (and filters).Placed level := by
  refine ⟨(allWellNested_iff filters).mpr fun f hf => (h f hf).1, fun hlevel => ?_⟩
  rw [mentionsItem, anyMentionsItem_eq, List.any_eq_false]
  intro f hf
  simp [(h f hf).2 hlevel]

theorem placed_or {level : Nat} {filters : List Filter}
    (h : ∀ f ∈ filters, f.Placed level) : (or filters).Placed level := placed_and h

theorem placed_allOf_pair {level : Nat} {f g : Filter} (hf : f.Placed level)
    (hg : g.Placed level) : (allOf [f, g]).Placed level := by
  refine placed_and fun k hk => ?_
  simp only [List.flatMap_cons, List.flatMap_nil, List.append_nil, List.mem_append] at hk
  rcases hk with hk | hk
  · exact placed_conjuncts hf hk
  · exact placed_conjuncts hg hk

theorem placed_anyOf_pair {level : Nat} {f g : Filter} (hf : f.Placed level)
    (hg : g.Placed level) : (anyOf [f, g]).Placed level := by
  refine placed_or fun k hk => ?_
  simp only [List.flatMap_cons, List.flatMap_nil, List.append_nil, List.mem_append] at hk
  rcases hk with hk | hk
  · exact placed_disjuncts hf hk
  · exact placed_disjuncts hg hk

theorem placed_nonEmptyArray {level : Nat} {path : Path} (h : level = 0 → path.isRoot = false) :
    (nonEmptyArray path).Placed level :=
  placed_allOf_pair (placed_test _ h) (placed_not (placed_test _ h))

theorem placed_elemMatch {level : Nat} {path : Path} {body : Filter}
    (h : level = 0 → path.isRoot = false) (hbody : body.WellNested)
    (hfits : body.isElemMatchBody = .ok true) : (elemMatch path body).Placed level :=
  ⟨⟨hfits, hbody⟩, h⟩

end Filter

namespace Compile

variable {s : Scope}

theorem meets_remainder (hs : s.Rooted) (e dividend divisor : Expr) (how : Comparison)
    (value : Json) :
    (remainder s e dividend divisor how value).Meets CompileError.Explained (·.Placed s.level) := by
  unfold remainder
  split
  · exact meets_refuse _ _ rfl
  split
  · exact meets_refuse _ _ rfl
  rename_i d _
  split
  · exact meets_refuse _ _ rfl
  rename_i hd
  split
  · exact meets_refuse _ _ rfl
  rename_i r _
  refine (meets_field hs dividend).bind fun f hf => ?_
  split
  · rw [Filter.modOf_of_ne_zero f.path r hd]
    have htest : (Filter.test f.path (.mod d r)).Placed s.level := Filter.placed_test _ hf
    change (if how = .eq then _ else _ : Filter).Placed s.level
    split
    · exact htest
    · exact Filter.placed_not htest
  · exact meets_refuse _ _ rfl

theorem placed_hasItem (level : Nat) (array : Path) (position : Int) (expected : Bool) :
    (hasItem array position expected).Placed level :=
  Filter.placed_test _ fun _ => Path.isRoot_child ..

theorem meets_lengthTest {array : Path} (level : Nat) (h : level = 0 → array.isRoot = false)
    (e : Expr) {n : Int} (hn : 0 ≤ n) (how : Comparison) :
    (lengthTest e array n how).Meets CompileError.Explained (·.Placed level) := by
  have hsize : Compiled.ofBuild (Filter.sizeOf array n) = .ok (.test array (.size n.toNat)) := by
    rw [Filter.sizeOf_of_nonneg array hn]
    rfl
  cases how with
  | eq =>
      rw [lengthTest, hsize]
      exact Filter.placed_test _ h
  | ne =>
      rw [lengthTest, hsize]
      exact Filter.placed_not (Filter.placed_test _ h)
  | gt | le => exact placed_hasItem ..
  | ge | lt =>
      -- these ask for the item before position `n`, which zero has not
      rw [lengthTest]
      split
      · exact meets_refuse _ _ rfl
      · exact placed_hasItem ..

theorem meets_arrayLength (hs : s.Rooted) (e array : Expr) (how : Comparison) (value : Json) :
    (arrayLength s e array how value).Meets CompileError.Explained (·.Placed s.level) := by
  unfold arrayLength
  split
  · split
    · exact meets_refuse _ _ rfl
    · rename_i hn
      refine (meets_field hs array).bind fun f hf => ?_
      exact meets_lengthTest s.level hf e (by omega) how
  · exact meets_refuse _ _ rfl

theorem meets_compareWith (hs : s.Rooted) {e : Expr} (operand : Expr) (how : Comparison)
    {value : Json} (h : e.Quotes value) :
    (compareWith s e operand how value).Meets CompileError.Explained (·.Placed s.level) := by
  unfold compareWith
  split
  · exact meets_remainder hs ..
  split
  · exact meets_arrayLength hs ..
  refine (meets_field hs _).bind fun f hf => ?_
  split
  · split
    · exact Filter.placed_test _ hf
    · exact meets_refuse _ _ rfl
  · exact (Scope.meets_encode _ h).bind fun stored _ => Filter.placed_test _ hf

theorem meets_comparison (hs : s.Rooted) {e : Expr} (how : Comparison) {left right : Expr}
    (hleft : left ∈ e.children) (hright : right ∈ e.children) :
    (comparison s e how left right).Meets CompileError.Explained (·.Placed s.level) := by
  unfold comparison
  split
  · rename_i value hvalue _
    exact meets_compareWith hs _ _ (Expr.quotes_of_const? hleft hvalue)
  · rename_i value _ hvalue
    exact meets_compareWith hs _ _ (Expr.quotes_of_const? hright hvalue)
  · unfold noConstantCause
    split
    · exact meets_refuse _ _ rfl
    · exact meets_refuse _ _ rfl
  · exact meets_refuse _ _ rfl

theorem meets_binary (hs : s.Rooted) (op : BinaryOp) (left right : Expr) (type : Option Ty) :
    (binary s (.binary op left right type) op left right).Meets CompileError.Explained (·.Placed s.level) := by
  unfold binary
  split
  · exact meets_comparison hs _ (by simp [Expr.children]) (by simp [Expr.children])
  · exact meets_refuse _ _ rfl

/-! Calls. -/

theorem meets_keyText (c : Call) {key : Expr} (hkey : key ∈ c.toExpr.children)
    (encoder : Encoder) : (keyText s c key encoder).Meets CompileError.Explained fun _ => True := by
  unfold keyText
  split
  · exact meets_refuse _ _ rfl
  · rename_i value hvalue
    split
    · rename_i error hencode
      refine ⟨rfl, fun v hv => ⟨c.toExpr, rfl, ?_⟩, nofun⟩
      exact (Expr.quotes_of_const? hkey hvalue).within
        (ClassMaps.encode_concerns _ _ _ hencode v hv)
    · trivial
    · exact meets_refuse _ _ rfl

theorem meets_containsKey (hs : s.Rooted) (c : Call) :
    (containsKey s c).Meets CompileError.Explained (·.Placed s.level) := by
  unfold containsKey
  split
  · rename_i object key _ hoperands
    have hkey := (Call.mem_children_of_operands? hoperands).2
    refine (meets_field hs _).bind fun f _ => ?_
    split
    · exact (meets_keyText c hkey _).bind fun key _ =>
        Filter.placed_test _ fun _ => Path.isRoot_child ..
    · exact meets_refuse _ _ rfl
    · exact meets_refuse _ _ rfl
  · exact meets_refuse _ _ rfl

theorem isElemMatchBody_test {path : Path} (t : Test) :
    (Filter.test path t).isElemMatchBody = .ok true := by
  cases h : path.isRoot with
  | false => exact Filter.isElemMatchBody_of_fields h
  | true => exact Filter.isElemMatchBody_of_isItemOperation h

theorem meets_containsValue (hs : s.Rooted) (c : Call) :
    (containsValue s c).Meets CompileError.Explained (·.Placed s.level) := by
  unfold containsValue
  split
  · rename_i object value _ hoperands
    have hmem := (Call.mem_children_of_operands? hoperands).2
    refine (meets_field hs _).bind fun f hf => ?_
    split
    · split
      · exact meets_refuse _ _ rfl
      · split
        · exact meets_refuse _ _ rfl
        · rename_i hvalue
          exact (Scope.meets_encode _ (Expr.quotes_of_const? hmem hvalue)).bind fun stored _ =>
            Filter.placed_elemMatch hf trivial (isElemMatchBody_test _)
    · exact meets_refuse _ _ rfl
  · exact meets_refuse _ _ rfl

theorem meets_stringField (hs : s.Rooted) (c : Call) (operand : Expr) :
    (stringField s c operand).Meets CompileError.Explained fun f => s.level = 0 → f.path.isRoot = false := by
  unfold stringField
  split
  · refine (meets_field hs operand).bind fun f hf => ?_
    split
    · exact hf
    · exact meets_refuse _ _ rfl
  · exact meets_refuse _ _ rfl

theorem meets_stringMatch (hs : s.Rooted) (c : Call) :
    (stringMatch s c).Meets CompileError.Explained (·.Placed s.level) := by
  unfold stringMatch
  split
  · refine (meets_stringField hs ..).bind fun f hf => ?_
    split
    · exact Filter.placed_test _ hf
    · exact meets_refuse _ _ rfl
  · exact meets_refuse _ _ rfl

theorem meets_stringEmptiness (hs : s.Rooted) (c : Call) :
    (stringEmptiness s c).Meets CompileError.Explained (·.Placed s.level) := by
  unfold stringEmptiness
  split
  · exact (meets_stringField hs ..).bind fun f hf => Filter.placed_test _ hf
  · exact meets_refuse _ _ rfl

theorem meets_itemEncoder (c : Call) (f : Field) :
    (itemEncoder c f).Meets CompileError.Explained fun _ => True := by
  unfold itemEncoder
  split
  · trivial
  · exact meets_refuse _ _ rfl

theorem meets_contains (hs : s.Rooted) (c : Call) :
    (contains s c).Meets CompileError.Explained (·.Placed s.level) := by
  unfold contains
  split
  · exact meets_refuse _ _ rfl
  rename_i source value hmembership
  obtain ⟨hsource, hvalue⟩ := mem_children_of_membership hmembership
  split
  · rename_i hitems
    split
    · refine (meets_field hs _).bind fun f hf => ?_
      exact (Scope.meets_encodeItems _ (Expr.quotes_of_const? hsource hitems)).bind
        fun stored _ => Filter.placed_test _ hf
    · exact meets_refuse _ _ rfl
  · split
    · refine (meets_field hs _).bind fun f hf => ?_
      refine (meets_itemEncoder ..).bind fun item _ => ?_
      split
      · rename_i hconst
        exact (Scope.meets_encodeOrNull _ (Expr.quotes_of_const? hvalue hconst)).bind
          fun stored _ => Filter.placed_test _ hf
      · exact meets_refuse _ _ rfl
    · exact meets_refuse _ _ rfl

theorem meets_equals (hs : s.Rooted) (c : Call) :
    (equals s c).Meets CompileError.Explained (·.Placed s.level) := by
  unfold equals
  split
  · rename_i object arg _ hoperands
    obtain ⟨hobject, harg⟩ := Call.mem_children_of_operands? hoperands
    dsimp only
    split
    · split
      · split
        · exact meets_refuse _ _ rfl
        · exact meets_refuse _ _ rfl
      · split
        · exact meets_refuse _ _ rfl
        · exact meets_refuse _ _ rfl
    · rename_i value hvalue
      -- the constant is one of the operands, whichever of them that is
      have hquotes : c.toExpr.Quotes value := by
        split at hvalue
        · exact Expr.quotes_of_const? hobject hvalue
        · exact Expr.quotes_of_const? harg hvalue
      refine (meets_field hs _).bind fun f hf => ?_
      exact (Scope.meets_encodeOrNull _ hquotes).bind fun stored _ => Filter.placed_test _ hf
  · exact meets_refuse _ _ rfl

/-- The check of the body cannot fail where the body is well nested. -/
theorem meets_elemMatch (level : Nat) (c : Call) {path : Path} {body : Filter}
    (h : level = 0 → path.isRoot = false) (hbody : body.WellNested) :
    (elemMatch c path body).Meets CompileError.Explained (·.Placed level) := by
  unfold elemMatch
  split
  · exact Filter.placed_nonEmptyArray h
  · exact Filter.placed_nothing level
  · obtain ⟨fits, hfits⟩ := Filter.isElemMatchBody_of_wellNested body hbody
    rw [hfits]
    cases fits with
    | true => exact Filter.placed_elemMatch h hbody hfits
    | false => exact meets_refuse _ _ rfl

theorem meets_any (hs : s.Rooted) (c : Call) {body : Scope → Compiled Filter}
    (hbody : ∀ inner : Scope, inner.Rooted → (body inner).Meets CompileError.Explained (·.Placed inner.level)) :
    (any s c body).Meets CompileError.Explained (·.Placed s.level) := by
  unfold any
  split
  · refine (meets_field hs _).bind fun f hf => ?_
    refine (meets_itemEncoder ..).bind fun item _ => ?_
    split
    · exact Filter.placed_nonEmptyArray hf
    · split
      · rename_i name _ _ _ _
        -- the body is asked of an item, so it may mention the item
        refine (hbody _ (s.rooted_enter name item)).bind fun inner hinner => ?_
        exact meets_elemMatch s.level c hf hinner.1
      · exact meets_refuse _ _ rfl
  · exact meets_refuse _ _ rfl

theorem meets_call (hs : s.Rooted) (c : Call) {body : Scope → Compiled Filter}
    (hbody : ∀ inner : Scope, inner.Rooted → (body inner).Meets CompileError.Explained (·.Placed inner.level)) :
    (call s c body).Meets CompileError.Explained (·.Placed s.level) := by
  unfold call
  split
  · exact meets_containsKey hs c
  · exact meets_containsValue hs c
  · exact meets_stringMatch hs c
  · exact meets_stringEmptiness hs c
  · exact meets_contains hs c
  · exact meets_contains hs c
  · exact meets_any hs c hbody
  · exact meets_any hs c hbody
  · exact meets_equals hs c
  · refine ⟨rfl, nofun, fun hmethod => ⟨c.object, c.method, c.args, rfl, ?_⟩⟩
    exact Cause.unknownMethod.inj hmethod

/-! Predicates. -/

theorem meets_booleanField (hs : s.Rooted) (e : Expr) :
    (booleanField s e).Meets CompileError.Explained (·.Placed s.level) := by
  unfold booleanField
  split
  · refine (meets_field hs e).bind fun f hf => ?_
    exact (Scope.meets_encode _ (.inl rfl)).bind fun stored _ => Filter.placed_test _ hf
  · exact meets_refuse _ _ rfl

theorem meets_booleanConst (level : Nat) (e : Expr) (value : Json) :
    (booleanConst e value).Meets CompileError.Explained (·.Placed level) := by
  unfold booleanConst
  split
  · exact Filter.placed_everything level
  · exact Filter.placed_nothing level
  · exact meets_refuse _ _ rfl

/-- What a predicate compiles to stands in its place, however deep it lies. -/
theorem meets_expression (s : Scope) (e : Expr) (hs : s.Rooted) :
    (expression s e).Meets CompileError.Explained (·.Placed s.level) := by
  fun_induction expression s e with
  | case1 => exact meets_refuse _ _ rfl
  | case2 s _ left right _ ihl ihr =>
      refine (ihl hs).bind fun l hl => (ihr hs).bind fun r hr => ?_
      exact Filter.placed_allOf_pair hl hr
  | case3 s _ left right _ ihl ihr =>
      refine (ihl hs).bind fun l hl => (ihr hs).bind fun r hr => ?_
      exact Filter.placed_anyOf_pair hl hr
  | case4 s => exact meets_binary (s.rooted_descend hs) ..
  | case5 s _ operand ih => exact (ih hs).bind fun f hf => Filter.placed_not hf
  | case6 s _ object method args ih =>
      refine meets_call (s.rooted_descend hs) _ fun inner hinner => ?_
      have hbody := ih inner
      split
      · exact hbody hinner
      · exact meets_refuse _ _ rfl
  | case7 s | case8 s | case9 s => exact meets_booleanField (s.rooted_descend hs) ..
  | case10 => exact meets_booleanConst ..
  | case11 => exact meets_refuse _ _ rfl

theorem meets_predicate (model : Model) (maxDepth : Nat) (p : Predicate) :
    (predicate model maxDepth p).Meets CompileError.Explained (·.Placed 0) := by
  unfold predicate predicateIn
  split
  · exact meets_refuse _ _ rfl
  · split
    · exact meets_expression _ p.body (Scope.rooted_bind (Scope.rooted_create model maxDepth) _ _ _)
    · exact meets_refuse _ _ rfl

theorem predicate_renders {model : Model} {maxDepth : Nat} {p : Predicate} {f : Filter}
    (h : predicate model maxDepth p = .ok f) : ∃ d, f.render = .ok d := by
  have hplaced := (meets_predicate model maxDepth p).of_ok h
  exact (Filter.renders_of_wellNested f hplaced.1 (hplaced.2 rfl)).1

theorem predicate_refused {model : Model} {maxDepth : Nat} {p : Predicate} {e : CompileError}
    (h : predicate model maxDepth p = .error e) : Refused e :=
  ((meets_predicate model maxDepth p).of_error h).refused

end Compile

end QueryFilter
