import QueryFilter.Proofs.Checked
import QueryFilter.Proofs.Location
import QueryFilter.Proofs.Scoped
import QueryFilter.Proofs.Totality

/-!
No accepted predicate mixes scopes. Every parameter in it is the one that the
innermost predicate around it binds, the document is only the start of chains,
and the paths of a nested predicate start at the item that it is about.
-/

namespace QueryFilter

/-! ### Scopes and what they own -/

namespace Scope

/-- A scope whose own parameter is called `own` and stands for values that
`current` governs. Outer parameters are of lower levels. -/
structure Owns (s : Scope) (own : String) (current : Encoder) : Prop where
  rooted : s.Rooted
  bounded : ∀ symbol ∈ s.symbols, symbol.level ≤ s.level
  owned : ∀ symbol ∈ s.symbols, symbol.level = s.level →
    symbol.name = own ∧ symbol.path = .root ∧ symbol.encoder = current

variable {s : Scope} {own : String} {current : Encoder}

theorem Owns.descend (h : s.Owns own current) : s.descend.Owns own current :=
  ⟨h.rooted, h.bounded, h.owned⟩

theorem Owns.enter (h : s.Owns own current) (name : String) (item : Encoder) :
    (s.enter name item).Owns name item where
  rooted := rooted_enter s name item
  bounded symbol hsymbol := by
    rcases List.mem_cons.mp hsymbol with rfl | hsymbol
    · exact Nat.le_refl _
    · exact Nat.le_succ_of_le (h.bounded symbol hsymbol)
  owned symbol hsymbol hlevel := by
    rcases List.mem_cons.mp hsymbol with rfl | hsymbol
    · exact ⟨rfl, rfl, rfl⟩
    · have hbound := h.bounded symbol hsymbol
      have henter : symbol.level = s.level + 1 := hlevel
      omega

theorem owns_document (model : Model) (maxDepth : Nat) (name : String) (root : Encoder)
    (depth : Nat) : (document model maxDepth name root depth).Owns name root where
  rooted := rooted_bind (rooted_create model maxDepth) name .root root
  bounded symbol hsymbol := by
    rw [List.mem_singleton.mp hsymbol]
    exact Nat.le_refl _
  owned symbol hsymbol _ := by
    rw [List.mem_singleton.mp hsymbol]
    exact ⟨rfl, rfl, rfl⟩

/-- An expression that can be accepted in a scope: its parameters are in their
places, and outside nested predicates the document does not stand by itself. -/
structure Admits (s : Scope) (own : String) (e : Expr) : Prop where
  confined : e.Confined own
  grounded : s.level = 0 → e.Grounded

theorem admits_of_const? {e : Expr} {value : Json} (h : e.const? = some value) :
    s.Admits own e := by
  cases e with
  | const => exact ⟨trivial, fun _ => trivial⟩
  | _ => cases h

theorem Admits.binary {left right : Expr} (hl : s.Admits own left) (hr : s.Admits own right)
    (op : BinaryOp) (type : Option Ty) : s.Admits own (.binary op left right type) :=
  ⟨⟨hl.confined, hr.confined⟩, fun h => ⟨hl.grounded h, hr.grounded h⟩⟩

theorem Admits.not {operand : Expr} (h : s.Admits own operand) : s.Admits own (.not operand) :=
  ⟨h.confined, h.grounded⟩

theorem Admits.callOn {object arg : Expr} (ho : s.Admits own object) (ha : s.Admits own arg)
    (method : Method) : s.Admits own (.call (some object) method [arg]) :=
  ⟨⟨ho.confined, ha.confined, trivial⟩, fun h => ⟨ho.grounded h, ha.grounded h, trivial⟩⟩

theorem Admits.callStatic {args : List Expr} (h : ∀ arg ∈ args, s.Admits own arg)
    (method : Method) : s.Admits own (.call none method args) := by
  have hall : Expr.allConfined own args ∧ (s.level = 0 → Expr.allGrounded args) := by
    induction args with
    | nil => exact ⟨trivial, fun _ => trivial⟩
    | cons arg args ih =>
        have harg := h arg List.mem_cons_self
        have hargs := ih fun other hother => h other (List.mem_cons_of_mem _ hother)
        exact ⟨⟨harg.confined, hargs.1⟩, fun hlevel => ⟨harg.grounded hlevel, hargs.2 hlevel⟩⟩
  exact ⟨⟨trivial, hall.1⟩, fun hlevel => ⟨trivial, hall.2 hlevel⟩⟩

theorem admits_lambda {body : Expr} {name : String} (h : body.Confined name) (type : Ty) :
    s.Admits own (.lambda name type body) :=
  ⟨h, fun _ => trivial⟩

end Scope

/-! ### Fields -/

/-- What an accepted part gives, whatever the others are refused for. -/
abbrev Compiled.Gives {α : Type} (x : Compiled α) (gives : α → Prop) : Prop :=
  x.Meets (fun _ => True) gives

namespace Compile

variable {s : Scope} {own : String} {current : Encoder}

theorem gives_refuse {α : Type} {gives : α → Prop} (e : Expr) (cause : Cause) :
    Compiled.Gives (e.refuse cause) gives := trivial

/-- Nothing need be known of the values that operands are stored as. -/
theorem gives_true {α : Type} (x : Compiled α) : x.Gives fun _ => True := by
  cases x <;> trivial

theorem leads_memberField {container : Field}
    (h : s.model.maps.Leads current container.path.steps container.encoder) (e : Expr)
    (name : String) :
    (memberField s e container name).Gives fun f =>
      s.model.maps.Leads current f.path.steps f.encoder := by
  unfold memberField
  split
  · rename_i entry hentry
    exact .member h (ClassMaps.find?_eq_some hentry).1
  · exact gives_refuse _ _

theorem leads_indexField {container : Field}
    (h : s.model.maps.Leads current container.path.steps container.encoder) (e : Expr)
    (key : Option Json) :
    (indexField s e container key).Gives fun f =>
      (∃ value, key = some value) ∧ s.model.maps.Leads current f.path.steps f.encoder := by
  unfold indexField
  split
  · rename_i item hitem
    split
    · rename_i n hn
      obtain ⟨value, rfl, -⟩ := Option.bind_eq_some_iff.mp hn
      split
      · exact gives_refuse _ _
      · rename_i hnonneg
        obtain ⟨m, rfl⟩ := Int.eq_ofNat_of_zero_le (Int.not_lt.mp hnonneg)
        rw [hitem] at h
        exact ⟨⟨value, rfl⟩, .item m h⟩
    · exact gives_refuse _ _
  · rename_i keyEncoder value hencoder
    split
    · exact gives_refuse _ _
    · refine (gives_true _).bind fun key _ => ?_
      split
      · rw [hencoder] at h
        exact ⟨⟨_, rfl⟩, .entry _ h⟩
      · exact gives_refuse _ _
  · exact gives_refuse _ _
  · exact gives_refuse _ _

/-- A chain starts at the parameter that the scope owns, and its path leads
there from the value of that parameter. -/
theorem confines_chain (hs : s.Owns own current) (e : Expr) :
    (chain s e).Gives fun f => (e.Confined own ∧ (e.isParam = true ∨ e.Grounded)) ∧
      s.model.maps.Leads current f.path.steps f.encoder := by
  fun_induction chain s e with
  | case1 => exact gives_refuse _ _
  | case2 name type symbol hfind hlevel =>
      have hmem := List.mem_of_find?_eq_some hfind
      have hname : symbol.name = name := by simpa using List.find?_some hfind
      obtain ⟨hown, hpath, hencoder⟩ := hs.owned symbol hmem hlevel
      refine ⟨⟨hname.symm.trans hown, .inl rfl⟩, ?_⟩
      show s.model.maps.Leads current symbol.path.steps symbol.encoder
      rw [hpath, hencoder]
      exact .start
  | case3 => exact gives_refuse _ _
  | case4 object name type ih =>
      refine ih.bind fun container hcontainer => ?_
      exact (leads_memberField hcontainer.2 _ name).mono fun f hf =>
        ⟨⟨hcontainer.1.1, .inr hcontainer.1.2⟩, hf⟩
  | case5 object key type ih =>
      refine ih.bind fun container hcontainer => ?_
      refine (leads_indexField hcontainer.2 _ _).mono fun f hf => ?_
      -- an index that is accepted is a constant
      obtain ⟨⟨value, hvalue⟩, hleads⟩ := hf
      have hkey : Expr.Confined own key ∧ key.Grounded := by
        cases key with
        | const => exact ⟨trivial, trivial⟩
        | _ => cases hvalue
      exact ⟨⟨⟨hcontainer.1.1, hkey.1⟩, .inr ⟨hcontainer.1.2, hkey.2⟩⟩, hleads⟩
  | case6 => exact gives_refuse _ _

/-- An operand that is accepted as a field. -/
theorem confines_field (hs : s.Owns own current) (e : Expr) :
    (field s e).Gives fun f => s.Admits own e ∧
      s.model.maps.Leads current f.path.steps f.encoder := by
  unfold field
  split
  · exact gives_refuse _ _
  · rename_i hdocument
    cases hchain : chain s e with
    | error error => trivial
    | ok f =>
        obtain ⟨⟨hconfined, hground⟩, hleads⟩ := (confines_chain hs e).of_ok hchain
        refine ⟨⟨hconfined, fun hlevel => hground.resolve_left fun hparam => ?_⟩, hleads⟩
        -- outside nested predicates a parameter by itself is the document
        cases e with
        | param name type =>
            rw [chain] at hchain
            cases hfind : s.find? name with
            | none => simp [hfind, Expr.refuse] at hchain
            | some symbol =>
                have hitem := hs.rooted hlevel symbol (List.mem_of_find?_eq_some hfind)
                simp [isDocument, hfind, hitem] at hdocument
        | _ => cases hparam

/-! ### Comparisons -/

theorem confines_remainder (hs : s.Owns own current) (e dividend divisor : Expr)
    (how : Comparison) (value : Json) :
    (remainder s e dividend divisor how value).Gives fun f =>
      (s.Admits own dividend ∧ s.Admits own divisor) ∧ f.Relative s.model.maps current := by
  unfold remainder
  split
  · exact gives_refuse _ _
  split
  · exact gives_refuse _ _
  rename_i d hdivisor
  split
  · exact gives_refuse _ _
  rename_i hd
  split
  · exact gives_refuse _ _
  rename_i r _
  refine (confines_field hs dividend).bind fun f hf => ?_
  obtain ⟨constant, hconst, -⟩ := Option.bind_eq_some_iff.mp hdivisor
  split
  · rw [Filter.modOf_of_ne_zero f.path r hd]
    have htest : (Filter.test f.path (.mod d r)).Relative s.model.maps current := .test _ hf.2
    refine ⟨⟨hf.1, Scope.admits_of_const? hconst⟩, ?_⟩
    split
    · exact htest
    · exact .not htest
  · exact gives_refuse _ _

theorem relative_hasItem {array : Field}
    (h : s.model.maps.Leads current array.path.steps array.encoder) (position : Int)
    (expected : Bool) : (hasItem array.path position expected).Relative s.model.maps current :=
  .part _ expected h

theorem relative_lengthTest {array : Field}
    (h : s.model.maps.Leads current array.path.steps array.encoder) (e : Expr) {n : Int}
    (hn : 0 ≤ n) (how : Comparison) :
    (lengthTest e array.path n how).Gives (·.Relative s.model.maps current) := by
  have hsize : Compiled.ofBuild (Filter.sizeOf array.path n)
      = .ok (.test array.path (.size n.toNat)) := by
    rw [Filter.sizeOf_of_nonneg array.path hn]
    rfl
  cases how with
  | eq =>
      rw [lengthTest, hsize]
      exact .test _ h
  | ne =>
      rw [lengthTest, hsize]
      exact .not (.test _ h)
  | gt | le => exact relative_hasItem h ..
  | ge | lt =>
      rw [lengthTest]
      split
      · exact gives_refuse _ _
      · exact relative_hasItem h ..

theorem confines_arrayLength (hs : s.Owns own current) (e array : Expr) (how : Comparison)
    (value : Json) :
    (arrayLength s e array how value).Gives fun f =>
      s.Admits own array ∧ f.Relative s.model.maps current := by
  unfold arrayLength
  split
  · split
    · exact gives_refuse _ _
    · rename_i hn
      refine (confines_field hs array).bind fun f hf => ?_
      exact (relative_lengthTest hf.2 e (Int.not_lt.mp hn) how).mono fun g hg => ⟨hf.1, hg⟩
  · exact gives_refuse _ _

theorem admits_of_lengthOf? {e array : Expr} (h : lengthOf? e = some array)
    (harray : s.Admits own array) : s.Admits own e := by
  unfold lengthOf? at h
  split at h
  · split at h
    · cases h
      exact ⟨harray.confined, fun hlevel => .inr (harray.grounded hlevel)⟩
    · cases h
  · cases h

theorem confines_compareWith (hs : s.Owns own current) (e operand : Expr) (how : Comparison)
    (value : Json) :
    (compareWith s e operand how value).Gives fun f =>
      s.Admits own operand ∧ f.Relative s.model.maps current := by
  unfold compareWith
  split
  · exact (confines_remainder hs ..).mono fun f hf => ⟨hf.1.1.binary hf.1.2 _ _, hf.2⟩
  split
  · rename_i hlength
    exact (confines_arrayLength hs ..).mono fun f hf => ⟨admits_of_lengthOf? hlength hf.1, hf.2⟩
  refine (confines_field hs _).bind fun f hf => ?_
  split
  · split
    · exact ⟨hf.1, .test _ hf.2⟩
    · exact gives_refuse _ _
  · exact (gives_true _).bind fun stored _ => ⟨hf.1, .test _ hf.2⟩

/-- Of the operands of a comparison one is a constant. -/
theorem confines_comparison (hs : s.Owns own current) (e : Expr) (how : Comparison)
    (left right : Expr) :
    (comparison s e how left right).Gives fun f =>
      (s.Admits own left ∧ s.Admits own right) ∧ f.Relative s.model.maps current := by
  unfold comparison
  split
  · rename_i hleft _
    exact (confines_compareWith hs ..).mono fun f hf =>
      ⟨⟨Scope.admits_of_const? hleft, hf.1⟩, hf.2⟩
  · rename_i hright
    exact (confines_compareWith hs ..).mono fun f hf =>
      ⟨⟨hf.1, Scope.admits_of_const? hright⟩, hf.2⟩
  · exact gives_refuse _ _
  · exact gives_refuse _ _

theorem confines_binary (hs : s.Owns own current) (op : BinaryOp) (left right : Expr)
    (type : Option Ty) :
    (binary s (.binary op left right type) op left right).Gives fun f =>
      s.Admits own (.binary op left right type) ∧ f.Relative s.model.maps current := by
  unfold binary
  split
  · exact (confines_comparison hs ..).mono fun f hf => ⟨hf.1.1.binary hf.1.2 _ _, hf.2⟩
  · exact gives_refuse _ _

/-! ### Calls -/

/-- The receiver and the argument are all that a question has. -/
theorem admits_question {c : Call} (hcall : c.toExpr.Saturated) {name : String}
    (hasks : c.method.asks false name 1 = true) {object arg : Expr}
    (hoperands : c.operands? = some (object, arg)) (ho : s.Admits own object)
    (ha : s.Admits own arg) : s.Admits own c.toExpr := by
  obtain ⟨_, method, _⟩ := c
  obtain ⟨_, _, rfl, rfl⟩ := hcall.of_question hasks
  cases hoperands
  exact ho.callOn ha method

theorem admits_staticQuestion {c : Call} (hcall : c.toExpr.Saturated) {name : String} {arity : Nat}
    (hasks : c.method.asks true name arity = true) (hargs : ∀ arg ∈ c.args, s.Admits own arg) :
    s.Admits own c.toExpr := by
  obtain ⟨_, method, args⟩ := c
  obtain ⟨rfl, -⟩ := hcall.of_staticQuestion hasks
  exact Scope.Admits.callStatic hargs method

/-- A question about one value, which has no other argument. -/
theorem admits_staticQuestion_one {c : Call} (hcall : c.toExpr.Saturated) {name : String}
    (hasks : c.method.asks true name 1 = true) {arg : Expr} {rest : List Expr}
    (hargs : c.args = arg :: rest) (harg : s.Admits own arg) : s.Admits own c.toExpr := by
  have harity := (hcall.of_staticQuestion hasks).2
  rw [hargs] at harity
  obtain rfl := List.length_eq_zero_iff.mp (Nat.succ.inj harity)
  refine admits_staticQuestion hcall hasks fun other hother => ?_
  rw [hargs] at hother
  rw [List.mem_singleton.mp hother]
  exact harg

theorem admits_staticQuestion_two {c : Call} (hcall : c.toExpr.Saturated) {name : String}
    (hasks : c.method.asks true name 2 = true) {arg arg' : Expr} {rest : List Expr}
    (hargs : c.args = arg :: arg' :: rest) (harg : s.Admits own arg) (harg' : s.Admits own arg') :
    s.Admits own c.toExpr := by
  have harity := (hcall.of_staticQuestion hasks).2
  rw [hargs] at harity
  obtain rfl := List.length_eq_zero_iff.mp (Nat.succ.inj (Nat.succ.inj harity))
  refine admits_staticQuestion hcall hasks fun other hother => ?_
  rw [hargs] at hother
  rcases List.mem_pair.mp hother with rfl | rfl
  · exact harg
  · exact harg'

theorem gives_keyText (s : Scope) (own : String) (c : Call) (key : Expr) (encoder : Encoder) :
    (keyText s c key encoder).Gives fun _ => s.Admits own key := by
  unfold keyText
  split
  · exact gives_refuse _ _
  · rename_i hkey
    split
    · exact gives_refuse _ _
    · exact Scope.admits_of_const? hkey
    · exact gives_refuse _ _

theorem confines_containsKey (hs : s.Owns own current) (c : Call)
    (hcall : c.toExpr.Saturated) :
    (containsKey s c).Gives fun f =>
      s.Admits own c.toExpr ∧ f.Relative s.model.maps current := by
  unfold containsKey
  split
  · rename_i object key hmethod hoperands
    refine (confines_field hs _).bind fun f hf => ?_
    split
    · refine (gives_keyText s own ..).bind fun text hkey => ?_
      exact ⟨admits_question hcall hmethod hoperands hf.1 hkey, .part _ _ hf.2⟩
    · exact gives_refuse _ _
    · exact gives_refuse _ _
  · exact gives_refuse _ _

theorem confines_containsValue (hs : s.Owns own current) (c : Call)
    (hcall : c.toExpr.Saturated) :
    (containsValue s c).Gives fun f =>
      s.Admits own c.toExpr ∧ f.Relative s.model.maps current := by
  unfold containsValue
  split
  · rename_i object value hmethod hoperands
    refine (confines_field hs _).bind fun f hf => ?_
    split
    · rename_i hencoder
      split
      · exact gives_refuse _ _
      rename_i hstep
      split
      · exact gives_refuse _ _
      rename_i hvalue
      refine (gives_true _).bind fun stored _ => ?_
      have hleads := hf.2
      rw [hencoder] at hleads
      exact ⟨admits_question hcall hmethod hoperands hf.1 (Scope.admits_of_const? hvalue),
        .entries _ hleads hstep⟩
    · exact gives_refuse _ _
  · exact gives_refuse _ _

theorem confines_stringField (hs : s.Owns own current) (c : Call) (operand : Expr) :
    (stringField s c operand).Gives fun f => s.Admits own operand ∧
      s.model.maps.Leads current f.path.steps f.encoder := by
  unfold stringField
  split
  · refine (confines_field hs operand).bind fun f hf => ?_
    split
    · exact hf
    · exact gives_refuse _ _
  · exact gives_refuse _ _

theorem asks_of_isStringMatch {m : Method} (h : m.isStringMatch = true) :
    ∃ name, m.asks false name 1 = true := by
  simp only [Method.isStringMatch, Bool.and_eq_true, Bool.or_eq_true] at h
  obtain ⟨⟨(h | h) | h, -⟩, -⟩ := h
  all_goals exact ⟨_, h⟩

theorem confines_stringMatch (hs : s.Owns own current) (c : Call)
    (hcall : c.toExpr.Saturated) :
    (stringMatch s c).Gives fun f =>
      s.Admits own c.toExpr ∧ f.Relative s.model.maps current := by
  unfold stringMatch
  split
  · rename_i object arg hmethod hoperands
    refine (confines_stringField hs ..).bind fun f hf => ?_
    split
    · rename_i hliteral
      obtain ⟨constant, hconst, -⟩ := Option.bind_eq_some_iff.mp hliteral
      obtain ⟨_, hasks⟩ := asks_of_isStringMatch hmethod
      exact ⟨admits_question hcall hasks hoperands hf.1 (Scope.admits_of_const? hconst),
        .test _ hf.2⟩
    · exact gives_refuse _ _
  · exact gives_refuse _ _

theorem confines_stringEmptiness (hs : s.Owns own current) (c : Call)
    (hcall : c.toExpr.Saturated) :
    (stringEmptiness s c).Gives fun f =>
      s.Admits own c.toExpr ∧ f.Relative s.model.maps current := by
  unfold stringEmptiness
  split
  · rename_i operand rest hmethod hargs
    have hasks := (Bool.and_eq_true_iff.mp hmethod).1
    refine (confines_stringField hs ..).bind fun f hf => ⟨?_, .test _ hf.2⟩
    exact admits_staticQuestion_one hcall hasks hargs hf.1
  · exact gives_refuse _ _

/-- A membership call has the collection and the value, in either form. -/
theorem admits_membership {c : Call} (hcall : c.toExpr.Saturated) {source value : Expr}
    (h : membership? c = some (source, value)) (hsource : s.Admits own source)
    (hvalue : s.Admits own value) : s.Admits own c.toExpr := by
  unfold membership? at h
  split at h
  · rename_i hmethod
    have hasks := (Bool.and_eq_true_iff.mp hmethod).1
    split at h
    · rename_i rest hargs
      cases h
      exact admits_staticQuestion_two hcall hasks hargs hsource hvalue
    · cases h
  · split at h
    · rename_i hmethod
      exact admits_question hcall (Bool.and_eq_true_iff.mp hmethod).1 h hsource hvalue
    · cases h

theorem gives_itemEncoder (c : Call) (f : Field) :
    (itemEncoder c f).Gives fun item => f.encoder = .array item := by
  unfold itemEncoder
  split
  · rename_i hitem
    exact hitem
  · exact gives_refuse _ _

theorem confines_contains (hs : s.Owns own current) (c : Call)
    (hcall : c.toExpr.Saturated) :
    (contains s c).Gives fun f =>
      s.Admits own c.toExpr ∧ f.Relative s.model.maps current := by
  unfold contains
  split
  · exact gives_refuse _ _
  rename_i source value hmembership
  split
  · rename_i hsource
    split
    · refine (confines_field hs _).bind fun f hf => ?_
      refine (gives_true _).bind fun stored _ => ?_
      exact ⟨admits_membership hcall hmembership (Scope.admits_of_const? hsource) hf.1,
        .test _ hf.2⟩
    · exact gives_refuse _ _
  · split
    · refine (confines_field hs _).bind fun f hf => ?_
      refine (gives_itemEncoder ..).bind fun item _ => ?_
      split
      · rename_i hvalue
        refine (gives_true _).bind fun stored _ => ?_
        exact ⟨admits_membership hcall hmembership hf.1 (Scope.admits_of_const? hvalue),
          .test _ hf.2⟩
      · exact gives_refuse _ _
    · exact gives_refuse _ _

theorem confines_equals (hs : s.Owns own current) (c : Call) (hcall : c.toExpr.Saturated) :
    (equals s c).Gives fun f =>
      s.Admits own c.toExpr ∧ f.Relative s.model.maps current := by
  unfold equals
  split
  · rename_i object arg hmethod hoperands
    dsimp only
    split
    · split <;> split <;> exact gives_refuse _ _
    rename_i value hother
    refine (confines_field hs _).bind fun f hf => ?_
    refine (gives_true _).bind fun stored _ => ⟨?_, .test _ hf.2⟩
    -- the constant is the receiver if that is one, else the argument
    cases hobject : object.const? with
    | some constant =>
        simp only [hobject, Option.isSome_some, if_true] at hf
        exact admits_question hcall hmethod hoperands (Scope.admits_of_const? hobject) hf.1
    | none =>
        simp only [hobject, Option.isSome_none, Bool.false_eq_true, if_false] at hf hother
        exact admits_question hcall hmethod hoperands hf.1 (Scope.admits_of_const? hother)
  · exact gives_refuse _ _

theorem relative_elemMatch (c : Call) {f : Field} {item : Encoder}
    (h : s.model.maps.Leads current f.path.steps (.array item)) {body : Filter}
    (hbody : body.Relative s.model.maps item) :
    (elemMatch c f.path body).Gives (·.Relative s.model.maps current) := by
  unfold elemMatch
  split
  · exact .nonEmptyArray h
  · exact .nothing
  · split
    · exact .elemMatch h hbody
    · exact gives_refuse _ _
    · trivial

theorem confines_any (hs : s.Owns own current) (c : Call) (hcall : c.toExpr.Saturated)
    {body : Scope → Compiled Filter}
    (hbody : ∀ source name type e rest item, c.args = source :: .lambda name type e :: rest →
      (body (s.enter name item)).Gives fun f =>
        e.Confined name ∧ f.Relative s.model.maps item) :
    (any s c body).Gives fun f =>
      s.Admits own c.toExpr ∧ f.Relative s.model.maps current := by
  unfold any
  split
  · rename_i source rest hmethod hargs
    refine (confines_field hs _).bind fun f hf => ?_
    refine (gives_itemEncoder ..).bind fun item hitem => ?_
    have hleads := hf.2
    rw [hitem] at hleads
    split
    · rename_i hany
      have hasks := (Bool.and_eq_true_iff.mp hany).1
      exact ⟨admits_staticQuestion_one hcall hasks hargs hf.1, .nonEmptyArray hleads⟩
    · rename_i hany
      have hwhere : c.method.isAnyWhere = true := by simpa [hany] using hmethod
      have hasks := (Bool.and_eq_true_iff.mp (Bool.and_eq_true_iff.mp hwhere).1).1
      split
      · rename_i name type e others
        refine (hbody source name type e others item hargs).bind fun inner hinner => ?_
        refine (relative_elemMatch c hleads hinner.2).mono fun g hg => ⟨?_, hg⟩
        exact admits_staticQuestion_two hcall hasks hargs hf.1
          (Scope.admits_lambda hinner.1 type)
      · exact gives_refuse _ _
  · exact gives_refuse _ _

theorem confines_call (hs : s.Owns own current) (c : Call) (hcall : c.toExpr.Saturated)
    {body : Scope → Compiled Filter}
    (hbody : ∀ source name type e rest item, c.args = source :: .lambda name type e :: rest →
      (body (s.enter name item)).Gives fun f =>
        e.Confined name ∧ f.Relative s.model.maps item) :
    (call s c body).Gives fun f =>
      s.Admits own c.toExpr ∧ f.Relative s.model.maps current := by
  unfold call
  split
  · exact confines_containsKey hs c hcall
  · exact confines_containsValue hs c hcall
  · exact confines_stringMatch hs c hcall
  · exact confines_stringEmptiness hs c hcall
  · exact confines_contains hs c hcall
  · exact confines_contains hs c hcall
  · exact confines_any hs c hcall hbody
  · exact confines_any hs c hcall hbody
  · exact confines_equals hs c hcall
  · exact gives_refuse _ _

/-! ### Predicates -/

theorem confines_booleanField (hs : s.Owns own current) (e : Expr) :
    (booleanField s e).Gives fun f => s.Admits own e ∧ f.Relative s.model.maps current := by
  unfold booleanField
  split
  · refine (confines_field hs e).bind fun f hf => ?_
    exact (gives_true _).bind fun stored _ => ⟨hf.1, .test _ hf.2⟩
  · exact gives_refuse _ _

theorem relative_booleanConst (maps : ClassMaps) (current : Encoder) (e : Expr) (value : Json) :
    (booleanConst e value).Gives (·.Relative maps current) := by
  unfold booleanConst
  split
  · exact .everything
  · exact .nothing
  · exact gives_refuse _ _

/-- Depth is nothing to the parameters. -/
theorem gives_of_descend {x : Compiled Filter} {e : Expr}
    (h : x.Gives fun f => s.descend.Admits own e ∧ f.Relative s.descend.model.maps current) :
    x.Gives fun f => s.Admits own e ∧ f.Relative s.model.maps current :=
  h.mono fun _ hf => ⟨⟨hf.1.confined, hf.1.grounded⟩, hf.2⟩

/-- What is accepted in a scope keeps to it, at any depth of nested predicates. -/
theorem confines_expression (s : Scope) (e : Expr) (own : String) (current : Encoder)
    (hs : s.Owns own current) (he : e.Saturated) :
    (expression s e).Gives fun f => s.Admits own e ∧ f.Relative s.model.maps current := by
  fun_induction expression s e generalizing own current with
  | case1 => exact gives_refuse _ _
  | case2 s _ left right type ihl ihr =>
      refine gives_of_descend ?_
      refine (ihl own current hs.descend he.1).bind fun l hl => ?_
      refine (ihr own current hs.descend he.2).bind fun r hr => ?_
      exact ⟨hl.1.binary hr.1 _ _, hl.2.allOf_pair hr.2⟩
  | case3 s _ left right type ihl ihr =>
      refine gives_of_descend ?_
      refine (ihl own current hs.descend he.1).bind fun l hl => ?_
      refine (ihr own current hs.descend he.2).bind fun r hr => ?_
      exact ⟨hl.1.binary hr.1 _ _, hl.2.anyOf_pair hr.2⟩
  | case4 s => exact gives_of_descend (confines_binary hs.descend ..)
  | case5 s _ operand ih =>
      refine gives_of_descend ?_
      exact (ih own current hs.descend he).bind fun f hf => ⟨hf.1.not, .not hf.2⟩
  | case6 s _ object method args ih =>
      refine gives_of_descend ?_
      refine confines_call hs.descend ⟨object, method, args⟩ he
        fun source name type e rest item hargs => ?_
      obtain rfl : args = source :: .lambda name type e :: rest := hargs
      exact (ih (s.descend.enter name item) name item (hs.descend.enter name item) he.2.2.2.1).mono
        fun f hf => ⟨hf.1.confined, hf.2⟩
  | case7 s | case8 s | case9 s => exact gives_of_descend (confines_booleanField hs.descend _)
  | case10 =>
      exact (relative_booleanConst ..).mono fun f hf => ⟨Scope.admits_of_const? rfl, hf⟩
  | case11 => exact gives_refuse _ _

/-- No accepted predicate mixes scopes: each of its parameters is the one of the
innermost predicate around it, the document never stands by itself, and the
paths in the body of an `elemMatch` start at an item of the array. -/
theorem predicate_confined {model : Model} {maxDepth : Nat} {p : Predicate} {f : Filter}
    (hbuilt : p.toExpr.Built) (h : predicate model maxDepth p = .ok f) :
    (p.body.Confined p.name ∧ p.body.Grounded) ∧
      ∃ root, model.registry.find? p.type = some root ∧ f.Relative model.maps root := by
  unfold predicate predicateIn at h
  split at h
  · cases h
  · rename_i root hroot
    split at h
    · have hs := Scope.owns_document model maxDepth p.name root 0
      have hadmits := (confines_expression _ p.body p.name root hs hbuilt.saturated).of_ok h
      exact ⟨⟨hadmits.1.confined, hadmits.1.grounded rfl⟩, root, hroot, hadmits.2⟩
    · cases h

/-- A class with rows of numbers. -/
def grid : Model where
  schema := ⟨[⟨"Grid", [("Rows", .array (.array .int32))]⟩]⟩
  maps := ⟨[⟨"Grid", [⟨"Rows", "rows", .array (.array (.integer .int32 .int32))⟩]⟩]⟩
  registry := ⟨[.document "Grid" (some 0) 0]⟩

/-- Whether some number is one. All parameters have the same name. -/
def someOne : Predicate where
  name := "x"
  type := .cls "Grid" (some 0)
  body := .call none (.anyWhere (.array .int32))
    [.member (.param "x" (.cls "Grid" (some 0))) "Rows" (some (.array (.array .int32))),
      .lambda "x" (.array .int32) (.call none (.anyWhere .int32)
        [.param "x" (.array .int32), .lambda "x" .int32
          (.binary (.compare .eq) (.param "x" .int32) (.const (.int 1) .int32) (some .boolean))])]

theorem built_someOne : someOne.toExpr.Built := by
  have hparam (type : Ty) : (Expr.param "x" type).Built :=
    .parameter (rfl : Expr.parameter "x" (some type) = .ok _)
  have hlambda (type : Ty) {body : Expr} (hbody : body.Built) : (Expr.lambda "x" type body).Built :=
    .lambdaOf hbody (rfl : Expr.lambdaOf (some (.param "x" type)) (some body) = .ok _)
  have hany (element : Ty) {source test : Expr} (hsource : source.Built) (htest : test.Built) :
      (Expr.call none (.anyWhere element) [source, test]).Built :=
    .callStatic (by simp [hsource, htest])
      (rfl : Expr.callStatic (some (.anyWhere element)) ([source, test].map some) = .ok _)
  have hone : (Expr.const (.int 1) .int32).Built :=
    .constant (rfl : Expr.constant (.int 1) (some .int32) = .ok _)
  have hrows := Expr.Built.memberOf (hparam (.cls "Grid" (some 0)))
    (rfl : Expr.memberOf grid.schema (some (.param "x" (.cls "Grid" (some 0)))) "Rows" = .ok _)
  have hequal := Expr.Built.binaryOf (hparam .int32) hone
    (rfl : Expr.binaryOf (.compare .eq) (some (.param "x" .int32)) (some (.const (.int 1) .int32))
      = .ok _)
  exact hlambda _ (hany _ hrows (hlambda _ (hany _ (hparam _) (hlambda _ hequal))))

theorem predicate_confined_someOne :
    let f : Filter := .elemMatch ⟨["rows"]⟩ (.elemMatch .root (.test .root (.eq (.int 1))))
    predicate grid 64 someOne = .ok f ∧ (someOne.body.Confined "x" ∧ someOne.body.Grounded) ∧
      f.Relative grid.maps (.document "Grid" (some 0) 0) := by
  intro f
  have h : predicate grid 64 someOne = .ok f := rfl
  obtain ⟨hscopes, root, hroot, hpaths⟩ := predicate_confined built_someOne h
  cases hroot
  exact ⟨h, hscopes, hpaths⟩

end Compile

end QueryFilter
