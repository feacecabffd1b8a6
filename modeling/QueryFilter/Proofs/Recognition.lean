import QueryFilter.Proofs.Confinement
import QueryFilter.Proofs.Refusals

/-!
Methods are recognised in at most one way. The recognizers differ in whether a
method is static, in the number of its parameters or in its name, and where
they do not, in the kind of its receiver; so it does not matter in which order
they are tried, and a call goes to a compiler that takes it.
-/

namespace QueryFilter

namespace Method

/-- The ways in which a method can be recognised. -/
inductive Recognizer where
  | containsKey
  | containsValue
  | stringMatch
  | stringEmptiness
  | sequenceContains
  | listContains
  | any
  | anyWhere
  | equals
  deriving DecidableEq, Repr

/-- What tells the methods of one recognizer from those of another. -/
structure Features where
  isStatic : Bool
  arity : Nat
  names : List String
  receiver? : Option Ty.Kind

namespace Recognizer

def accepts : Recognizer → Method → Bool
  | .containsKey => isContainsKey
  | .containsValue => isContainsValue
  | .stringMatch => isStringMatch
  | .stringEmptiness => isStringEmptiness
  | .sequenceContains => isSequenceContains
  | .listContains => isListContains
  | .any => isAny
  | .anyWhere => isAnyWhere
  | .equals => isEquals

/-- The shape of the methods that a recognizer accepts. -/
def shape (m : Method) : Recognizer → Shape
  | .containsKey => .containsKey
  | .containsValue => .containsValue
  | .stringMatch => .stringMatch m.matching
  | .stringEmptiness => .stringEmptiness
  | .sequenceContains => .sequenceContains
  | .listContains => .listContains
  | .any => .any
  | .anyWhere => .anyWhere
  | .equals => .equals

def features : Recognizer → Features
  | .containsKey => ⟨false, 1, ["ContainsKey"], none⟩
  | .containsValue => ⟨false, 1, ["ContainsValue"], none⟩
  | .stringMatch => ⟨false, 1, ["Contains", "StartsWith", "EndsWith"], some .string⟩
  | .stringEmptiness => ⟨true, 1, ["IsNullOrEmpty"], none⟩
  | .sequenceContains => ⟨true, 2, ["Contains"], none⟩
  | .listContains => ⟨false, 1, ["Contains"], some .array⟩
  | .any => ⟨true, 1, ["Any"], none⟩
  | .anyWhere => ⟨true, 2, ["Any"], none⟩
  | .equals => ⟨false, 1, ["Equals"], none⟩

end Recognizer

/-- A method that has the features of a recognizer. -/
structure Has (m : Method) (features : Features) : Prop where
  isStatic : m.isStatic = features.isStatic
  arity : m.arity = features.arity
  name : m.name ∈ features.names
  receiver : ∀ kind, features.receiver? = some kind → m.declaredBy kind = true

/-- Features that no method has both of. -/
def Features.Clash (a b : Features) : Prop :=
  a.isStatic ≠ b.isStatic ∨ a.arity ≠ b.arity ∨ (∀ name ∈ a.names, name ∉ b.names) ∨
    ∃ kind kind', a.receiver? = some kind ∧ b.receiver? = some kind' ∧ kind ≠ kind'

variable {m : Method}

theorem Has.not_clash {a b : Features} (ha : m.Has a) (hb : m.Has b) : ¬a.Clash b := by
  rintro (hstatic | harity | hnames | ⟨kind, kind', hkind, hkind', hne⟩)
  · exact hstatic (ha.isStatic.symm.trans hb.isStatic)
  · exact harity (ha.arity.symm.trans hb.arity)
  · exact hnames m.name ha.name hb.name
  · -- a receiver has one kind
    have hreceiver := hb.receiver kind' hkind'
    rw [declaredBy_of_declaredBy (ha.receiver kind hkind) kind'] at hreceiver
    exact hne (by simpa using hreceiver)

theorem has_of_asks {isStatic : Bool} {name : String} {arity : Nat}
    (h : m.asks isStatic name arity = true) : m.Has ⟨isStatic, arity, [name], none⟩ := by
  simp only [asks, Bool.and_eq_true, beq_iff_eq] at h
  obtain ⟨⟨⟨⟨hstatic, -⟩, -⟩, hname⟩, harity⟩ := h
  exact ⟨hstatic, harity, by simp [hname], fun kind hkind => by cases hkind⟩

namespace Recognizer

theorem has_of_accepts {r : Recognizer} (h : r.accepts m = true) : m.Has r.features := by
  cases r with
  | containsKey | containsValue | equals => exact has_of_asks h
  | stringEmptiness | sequenceContains | any =>
      exact has_of_asks (Bool.and_eq_true_iff.mp h).1
  | anyWhere => exact has_of_asks (Bool.and_eq_true_iff.mp (Bool.and_eq_true_iff.mp h).1).1
  | listContains =>
      obtain ⟨hasks, hdeclared⟩ := Bool.and_eq_true_iff.mp h
      have hhas := has_of_asks hasks
      refine ⟨hhas.isStatic, hhas.arity, hhas.name, fun kind hkind => ?_⟩
      obtain rfl : .array = kind := Option.some.inj hkind
      exact hdeclared
  | stringMatch =>
      obtain ⟨hquestion, -⟩ := Bool.and_eq_true_iff.mp h
      obtain ⟨hasks, hdeclared⟩ := Bool.and_eq_true_iff.mp hquestion
      -- one of the three names, and the same otherwise
      have hhas : m.Has ⟨false, 1, ["Contains", "StartsWith", "EndsWith"], none⟩ := by
        rcases Bool.or_eq_true_iff.mp hasks with hasks | hasks
        · rcases Bool.or_eq_true_iff.mp hasks with hasks | hasks
          all_goals
            obtain ⟨hstatic, harity, hname, hreceiver⟩ := has_of_asks hasks
            exact ⟨hstatic, harity, by simp_all, hreceiver⟩
        · obtain ⟨hstatic, harity, hname, hreceiver⟩ := has_of_asks hasks
          exact ⟨hstatic, harity, by simp_all, hreceiver⟩
      refine ⟨hhas.isStatic, hhas.arity, hhas.name, fun kind hkind => ?_⟩
      obtain rfl : .string = kind := Option.some.inj hkind
      exact hdeclared

theorem clash_of_ne {r r' : Recognizer} (h : r ≠ r') : r.features.Clash r'.features := by
  cases r <;> cases r' <;>
    first
    | exact absurd rfl h
    | exact .inl (by decide)
    | exact .inr (.inl (by decide))
    | exact .inr (.inr (.inl (by decide)))
    | exact .inr (.inr (.inr ⟨_, _, rfl, rfl, by decide⟩))

/-- At most one recognizer accepts a method. -/
theorem eq_of_accepts {r r' : Recognizer} (h : r.accepts m = true) (h' : r'.accepts m = true) :
    r = r' := by
  by_contra hne
  exact (has_of_accepts h).not_clash (has_of_accepts h') (clash_of_ne hne)

/-! ### The order in which recognizers are tried -/

/-- The shape that the first of some recognizers sees in a method. -/
def firstShape? (order : List Recognizer) (m : Method) : Option Shape :=
  (order.find? (·.accepts m)).map (shape m)

theorem firstShape?_cons (r : Recognizer) (order : List Recognizer) (m : Method) :
    firstShape? (r :: order) m
      = if r.accepts m then some (r.shape m) else firstShape? order m := by
  rw [firstShape?, List.find?_cons]
  cases r.accepts m <;> rfl

/-- The order of the program. -/
theorem shape?_eq_firstShape? (m : Method) :
    m.shape? = firstShape? [.containsKey, .containsValue, .stringMatch, .stringEmptiness,
      .sequenceContains, .listContains, .any, .anyWhere, .equals] m := by
  simp only [firstShape?_cons]
  rfl

/-- Whatever the order is, the one recognizer that accepts a method is found. -/
theorem firstShape?_of_accepts {order : List Recognizer} {r : Recognizer} (hmem : r ∈ order)
    (h : r.accepts m = true) : firstShape? order m = some (r.shape m) := by
  cases hfound : order.find? (·.accepts m) with
  | none => exact absurd h (List.find?_eq_none.mp hfound r hmem)
  | some found =>
      have haccepts : found.accepts m = true :=
        List.find?_some (p := fun r : Recognizer => r.accepts m) hfound
      obtain rfl : found = r := eq_of_accepts haccepts h
      rw [firstShape?, hfound, Option.map_some]

theorem firstShape?_eq_none {order : List Recognizer} (h : ∀ r ∈ order, r.accepts m = false) :
    firstShape? order m = none := by
  rw [firstShape?, Option.map_eq_none_iff, List.find?_eq_none]
  intro r hmem
  rw [h r hmem]
  exact Bool.false_ne_true

theorem shape?_of_accepts {r : Recognizer} (h : r.accepts m = true) :
    m.shape? = some (r.shape m) := by
  rw [shape?_eq_firstShape?]
  exact firstShape?_of_accepts (by cases r <;> decide) h

theorem shape?_eq_none_iff : m.shape? = none ↔ ∀ r : Recognizer, r.accepts m = false := by
  constructor
  · intro h r
    rw [Bool.eq_false_iff]
    intro haccepts
    cases h.symm.trans (shape?_of_accepts haccepts)
  · intro h
    rw [shape?_eq_firstShape?]
    exact firstShape?_eq_none fun r _ => h r

/-- A recognizer is left out of no complete order. -/
theorem firstShape?_eq_shape? {order : List Recognizer} (h : ∀ r, r ∈ order) (m : Method) :
    firstShape? order m = m.shape? := by
  by_cases haccepts : ∃ r : Recognizer, r.accepts m = true
  · obtain ⟨r, hr⟩ := haccepts
    rw [firstShape?_of_accepts (h r) hr, shape?_of_accepts hr]
  · have hnone (r : Recognizer) : r.accepts m = false :=
      Bool.eq_false_iff.mpr fun hr => haccepts ⟨r, hr⟩
    rw [firstShape?_eq_none fun r _ => hnone r, shape?_eq_none_iff.mpr hnone]

theorem exists_accepts_of_shape? {s : Shape} (h : m.shape? = some s) :
    ∃ r : Recognizer, r.accepts m = true ∧ r.shape m = s := by
  by_contra hnone
  have hshape : m.shape? = none := by
    refine shape?_eq_none_iff.mpr fun r => Bool.eq_false_iff.mpr fun hr => ?_
    exact hnone ⟨r, hr, Option.some.inj ((shape?_of_accepts hr).symm.trans h)⟩
  cases hshape.symm.trans h

end Recognizer

/-- The shape of a question about a string is named by the method. -/
theorem text_matching (h : m.isStringMatch = true) :
    (Shape.stringMatch m.matching).text = "String" ++ m.name := by
  have hname : m.name ∈ ["Contains", "StartsWith", "EndsWith"] :=
    (Recognizer.has_of_accepts (r := .stringMatch) h).name
  unfold matching
  rcases List.mem_cons.mp hname with hcontains | hname
  · rw [hcontains]
    rfl
  · rcases List.mem_pair.mp hname with hstarts | hends
    · rw [hstarts]
      rfl
    · rw [hends]
      rfl

end Method

/-! ### Calls -/

namespace Expr

theorem sizeOf_le_of_at? {e part : Expr} {position : List Nat} (h : e.at? position = some part) :
    sizeOf part ≤ sizeOf e := by
  induction position generalizing e with
  | nil =>
      obtain rfl : e = part := Option.some.inj h
      exact Nat.le_refl _
  | cons n position ih =>
      obtain ⟨child, hchild, hpart⟩ := Option.bind_eq_some_iff.mp h
      have hsmaller := sizeOf_lt_of_mem_children (List.mem_of_getElem? hchild)
      exact Nat.le_of_lt (Nat.lt_of_le_of_lt (ih hpart) hsmaller)

end Expr

/-- An error that points into a part of an expression is not about the whole. -/
theorem CompileError.PointsInto.ne_whole {w part : Expr} {e : CompileError}
    (h : e.PointsInto part) (hpart : part ∈ w.children) : e.expression ≠ some w := by
  intro hwhole
  obtain ⟨found, position, hfound, hposition⟩ := h
  obtain rfl : found = w := Option.some.inj (hfound.symm.trans hwhole)
  exact absurd (Expr.sizeOf_le_of_at? hposition)
    (Nat.not_le.mpr (Expr.sizeOf_lt_of_mem_children hpart))

theorem CompileError.PointsInto.child {w part : Expr} {e : CompileError}
    (h : e.PointsInto part) (hpart : part ∈ w.children) : e.PointsInto w := by
  obtain ⟨found, position, hfound, hposition⟩ := h
  obtain ⟨n, hn⟩ := List.mem_iff_getElem?.mp hpart
  refine ⟨found, n :: position, hfound, ?_⟩
  rw [Expr.at?, hn]
  exact hposition

namespace Call

/-- Any error but the refusal of a call by the compiler that it was given to. -/
def Taken (c : Call) (e : CompileError) : Prop := e ≠ ⟨.unclaimed, some c.toExpr⟩

/-- Whether a call has a receiver exactly if its method is not static, and one
argument for each parameter. -/
def Complete (c : Call) : Prop :=
  c.object.isSome = !c.method.isStatic ∧ c.args.length = c.method.arity

variable {c : Call} {α : Type}

theorem taken_refuse {cause : Cause} (h : cause ≠ .unclaimed) :
    (c.refuse cause : Compiled α).Meets c.Taken fun _ => True :=
  fun heq => h (congrArg CompileError.cause heq)

theorem taken_of_points {part : Expr} {e : CompileError} (hpart : part ∈ c.toExpr.children)
    (h : e.kind = .none ∨ e.PointsInto part) : c.Taken e := by
  rintro rfl
  rcases h with hkind | hpoints
  · cases hkind
  · exact hpoints.ne_whole hpart rfl

theorem taken_encode (s : Scope) (encoder : Encoder) (value : Json) (e : Option Expr) :
    (s.encode encoder value e).Meets c.Taken fun _ => True := by
  unfold Scope.encode
  cases s.model.maps.encode encoder value with
  | ok stored => trivial
  | error error => exact fun h => by cases h

theorem taken_encodeOrNull (s : Scope) (encoder : Encoder) (value : Json) (e : Option Expr) :
    (s.encodeOrNull encoder value e).Meets c.Taken fun _ => True := by
  unfold Scope.encodeOrNull
  split
  · trivial
  · exact taken_encode s encoder value e

theorem taken_encodeItems (s : Scope) (encoder : Encoder) (values : Json) (e : Option Expr) :
    (s.encodeItems encoder values e).Meets c.Taken fun _ => True := by
  unfold Scope.encodeItems
  split
  · rename_i items
    cases s.model.maps.encodeItems encoder items with
    | ok stored => trivial
    | error error => exact fun h => by cases h
  · exact fun h => by cases h

theorem Complete.operands? (h : c.Complete) {name : String}
    (hasks : c.method.asks false name 1 = true) :
    ∃ object arg, c.operands? = some (object, arg) := by
  obtain ⟨object, method, args⟩ := c
  obtain ⟨receiver, arg, rfl, rfl⟩ := Expr.operands_of_question h hasks
  exact ⟨receiver, arg, rfl⟩

theorem Complete.args_eq_cons (h : c.Complete) {name : String} {n : Nat}
    (hasks : c.method.asks true name (n + 1) = true) :
    ∃ arg rest, c.args = arg :: rest ∧ rest.length = n := by
  obtain ⟨-, hlength⟩ := Expr.operands_of_staticQuestion h hasks
  obtain ⟨arg, rest, hargs⟩ := List.exists_cons_of_length_eq_add_one hlength
  rw [hargs, List.length_cons, Nat.add_right_cancel_iff] at hlength
  exact ⟨arg, rest, hargs, hlength⟩

end Call

namespace Compile

open Call (taken_refuse taken_encode)

variable {s : Scope} {c : Call} {object arg : Expr}

theorem taken_field (hpart : arg ∈ c.toExpr.children) :
    (field s arg).Meets c.Taken fun _ => True := by
  cases hfield : field s arg with
  | ok f => trivial
  | error error => exact Call.taken_of_points hpart (field_points hfield)

theorem taken_keyText (key : Expr) (encoder : Encoder) :
    (keyText s c key encoder).Meets c.Taken fun _ => True := by
  unfold keyText
  split
  · exact taken_refuse (by simp)
  · split
    · exact taken_refuse (by simp)
    · trivial
    · exact taken_refuse (by simp)

theorem taken_containsKey (h : c.method.isContainsKey = true)
    (hoperands : c.operands? = some (object, arg)) :
    (containsKey s c).Meets c.Taken fun _ => True := by
  unfold containsKey
  rw [h, hoperands]
  refine (taken_field (Call.mem_children_of_operands? hoperands).1).bind fun f _ => ?_
  split
  · exact (taken_keyText ..).bind fun key _ => trivial
  · exact taken_refuse (by simp)
  · exact taken_refuse (by simp)

theorem taken_containsValue (h : c.method.isContainsValue = true)
    (hoperands : c.operands? = some (object, arg)) :
    (containsValue s c).Meets c.Taken fun _ => True := by
  unfold containsValue
  rw [h, hoperands]
  refine (taken_field (Call.mem_children_of_operands? hoperands).1).bind fun f _ => ?_
  split
  · split
    · exact taken_refuse (by simp)
    · split
      · exact taken_refuse (by simp)
      · exact (taken_encode ..).bind fun stored _ => trivial
  · exact taken_refuse (by simp)

theorem taken_stringField (hpart : arg ∈ c.toExpr.children) :
    (stringField s c arg).Meets c.Taken fun _ => True := by
  unfold stringField
  split
  · refine (taken_field hpart).bind fun f _ => ?_
    split
    · trivial
    · exact taken_refuse (by simp)
  · exact taken_refuse (by simp)

theorem taken_stringMatch (h : c.method.isStringMatch = true)
    (hoperands : c.operands? = some (object, arg)) :
    (stringMatch s c).Meets c.Taken fun _ => True := by
  unfold stringMatch
  rw [h, hoperands]
  refine (taken_stringField (Call.mem_children_of_operands? hoperands).1).bind fun f _ => ?_
  split
  · trivial
  · exact taken_refuse (by simp)

theorem taken_stringEmptiness {rest : List Expr} (h : c.method.isStringEmptiness = true)
    (hargs : c.args = arg :: rest) : (stringEmptiness s c).Meets c.Taken fun _ => True := by
  unfold stringEmptiness
  rw [h, hargs]
  exact (taken_stringField (Call.mem_children_of_args hargs)).bind fun f _ => trivial

theorem taken_itemEncoder (f : Field) : (itemEncoder c f).Meets c.Taken fun _ => True := by
  unfold itemEncoder
  split
  · trivial
  · exact taken_refuse (by simp)

theorem taken_contains {source value : Expr} (h : membership? c = some (source, value)) :
    (contains s c).Meets c.Taken fun _ => True := by
  obtain ⟨hsource, hvalue⟩ := mem_children_of_membership h
  unfold contains
  rw [h]
  dsimp only
  split
  · split
    · refine (taken_field hvalue).bind fun f _ => ?_
      exact (Call.taken_encodeItems ..).bind fun stored _ => trivial
    · exact taken_refuse (by simp)
  · split
    · refine (taken_field hsource).bind fun f _ => ?_
      refine (taken_itemEncoder f).bind fun item _ => ?_
      split
      · exact (Call.taken_encodeOrNull ..).bind fun stored _ => trivial
      · exact taken_refuse (by simp)
    · exact taken_refuse (by simp)

theorem taken_equals (h : c.method.isEquals = true)
    (hoperands : c.operands? = some (object, arg)) :
    (equals s c).Meets c.Taken fun _ => True := by
  obtain ⟨hobject, harg⟩ := Call.mem_children_of_operands? hoperands
  unfold equals
  rw [h, hoperands]
  dsimp only
  -- the operand is the receiver or the argument
  obtain ⟨operand, other, hpair, hoperand⟩ : ∃ operand other,
      (if object.const?.isSome = true then (arg, object) else (object, arg)) = (operand, other) ∧
        operand ∈ c.toExpr.children := by
    split
    · exact ⟨_, _, rfl, harg⟩
    · exact ⟨_, _, rfl, hobject⟩
  rw [hpair]
  dsimp only
  split
  · split
    · exact taken_refuse (by simp)
    · exact taken_refuse (by simp)
  · refine (taken_field hoperand).bind fun f _ => ?_
    exact (Call.taken_encodeOrNull ..).bind fun stored _ => trivial

theorem taken_elemMatch (path : Path) (body : Filter) :
    (elemMatch c path body).Meets c.Taken fun _ => True := by
  unfold elemMatch
  split
  · trivial
  · trivial
  · split
    · trivial
    · exact taken_refuse (by simp)
    · exact fun h => by cases h

/-- The body of the predicate of a call is a part of a part of the call. -/
theorem taken_predicateBody {source : Expr} {name : String} {type : Ty} {body : Expr}
    {rest : List Expr} (hargs : c.args = source :: .lambda name type body :: rest)
    (inner : Scope) : (predicateBody c inner).Meets c.Taken fun _ => True := by
  have hlambda : .lambda name type body ∈ c.toExpr.children := by
    rw [Call.toExpr, Expr.children, hargs]
    exact List.mem_append_right _ (List.mem_cons_of_mem _ List.mem_cons_self)
  unfold predicateBody
  rw [hargs]
  dsimp only
  cases hbody : expression inner body with
  | ok f => trivial
  | error error =>
      refine Call.taken_of_points hlambda ((expression_points hbody).imp_right fun hpoints => ?_)
      exact hpoints.child (List.mem_cons_of_mem _ List.mem_cons_self)

theorem taken_any {source : Expr} {rest : List Expr}
    (h : (c.method.isAny || c.method.isAnyWhere) = true) (hargs : c.args = source :: rest) :
    (any s c (predicateBody c)).Meets c.Taken fun _ => True := by
  unfold any
  rw [h, hargs]
  refine (taken_field (Call.mem_children_of_args hargs)).bind fun f _ => ?_
  refine (taken_itemEncoder f).bind fun item _ => ?_
  split
  · trivial
  · split
    · exact (taken_predicateBody hargs _).bind fun inner _ => taken_elemMatch ..
    · exact taken_refuse (by simp)

theorem exists_membership?_of_isSequenceContains (hcomplete : c.Complete)
    (h : c.method.isSequenceContains = true) :
    ∃ source value, membership? c = some (source, value) := by
  obtain ⟨source, rest, hargs, hrest⟩ :=
    hcomplete.args_eq_cons (Bool.and_eq_true_iff.mp h).1
  obtain ⟨value, hvalue⟩ := List.length_eq_one_iff.mp hrest
  refine ⟨source, value, ?_⟩
  rw [membership?, if_pos h, hargs, hvalue]

theorem exists_membership?_of_isListContains (hcomplete : c.Complete)
    (h : c.method.isListContains = true) :
    ∃ source value, membership? c = some (source, value) := by
  obtain ⟨object, arg, hoperands⟩ := hcomplete.operands? (Bool.and_eq_true_iff.mp h).1
  refine ⟨object, arg, ?_⟩
  rw [membership?, if_neg, if_pos h, hoperands]
  rw [(Method.shape?_of_isListContains h).1]
  exact Bool.false_ne_true

/-- The compiler that a complete call goes to takes the call: it gives a filter
or refuses for a reason of its own. -/
theorem taken_call (hcomplete : c.Complete) :
    (call s c (predicateBody c)).Meets c.Taken fun _ => True := by
  cases hshape : c.method.shape? with
  | none =>
      rw [call, hshape]
      exact taken_refuse (by simp)
  | some shape =>
      obtain ⟨r, h, rfl⟩ := Method.Recognizer.exists_accepts_of_shape? hshape
      rw [call, hshape]
      cases r with
      | containsKey =>
          obtain ⟨object, arg, hoperands⟩ := hcomplete.operands? h
          exact taken_containsKey h hoperands
      | containsValue =>
          obtain ⟨object, arg, hoperands⟩ := hcomplete.operands? h
          exact taken_containsValue h hoperands
      | stringMatch =>
          obtain ⟨name, hasks⟩ := asks_of_isStringMatch h
          obtain ⟨object, arg, hoperands⟩ := hcomplete.operands? hasks
          exact taken_stringMatch h hoperands
      | stringEmptiness =>
          obtain ⟨arg, rest, hargs, -⟩ := hcomplete.args_eq_cons (Bool.and_eq_true_iff.mp h).1
          exact taken_stringEmptiness h hargs
      | sequenceContains =>
          obtain ⟨source, value, hmembership⟩ :=
            exists_membership?_of_isSequenceContains hcomplete h
          exact taken_contains hmembership
      | listContains =>
          obtain ⟨source, value, hmembership⟩ := exists_membership?_of_isListContains hcomplete h
          exact taken_contains hmembership
      | any =>
          obtain ⟨source, rest, hargs, -⟩ := hcomplete.args_eq_cons (Bool.and_eq_true_iff.mp h).1
          exact taken_any (Bool.or_eq_true_iff.mpr (.inl h)) hargs
      | anyWhere =>
          have hasks := (Bool.and_eq_true_iff.mp (Bool.and_eq_true_iff.mp h).1).1
          obtain ⟨source, rest, hargs, -⟩ := hcomplete.args_eq_cons hasks
          exact taken_any (Bool.or_eq_true_iff.mpr (.inr h)) hargs
      | equals =>
          obtain ⟨object, arg, hoperands⟩ := hcomplete.operands? h
          exact taken_equals h hoperands

/-- A method is recognised in at most one way. It has no shape exactly if it is
recognised in no way, and else the shape of the one way, whatever the order in
which the ways are tried; a complete call of it is not refused by the compiler
that it goes to for being a call of another method. -/
theorem recognized_in_one_way (m : Method) :
    (∀ r r' : Method.Recognizer, r.accepts m = true → r'.accepts m = true → r = r') ∧
    (m.shape? = none ↔ ∀ r : Method.Recognizer, r.accepts m = false) ∧
    (∀ r : Method.Recognizer, r.accepts m = true → m.shape? = some (r.shape m)) ∧
    (m.isStringMatch = true →
      (Method.Shape.stringMatch m.matching).text = "String" ++ m.name) ∧
    (∀ order, (∀ r : Method.Recognizer, r ∈ order) →
      Method.Recognizer.firstShape? order m = m.shape?) ∧
    ∀ (s : Scope) (c : Call), c.method = m → c.Complete →
      call s c (predicateBody c) ≠ c.refuse .unclaimed := by
  refine ⟨fun r r' => Method.Recognizer.eq_of_accepts, Method.Recognizer.shape?_eq_none_iff,
    fun r => Method.Recognizer.shape?_of_accepts, Method.text_matching,
    fun order horder => Method.Recognizer.firstShape?_eq_shape? horder m, ?_⟩
  rintro s c - hcomplete hrefused
  have htaken := taken_call (s := s) hcomplete
  rw [hrefused] at htaken
  exact htaken rfl

/-- Three recognizers look for a method of this name. -/
theorem recognized_in_one_way_contains :
    let m := Method.stringContains
    let c : Call := ⟨some (.param "name" .string), m, [.const (.string "a") .string]⟩
    m.shape? = some (.stringMatch .contains) ∧
      Method.Recognizer.listContains.accepts m = false ∧
      Method.Recognizer.firstShape? [.equals, .anyWhere, .any, .listContains, .sequenceContains,
        .stringEmptiness, .stringMatch, .containsValue, .containsKey] m
          = some (.stringMatch .contains) ∧
      call (.create .empty 64) c (predicateBody c) ≠ c.refuse .unclaimed := by
  intro m c
  obtain ⟨hunique, -, hshape, -, horder, hcall⟩ := recognized_in_one_way m
  have haccepts : Method.Recognizer.stringMatch.accepts m = true := by decide
  have hlist : Method.Recognizer.listContains.accepts m = false := by
    rw [Bool.eq_false_iff]
    intro hlist
    cases hunique .stringMatch .listContains haccepts hlist
  refine ⟨hshape .stringMatch haccepts, hlist, ?_, hcall _ c rfl ⟨rfl, rfl⟩⟩
  rw [horder _ fun r => by cases r <;> decide]
  exact hshape .stringMatch haccepts

end Compile

end QueryFilter
