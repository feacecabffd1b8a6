import QueryFilter.Proofs.Confinement
import QueryFilter.Proofs.Equality
import QueryFilter.Proofs.Renamed

/-!
What becomes of the constants of a predicate. Rules say which filter stands for
which expression, and what number each integer constant comes out as. Every
compiled predicate has its filter by these rules, so integers keep their value,
but for those of a remainder, which are read as signed words.
-/

namespace QueryFilter

/-! ### Integers -/

namespace Expr

/-- An expression whose integer constants are such as JSON can hold. -/
def Words (e : Expr) : Prop :=
  ∀ position n type, e.at? position = some (.const (.int n) type) → Json.fitsWord n = true

theorem Words.child {e part : Expr} (h : e.Words) (hpart : part ∈ e.children) : part.Words := by
  obtain ⟨k, hk⟩ := List.getElem?_of_mem hpart
  intro position n type hconst
  refine h (k :: position) n type ?_
  rw [at?, hk]
  exact hconst

theorem words_int {n : Int} (h : Json.fitsWord n = true) (type : Ty) :
    (const (.int n) type).Words := by
  intro position m other hat
  cases position with
  | nil =>
      cases hat
      exact h
  | cons k position => cases hat

theorem words_of_parts {e : Expr} (hconst : e.const? = none)
    (hparts : ∀ part ∈ e.children, part.Words) : e.Words := by
  intro position n type hat
  cases position with
  | nil =>
      cases hat
      cases hconst
  | cons k position =>
      obtain ⟨part, hpart, hat⟩ := Option.bind_eq_some_iff.mp hat
      exact hparts part (List.mem_of_getElem? hpart) position n type hat

theorem Words.const? {e : Expr} (h : e.Words) {n : Int} (hconst : e.const? = some (.int n)) :
    Json.fitsWord n = true := by
  cases e with
  | const value type =>
      cases hconst
      exact h [] n type rfl
  | _ => cases hconst

end Expr

/-- An integer and the signed word of its bits. The upper half of the words is
read as negative. -/
inductive SignedAs : Int → Int → Prop where
  | same {n : Int} : n < 0x8000000000000000 → SignedAs n n
  | negative {n : Int} : 0x8000000000000000 ≤ n → SignedAs n (n - 0x10000000000000000)

theorem signedAs_bmod {n : Int} (h : Json.fitsWord n = true) :
    SignedAs n (n.bmod 0x10000000000000000) := by
  by_cases hlt : n < 0x8000000000000000
  · rw [(bmod_eq_self_iff h).mpr hlt]
    exact .same hlt
  · have hword : n.bmod 0x10000000000000000 = n - 0x10000000000000000 := by
      simp only [Json.fitsWord, Bool.and_eq_true, decide_eq_true_eq] at h
      rw [Int.bmod_def]
      split <;> omega
    rw [hword]
    exact .negative (Int.not_lt.mp hlt)

namespace ClassMaps

/-- A constant and its stored form. Of an integer that is its number or its
decimal text, and only an integer that the field can hold has one. -/
inductive Carries (maps : ClassMaps) : Encoder → Json → Json → Prop where
  | null (encoder : Encoder) : Carries maps encoder .null .null
  | number {width : Width} {r : Representation} {n : Int} : r = .int32 ∨ r = .int64 →
      width.contains n = true → Carries maps (.integer width r) (.int n) (.int n)
  | text {width : Width} {n : Int} : width.contains n = true →
      Carries maps (.integer width .string) (.int n) (.string (toString n))
  | other {encoder : Encoder} {v w : Json} :
      (∀ width r, encoder = .integer width r → ¬r.IsExact) → maps.encode encoder v = .ok w →
      Carries maps encoder v w

theorem carries_of_encode {maps : ClassMaps} {encoder : Encoder} {v w : Json}
    (h : maps.encode encoder v = .ok w) : maps.Carries encoder v w := by
  by_cases hexact : ∃ width r, encoder = .integer width r ∧ r.IsExact
  · obtain ⟨width, r, rfl, hr⟩ := hexact
    obtain ⟨n, rfl, rfl⟩ := encode_integer_eq_ok h
    have hfits := contains_of_encode h
    rcases hr with rfl | rfl | rfl
    · exact .number (.inl rfl) hfits
    · exact .number (.inr rfl) hfits
    · exact .text hfits
  · exact .other (fun width r he hr => hexact ⟨width, r, he, hr⟩) h

theorem carries_of_storedForm {maps : ClassMaps} {encoder : Encoder} {v w : Json}
    (h : maps.StoredForm encoder v w) : maps.Carries encoder v w := by
  rcases h with ⟨rfl, rfl⟩ | h
  · exact .null encoder
  · exact carries_of_encode h

/-! ### Rules -/

/-- The field that an expression locates, from the value of the parameter `own`
on, which `current` governs. -/
inductive Locates (maps : ClassMaps) (own : String) (current : Encoder) : Expr → Field → Prop where
  | param (type : Ty) : Locates maps own current (.param own type) ⟨.root, current⟩
  | member {object : Expr} {container : Field} {name : String} {entry : MemberMap}
      (type : Option Ty) : Locates maps own current object container →
      maps.find? container.encoder name = some entry →
      Locates maps own current (.member object name type)
        (container.child entry.element entry.encoder)
  | item {object : Expr} {container : Field} {item : Encoder} {n : Nat} (position : Ty)
      (type : Option Ty) : Locates maps own current object container →
      container.encoder = .array item → (n : Int) < 0x8000000000000000 →
      Locates maps own current (.index object (.const (.int n) position) type)
        (container.child (toString n) item)
  | entry {object : Expr} {container : Field} {key value : Encoder} {k : Json} {text : String}
      (keyType : Ty) (type : Option Ty) : Locates maps own current object container →
      container.encoder = .dictionary .document key value → maps.Carries key k (.string text) →
      Locates maps own current (.index object (.const k keyType) type) (container.child text value)

end ClassMaps

namespace Filter

/-- The filter that compares a remainder; remainders are in no order. -/
inductive OfRemainder (path : Path) (divisor remainder : Int) : Comparison → Filter → Prop where
  | eq : OfRemainder path divisor remainder .eq (.test path (.mod divisor remainder))
  | ne : OfRemainder path divisor remainder .ne (.not (.test path (.mod divisor remainder)))

/-- The filter of arrays with an item that passes a filter. -/
def someItem (array : Path) : Filter → Filter
  | .everything => .nonEmptyArray array
  | .nothing => .nothing
  | body => .elemMatch array body

end Filter

namespace ClassMaps

/-- The filter of an expression that asks for a single field. -/
inductive Asks (maps : ClassMaps) (own : String) (current : Encoder) : Expr → Filter → Prop where
  | truth {e : Expr} {f : Field} {stored : Json} : maps.Locates own current e f →
      maps.Carries f.encoder (.bool true) stored →
      Asks maps own current e (.test f.path (.eq stored))
  | comparison {operand e : Expr} {how : Comparison} {value stored : Json} {f : Field} :
      operand.Compares how value e → maps.Locates own current operand f →
      maps.Carries f.encoder value stored →
      Asks maps own current e (.test f.path (.compare how stored))
  | length {operand array e : Expr} {how : Comparison} {n : Nat} {f : Field} {g : Filter} :
      operand.Compares how (.int n) e → Compile.lengthOf? operand = some array →
      maps.Locates own current array f → (n : Int) < 0x8000000000000000 →
      Filter.OfLength f.path how n g → Asks maps own current e g
  | remainder {dividend e : Expr} {divisor : Ty} {type : Option Ty} {how : Comparison}
      {d r d' r' : Int} {f : Field} {g : Filter} :
      (Expr.binary .mod dividend (.const (.int d) divisor) type).Compares how (.int r) e →
      maps.Locates own current dividend f → SignedAs d d' → SignedAs r r' →
      Filter.OfRemainder f.path d' r' how g → Asks maps own current e g
  | equals {operand a b : Expr} {value stored : Json} {method : Method} {f : Field}
      (rest : List Expr) : method.isEquals = true → operand.OneConstant value a b →
      maps.Locates own current operand f → maps.Carries f.encoder value stored →
      Asks maps own current (.call (some a) method (b :: rest)) (.test f.path (.eq stored))
  | containsKey {object : Expr} {method : Method} {f : Field} {key value : Encoder} {k : Json}
      {text : String} (type : Ty) (rest : List Expr) : method.isContainsKey = true →
      maps.Locates own current object f → f.encoder = .dictionary .document key value →
      maps.Carries key k (.string text) →
      Asks maps own current (.call (some object) method (.const k type :: rest))
        (.test (f.path.child text) (.presence true))
  | containsValue {object : Expr} {method : Method} {f : Field} {layout : Layout}
      {key value : Encoder} {step : String} {v stored : Json} (type : Ty) (rest : List Expr) :
      method.isContainsValue = true → maps.Locates own current object f →
      f.encoder = .dictionary layout key value → layout.valueStep? = some step →
      maps.Carries value v stored →
      Asks maps own current (.call (some object) method (.const v type :: rest))
        (.elemMatch f.path (.test ⟨[step]⟩ (.eq stored)))
  | stringMatch {object : Expr} {method : Method} {f : Field} {literal : String} (type : Ty)
      (rest : List Expr) : method.isStringMatch = true → maps.Locates own current object f →
      Asks maps own current (.call (some object) method (.const (.string literal) type :: rest))
        (.test f.path (.regex (Compile.literalPattern method.matching literal) ""))
  | stringEmptiness {object : Option Expr} {operand : Expr} {method : Method} {f : Field}
      (rest : List Expr) : method.isStringEmptiness = true → maps.Locates own current operand f →
      Asks maps own current (.call object method (operand :: rest))
        (.test f.path (.oneOf [.null, .string ""]))
  | oneOf {c : Call} {value : Expr} {items stored : List Json} {f : Field} (type : Ty) :
      Compile.membership? c = some (.const (.array items) type, value) →
      maps.Locates own current value f → List.Forall₂ (maps.Carries f.encoder) items stored →
      Asks maps own current c.toExpr (.test f.path (.oneOf stored))
  | item {c : Call} {source : Expr} {value stored : Json} {f : Field} {item : Encoder} (type : Ty) :
      Compile.membership? c = some (source, .const value type) →
      maps.Locates own current source f → f.encoder = .array item →
      maps.Carries item value stored → Asks maps own current c.toExpr (.test f.path (.eq stored))
  | any {object : Option Expr} {source : Expr} {method : Method} {f : Field} {item : Encoder}
      (rest : List Expr) : method.isAny = true → maps.Locates own current source f →
      f.encoder = .array item →
      Asks maps own current (.call object method (source :: rest)) (.nonEmptyArray f.path)

/-- The filter of an expression about the value of the parameter `own`, which
`current` governs. -/
inductive Transcribes (maps : ClassMaps) : String → Encoder → Expr → Filter → Prop where
  | asks {own : String} {current : Encoder} {e : Expr} {f : Filter} :
      maps.Asks own current e f → Transcribes maps own current e f
  | const {own : String} {current : Encoder} (b : Bool) (type : Ty) :
      Transcribes maps own current (.const (.bool b) type) (if b then .everything else .nothing)
  | not {own : String} {current : Encoder} {operand : Expr} {f : Filter} :
      Transcribes maps own current operand f → Transcribes maps own current (.not operand) (.not f)
  | and {own : String} {current : Encoder} {left right : Expr} {f g : Filter} (type : Option Ty) :
      Transcribes maps own current left f → Transcribes maps own current right g →
      Transcribes maps own current (.binary .and left right type) (.allOf [f, g])
  | or {own : String} {current : Encoder} {left right : Expr} {f g : Filter} (type : Option Ty) :
      Transcribes maps own current left f → Transcribes maps own current right g →
      Transcribes maps own current (.binary .or left right type) (.anyOf [f, g])
  | anyWhere {own : String} {current : Encoder} {object : Option Expr} {source body : Expr}
      {method : Method} {f : Field} {item : Encoder} {name : String} {g : Filter} (type : Ty)
      (rest : List Expr) : method.isAnyWhere = true → maps.Locates own current source f →
      f.encoder = .array item → Transcribes maps name item body g →
      Transcribes maps own current
        (.call object method (source :: .lambda name type body :: rest)) (g.someItem f.path)

end ClassMaps

/-! ### Compiled parts follow the rules -/

theorem Expr.const?_eq_some {e : Expr} {value : Json} (h : e.const? = some value) :
    ∃ type, e = .const value type := by
  cases e with
  | const v type =>
      cases h
      exact ⟨type, rfl⟩
  | _ => cases h

namespace Scope

variable {s : Scope} {encoder : Encoder} {v w : Json} {e : Option Expr}

theorem carries_of_encode (h : s.encode encoder v e = .ok w) : s.model.maps.Carries encoder v w :=
  ClassMaps.carries_of_encode (mapError_eq_ok.mp h)

theorem carries_of_encodeOrNull (h : s.encodeOrNull encoder v e = .ok w) :
    s.model.maps.Carries encoder v w :=
  ClassMaps.carries_of_storedForm (encodeOrNull_eq_ok_iff.mp h)

end Scope

namespace Compile

variable {s : Scope} {own : String} {current : Encoder}

section

variable (hs : s.Owns own current)

theorem locates_indexField {object key : Expr} (hkey : key.Words) {container f : Field}
    (hcontainer : s.model.maps.Locates own current object container) (type : Option Ty)
    (h : indexField s (.index object key type) container key.const? = .ok f) :
    s.model.maps.Locates own current (.index object key type) f := by
  unfold indexField at h
  split at h
  · rename_i item hitem
    split at h
    · rename_i w hw
      split at h
      · cases h
      · rename_i hnonneg
        obtain ⟨value, hconst, hword⟩ := Option.bind_eq_some_iff.mp hw
        obtain ⟨n, rfl, rfl⟩ := word?_eq_some_iff.mp hword
        obtain ⟨position, rfl⟩ := Expr.const?_eq_some hconst
        have hfits := hkey.const? hconst
        obtain ⟨hzero, hlt⟩ := (nonneg_bmod_iff hfits).mp (Int.not_lt.mp hnonneg)
        obtain ⟨k, rfl⟩ := Int.eq_ofNat_of_zero_le hzero
        rw [(bmod_eq_self_iff hfits).mpr hlt] at h
        cases h
        exact .item position type hcontainer hitem hlt
    · cases h
  · rename_i keyEncoder valueEncoder hencoder
    split at h
    · cases h
    · rename_i value hconst
      obtain ⟨text, htext, h⟩ := bind_eq_ok.mp h
      obtain ⟨keyType, rfl⟩ := Expr.const?_eq_some hconst
      split at h
      · cases h
        exact .entry keyType type hcontainer hencoder
          (Scope.carries_of_encode htext)
      · cases h
  · cases h
  · cases h

include hs

theorem locates_chain {e : Expr} (he : e.Words) {f : Field} (h : chain s e = .ok f) :
    s.model.maps.Locates own current e f := by
  fun_induction chain s e generalizing f with
  | case1 => cases h
  | case2 name type symbol hfind hlevel =>
      cases h
      have hname : symbol.name = name := by simpa using List.find?_some hfind
      obtain ⟨hown, hpath, hencoder⟩ := hs.owned symbol (List.mem_of_find?_eq_some hfind) hlevel
      rw [hpath, hencoder, ← hname, hown]
      exact .param type
  | case3 => cases h
  | case4 object name type ih =>
      obtain ⟨container, hcontainer, h⟩ := bind_eq_ok.mp h
      have hobject := ih (he.child List.mem_cons_self) hcontainer
      unfold memberField at h
      split at h
      · rename_i entry hentry
        cases h
        exact .member type hobject hentry
      · cases h
  | case5 object key type ih =>
      obtain ⟨container, hcontainer, h⟩ := bind_eq_ok.mp h
      have hobject := ih (he.child List.mem_cons_self) hcontainer
      exact locates_indexField (he.child (by simp [Expr.children])) hobject type h
  | case6 => cases h

theorem locates_field {e : Expr} (he : e.Words) {f : Field} (h : field s e = .ok f) :
    s.model.maps.Locates own current e f :=
  locates_chain hs he (chain_of_field h)

theorem asks_remainder {e dividend divisor : Expr} {how : Comparison} {value : Json} {g : Filter}
    {type : Option Ty} (hwords : (Expr.binary .mod dividend divisor type).Words)
    (hvalue : ∀ n, value = .int n → Json.fitsWord n = true)
    (he : (Expr.binary .mod dividend divisor type).Compares how value e)
    (h : remainder s e dividend divisor how value = .ok g) :
    s.model.maps.Asks own current e g := by
  unfold remainder at h
  split at h
  · cases h
  rename_i hequality
  split at h
  · cases h
  rename_i d hd
  split at h
  · cases h
  rename_i hzero
  split at h
  · cases h
  rename_i r hr
  obtain ⟨f, hf, h⟩ := bind_eq_ok.mp h
  obtain ⟨constant, hconst, hword⟩ := Option.bind_eq_some_iff.mp hd
  obtain ⟨n, rfl, rfl⟩ := word?_eq_some_iff.mp hword
  obtain ⟨m, rfl, rfl⟩ := word?_eq_some_iff.mp hr
  obtain ⟨divisorType, rfl⟩ := Expr.const?_eq_some hconst
  have hdividend := locates_field hs (hwords.child List.mem_cons_self) hf
  have hdivisor : (Expr.const (.int n) divisorType).Words :=
    hwords.child (by simp [Expr.children])
  split at h
  · rw [Filter.modOf_of_ne_zero _ _ hzero] at h
    refine .remainder he hdividend (signedAs_bmod (hdivisor.const? rfl))
      (signedAs_bmod (hvalue m rfl)) ?_
    cases how with
    | eq =>
        cases h
        exact .eq
    | ne =>
        cases h
        exact .ne
    | lt | le | gt | ge => exact absurd rfl hequality
  · cases h

theorem asks_compareWith {e operand : Expr} (hwords : operand.Words) {how : Comparison}
    {value : Json} (hvalue : ∀ n, value = .int n → Json.fitsWord n = true)
    (he : operand.Compares how value e) {g : Filter}
    (h : compareWith s e operand how value = .ok g) : s.model.maps.Asks own current e g := by
  by_cases hderived : operand.IsDerived
  · rcases hderived with ⟨dividend, divisor, type, rfl⟩ | ⟨array, hlength⟩
    · exact asks_remainder hs hwords hvalue he h
    · rw [compareWith_of_lengthOf? hlength] at h
      obtain ⟨n, f, rfl, hlt, hf, hlengths⟩ := (arrayLength_eq_ok_iff hvalue).mp h
      obtain ⟨name, type, -, rfl, -⟩ := lengthOf?_eq_some hlength
      have harray := locates_field hs (hwords.child List.mem_cons_self) hf
      exact .length he hlength harray hlt hlengths
  · obtain ⟨f, hf, -, stored, hstored, rfl⟩ := (compareWith_eq_ok_iff hderived).mp h
    exact .comparison he (locates_field hs hwords hf) (ClassMaps.carries_of_storedForm hstored)

theorem asks_binary {op : BinaryOp} {left right : Expr} {type : Option Ty}
    (hwords : (Expr.binary op left right type).Words) {g : Filter}
    (h : binary s (.binary op left right type) op left right = .ok g) :
    s.model.maps.Asks own current (.binary op left right type) g := by
  have hleft : left.Words := hwords.child List.mem_cons_self
  have hright : right.Words := hwords.child (by simp [Expr.children])
  cases op with
  | compare how =>
      dsimp only [binary] at h
      unfold comparison at h
      split at h
      · rename_i value hconst _
        obtain ⟨constant, rfl⟩ := Expr.const?_eq_some hconst
        have he := @Expr.Compares.right right how.converse value constant type
        rw [how.converse_converse] at he
        exact asks_compareWith hs hright (fun n hn => hleft.const? (congrArg some hn)) he h
      · rename_i value hconst
        obtain ⟨constant, rfl⟩ := Expr.const?_eq_some hconst
        exact asks_compareWith hs hleft (fun n hn => hright.const? (congrArg some hn))
          (.left constant type) h
      · cases h
      · cases h
  | _ => cases h

theorem asks_containsKey {c : Call} (hwords : c.toExpr.Words) {g : Filter}
    (h : containsKey s c = .ok g) : s.model.maps.Asks own current c.toExpr g := by
  unfold containsKey at h
  split at h
  · rename_i object key hmethod hoperands
    obtain ⟨method, rest, rfl⟩ := Call.operands?_eq_some hoperands
    obtain ⟨f, hf, h⟩ := bind_eq_ok.mp h
    have hobject := locates_field hs (hwords.child List.mem_cons_self) hf
    split at h
    · rename_i keyEncoder valueEncoder hencoder
      obtain ⟨text, htext, ⟨⟩⟩ := bind_eq_ok.mp h
      unfold keyText at htext
      split at htext
      · cases htext
      · rename_i k hkey
        obtain ⟨type, rfl⟩ := Expr.const?_eq_some hkey
        split at htext
        · cases htext
        · rename_i stored hstored
          cases htext
          exact .containsKey type rest hmethod hobject hencoder
            (ClassMaps.carries_of_encode hstored)
        · cases htext
    · cases h
    · cases h
  · cases h

theorem asks_containsValue {c : Call} (hwords : c.toExpr.Words) {g : Filter}
    (h : containsValue s c = .ok g) : s.model.maps.Asks own current c.toExpr g := by
  unfold containsValue at h
  split at h
  · rename_i object value hmethod hoperands
    obtain ⟨method, rest, rfl⟩ := Call.operands?_eq_some hoperands
    obtain ⟨f, hf, h⟩ := bind_eq_ok.mp h
    have hobject := locates_field hs (hwords.child List.mem_cons_self) hf
    split at h
    · rename_i layout keyEncoder valueEncoder hencoder
      split at h
      · cases h
      rename_i step hstep
      split at h
      · cases h
      rename_i v hv
      obtain ⟨type, rfl⟩ := Expr.const?_eq_some hv
      obtain ⟨stored, hstored, ⟨⟩⟩ := bind_eq_ok.mp h
      exact .containsValue type rest hmethod hobject hencoder hstep
        (Scope.carries_of_encode hstored)
    · cases h
  · cases h

theorem locates_stringField {c : Call} {operand : Expr} (hwords : operand.Words) {f : Field}
    (h : stringField s c operand = .ok f) : s.model.maps.Locates own current operand f := by
  unfold stringField at h
  split at h
  · obtain ⟨target, htarget, h⟩ := bind_eq_ok.mp h
    split at h
    · cases h
      exact locates_field hs hwords htarget
    · cases h
  · cases h

theorem asks_stringMatch {c : Call} (hwords : c.toExpr.Words) {g : Filter}
    (h : stringMatch s c = .ok g) : s.model.maps.Asks own current c.toExpr g := by
  unfold stringMatch at h
  split at h
  · rename_i object arg hmethod hoperands
    obtain ⟨method, rest, rfl⟩ := Call.operands?_eq_some hoperands
    obtain ⟨f, hf, h⟩ := bind_eq_ok.mp h
    have hobject := locates_stringField hs (hwords.child List.mem_cons_self) hf
    split at h
    · rename_i literal hliteral
      cases h
      obtain ⟨value, hvalue, htext⟩ := Option.bind_eq_some_iff.mp hliteral
      obtain ⟨type, rfl⟩ := Expr.const?_eq_some hvalue
      cases value with
      | string text =>
          cases htext
          exact .stringMatch type rest hmethod hobject
      | _ => cases htext
    · cases h
  · cases h

theorem asks_stringEmptiness {c : Call} (hwords : c.toExpr.Words) {g : Filter}
    (h : stringEmptiness s c = .ok g) : s.model.maps.Asks own current c.toExpr g := by
  unfold stringEmptiness at h
  split at h
  · rename_i operand rest hmethod hargs
    obtain ⟨f, hf, ⟨⟩⟩ := bind_eq_ok.mp h
    have hoperand := locates_stringField hs (hwords.child (Call.mem_children_of_args hargs)) hf
    obtain ⟨object, method, _⟩ := c
    obtain rfl : _ = operand :: rest := hargs
    exact .stringEmptiness rest hmethod hoperand
  · cases h

theorem asks_contains {c : Call} (hwords : c.toExpr.Words) {g : Filter}
    (h : contains s c = .ok g) : s.model.maps.Asks own current c.toExpr g := by
  unfold contains at h
  split at h
  · cases h
  rename_i source value hmembership
  obtain ⟨hsource, hvalue⟩ := mem_children_of_membership hmembership
  split at h
  · rename_i collection hcollection
    obtain ⟨type, rfl⟩ := Expr.const?_eq_some hcollection
    split at h
    · obtain ⟨f, hf, h⟩ := bind_eq_ok.mp h
      obtain ⟨stored, hstored, ⟨⟩⟩ := bind_eq_ok.mp h
      unfold Scope.encodeItems at hstored
      split at hstored
      · rename_i items
        have hitems := ClassMaps.forall₂_of_encodeItems (mapError_eq_ok.mp hstored)
        exact .oneOf type hmembership (locates_field hs (hwords.child hvalue) hf)
          (hitems.imp fun v w hvw => ClassMaps.carries_of_encode hvw)
      · cases hstored
    · cases h
  · split at h
    · obtain ⟨f, hf, h⟩ := bind_eq_ok.mp h
      obtain ⟨item, hitem, hitems⟩ := bind_eq_ok.mp h
      split at hitems
      · rename_i v hv
        obtain ⟨type, rfl⟩ := Expr.const?_eq_some hv
        obtain ⟨stored, hstored, ⟨⟩⟩ := bind_eq_ok.mp hitems
        exact .item type hmembership (locates_field hs (hwords.child hsource) hf)
          ((gives_itemEncoder c f).of_ok hitem)
          (Scope.carries_of_encodeOrNull hstored)
      · cases hitems
    · cases h

theorem asks_equals {c : Call} (hwords : c.toExpr.Words) {g : Filter}
    (h : equals s c = .ok g) : s.model.maps.Asks own current c.toExpr g := by
  unfold equals at h
  split at h
  · rename_i object arg hmethod hoperands
    obtain ⟨method, rest, rfl⟩ := Call.operands?_eq_some hoperands
    have hobject : object.Words := hwords.child List.mem_cons_self
    have harg : arg.Words := hwords.child (List.mem_cons_of_mem _ List.mem_cons_self)
    dsimp only at h
    -- the constant is the receiver if that is one, else the argument
    cases hconst : object.const? with
    | some value =>
        obtain ⟨type, rfl⟩ := Expr.const?_eq_some hconst
        obtain ⟨f, hf, h⟩ := bind_eq_ok.mp h
        obtain ⟨stored, hstored, ⟨⟩⟩ := bind_eq_ok.mp h
        exact .equals rest hmethod (.first type (const?_of_field hf)) (locates_field hs harg hf)
          (Scope.carries_of_encodeOrNull hstored)
    | none =>
        simp only [hconst, Option.isSome_none, Bool.false_eq_true, if_false] at h
        split at h
        · split at h <;> cases h
        rename_i value hother
        obtain ⟨type, rfl⟩ := Expr.const?_eq_some hother
        obtain ⟨f, hf, h⟩ := bind_eq_ok.mp h
        obtain ⟨stored, hstored, ⟨⟩⟩ := bind_eq_ok.mp h
        exact .equals rest hmethod (.second type hconst) (locates_field hs hobject hf)
          (Scope.carries_of_encodeOrNull hstored)
  · cases h

end

theorem elemMatch_eq_ok {c : Call} {array : Path} {body g : Filter}
    (h : elemMatch c array body = .ok g) : g = body.someItem array := by
  unfold elemMatch at h
  split at h
  · cases h
    rfl
  · cases h
    rfl
  · split at h
    · cases h
      rw [Filter.someItem]
      · assumption
      · assumption
    · cases h
    · cases h

theorem transcribes_any (hs : s.Owns own current) {c : Call} (hwords : c.toExpr.Words)
    {body : Scope → Compiled Filter}
    (hbody : ∀ source name type e rest item g, c.args = source :: .lambda name type e :: rest →
      body (s.enter name item) = .ok g → s.model.maps.Transcribes name item e g) {g : Filter}
    (h : any s c body = .ok g) : s.model.maps.Transcribes own current c.toExpr g := by
  unfold any at h
  split at h
  · rename_i source rest hmethod hargs
    obtain ⟨f, hf, h⟩ := bind_eq_ok.mp h
    obtain ⟨item, hencoder, h⟩ := bind_eq_ok.mp h
    have hsource := locates_field hs (hwords.child (Call.mem_children_of_args hargs)) hf
    have hitem := (gives_itemEncoder c f).of_ok hencoder
    obtain ⟨object, method, _⟩ := c
    obtain rfl : _ = source :: rest := hargs
    split at h
    · rename_i hany
      cases h
      exact .asks (.any rest hany hsource hitem)
    · rename_i hany
      have hwhere : method.isAnyWhere = true := by simpa [hany] using hmethod
      split at h
      · rename_i name type e others _ _
        obtain ⟨inner, hinner, h⟩ := bind_eq_ok.mp h
        rw [elemMatch_eq_ok h]
        exact .anyWhere type others hwhere hsource hitem
          (hbody source name type e others item inner rfl hinner)
      · cases h
  · cases h

theorem transcribes_call (hs : s.Owns own current) {c : Call} (hwords : c.toExpr.Words)
    {body : Scope → Compiled Filter}
    (hbody : ∀ source name type e rest item g, c.args = source :: .lambda name type e :: rest →
      body (s.enter name item) = .ok g → s.model.maps.Transcribes name item e g) {g : Filter}
    (h : call s c body = .ok g) : s.model.maps.Transcribes own current c.toExpr g := by
  unfold call at h
  split at h
  · exact .asks (asks_containsKey hs hwords h)
  · exact .asks (asks_containsValue hs hwords h)
  · exact .asks (asks_stringMatch hs hwords h)
  · exact .asks (asks_stringEmptiness hs hwords h)
  · exact .asks (asks_contains hs hwords h)
  · exact .asks (asks_contains hs hwords h)
  · exact transcribes_any hs hwords hbody h
  · exact transcribes_any hs hwords hbody h
  · exact .asks (asks_equals hs hwords h)
  · cases h

theorem asks_booleanField (hs : s.Owns own current) {e : Expr} (hwords : e.Words) {g : Filter}
    (h : booleanField s e = .ok g) : s.model.maps.Asks own current e g := by
  unfold booleanField at h
  split at h
  · obtain ⟨f, hf, h⟩ := bind_eq_ok.mp h
    obtain ⟨stored, hstored, ⟨⟩⟩ := bind_eq_ok.mp h
    exact .truth (locates_field hs hwords hf)
      (Scope.carries_of_encode hstored)
  · cases h

theorem transcribes_expression (s : Scope) (e : Expr) {own : String} {current : Encoder}
    (hs : s.Owns own current) (hwords : e.Words) {g : Filter} (h : expression s e = .ok g) :
    s.model.maps.Transcribes own current e g := by
  fun_induction expression s e generalizing own current g with
  | case1 => cases h
  | case2 s _ left right type ihl ihr =>
      obtain ⟨l, hl, h⟩ := bind_eq_ok.mp h
      obtain ⟨r, hr, ⟨⟩⟩ := bind_eq_ok.mp h
      exact .and type (ihl hs.descend (hwords.child List.mem_cons_self) hl)
        (ihr hs.descend (hwords.child (by simp [Expr.children])) hr)
  | case3 s _ left right type ihl ihr =>
      obtain ⟨l, hl, h⟩ := bind_eq_ok.mp h
      obtain ⟨r, hr, ⟨⟩⟩ := bind_eq_ok.mp h
      exact .or type (ihl hs.descend (hwords.child List.mem_cons_self) hl)
        (ihr hs.descend (hwords.child (by simp [Expr.children])) hr)
  | case4 s => exact .asks (asks_binary hs.descend hwords h)
  | case5 s _ operand ih =>
      obtain ⟨f, hf, ⟨⟩⟩ := bind_eq_ok.mp h
      exact .not (ih hs.descend (hwords.child List.mem_cons_self) hf)
  | case6 s _ object method args ih =>
      refine transcribes_call hs.descend (c := ⟨object, method, args⟩) hwords
        (fun source name type e rest item g hargs hg => ?_) h
      obtain rfl : args = source :: .lambda name type e :: rest := hargs
      have hlambda : (Expr.lambda name type e).Words := hwords.child (by simp [Expr.children])
      exact ih (s.descend.enter name item) (hs.descend.enter name item)
        (hlambda.child (by simp [Expr.children])) hg
  | case7 s | case8 s | case9 s => exact .asks (asks_booleanField hs.descend hwords h)
  | case10 s _ value type =>
      unfold booleanConst at h
      split at h
      · cases h
        exact .const true type
      · cases h
        exact .const false type
      · cases h
  | case11 => cases h

/-- A predicate whose integers are such as JSON can hold is refused, or its
filter stands for it by the rules. What is taken from an integer is its own
value: the step of an index, the size or the boundary of a length, and the
stored form in an integer field that can hold it. Only divisors and remainders
are read as signed words, and altered from half of the range on. -/
theorem predicate_transcribed (model : Model) (maxDepth : Nat) {p : Predicate}
    (hwords : p.body.Words) :
    (predicate model maxDepth p).Meets Refused fun f =>
      ∃ root, model.registry.find? p.type = some root ∧
        model.maps.Transcribes p.name root p.body f := by
  cases hp : predicate model maxDepth p with
  | error e => exact predicate_refused hp
  | ok f =>
      unfold predicate predicateIn at hp
      split at hp
      · cases hp
      · rename_i root hroot
        split at hp
        · have hs := Scope.owns_document model maxDepth p.name root 0
          exact ⟨root, hroot, transcribes_expression _ p.body hs hwords hp⟩
        · cases hp

/-- Whether the first number leaves a remainder. -/
def leaves (remainder divisor : Int) (type : Ty) : Predicate where
  name := "x"
  type := .cls "Grid" (some 0)
  body := .binary (.compare .eq) (.binary .mod corner (.const (.int divisor) type) (some .int32))
    (.const (.int remainder) .int32) (some .boolean)

theorem words_leaves {remainder divisor : Int} (hr : Json.fitsWord remainder = true)
    (hd : Json.fitsWord divisor = true) (type : Ty) :
    (leaves remainder divisor type).body.Words := by
  have hzero := Expr.words_int (rfl : Json.fitsWord 0 = true) .int32
  have hgrid : (Expr.param "x" (.cls "Grid" (some 0))).Words :=
    Expr.words_of_parts rfl (by simp [Expr.children])
  have hrows : rows.Words := Expr.words_of_parts rfl (by simp [rows, Expr.children, hgrid])
  have hrow : (Expr.index rows (.const (.int 0) .int32) (some (.array .int32))).Words :=
    Expr.words_of_parts rfl (by simp [Expr.children, hrows, hzero])
  have hcorner : corner.Words :=
    Expr.words_of_parts rfl (by simp [corner, Expr.children, hrow, hzero])
  have hleft : (Expr.binary .mod corner (.const (.int divisor) type) (some .int32)).Words :=
    Expr.words_of_parts rfl (by simp [Expr.children, hcorner, Expr.words_int hd type])
  exact Expr.words_of_parts rfl
    (by simp [leaves, Expr.children, hleft, Expr.words_int hr .int32])

/-- The number one at the start of the grid is told from others by a remainder of
itself, and so are its position and the divisor. -/
theorem predicate_transcribed_leaves :
    let p := leaves 1 2 .int32
    let f : Filter := .test ⟨["rows", "0", "0"]⟩ (.mod 2 1)
    predicate grid 64 p = .ok f ∧ ∃ root, grid.registry.find? p.type = some root ∧
      grid.maps.Transcribes p.name root p.body f := by
  intro p f
  have hf : predicate grid 64 p = .ok f := rfl
  exact ⟨hf, (predicate_transcribed grid 64 (words_leaves rfl rfl .int32)).of_ok hf⟩

/-- A divisor at the end of the range comes out as minus one. -/
theorem leaves_alters_divisor :
    let p := leaves 0 18446744073709551615 .int64
    p.body.Built ∧ p.body.Words ∧
      predicate grid 64 p = .ok (.test ⟨["rows", "0", "0"]⟩ (.mod (-1) 0)) := by
  intro p
  have hdivisor := Expr.built_const (.int 18446744073709551615) .int64
  have hleft := Expr.Built.binaryOf built_corner hdivisor (rfl : Expr.binaryOf .mod _ _ = .ok _)
  have hbody : p.body.Built :=
    .binaryOf hleft (Expr.built_const (.int 0) .int32)
      (rfl : Expr.binaryOf (.compare .eq) _ _ = .ok _)
  exact ⟨hbody, words_leaves rfl rfl .int64, rfl⟩

end Compile

end QueryFilter
