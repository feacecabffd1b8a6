import Mathlib.Data.List.Find
import QueryFilter.Encoding.Registry
import QueryFilter.Except
import QueryFilter.Expr.Build

/-!
Names of types can be read in one way only. A name is a word, or one of two
words with two names in angle brackets, and then any number of pairs of square
brackets; a word holds none of the marks in between. So types made of classes
and enumerations that have words of their own for names are told apart by their
names, even if a class is called like a dictionary or a function.
-/

namespace QueryFilter

namespace Ty

/-- Letters, digits and underscores; all that is not ASCII counts as a letter. -/
def isWordChar (c : Char) : Bool := c.isAlphanum || c == '_' || decide (0x80 ≤ c.toNat)

def IsWord (name : String) : Prop := ∀ c ∈ name.toList, isWordChar c = true

def scalars : List Ty := [.boolean, .int32, .int64, .double, .string]

/-- Classes and enumerations with words for names, which are different from each
other and from those of the scalar types. -/
structure Vocabulary (named : Ty → Prop) : Prop where
  kind : ∀ t, named t → t.kind = .cls ∨ t.kind = .enumeration
  word : ∀ t, named t → IsWord t.name
  distinct : ∀ t u, named t → named u → t.name = u.name → t = u
  fresh : ∀ t, named t → t.name ∉ scalars.map name

/-- A type that is not made of others. -/
def Atomic (named : Ty → Prop) (t : Ty) : Prop := t ∈ scalars ∨ named t

/-- The types over a vocabulary. -/
inductive Over (named : Ty → Prop) : Ty → Prop where
  | atom {t : Ty} : Atomic named t → Over named t
  | array {element : Ty} : Over named element → Over named (.array element)
  | dictionary {key value : Ty} :
      Over named key → Over named value → Over named (.dictionary key value)
  | function {parameter result : Ty} :
      Over named parameter → Over named result → Over named (.function parameter result)

variable {named : Ty → Prop}

theorem isWord_of_mem_scalars {t : Ty} (h : t ∈ scalars) : IsWord t.name := by
  have hall : ∀ t ∈ scalars, t.name.toList.all isWordChar = true := by decide +kernel
  exact fun c hc => List.all_eq_true.mp (hall t h) c hc

theorem eq_of_mem_scalars {t u : Ty} (ht : t ∈ scalars) (hu : u ∈ scalars)
    (h : t.name = u.name) : t = u := by
  have hall : ∀ t ∈ scalars, ∀ u ∈ scalars, t.name = u.name → t = u := by decide +kernel
  exact hall t ht u hu h

theorem Atomic.isWord (hnamed : Vocabulary named) {t : Ty} (h : Atomic named t) :
    IsWord t.name :=
  h.elim isWord_of_mem_scalars (hnamed.word t)

theorem Atomic.eq (hnamed : Vocabulary named) {t u : Ty} (ht : Atomic named t)
    (hu : Atomic named u) (h : t.name = u.name) : t = u := by
  rcases ht with ht | ht
  · rcases hu with hu | hu
    · exact eq_of_mem_scalars ht hu h
    · exact absurd (h ▸ List.mem_map_of_mem ht) (hnamed.fresh u hu)
  · rcases hu with hu | hu
    · exact absurd (h ▸ List.mem_map_of_mem hu) (hnamed.fresh t ht)
    · exact hnamed.distinct t u ht hu h

/-! ### Where a part of a name ends -/

/-- No more of a word follows. -/
def Stops (rest : List Char) : Prop := ∀ c ∈ rest.head?, isWordChar c = false

/-- What follows a type that may be the item of an array. -/
def Trails (rest : List Char) : Prop := ∀ c ∈ rest.head?, c = '[' ∨ c = ',' ∨ c = '>'

/-- What follows a name inside a name. -/
def Ends (rest : List Char) : Prop := ∀ c ∈ rest.head?, c = ',' ∨ c = '>'

theorem ends_nil : Ends [] := by
  rintro c ⟨⟩

theorem ends_comma (rest : List Char) : Ends (',' :: rest) := by
  rintro c ⟨⟩
  exact .inl rfl

theorem ends_close (rest : List Char) : Ends ('>' :: rest) := by
  rintro c ⟨⟩
  exact .inr rfl

theorem stops_open (rest : List Char) : Stops ('<' :: rest) := by
  rintro c ⟨⟩
  decide

theorem Trails.stops {rest : List Char} (h : Trails rest) : Stops rest := by
  intro c hc
  obtain rfl | rfl | rfl := h c hc
  · decide
  · decide
  · decide

theorem Trails.ne_open {rest more : List Char} (h : Trails rest) : rest ≠ '<' :: more := by
  rintro rfl
  have hc := h '<' rfl
  revert hc
  decide

theorem Ends.ne_bracket {rest more : List Char} (h : Ends rest) : rest ≠ '[' :: more := by
  rintro rfl
  have hc := h '[' rfl
  revert hc
  decide

theorem Stops.ne_word {rest more : List Char} {c : Char} (h : Stops rest)
    (hc : isWordChar c = true) : rest ≠ c :: more := by
  rintro rfl
  exact Bool.false_ne_true ((h c rfl).symm.trans hc)

/-- Two words that are followed by no more of them are the same. -/
theorem append_inj_of_stops {v w : List Char} (hv : ∀ c ∈ v, isWordChar c = true)
    (hw : ∀ c ∈ w, isWordChar c = true) {r s : List Char} (hr : Stops r) (hs : Stops s)
    (h : v ++ r = w ++ s) : v = w ∧ r = s := by
  induction v generalizing w with
  | nil =>
      cases w with
      | nil => exact ⟨rfl, h⟩
      | cons c w => exact absurd h (hr.ne_word (hw c List.mem_cons_self))
  | cons c v ih =>
      cases w with
      | nil => exact absurd h.symm (hs.ne_word (hv c List.mem_cons_self))
      | cons d w =>
          obtain ⟨rfl, hrest⟩ := List.cons.inj h
          rw [List.forall_mem_cons] at hv hw
          obtain ⟨rfl, rfl⟩ := ih hv.2 hw.2 hrest
          exact ⟨rfl, rfl⟩

/-! ### Arrays of arrays -/

/-- A type in so many arrays. -/
def arrays : Nat → Ty → Ty
  | 0, t => t
  | n + 1, t => arrays n (.array t)

def brackets : Nat → List Char
  | 0 => []
  | n + 1 => '[' :: ']' :: brackets n

theorem toList_name_array (element : Ty) (n : Nat) (rest : List Char) :
    (Ty.array element).name.toList ++ (brackets n ++ rest)
      = element.name.toList ++ (brackets (n + 1) ++ rest) := by
  simp [name, brackets]

theorem trails_brackets (n : Nat) {rest : List Char} (h : Ends rest) :
    Trails (brackets n ++ rest) := by
  intro c hc
  cases n with
  | zero => exact .inr (h c hc)
  | succ n => exact .inl (Option.some.inj hc).symm

theorem brackets_append_inj {n m : Nat} {r s : List Char} (hr : Ends r) (hs : Ends s)
    (h : brackets n ++ r = brackets m ++ s) : n = m ∧ r = s := by
  induction n generalizing m with
  | zero =>
      cases m with
      | zero => exact ⟨rfl, h⟩
      | succ m => exact absurd h hr.ne_bracket
  | succ n ih =>
      cases m with
      | zero => exact absurd h.symm hs.ne_bracket
      | succ m =>
          obtain ⟨rfl, rfl⟩ := ih (List.cons.inj (List.cons.inj h).2).2
          exact ⟨rfl, rfl⟩

/-! ### How a name begins -/

/-- The word that the name of a type begins with, and the types in angle
brackets after it. Arrays begin as their items do. -/
inductive Opens (named : Ty → Prop) : Ty → String → Option (Ty × Ty) → Prop where
  | atom {t : Ty} : Atomic named t → Opens named t t.name none
  | dictionary {key value : Ty} : Over named key → Over named value →
      Opens named (.dictionary key value) "Dictionary" (some (key, value))
  | function {parameter result : Ty} : Over named parameter → Over named result →
      Opens named (.function parameter result) "Func" (some (parameter, result))

/-- Two types in angle brackets. -/
def arguments : Option (Ty × Ty) → List Char
  | none => []
  | some (first, second) =>
    '<' :: (first.name.toList ++ ',' :: ' ' :: (second.name.toList ++ ['>']))

theorem Opens.toList_name {t : Ty} {word : String} {parts : Option (Ty × Ty)}
    (h : Opens named t word parts) : t.name.toList = word.toList ++ arguments parts := by
  cases h <;> simp [name, arguments]

theorem Opens.isWord (hnamed : Vocabulary named) {t : Ty} {word : String}
    {parts : Option (Ty × Ty)} (h : Opens named t word parts) : IsWord word := by
  cases h with
  | atom h => exact h.isWord hnamed
  | dictionary => exact List.all_eq_true.mp (by decide +kernel)
  | function => exact List.all_eq_true.mp (by decide +kernel)

/-- A type is known by its word and what it is made of. -/
theorem Opens.eq (hnamed : Vocabulary named) {t u : Ty} {word : String}
    {parts : Option (Ty × Ty)} (ht : Opens named t word parts) (hu : Opens named u word parts) :
    t = u := by
  generalize hother : word = other at hu
  cases ht with
  | atom ht =>
      cases hu with
      | atom hu => exact ht.eq hnamed hu hother
  | dictionary =>
      cases hu with
      | dictionary => rfl
      | function => exact absurd hother (by decide +kernel)
  | function =>
      cases hu with
      | dictionary => exact absurd hother (by decide +kernel)
      | function => rfl

theorem stops_arguments (parts : Option (Ty × Ty)) {rest : List Char} (h : Trails rest) :
    Stops (arguments parts ++ rest) := by
  cases parts with
  | none => exact h.stops
  | some parts => exact stops_open _

/-! ### Unique readability -/

/-- Wherever the name of a type in arrays stands, it can be read as no other. -/
def Readable (named : Ty → Prop) (t : Ty) : Prop :=
  ∀ (n m : Nat) (u : Ty) (r s : List Char), Over named u → Ends r → Ends s →
    t.name.toList ++ (brackets n ++ r) = u.name.toList ++ (brackets m ++ s) →
      arrays n t = arrays m u ∧ r = s

theorem Readable.inj {t u : Ty} (h : Readable named t) (hu : Over named u) {r s : List Char}
    (hr : Ends r) (hs : Ends s) (heq : t.name.toList ++ r = u.name.toList ++ s) :
    t = u ∧ r = s :=
  h 0 0 u r s hu hr hs heq

/-- Types in angle brackets can be read as no others. -/
theorem arguments_inj {parts others : Option (Ty × Ty)}
    (hparts : ∀ first second, parts = some (first, second) →
      Readable named first ∧ Readable named second)
    (hothers : ∀ first second, others = some (first, second) →
      Over named first ∧ Over named second)
    {r s : List Char} (hr : Trails r) (hs : Trails s)
    (h : arguments parts ++ r = arguments others ++ s) : parts = others ∧ r = s := by
  cases parts with
  | none =>
      cases others with
      | none => exact ⟨rfl, h⟩
      | some others => exact absurd h hr.ne_open
  | some parts =>
      cases others with
      | none => exact absurd h.symm hs.ne_open
      | some others =>
          obtain ⟨first, second⟩ := parts
          obtain ⟨first', second'⟩ := others
          obtain ⟨hfirst, hsecond⟩ := hparts first second rfl
          obtain ⟨hfirst', hsecond'⟩ := hothers first' second' rfl
          simp only [arguments, List.cons_append, List.append_assoc, List.nil_append] at h
          obtain ⟨rfl, hrest⟩ :=
            hfirst.inj hfirst' (ends_comma _) (ends_comma _) (List.cons.inj h).2
          obtain ⟨rfl, hclosed⟩ := hsecond.inj hsecond' (ends_close _) (ends_close _)
            (List.cons.inj (List.cons.inj hrest).2).2
          exact ⟨rfl, (List.cons.inj hclosed).2⟩

theorem Opens.over {t : Ty} {word : String} {first second : Ty}
    (h : Opens named t word (some (first, second))) : Over named first ∧ Over named second := by
  cases h with
  | dictionary hfirst hsecond => exact ⟨hfirst, hsecond⟩
  | function hfirst hsecond => exact ⟨hfirst, hsecond⟩

/-- Two types that are no arrays, each in arrays. -/
theorem Opens.inj (hnamed : Vocabulary named) {t u : Ty} {word other : String}
    {parts others : Option (Ty × Ty)} (ht : Opens named t word parts)
    (hparts : ∀ first second, parts = some (first, second) →
      Readable named first ∧ Readable named second)
    (hu : Opens named u other others) {n m : Nat} {r s : List Char} (hr : Ends r) (hs : Ends s)
    (h : t.name.toList ++ (brackets n ++ r) = u.name.toList ++ (brackets m ++ s)) :
    arrays n t = arrays m u ∧ r = s := by
  have hr' := trails_brackets n hr
  have hs' := trails_brackets m hs
  rw [ht.toList_name, hu.toList_name, List.append_assoc, List.append_assoc] at h
  obtain ⟨hword, hinside⟩ := append_inj_of_stops (ht.isWord hnamed) (hu.isWord hnamed)
    (stops_arguments parts hr') (stops_arguments others hs') h
  obtain rfl := String.toList_inj.mp hword
  obtain ⟨rfl, hrest⟩ :=
    arguments_inj hparts (fun first second heq => (heq ▸ hu).over) hr' hs' hinside
  obtain ⟨rfl, rfl⟩ := brackets_append_inj hr hs hrest
  obtain rfl := ht.eq hnamed hu
  exact ⟨rfl, rfl⟩

theorem Opens.readable (hnamed : Vocabulary named) {t : Ty} {word : String}
    {parts : Option (Ty × Ty)} (ht : Opens named t word parts)
    (hparts : ∀ first second, parts = some (first, second) →
      Readable named first ∧ Readable named second) : Readable named t := by
  intro n m u r s hu hr hs h
  -- the other type is taken out of its arrays first
  induction hu generalizing m with
  | atom hu => exact ht.inj hnamed hparts (.atom hu) hr hs h
  | dictionary hkey hvalue => exact ht.inj hnamed hparts (.dictionary hkey hvalue) hr hs h
  | function hparameter hresult => exact ht.inj hnamed hparts (.function hparameter hresult) hr hs h
  | array _ ih =>
      rw [toList_name_array] at h
      exact ih (m + 1) h

theorem readable_of_over (hnamed : Vocabulary named) {t : Ty} (h : Over named t) :
    Readable named t := by
  induction h with
  | atom h => exact (Opens.atom h).readable hnamed (by simp)
  | array _ ih =>
      intro n m u r s hu hr hs heq
      rw [toList_name_array] at heq
      exact ih (n + 1) m u r s hu hr hs heq
  | dictionary hkey hvalue ihk ihv =>
      refine (Opens.dictionary hkey hvalue).readable hnamed ?_
      rintro _ _ ⟨⟩
      exact ⟨ihk, ihv⟩
  | function hparameter hresult ihp ihr =>
      refine (Opens.function hparameter hresult).readable hnamed ?_
      rintro _ _ ⟨⟩
      exact ⟨ihp, ihr⟩

theorem name_eq_iff (hnamed : Vocabulary named) {t u : Ty} (ht : Over named t)
    (hu : Over named u) : t.name = u.name ↔ t = u := by
  refine ⟨fun h => ?_, congrArg name⟩
  have hreads := (readable_of_over hnamed ht).inj hu ends_nil ends_nil
  simp only [List.append_nil] at hreads
  exact (hreads (congrArg String.toList h)).1

theorem sameAs_eq_true_iff (hnamed : Vocabulary named) {t u : Ty} (ht : Over named t)
    (hu : Over named u) : t.sameAs u = true ↔ t = u := by
  rw [sameAs_iff]
  constructor
  · rintro ⟨-, h⟩
    exact (name_eq_iff hnamed ht hu).mp h
  · rintro rfl
    exact ⟨rfl, rfl⟩

end Ty

/-! ### What compares names -/

open Ty (Vocabulary Over)

variable {named : Ty → Prop}

namespace Expr

theorem typed_of_type? {e : Expr} {t : Ty} (h : e.type? = some t) (what : String) :
    typed what e = .ok t := by
  simp only [typed, h]

theorem binaryOf_compare_isOk_iff {left right : Expr} {t u : Ty} (hleft : left.type? = some t)
    (hright : right.type? = some u) (how : Comparison) :
    (∃ e, binaryOf (.compare how) (some left) (some right) = .ok e) ↔
      comparable left right t u = true := by
  have hbinary : binaryOf (.compare how) (some left) (some right) =
      if comparable left right t u then .ok (.binary (.compare how) left right (some .boolean))
      else .error (.incomparable t.name u.name) := by
    simp only [binaryOf, require, ok_bind, typed_of_type? hleft, typed_of_type? hright]
    rfl
  rw [hbinary]
  split
  · simp_all
  · simp_all

theorem indexOf_dictionary_isOk_iff {object key : Expr} {expected value t : Ty}
    (hobject : object.type? = some (.dictionary expected value)) (hkey : key.type? = some t) :
    (∃ e, indexOf (some object) (some key) = .ok e) ↔ t.sameAs expected = true := by
  have hindex : indexOf (some object) (some key) =
      if t.sameAs expected then .ok (.index object key (some value))
      else .error (.dictionaryKey expected.name t.name) := by
    simp only [indexOf, require, ok_bind, typed_of_type? hobject, typed_of_type? hkey]
    rfl
  rw [hindex]
  split
  · simp_all
  · simp_all

end Expr

namespace Registry

/-- The encoder of a type is the one of that name. -/
theorem findByName?_eq (hnamed : Vocabulary named) {r : Registry}
    (hr : ∀ e ∈ r.encoders, Over named e.valueType) {t : Ty} (ht : Over named t) :
    r.findByName? t.name = r.encoders.find? (·.valueType == t) := by
  refine List.find?_congr fun e he => ?_
  rw [Bool.eq_iff_iff, beq_iff_eq, beq_iff_eq]
  exact Ty.name_eq_iff hnamed (hr e he) ht

theorem find?_eq (hnamed : Vocabulary named) {r : Registry}
    (hr : ∀ e ∈ r.encoders, Over named e.valueType) {t : Ty} (ht : Over named t) :
    r.find? t = r.encoders.find? (·.valueType == t) := by
  rw [find?, findByName?_eq hnamed hr ht, Option.or_self]

end Registry

/-- Types over classes and enumerations with words of their own for names are
the same exactly if their names are. So comparisons are built for operands of
one type, for two numbers and for a null constant, dictionaries are indexed by
keys of their key type, and a look-up by name finds what is registered for the
type itself. -/
theorem types_identified (hnamed : Vocabulary named) :
    (∀ t u, Over named t → Over named u →
      (t.sameAs u = true ↔ t = u) ∧ (t.name = u.name ↔ t = u)) ∧
    (∀ (how : Comparison) (left right : Expr) (t u : Ty), Over named t → Over named u →
      left.type? = some t → right.type? = some u →
        ((∃ e, Expr.binaryOf (.compare how) (some left) (some right) = .ok e) ↔
          t = u ∨ (t.isNumeric = true ∧ u.isNumeric = true) ∨
            left.isNullConst = true ∨ right.isNullConst = true)) ∧
    (∀ (object key : Expr) (expected value t : Ty), Over named expected → Over named t →
      object.type? = some (.dictionary expected value) → key.type? = some t →
        ((∃ e, Expr.indexOf (some object) (some key) = .ok e) ↔ t = expected)) ∧
    (∀ (r : Registry) (t : Ty), (∀ e ∈ r.encoders, Over named e.valueType) → Over named t →
      r.find? t = r.encoders.find? (·.valueType == t) ∧
        r.findByName? t.name = r.encoders.find? (·.valueType == t)) := by
  refine ⟨fun t u ht hu => ?_, fun how left right t u ht hu hleft hright => ?_,
    fun object key expected value t hexpected ht hobject hkey => ?_, fun r t hr ht => ?_⟩
  · exact ⟨Ty.sameAs_eq_true_iff hnamed ht hu, Ty.name_eq_iff hnamed ht hu⟩
  · rw [Expr.binaryOf_compare_isOk_iff hleft hright, Expr.comparable, Bool.or_eq_true,
      Bool.or_eq_true, Bool.or_eq_true, Bool.and_eq_true, Ty.sameAs_eq_true_iff hnamed ht hu,
      or_assoc, or_assoc]
  · rw [Expr.indexOf_dictionary_isOk_iff hobject hkey,
      Ty.sameAs_eq_true_iff hnamed ht hexpected]
  · exact ⟨Registry.find?_eq hnamed hr ht, Registry.findByName?_eq hnamed hr ht⟩

/-- Classes that are called like composite types, and an enumeration. -/
def Ty.lookalikes : List Ty :=
  [.cls "Dictionary" (some 0), .cls "Func" (some 1), .enumeration "Int32_" ["A"]]

theorem Ty.vocabulary_lookalikes : Vocabulary (· ∈ Ty.lookalikes) where
  kind := by decide +kernel
  word t ht := by
    have hall : ∀ t ∈ Ty.lookalikes, t.name.toList.all Ty.isWordChar = true := by decide +kernel
    exact List.all_eq_true.mp (hall t ht)
  distinct := by
    have hall : ∀ t ∈ Ty.lookalikes, ∀ u ∈ Ty.lookalikes, t.name = u.name → t = u := by
      decide +kernel
    exact fun t u ht hu => hall t ht u hu
  fresh := by decide +kernel

/-- Arrays of dictionaries and dictionaries of arrays, keyed by a class that is
called like a dictionary. -/
theorem types_identified_lookalikes :
    let own : Ty := .cls "Dictionary" (some 0)
    let inner : Ty := .dictionary own (.array .string)
    let outer : Ty := .array (.dictionary own .string)
    Vocabulary (· ∈ Ty.lookalikes) ∧ inner.name = "Dictionary<Dictionary, String[]>" ∧
      outer.name = "Dictionary<Dictionary, String>[]" ∧ inner.sameAs outer = false := by
  intro own inner outer
  have hown : Over (· ∈ Ty.lookalikes) own := .atom (.inr List.mem_cons_self)
  have hstring : Over (· ∈ Ty.lookalikes) .string := .atom (.inl (by decide))
  have hinner : Over (· ∈ Ty.lookalikes) inner := .dictionary hown (.array hstring)
  have houter : Over (· ∈ Ty.lookalikes) outer := .array (.dictionary hown hstring)
  refine ⟨Ty.vocabulary_lookalikes, by decide +kernel, by decide +kernel, ?_⟩
  rw [← Bool.not_eq_true,
    ((types_identified Ty.vocabulary_lookalikes).1 inner outer hinner houter).1]
  decide +kernel

end QueryFilter
