import QueryFilter.Flow.Reader
import QueryFilter.Json.Printer

/-!
JSON text is read as a flow document: what is written of strings, arrays and
objects reads as quoted scalars, sequences and mappings.
-/

namespace QueryFilter

namespace Json

mutual

/-- The flow document that JSON is read as. -/
def flow : Json → Flow
  | .null => .null
  | .bool true => .plain "true"
  | .bool false => .plain "false"
  | .int n => .plain (toString n)
  | .float x => .plain x.text
  | .string s => .quoted s
  | .array items => .sequence (flowItems items)
  | .object fields => .mapping (flowFields fields)

def flowItems : List Json → List Flow
  | [] => []
  | x :: xs => x.flow :: flowItems xs

def flowFields : List (String × Json) → List (String × Flow)
  | [] => []
  | (k, x) :: xs => (k, x.flow) :: flowFields xs

end

mutual

/-- Whether all scalars are strings. -/
def Textual : Json → Prop
  | .string _ => True
  | .array items => allTextual items
  | .object fields => fieldsTextual fields
  | _ => False

def allTextual : List Json → Prop
  | [] => True
  | x :: xs => x.Textual ∧ allTextual xs

def fieldsTextual : List (String × Json) → Prop
  | [] => True
  | (_, x) :: xs => x.Textual ∧ fieldsTextual xs

end

@[simp] theorem flowItems_eq (items : List Json) : flowItems items = items.map flow := by
  induction items with
  | nil => rfl
  | cons x xs ih => rw [flowItems, List.map_cons, ih]

@[simp] theorem flowFields_eq (fields : List (String × Json)) :
    flowFields fields = fields.map fun field => (field.1, field.2.flow) := by
  induction fields with
  | nil => rfl
  | cons field fields ih => rw [flowFields, List.map_cons, ih]

@[simp] theorem allTextual_iff (items : List Json) :
    allTextual items ↔ ∀ x ∈ items, x.Textual := by
  induction items with
  | nil => simp [allTextual]
  | cons x xs ih => simp [allTextual, ih]

@[simp] theorem fieldsTextual_iff (fields : List (String × Json)) :
    fieldsTextual fields ↔ ∀ field ∈ fields, field.2.Textual := by
  induction fields with
  | nil => simp [fieldsTextual]
  | cons field fields ih => simp [fieldsTextual, ih]

end Json

namespace Flow

open Json

/-! ### Quoted text -/

theorem hex?_digitChar {n : Nat} (h : n < 32) :
    hex? '0' '0' (Nat.digitChar (n / 16)) (Nat.digitChar (n % 16)) = some n := by
  have hall : ∀ n < 32, hex? '0' '0' (Nat.digitChar (n / 16)) (Nat.digitChar (n % 16)) = some n := by
    decide
  exact hall n h

/-- A character after a backslash. -/
theorem quotedTail?_escape {fuel : Nat} {c : Char} {cs rest : List Char}
    (h : escape? cs = some (c, rest)) :
    quotedTail? (fuel + 1) ('\\' :: cs)
      = (quotedTail? fuel rest).map fun found => (c :: found.1, found.2) := by
  rw [quotedTail?, if_neg (by decide), if_neg (by decide), if_pos rfl, h]
  cases hrest : quotedTail? fuel rest <;> simp [hrest]

/-- A written character is read back. -/
theorem quotedTail?_escapeChar (fuel : Nat) (c : Char) (rest : List Char) :
    quotedTail? (fuel + 1) (escapeChar c ++ rest)
      = (quotedTail? fuel rest).map fun found => (c :: found.1, found.2) := by
  have hcode {n : Nat} (hn : c.toNat = n) : Char.ofNat n = c := by
    rw [← hn, Char.ofNat_toNat]
  unfold escapeChar
  split
  · rename_i hquote
    exact quotedTail?_escape (by rw [hquote]; rfl)
  split
  · rename_i hbackslash
    exact quotedTail?_escape (by rw [hbackslash]; rfl)
  split
  · rename_i hnewline
    exact quotedTail?_escape (by rw [hnewline]; rfl)
  split
  · rename_i hreturn
    exact quotedTail?_escape (by rw [hreturn]; rfl)
  split
  · rename_i htab
    exact quotedTail?_escape (by rw [htab]; rfl)
  split
  · rename_i hbackspace
    exact quotedTail?_escape (by rw [← hcode hbackspace]; rfl)
  split
  · rename_i hfeed
    exact quotedTail?_escape (by rw [← hcode hfeed]; rfl)
  split
  · rename_i hcontrol
    refine quotedTail?_escape ?_
    have hlow : isLowSurrogate c.toNat = false := by
      simp [isLowSurrogate]
      omega
    have hhigh : isHighSurrogate c.toNat = false := by
      simp [isHighSurrogate]
      omega
    simp [escape?, codePoint?, unit?, hex?_digitChar hcontrol, hlow, hhigh]
  · rename_i hquote hbackslash _ _ _ _ _ hcontrol
    have hraw : ¬ c < ' ' := by
      intro hlt
      have hlt' : c.toNat < 32 := hlt
      exact hcontrol hlt'
    rw [List.singleton_append, quotedTail?, if_neg hquote, if_neg hraw, if_neg hbackslash]
    cases hrest : quotedTail? fuel rest <;> simp [hrest]

theorem length_escapeChar (c : Char) : 1 ≤ (escapeChar c).length := by
  unfold escapeChar
  repeat' split
  all_goals simp

theorem quotedTail?_escaped {fuel : Nat} (cs rest : List Char) (h : cs.length < fuel) :
    quotedTail? fuel (cs.flatMap escapeChar ++ '"' :: rest) = some (cs, rest) := by
  induction cs generalizing fuel with
  | nil =>
      obtain ⟨fuel, rfl⟩ := Nat.exists_eq_add_of_lt h
      simp [quotedTail?]
  | cons c cs ih =>
      obtain ⟨fuel, rfl⟩ : ∃ more, fuel = more + 1 := ⟨fuel - 1, by omega⟩
      rw [List.flatMap_cons, List.append_assoc, quotedTail?_escapeChar, ih (by simpa using h)]
      rfl

theorem length_escaped (cs : List Char) : cs.length ≤ (cs.flatMap escapeChar).length := by
  induction cs with
  | nil => simp
  | cons c cs ih =>
      have hc := length_escapeChar c
      rw [List.flatMap_cons, List.length_append, List.length_cons]
      omega

theorem toList_quote (s : String) :
    (quote s).toList = '"' :: (s.toList.flatMap escapeChar ++ ['"']) := by
  simp [quote]

/-- A quoted text is read back. -/
theorem quoted?_quote (s : String) (rest : List Char) :
    quoted? ((quote s).toList ++ rest) = some (s, rest) := by
  have hlength := length_escaped s.toList
  rw [toList_quote, List.cons_append, List.append_assoc, List.singleton_append]
  have hread : quotedTail? ('"' :: (s.toList.flatMap escapeChar ++ '"' :: rest)).length
      (s.toList.flatMap escapeChar ++ '"' :: rest) = some (s.toList, rest) := by
    apply quotedTail?_escaped
    simp only [List.length_cons, List.length_append]
    omega
  rw [quoted?, List.head?_cons, if_pos rfl, List.tail_cons, hread]
  simp

theorem scalar?_quote (s : String) (rest : List Char) :
    scalar? ((quote s).toList ++ rest) = some (.quoted s, rest) := by
  have hhead : ((quote s).toList ++ rest).head? = some '"' := by
    rw [toList_quote]
    rfl
  rw [scalar?, if_pos hhead, quoted?_quote]
  rfl

/-! ### Nodes -/

/-- What a written node starts with. -/
def Opens (cs : List Char) : Prop := ∃ c rest, cs = c :: rest ∧ (c = '"' ∨ c = '[' ∨ c = '\x7b')

theorem Opens.skipBlank {cs : List Char} (h : Opens cs) : skipBlank cs = cs := by
  obtain ⟨c, rest, rfl, rfl | rfl | rfl⟩ := h <;> rfl

theorem Opens.append {cs : List Char} (h : Opens cs) (more : List Char) : Opens (cs ++ more) := by
  obtain ⟨c, rest, rfl, hc⟩ := h
  exact ⟨c, rest ++ more, rfl, hc⟩

theorem opens_quote (s : String) : Opens (quote s).toList :=
  ⟨'"', _, toList_quote s, .inl rfl⟩

theorem node?_scalar {fuel : Nat} (s : String) (rest : List Char) :
    node? (fuel + 1) ((quote s).toList ++ rest) = some (.quoted s, rest) := by
  have hread := scalar?_quote s rest
  have hskip := ((opens_quote s).append rest).skipBlank
  rw [toList_quote, List.cons_append] at hread hskip ⊢
  generalize s.toList.flatMap escapeChar ++ ['"'] ++ rest = tail at hread hskip ⊢
  simp [node?, hskip, hread]

theorem node?_sequence {fuel : Nat} {cs rest : List Char} {items : List Flow} (h : Opens cs)
    (hitems : items? fuel cs = some (items, rest)) :
    node? (fuel + 1) ('[' :: cs) = some (.sequence items, rest) := by
  have hskip : skipBlank ('[' :: cs) = '[' :: cs := rfl
  have hitem := h.skipBlank
  obtain ⟨c, tail, rfl, rfl | rfl | rfl⟩ := h <;> simp [node?, hskip, hitem, hitems]

theorem node?_mapping {fuel : Nat} {cs rest : List Char} {entries : List (String × Flow)}
    (h : Opens cs) (hentries : entries? fuel cs = some (entries, rest)) :
    node? (fuel + 1) ('\x7b' :: cs) = some (.mapping entries, rest) := by
  have hskip : skipBlank ('\x7b' :: cs) = '\x7b' :: cs := rfl
  have hentry := h.skipBlank
  obtain ⟨c, tail, rfl, rfl | rfl | rfl⟩ := h <;> simp [node?, hskip, hentry, hentries]

theorem items?_last {fuel : Nat} {cs rest : List Char} {item : Flow}
    (h : node? fuel cs = some (item, ']' :: rest)) :
    items? (fuel + 1) cs = some ([item], rest) := by
  rw [items?, h]
  rfl

theorem items?_more {fuel : Nat} {cs between rest : List Char} {item : Flow} {items : List Flow}
    (h : node? fuel cs = some (item, ',' :: between))
    (hitems : items? fuel between = some (items, rest)) :
    items? (fuel + 1) cs = some (item :: items, rest) := by
  have hskip : skipBlank (',' :: between) = ',' :: between := rfl
  rw [items?, h]
  simp [hskip, hitems]

theorem entries?_last {fuel : Nat} {cs rest : List Char} {key : String} {value : Flow}
    (h : node? fuel cs = some (value, '\x7d' :: rest)) :
    entries? (fuel + 1) ((quote key).toList ++ ':' :: cs) = some ([(key, value)], rest) := by
  have hskip : skipBlank (':' :: cs) = ':' :: cs := rfl
  have hskip' : skipBlank ('\x7d' :: rest) = '\x7d' :: rest := rfl
  rw [entries?, ((opens_quote key).append _).skipBlank, quoted?_quote]
  simp [hskip, h, hskip']

theorem entries?_more {fuel : Nat} {cs between rest : List Char} {key : String} {value : Flow}
    {entries : List (String × Flow)} (h : node? fuel cs = some (value, ',' :: between))
    (hentries : entries? fuel between = some (entries, rest)) :
    entries? (fuel + 1) ((quote key).toList ++ ':' :: cs)
      = some ((key, value) :: entries, rest) := by
  have hskip : skipBlank (':' :: cs) = ':' :: cs := rfl
  have hskip' : skipBlank (',' :: between) = ',' :: between := rfl
  rw [entries?, ((opens_quote key).append _).skipBlank, quoted?_quote]
  simp [hskip, h, hskip', hentries]

/-- What is written of a value is read as its flow document, and no more. Two
units of fuel for each character suffice. -/
def Reads (j : Json) : Prop :=
  Opens j.dump.toList ∧ ∀ (fuel : Nat) (rest : List Char), 2 * j.dump.toList.length ≤ fuel →
    node? fuel (j.dump.toList ++ rest) = some (j.flow, rest)

theorem items?_dump {x : Json} {xs : List Json} (hx : Reads x) (hxs : ∀ y ∈ xs, Reads y)
    (fuel : Nat) (rest : List Char) (hfuel : 2 * (dumpItems (x :: xs)).toList.length + 1 ≤ fuel) :
    Opens (dumpItems (x :: xs)).toList ∧
      items? fuel ((dumpItems (x :: xs)).toList ++ ']' :: rest)
        = some (flowItems (x :: xs), rest) := by
  induction xs generalizing x fuel with
  | nil =>
      obtain ⟨fuel, rfl⟩ : ∃ more, fuel = more + 1 := ⟨fuel - 1, by omega⟩
      rw [dumpItems] at hfuel ⊢
      exact ⟨hx.1, items?_last (hx.2 fuel _ (by omega))⟩
  | cons y ys ih =>
      obtain ⟨fuel, rfl⟩ : ∃ more, fuel = more + 1 := ⟨fuel - 1, by omega⟩
      have htext : (dumpItems (x :: y :: ys)).toList
          = x.dump.toList ++ ',' :: (dumpItems (y :: ys)).toList := by
        simp [dumpItems]
      rw [htext, List.length_append, List.length_cons] at hfuel
      have hrest := ih (hxs y List.mem_cons_self)
        (fun z hz => hxs z (List.mem_cons_of_mem _ hz)) fuel (by omega)
      rw [htext]
      refine ⟨hx.1.append _, ?_⟩
      rw [List.append_assoc, List.cons_append]
      exact items?_more (hx.2 fuel _ (by omega)) hrest.2

theorem entries?_dump (key : String) {x : Json} {fields : List (String × Json)} (hx : Reads x)
    (hfields : ∀ field ∈ fields, Reads field.2) (fuel : Nat) (rest : List Char)
    (hfuel : 2 * (dumpFields ((key, x) :: fields)).toList.length + 1 ≤ fuel) :
    Opens (dumpFields ((key, x) :: fields)).toList ∧
      entries? fuel ((dumpFields ((key, x) :: fields)).toList ++ '\x7d' :: rest)
        = some (flowFields ((key, x) :: fields), rest) := by
  induction fields generalizing key x fuel with
  | nil =>
      obtain ⟨fuel, rfl⟩ : ∃ more, fuel = more + 1 := ⟨fuel - 1, by omega⟩
      have htext : (dumpFields [(key, x)]).toList
          = (quote key).toList ++ ':' :: x.dump.toList := by
        simp [dumpFields]
      rw [htext, List.length_append, List.length_cons] at hfuel
      rw [htext]
      refine ⟨(opens_quote key).append _, ?_⟩
      rw [List.append_assoc, List.cons_append]
      exact entries?_last (hx.2 fuel _ (by omega))
  | cons field fields ih =>
      obtain ⟨other, y⟩ := field
      obtain ⟨fuel, rfl⟩ : ∃ more, fuel = more + 1 := ⟨fuel - 1, by omega⟩
      have htext : (dumpFields ((key, x) :: (other, y) :: fields)).toList
          = (quote key).toList ++ ':' ::
            (x.dump.toList ++ ',' :: (dumpFields ((other, y) :: fields)).toList) := by
        simp [dumpFields]
      rw [htext, List.length_append, List.length_cons, List.length_append,
        List.length_cons] at hfuel
      have hy : Reads y := hfields (other, y) List.mem_cons_self
      have hrest := ih other hy
        (fun field hfield => hfields field (List.mem_cons_of_mem _ hfield)) fuel (by omega)
      rw [htext]
      refine ⟨(opens_quote key).append _, ?_⟩
      rw [List.append_assoc, List.cons_append, List.append_assoc, List.cons_append]
      exact entries?_more (hx.2 fuel _ (by omega)) hrest.2

theorem reads_string (s : String) : Reads (.string s) := by
  refine ⟨opens_quote s, fun fuel rest hfuel => ?_⟩
  rw [dump, toList_quote, List.length_cons] at hfuel
  obtain ⟨fuel, rfl⟩ : ∃ more, fuel = more + 1 := ⟨fuel - 1, by omega⟩
  exact node?_scalar s rest

theorem reads_array {items : List Json} (h : ∀ x ∈ items, Reads x) : Reads (.array items) := by
  have htext : (dump (.array items)).toList = '[' :: ((dumpItems items).toList ++ [']']) := by
    simp [dump]
  refine ⟨⟨'[', _, htext, .inr (.inl rfl)⟩, fun fuel rest hfuel => ?_⟩
  rw [htext, List.length_cons, List.length_append, List.length_singleton] at hfuel
  obtain ⟨fuel, rfl⟩ : ∃ more, fuel = more + 1 := ⟨fuel - 1, by omega⟩
  cases items with
  | nil => simp [dump, dumpItems, node?, skipBlank, isBlank, flow, flowItems]
  | cons x xs =>
      obtain ⟨hopens, hitems⟩ := items?_dump (h x List.mem_cons_self)
        (fun y hy => h y (List.mem_cons_of_mem _ hy)) fuel rest (by omega)
      rw [htext, List.cons_append, List.append_assoc, List.singleton_append, flow]
      exact node?_sequence (hopens.append _) hitems

theorem reads_object {fields : List (String × Json)} (h : ∀ field ∈ fields, Reads field.2) :
    Reads (.object fields) := by
  have htext : (dump (.object fields)).toList
      = '\x7b' :: ((dumpFields fields).toList ++ ['\x7d']) := by
    simp [dump]
  refine ⟨⟨'\x7b', _, htext, .inr (.inr rfl)⟩, fun fuel rest hfuel => ?_⟩
  rw [htext, List.length_cons, List.length_append, List.length_singleton] at hfuel
  obtain ⟨fuel, rfl⟩ : ∃ more, fuel = more + 1 := ⟨fuel - 1, by omega⟩
  cases fields with
  | nil => simp [dump, dumpFields, node?, skipBlank, isBlank, flow, flowFields]
  | cons field fields =>
      obtain ⟨key, x⟩ := field
      have hx : Reads x := h (key, x) List.mem_cons_self
      obtain ⟨hopens, hentries⟩ := entries?_dump key hx
        (fun field hfield => h field (List.mem_cons_of_mem _ hfield)) fuel rest (by omega)
      rw [htext, List.cons_append, List.append_assoc, List.singleton_append, flow]
      exact node?_mapping (hopens.append _) hentries

mutual

theorem reads_of_textual : (j : Json) → j.Textual → Reads j
  | .string s, _ => reads_string s
  | .array items, h => reads_array (reads_of_allTextual items h)
  | .object fields, h => reads_object (reads_of_fieldsTextual fields h)

theorem reads_of_allTextual : (items : List Json) → allTextual items → ∀ x ∈ items, Reads x
  | [], _ => by simp
  | x :: xs, h => by
      simpa [reads_of_textual x h.1] using reads_of_allTextual xs h.2

theorem reads_of_fieldsTextual :
    (fields : List (String × Json)) → fieldsTextual fields → ∀ field ∈ fields, Reads field.2
  | [], _ => by simp
  | (key, x) :: fields, h => by
      simpa [reads_of_textual x h.1] using reads_of_fieldsTextual fields h.2

end

/-- JSON text is read as the flow document of the value. -/
theorem parse?_dump {j : Json} (h : j.Textual) : parse? j.dump = some j.flow := by
  obtain ⟨hopens, hnode⟩ := reads_of_textual j h
  have hread := hnode (2 * j.dump.toList.length + 1) [] (by omega)
  rw [List.append_nil] at hread
  have hne : j.dump.toList ≠ [] := by
    obtain ⟨c, rest, heq, -⟩ := hopens
    simp [heq]
  simp [parse?, hopens.skipBlank, hne, hread, skipBlank]

end Flow

end QueryFilter
