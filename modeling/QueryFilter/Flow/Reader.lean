import QueryFilter.Flow.Basic

/-!
Reads documents that are written as JSON. Texts and keys are quoted with the
usual escapes, and a pair of surrogate escapes is one character; `null`, `true`,
`false` and numerals are plain scalars. Nothing else is read, so no document
that is laid out in lines is.
-/

namespace QueryFilter.Flow

def isBlank (c : Char) : Bool := c = ' ' || c = '\t' || c = '\n' || c = '\r'

def skipBlank : List Char → List Char
  | [] => []
  | c :: cs => if isBlank c then skipBlank cs else c :: cs

def hexDigit? (c : Char) : Option Nat :=
  if '0' ≤ c ∧ c ≤ '9' then some (c.toNat - '0'.toNat)
  else if 'a' ≤ c ∧ c ≤ 'f' then some (c.toNat - 'a'.toNat + 10)
  else if 'A' ≤ c ∧ c ≤ 'F' then some (c.toNat - 'A'.toNat + 10)
  else none

def hex? (a b c d : Char) : Option Nat := do
  let a ← hexDigit? a
  let b ← hexDigit? b
  let c ← hexDigit? c
  let d ← hexDigit? d
  pure (((a * 16 + b) * 16 + c) * 16 + d)

def isHighSurrogate (n : Nat) : Bool := 0xd800 ≤ n && n < 0xdc00

def isLowSurrogate (n : Nat) : Bool := 0xdc00 ≤ n && n < 0xe000

def escaped? : Char → Option Char
  | '"' => some '"'
  | '\\' => some '\\'
  | '/' => some '/'
  | 'b' => some (Char.ofNat 8)
  | 'f' => some (Char.ofNat 12)
  | 'n' => some '\n'
  | 'r' => some '\r'
  | 't' => some '\t'
  | _ => none

def unit? : List Char → Option (Nat × List Char)
  | a :: b :: c :: d :: rest => (hex? a b c d).map (·, rest)
  | _ => none

/-- The character of an escape, after its backslash and its `u`. -/
def codePoint? (cs : List Char) : Option (Char × List Char) := do
  let (high, rest) ← unit? cs
  if isLowSurrogate high then none
  else if isHighSurrogate high then
    if rest.take 2 = ['\\', 'u'] then do
      let (low, rest) ← unit? (rest.drop 2)
      if isLowSurrogate low then
        pure (Char.ofNat (0x10000 + (high - 0xd800) * 0x400 + (low - 0xdc00)), rest)
      else none
    else none
  else pure (Char.ofNat high, rest)

def escape? : List Char → Option (Char × List Char)
  | [] => none
  | c :: rest => if c = 'u' then codePoint? rest else (escaped? c).map (·, rest)

/-- The rest of a quoted string after its first quote; each character takes one
unit of `fuel`. -/
def quotedTail? : Nat → List Char → Option (List Char × List Char)
  | 0, _ => none
  | _ + 1, [] => none
  | fuel + 1, c :: rest =>
    if c = '"' then some ([], rest)
    else if c < ' ' then none
    else do
      let (c, rest) ← if c = '\\' then escape? rest else some (c, rest)
      let (cs, rest) ← quotedTail? fuel rest
      pure (c :: cs, rest)

/-- A quoted text at the front. -/
def quoted? (cs : List Char) : Option (String × List Char) :=
  if cs.head? = some '"' then
    (quotedTail? cs.length cs.tail).map fun found => (String.ofList found.1, found.2)
  else none

def isPlain (c : Char) : Bool :=
  !(isBlank c || c ∈ [',', ':', '[', ']', '\x7b', '\x7d', '"'])

/-- Whether a text is written with digits, after a sign or not, and maybe with a
point or an exponent. -/
def isNumeral (text : String) : Bool :=
  let unsigned := match text.toList with
    | '-' :: cs => cs
    | cs => cs
  unsigned.head?.any Char.isDigit
    && unsigned.all fun c => c.isDigit || c ∈ ['.', 'e', 'E', '+', '-']

def plain? (text : String) : Option Flow :=
  if text = "null" then some .null
  else if text = "true" ∨ text = "false" ∨ isNumeral text then some (.plain text)
  else none

/-- A scalar at the front of the text. -/
def scalar? (cs : List Char) : Option (Flow × List Char) :=
  if cs.head? = some '"' then (quoted? cs).map fun found => (.quoted found.1, found.2)
  else (plain? (String.ofList (cs.takeWhile isPlain))).map (·, cs.dropWhile isPlain)

mutual

/-- A node at the front of the text. Each bracket and each item takes one unit
of `fuel`. -/
def node? : Nat → List Char → Option (Flow × List Char)
  | 0, _ => none
  | fuel + 1, cs =>
    match skipBlank cs with
    | '[' :: rest =>
      match skipBlank rest with
      | ']' :: rest => some (.sequence [], rest)
      | rest => do
        let (items, rest) ← items? fuel rest
        pure (.sequence items, rest)
    | '\x7b' :: rest =>
      match skipBlank rest with
      | '\x7d' :: rest => some (.mapping [], rest)
      | rest => do
        let (entries, rest) ← entries? fuel rest
        pure (.mapping entries, rest)
    | cs => scalar? cs

def items? : Nat → List Char → Option (List Flow × List Char)
  | 0, _ => none
  | fuel + 1, cs => do
    let (item, rest) ← node? fuel cs
    match skipBlank rest with
    | ']' :: rest => pure ([item], rest)
    | ',' :: rest => do
      let (items, rest) ← items? fuel rest
      pure (item :: items, rest)
    | _ => none

def entries? : Nat → List Char → Option (List (String × Flow) × List Char)
  | 0, _ => none
  | fuel + 1, cs => do
    let (key, rest) ← quoted? (skipBlank cs)
    match skipBlank rest with
    | ':' :: rest => do
      let (value, rest) ← node? fuel rest
      match skipBlank rest with
      | '\x7d' :: rest => pure ([(key, value)], rest)
      | ',' :: rest => do
        let (entries, rest) ← entries? fuel rest
        pure ((key, value) :: entries, rest)
      | _ => none
    | _ => none

end

/-- Reads a whole text; a blank one is a null document. -/
def parse? (text : String) : Option Flow :=
  let cs := text.toList
  if skipBlank cs = [] then some .null
  else do
    let (node, rest) ← node? (2 * cs.length + 1) cs
    if skipBlank rest = [] then pure node else none

end QueryFilter.Flow

namespace QueryFilter

/-- Reads JSON, and numbers in decimal digits. -/
def Reader.json : Reader := ⟨Flow.parse?, Flow.decimal?⟩

end QueryFilter
