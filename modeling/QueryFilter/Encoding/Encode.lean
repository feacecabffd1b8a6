import QueryFilter.Encoding.ClassMap
import QueryFilter.Json.Printer

/-!
Encoding of native values into their stored form. A native dictionary is an
object or an array of pairs; all pairs are looked at before the first entry is
encoded, and each entry is encoded key first.
-/

namespace QueryFilter

inductive EncodeError where
  | mismatch (encoder : String) (value : Json)
  | outOfRange (encoder : String) (value : Int)
  | textKeys (encoder : String)
  | unknownMember (encoder member : String)

def EncodeError.message (print : Printer) : EncodeError → Except TextError String
  | .mismatch encoder value => do
    let value ← print.text value
    pure (encoder ++ " cannot serialize value " ++ value)
  | .outOfRange encoder value =>
    pure (encoder ++ ": value " ++ toString value ++ " is out of range")
  | .textKeys encoder =>
    pure (encoder ++ ": keys must serialize as strings when DictionaryRepresentation is Document")
  | .unknownMember encoder member => pure (encoder ++ ": unknown member " ++ member)

/-- The stored form of an integer. -/
def Representation.ofInt : Representation → Int → Json
  | .string, n => .string (toString n)
  | .double, n => .float (Binary64.ofInt n)
  | _, n => .int n

namespace Encoder

def mismatch {α : Type} (e : Encoder) (value : Json) : Except EncodeError α :=
  .error (.mismatch e.kind value)

def encodeInteger (e : Encoder) (width : Width) (representation : Representation) (n : Int) :
    Except EncodeError Json :=
  if !Width.int64.contains n then e.mismatch (.int n)
  else if !width.contains n then .error (.outOfRange e.kind n)
  else .ok (representation.ofInt n)

/-- The place of a value of an enumeration, given by its name or by the place
itself. -/
def enumOrdinal? (values : List String) : Json → Option Nat
  | .string s => values.idxOf? s
  | .int n => if 0 ≤ n ∧ n < values.length then some n.toNat else none
  | _ => none

def encodeEnum (values : List String) (representation : Representation) (ordinal : Nat) : Json :=
  if representation = .string then
    match values[ordinal]? with
    | some name => .string name
    | none => .null
  else .int ordinal

/-- Encodes what is neither an array nor an object. -/
def encodeScalar (e : Encoder) (value : Json) : Except EncodeError Json :=
  match e, value with
  | .boolean, .bool _ => .ok value
  | .string, .string _ => .ok value
  | .string, .null => .ok value
  | .double, .int n => .ok (.float (Binary64.ofInt n))
  | .double, .float _ => .ok value
  | .integer width representation, .int n => e.encodeInteger width representation n
  | .enumeration _ values representation, v =>
    match enumOrdinal? values v with
    | some ordinal => .ok (encodeEnum values representation ordinal)
    | none => e.mismatch v
  | .array _, .null => .ok value
  | .dictionary .., .null => .ok value
  | .document .., .null => .ok value
  | e, value => e.mismatch value

end Encoder

namespace Layout

/-- Only strings can be the keys of a document. -/
def admitsKey : Layout → Json → Bool
  | .document, key => key.string?.isSome
  | _, _ => true

/-- The stored dictionary of encoded entries. -/
def store : Layout → List (Json × Json) → Json
  | .document, entries =>
    .ofPairs (entries.filterMap fun entry => entry.1.string?.map (·, entry.2))
  | .arrayOfDocuments, entries =>
    .array (entries.map fun entry => .object [("k", entry.1), ("v", entry.2)])
  | .arrayOfArrays, entries => .array (entries.map fun entry => .array [entry.1, entry.2])

end Layout

namespace ClassMaps

def isPair : Json → Bool
  | .array [_, _] => true
  | _ => false

mutual

def encode (maps : ClassMaps) (e : Encoder) : Json → Except EncodeError Json
  | .array items =>
    match e with
    | .array item => do
      let items ← encodeItems maps item items
      pure (.array items)
    | .dictionary layout key value =>
      if items.all isPair then do
        let entries ← encodePairs maps e layout key value items
        pure (layout.store entries)
      else e.mismatch (.array items)
    | e => e.mismatch (.array items)
  | .object fields =>
    match e with
    | .dictionary layout key value => do
      let entries ← encodeEntries maps e layout key value fields
      pure (layout.store entries)
    | .document .. => do
      let fields ← encodeMembers maps e fields
      pure (.ofPairs fields)
    | e => e.mismatch (.object fields)
  | .null => e.encodeScalar .null
  | .bool b => e.encodeScalar (.bool b)
  | .int n => e.encodeScalar (.int n)
  | .float x => e.encodeScalar (.float x)
  | .string s => e.encodeScalar (.string s)

def encodeItems (maps : ClassMaps) (e : Encoder) : List Json → Except EncodeError (List Json)
  | [] => pure []
  | v :: vs => do
    let item ← encode maps e v
    let items ← encodeItems maps e vs
    pure (item :: items)

/-- The entries of an array of pairs. -/
def encodePairs (maps : ClassMaps) (whole : Encoder) (layout : Layout) (key value : Encoder) :
    List Json → Except EncodeError (List (Json × Json))
  | [] => pure []
  | .array [k, v] :: rest => do
    let k ← encode maps key k
    if !layout.admitsKey k then throw (.textKeys whole.kind)
    let v ← encode maps value v
    let entries ← encodePairs maps whole layout key value rest
    pure ((k, v) :: entries)
  | other :: _ => whole.mismatch other

/-- The entries of an object; its keys are strings. -/
def encodeEntries (maps : ClassMaps) (whole : Encoder) (layout : Layout) (key value : Encoder) :
    List (String × Json) → Except EncodeError (List (Json × Json))
  | [] => pure []
  | (k, v) :: rest => do
    let k ← key.encodeScalar (.string k)
    if !layout.admitsKey k then throw (.textKeys whole.kind)
    let v ← encode maps value v
    let entries ← encodeEntries maps whole layout key value rest
    pure ((k, v) :: entries)

/-- The elements of an object of a class. -/
def encodeMembers (maps : ClassMaps) (whole : Encoder) :
    List (String × Json) → Except EncodeError (List (String × Json))
  | [] => pure []
  | (name, v) :: rest =>
    match maps.find? whole name with
    | some entry => do
      let v ← encode maps entry.encoder v
      let fields ← encodeMembers maps whole rest
      pure ((entry.element, v) :: fields)
    | none => throw (.unknownMember whole.kind name)

end

@[simp] theorem encode_string (maps : ClassMaps) (e : Encoder) (s : String) :
    encode maps e (.string s) = e.encodeScalar (.string s) := by
  simp [encode]

@[simp] theorem encode_int (maps : ClassMaps) (e : Encoder) (n : Int) :
    encode maps e (.int n) = e.encodeScalar (.int n) := by
  simp [encode]

end ClassMaps

end QueryFilter
