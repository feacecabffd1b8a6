import QueryFilter.Json.Basic
import QueryFilter.Binary64.Text

/-!
JSON text. A printer is given to whatever makes texts of values, and may refuse
a value. The one at hand refuses none and prints compactly: no blanks, only the
escapes that are needed, and all other characters as they are.
-/

namespace QueryFilter.Json

def escapeChar (c : Char) : List Char :=
  if c = '"' then ['\\', '"']
  else if c = '\\' then ['\\', '\\']
  else if c = '\n' then ['\\', 'n']
  else if c = '\r' then ['\\', 'r']
  else if c = '\t' then ['\\', 't']
  else if c.toNat = 8 then ['\\', 'b']
  else if c.toNat = 12 then ['\\', 'f']
  else if c.toNat < 32 then
    ['\\', 'u', '0', '0', Nat.digitChar (c.toNat / 16), Nat.digitChar (c.toNat % 16)]
  else [c]

def quote (s : String) : String :=
  String.ofList ('"' :: s.toList.flatMap escapeChar ++ ['"'])

mutual

def dump : Json → String
  | .null => "null"
  | .bool true => "true"
  | .bool false => "false"
  | .int n => toString n
  | .float x => x.text
  | .string s => quote s
  | .array items => "[" ++ dumpItems items ++ "]"
  | .object fields => "\x7b" ++ dumpFields fields ++ "\x7d"

def dumpItems : List Json → String
  | [] => ""
  | [x] => dump x
  | x :: xs => dump x ++ "," ++ dumpItems xs

def dumpFields : List (String × Json) → String
  | [] => ""
  | [(k, x)] => quote k ++ ":" ++ dump x
  | (k, x) :: xs => quote k ++ ":" ++ dump x ++ "," ++ dumpFields xs

end

end QueryFilter.Json

namespace QueryFilter

/-- What prints values. It has no text for a value that it refuses, as when a
string in the value is not UTF-8. -/
abbrev Printer := Json → Option String

/-- Why there is no text: a value is refused, or a method does not say of which
type a parameter is. -/
inductive TextError where
  | refused (value : Json)
  | untypedParameter

namespace Printer

def json : Printer := fun value => some value.dump

def text (print : Printer) (value : Json) : Except TextError String :=
  match print value with
  | some text => .ok text
  | none => .error (.refused value)

end Printer

end QueryFilter
