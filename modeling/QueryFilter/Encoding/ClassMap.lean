import QueryFilter.Encoding.Encoder
import QueryFilter.Ty.Schema

/-!
Class maps: for each mapped member of a class the name of the stored element
and the encoder of its value.
-/

namespace QueryFilter

structure MemberMap where
  member : String
  element : String
  encoder : Encoder
  deriving DecidableEq, Repr

structure ClassMap where
  className : String
  members : List MemberMap
  deriving DecidableEq, Repr

def ClassMap.find? (map : ClassMap) (member : String) : Option MemberMap :=
  map.members.find? (·.member == member)

structure ClassMaps where
  maps : List ClassMap
  deriving Repr

namespace ClassMaps

def empty : ClassMaps := ⟨[]⟩

/-- A new map, without members, for a class. -/
def create (maps : ClassMaps) (type : Ty) : Except EncoderError (Encoder × ClassMaps) :=
  match type with
  | .cls name place =>
    .ok (.document name place maps.maps.length, ⟨maps.maps ++ [⟨name, []⟩]⟩)
  | t => .error (.notClass t.name)

/-- The mapped members of a class encoder; other encoders have none. -/
def members (maps : ClassMaps) : Encoder → List MemberMap
  | .document _ _ map =>
    match maps.maps[map]? with
    | some m => m.members
    | none => []
  | _ => []

def find? (maps : ClassMaps) (e : Encoder) (member : String) : Option MemberMap :=
  (maps.members e).find? (·.member == member)

def add (maps : ClassMaps) (map : Nat) (entry : MemberMap) : ClassMaps :=
  ⟨maps.maps.modify map fun m => { m with members := m.members ++ [entry] }⟩

/-- Maps a member of the class of an encoder; an empty element name stands for
the name of the member. -/
def mapMember (maps : ClassMaps) (schema : Schema) (e : Encoder) (member : String)
    (encoder : Option Encoder) (element : String) : Except EncoderError ClassMaps :=
  match e with
  | .document className place map =>
    if (schema.memberType? (.cls className place) member).isNone then
      .error (.noMember className member)
    else
      match encoder with
      | none => .error (.missingEncoder member)
      | some encoder =>
        if (maps.find? e member).isSome then .error (.alreadyMapped member className)
        else
          .ok (maps.add map ⟨member, if element = "" then member else element, encoder⟩)
  | e => .error (.notClass e.valueType.name)

end ClassMaps

end QueryFilter
