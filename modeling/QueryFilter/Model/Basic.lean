import QueryFilter.Encoding.ClassMap
import QueryFilter.Encoding.Registry

/-!
A model: the declared classes, their class maps, and the encoders that
predicates over documents start from.
-/

namespace QueryFilter

structure Model where
  schema : Schema
  maps : ClassMaps
  registry : Registry
  deriving Repr

def Model.empty : Model := ⟨.empty, .empty, .empty⟩

end QueryFilter
