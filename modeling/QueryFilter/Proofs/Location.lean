import QueryFilter.Compile.Predicate
import QueryFilter.Proofs.Storage

/-!
The field of a chain is where the value of the chain is stored. A chain is
evaluated on native values step by step, along with the encoder that governs
each value; its field is resolved from the encoders alone.
-/

namespace QueryFilter

namespace ClassMaps

/-- The encoders that lie inside an encoder, at any depth. -/
inductive Reaches (maps : ClassMaps) (root : Encoder) : Encoder → Prop where
  | root : Reaches maps root root
  | item {item : Encoder} : Reaches maps root (.array item) → Reaches maps root item
  | key {layout : Layout} {key value : Encoder} :
      Reaches maps root (.dictionary layout key value) → Reaches maps root key
  | value {layout : Layout} {key value : Encoder} :
      Reaches maps root (.dictionary layout key value) → Reaches maps root value
  | member {e : Encoder} {entry : MemberMap} :
      Reaches maps root e → entry ∈ maps.members e → Reaches maps root entry.encoder

theorem Reaches.trans {maps : ClassMaps} {root e inner : Encoder} (h : maps.Reaches root e)
    (hinner : maps.Reaches e inner) : maps.Reaches root inner := by
  induction hinner with
  | root => exact h
  | item _ ih => exact .item ih
  | key _ ih => exact .key ih
  | value _ ih => exact .value ih
  | member _ hentry ih => exact .member ih hentry

/-- The encoders that lie directly inside an encoder. -/
def parts (maps : ClassMaps) : Encoder → List Encoder
  | .array item => [item]
  | .dictionary _ key value => [key, value]
  | e => (maps.members e).map (·.encoder)

theorem exists_map_of_mem_members {maps : ClassMaps} {e : Encoder} {entry : MemberMap}
    (h : entry ∈ maps.members e) : ∃ map ∈ maps.maps, entry ∈ map.members := by
  unfold members at h
  split at h
  · split at h
    · exact ⟨_, List.mem_of_getElem? ‹_›, h⟩
    · cases h
  · cases h

/-- What holds of all mapped members, and of the parts of an array and of a
dictionary with the whole, holds of all parts with the whole. -/
theorem parts_closed {maps : ClassMaps} {P : Encoder → Prop}
    (hitem : ∀ item, P (.array item) → P item)
    (hentry : ∀ layout key value, P (.dictionary layout key value) → P key ∧ P value)
    (hmember : ∀ map ∈ maps.maps, ∀ entry ∈ map.members, P entry.encoder)
    (e : Encoder) (he : P e) : ∀ part ∈ maps.parts e, P part := by
  intro part hpart
  unfold parts at hpart
  split at hpart
  · rw [List.mem_singleton.mp hpart]
    exact hitem _ he
  · rcases List.mem_pair.mp hpart with rfl | rfl
    · exact (hentry _ _ _ he).1
    · exact (hentry _ _ _ he).2
  · obtain ⟨entry, hmem, rfl⟩ := List.mem_map.mp hpart
    obtain ⟨map, hmap, hmapped⟩ := exists_map_of_mem_members hmem
    exact hmember map hmap entry hmapped

theorem Reaches.of_closed {maps : ClassMaps} {root e : Encoder} {P : Encoder → Prop}
    (hroot : P root) (hclosed : ∀ e, P e → ∀ part ∈ maps.parts e, P part)
    (h : maps.Reaches root e) : P e := by
  induction h with
  | root => exact hroot
  | item _ ih => exact hclosed _ ih _ List.mem_cons_self
  | key _ ih => exact hclosed _ ih _ List.mem_cons_self
  | value _ ih => exact hclosed _ ih _ (List.mem_cons_of_mem _ List.mem_cons_self)
  | @member e entry _ hentry ih =>
      refine hclosed e ih _ ?_
      cases e with
      | document => exact List.mem_map_of_mem hentry
      | _ => cases hentry

theorem Reaches.mem_of_closed {maps : ClassMaps} {root e : Encoder} {encoders : List Encoder}
    (hroot : root ∈ encoders) (hclosed : ∀ e ∈ encoders, ∀ part ∈ maps.parts e, part ∈ encoders)
    (h : maps.Reaches root e) : e ∈ encoders :=
  h.of_closed (P := (· ∈ encoders)) hroot hclosed

theorem mem_parts_of_find? {maps : ClassMaps} {e : Encoder} {name : String} {entry : MemberMap}
    (h : maps.find? e name = some entry) : entry.encoder ∈ maps.parts e := by
  have hentry := (find?_eq_some h).1
  cases e with
  | document => exact List.mem_map_of_mem hentry
  | _ => cases hentry

theorem reaches_of_mem_parts {maps : ClassMaps} {e part : Encoder} (h : part ∈ maps.parts e) :
    maps.Reaches e part := by
  unfold parts at h
  split at h
  · obtain rfl := List.mem_singleton.mp h
    exact .item .root
  · rcases List.mem_pair.mp h with rfl | rfl
    · exact .key .root
    · exact .value .root
  · obtain ⟨entry, hentry, rfl⟩ := List.mem_map.mp h
    exact .member .root hentry

/-- No class inside an encoder uses an element name twice. -/
def DistinctElements (maps : ClassMaps) (root : Encoder) : Prop :=
  ∀ e, maps.Reaches root e → ((maps.members e).map (·.element)).Nodup

theorem DistinctElements.inside {maps : ClassMaps} {root e : Encoder}
    (h : maps.DistinctElements root) (he : maps.Reaches root e) : maps.DistinctElements e :=
  fun inner hinner => h inner (he.trans hinner)

theorem distinctElements_of_forall {maps : ClassMaps}
    (h : ∀ map ∈ maps.maps, (map.members.map (·.element)).Nodup) (root : Encoder) :
    maps.DistinctElements root := by
  intro e _
  unfold members
  split
  · split
    · exact h _ (List.mem_of_getElem? ‹_›)
    · exact .nil
  · exact .nil

/-- The member of a native value that an encoder governs, and the encoder that
governs the member. -/
def memberValue? (maps : ClassMaps) (e : Encoder) (v : Json) (name : String) :
    Option (Encoder × Json) :=
  (maps.find? e name).bind fun entry => (v.member? name).map (entry.encoder, ·)

/-- The value of an index expression with a constant key. -/
def indexValue? (maps : ClassMaps) (e : Encoder) (v key : Json) : Option (Encoder × Json) :=
  match e with
  | .array item =>
    key.word?.bind fun n => if n < 0 then none else (v.item? n.toNat).map (item, ·)
  | .dictionary _ keyEncoder value =>
    (maps.keyText? keyEncoder key).bind fun text =>
      (maps.entry? keyEncoder v text).map (value, ·)
  | _ => none

theorem indexValue?_array (maps : ClassMaps) (item : Encoder) (v : Json) {key : Json} {n : Nat}
    (h : key.word? = some (n : Int)) :
    maps.indexValue? (.array item) v key = (v.item? n).map (item, ·) := by
  have hn : ¬(n : Int) < 0 := by omega
  rw [indexValue?, h, Option.bind_some, if_neg hn, Int.toNat_natCast]

theorem indexValue?_dictionary (maps : ClassMaps) (layout : Layout) (keyEncoder value : Encoder)
    (v : Json) {key : Json} {text : String} (h : maps.keyText? keyEncoder key = some text) :
    maps.indexValue? (.dictionary layout keyEncoder value) v key
      = (maps.entry? keyEncoder v text).map (value, ·) := by
  rw [indexValue?, h, Option.bind_some]

/-- The value of a chain that starts at `v`, where it has one. -/
def chainValue? (maps : ClassMaps) (root : Encoder) (v : Json) : Expr → Option (Encoder × Json)
  | .param .. => some (root, v)
  | .member object name _ =>
    (maps.chainValue? root v object).bind fun x => maps.memberValue? x.1 x.2 name
  | .index object key _ =>
    (maps.chainValue? root v object).bind fun x => key.const?.bind (maps.indexValue? x.1 x.2)
  | _ => none

/-- A native value with its encoder, and what the value is stored as. -/
def StoredAs (maps : ClassMaps) (e : Encoder) (x : Encoder × Json) (w : Json) : Prop :=
  x.1 = e ∧ maps.encode e x.2 = .ok w

theorem eq_some_iff_of_rel {maps : ClassMaps} {e : Encoder} {value : Option (Encoder × Json)}
    {stored : Option Json} (h : Option.Rel (maps.StoredAs e) value stored) :
    (∀ w, stored = some w ↔ ∃ u, value = some (e, u) ∧ maps.encode e u = .ok w) ∧
    ∀ x, value = some x → x.1 = e ∧ ∃ w, maps.encode e x.2 = .ok w := by
  cases h with
  | none => simp
  | @some x w hx =>
      obtain ⟨_, u⟩ := x
      obtain ⟨rfl, hw⟩ := hx
      constructor
      · intro w'
        constructor
        · rintro ⟨⟩
          exact ⟨u, rfl, hw⟩
        · rintro ⟨_, ⟨⟩, hw'⟩
          exact congrArg some (Except.ok.inj (hw.symm.trans hw'))
      · rintro _ ⟨⟩
        exact ⟨rfl, w, hw⟩

end ClassMaps

/-- The same scope in a model with another registry, at another depth and under
another limit. -/
def Scope.elsewhere (s : Scope) (registry : Registry) (depth limit : Nat) : Scope :=
  { s with model := { s.model with registry := registry }, depth := depth, maxDepth := limit }

namespace Compile

open ClassMaps

/-! Fields depend neither on the depth nor on what is registered. -/

section

variable (s : Scope) (registry : Registry) (d m : Nat)

theorem chain_elsewhere : ∀ e : Expr, chain (s.elsewhere registry d m) e = chain s e
  | .param .. => rfl
  | .member object .. => by rw [chain, chain_elsewhere object]; rfl
  | .index object .. => by rw [chain, chain_elsewhere object]; rfl
  | .const .. | .call .. | .binary .. | .not _ | .lambda .. => rfl

theorem field_elsewhere : field (s.elsewhere registry d m) = field s := by
  funext e
  unfold field
  rw [chain_elsewhere]
  rfl

theorem field_descend : field s.descend = field s :=
  field_elsewhere s s.model.registry (s.depth + 1) s.maxDepth

end

/-! Chains, access by access. -/

variable {s : Scope}

theorem chain_member_eq_ok {object : Expr} {name : String} {type : Option Ty} {f : Field}
    (h : chain s (.member object name type) = .ok f) :
    ∃ container entry, chain s object = .ok container ∧
      s.model.maps.find? container.encoder name = some entry ∧
      f = container.child entry.element entry.encoder := by
  obtain ⟨container, hcontainer, h⟩ := bind_eq_ok.mp h
  unfold memberField at h
  split at h
  · cases h
    exact ⟨container, _, hcontainer, by assumption, rfl⟩
  · cases h

/-- Resolving one access of a container: the field lies one step below the
container, and so do the stored values below those of the container. -/
structure Descends (s : Scope) (container f : Field)
    (access : Encoder × Json → Option (Encoder × Json)) : Prop where
  reaches : ∀ root, s.model.maps.Reaches root container.encoder →
    s.model.maps.Reaches root f.encoder
  stored : ∃ step, f.path = container.path.child step ∧
    ∀ x w, s.model.maps.StoredAs container.encoder x w →
      Option.Rel (s.model.maps.StoredAs f.encoder) (access x) (w.step? step)

theorem descends_memberField {e : Expr} {container f : Field} {name : String}
    (hdistinct : ((s.model.maps.members container.encoder).map (·.element)).Nodup)
    (h : memberField s e container name = .ok f) :
    Descends s container f fun x => s.model.maps.memberValue? x.1 x.2 name := by
  unfold memberField at h
  split at h
  · rename_i entry hentry
    cases h
    refine ⟨fun root hroot => .member hroot (find?_eq_some hentry).1, entry.element, rfl, ?_⟩
    rintro ⟨_, v⟩ w ⟨rfl, hstored⟩
    rw [memberValue?, hentry, Option.bind_some]
    exact rel_map_left (rel_member hdistinct hentry hstored) fun u w hw => ⟨rfl, hw⟩
  · cases h

theorem descends_indexField {e : Expr} {container f : Field} {key : Option Json}
    (h : indexField s e container key = .ok f) :
    Descends s container f fun x => key.bind (s.model.maps.indexValue? x.1 x.2) := by
  obtain ⟨path, encoder⟩ := container
  unfold indexField at h
  split at h
  · rename_i item hitem
    cases hitem
    split at h
    · rename_i n hn
      split at h
      · cases h
      · rename_i hnonneg
        cases h
        obtain ⟨key, rfl, hn⟩ := Option.bind_eq_some_iff.mp hn
        obtain ⟨m, rfl⟩ := Int.eq_ofNat_of_zero_le (Int.not_lt.mp hnonneg)
        -- the step is the decimal text of the position
        refine ⟨fun root hroot => .item hroot, toString m, rfl, ?_⟩
        rintro ⟨_, v⟩ w ⟨rfl, hstored⟩
        rw [Option.bind_some, indexValue?_array _ _ _ hn]
        exact rel_map_left (rel_item hstored m) fun u w hw => ⟨rfl, hw⟩
    · cases h
  · rename_i keyEncoder value hencoder
    cases hencoder
    cases key with
    | none => cases h
    | some key =>
        obtain ⟨stored, hkey, h⟩ := bind_eq_ok.mp h
        rw [Scope.encode, mapError_eq_ok] at hkey
        cases stored with
        | string text =>
            cases h
            refine ⟨fun root hroot => .value hroot, text, rfl, ?_⟩
            rintro ⟨_, v⟩ w ⟨rfl, hstored⟩
            have htext : s.model.maps.keyText? keyEncoder key = some text := by
              rw [keyText?, hkey]
            rw [Option.bind_some, indexValue?_dictionary _ _ _ _ _ htext]
            exact rel_map_left (rel_entry hstored text) fun u w hw => ⟨rfl, hw⟩
        | _ => cases h
  · cases h
  · cases h

/-- The parameters that a chain may start from stand for values that `root`
governs. -/
def StartsAt (s : Scope) (root : Encoder) : Prop :=
  ∀ name symbol, s.find? name = some symbol → symbol.level = s.level →
    symbol.path = .root ∧ symbol.encoder = root

/-- The path of a chain leads to what the value of the chain is stored as. -/
theorem rel_chain {root : Encoder} (hstart : StartsAt s root)
    (hdistinct : s.model.maps.DistinctElements root) {v d : Json}
    (hstored : s.model.maps.encode root v = .ok d) : ∀ (e : Expr) (f : Field),
    chain s e = .ok f → s.model.maps.Reaches root f.encoder ∧
      Option.Rel (s.model.maps.StoredAs f.encoder) (s.model.maps.chainValue? root v e)
        (d.walk f.path.steps)
  | .param name type, f, h => by
      rw [chain] at h
      split at h
      · cases h
      · rename_i symbol hfind
        split at h
        · rename_i hlevel
          cases h
          obtain ⟨hpath, hencoder⟩ := hstart name symbol hfind hlevel
          rw [hpath, hencoder]
          exact ⟨.root, .some ⟨rfl, hstored⟩⟩
        · cases h
  | .member object name type, f, h => by
      obtain ⟨container, hcontainer, h⟩ := bind_eq_ok.mp h
      obtain ⟨hreaches, hrel⟩ := rel_chain hstart hdistinct hstored object container hcontainer
      obtain ⟨hinside, step, hpath, hstep⟩ := descends_memberField (hdistinct _ hreaches) h
      refine ⟨hinside root hreaches, ?_⟩
      rw [hpath, Path.steps_child, Json.walk_concat, chainValue?]
      exact rel_bind hrel hstep
  | .index object key type, f, h => by
      obtain ⟨container, hcontainer, h⟩ := bind_eq_ok.mp h
      obtain ⟨hreaches, hrel⟩ := rel_chain hstart hdistinct hstored object container hcontainer
      obtain ⟨hinside, step, hpath, hstep⟩ := descends_indexField h
      refine ⟨hinside root hreaches, ?_⟩
      rw [hpath, Path.steps_child, Json.walk_concat, chainValue?]
      exact rel_bind hrel hstep
  | .const .., _, h => by cases h
  | .call .., _, h => by cases h
  | .binary .., _, h => by cases h
  | .not _, _, h => by cases h
  | .lambda .., _, h => by cases h

end Compile

/-- The scope of a predicate over a document, where its parameter is bound. -/
def Scope.document (model : Model) (maxDepth : Nat) (name : String) (root : Encoder)
    (depth : Nat) : Scope :=
  { (Scope.create model maxDepth).bind name .root root false with depth := depth }

namespace Compile

theorem startsAt_document (model : Model) (maxDepth : Nat) (name : String) (root : Encoder)
    (depth : Nat) : StartsAt (Scope.document model maxDepth name root depth) root := by
  intro other symbol hfind _
  obtain rfl := List.mem_singleton.mp (List.mem_of_find?_eq_some hfind)
  exact ⟨rfl, rfl⟩

theorem expression_call {s : Scope} (hdepth : s.depth < s.maxDepth) (object : Option Expr)
    (method : Method) (args : List Expr) :
    expression s (.call object method args)
      = call s.descend ⟨object, method, args⟩ (predicateBody ⟨object, method, args⟩) := by
  rw [expression, if_neg (Nat.not_le.mpr hdepth)]
  rfl

theorem chain_of_field {s : Scope} {e : Expr} {f : Field} (h : field s e = .ok f) :
    chain s e = .ok f := by
  unfold field at h
  split at h
  · cases h
  · exact h

/-- Walking the path of a field through a stored document reaches exactly what
the value of the chain is stored as, and nothing where the chain has no value. -/
theorem walk_field {model : Model} {maxDepth depth : Nat} {name : String} {root : Encoder}
    {v d : Json} {e : Expr} {f : Field} (hdistinct : model.maps.DistinctElements root)
    (hstored : model.maps.encode root v = .ok d)
    (hfield : field (Scope.document model maxDepth name root depth) e = .ok f) :
    (∀ w, d.walk f.path.steps = some w ↔
      ∃ u, model.maps.chainValue? root v e = some (f.encoder, u) ∧
        model.maps.encode f.encoder u = .ok w) ∧
    ∀ x, model.maps.chainValue? root v e = some x →
      x.1 = f.encoder ∧ ∃ w, model.maps.encode f.encoder x.2 = .ok w := by
  have hstart := startsAt_document model maxDepth name root depth
  have hrel := (rel_chain hstart hdistinct hstored e f (chain_of_field hfield)).2
  exact ClassMaps.eq_some_iff_of_rel hrel

/-- A class with a renamed member that holds arrays under keys. -/
def tagged : Model where
  schema := .empty
  maps := ⟨[⟨"Post", [⟨"Title", "title", .string⟩,
    ⟨"Tags", "t", .dictionary .document .string (.array .boolean)⟩]⟩]⟩
  registry := .empty

theorem walk_field_tagged :
    let root : Encoder := .document "Post" none 0
    let v : Json := .object [("Tags", .object [("k", .array [.bool true, .bool false])])]
    let d : Json := .object [("t", .object [("k", .array [.bool true, .bool false])])]
    let e : Expr := .index (.index (.member (.param "x" root.valueType) "Tags" none)
      (.const (.string "k") .string) none) (.const (.int 1) .int32) none
    let f : Field := ⟨⟨["t", "k", "1"]⟩, .boolean⟩
    tagged.maps.DistinctElements root ∧ tagged.maps.encode root v = .ok d ∧
      field (Scope.document tagged 64 "x" root 1) e = .ok f ∧
      d.walk f.path.steps = some (.bool false) := by
  intro root v d e f
  have hdistinct : tagged.maps.DistinctElements root :=
    ClassMaps.distinctElements_of_forall (by decide) root
  have hstored : tagged.maps.encode root v = .ok d := rfl
  have hfield : field (Scope.document tagged 64 "x" root 1) e = .ok f := rfl
  exact ⟨hdistinct, hstored, hfield,
    ((walk_field hdistinct hstored hfield).1 _).mpr ⟨.bool false, rfl, rfl⟩⟩

end Compile

end QueryFilter
