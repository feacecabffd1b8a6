import Mathlib.Data.List.Perm.Basic
import QueryFilter.Proofs.Documents
import QueryFilter.Proofs.Matched

/-!
The order in which a document declares its classes. In any other order the
document is accepted as well, and its model has the same classes with the same
members, so it filters alike. Only the places of the classes are others: what
refers to a class by its place is matched with what refers to the class of that
name.
-/

namespace QueryFilter

open List (Forall₂)
open Relation

theorem pairwise_mergeSort (xs : List String) :
    (xs.mergeSort fun a b => decide (a ≤ b)).Pairwise (· ≤ ·) := by
  have htrans (a b c : String) (hab : decide (a ≤ b) = true) (hbc : decide (b ≤ c) = true) :
      decide (a ≤ c) = true :=
    decide_eq_true (String.le_trans (of_decide_eq_true hab) (of_decide_eq_true hbc))
  have htotal (a b : String) : (decide (a ≤ b) || decide (b ≤ a)) = true := by
    rw [Bool.or_eq_true, decide_eq_true_eq, decide_eq_true_eq]
    exact String.le_total a b
  exact (List.pairwise_mergeSort htrans htotal xs).imp of_decide_eq_true

/-- What is registered is listed in one order, in whatever order it came. -/
theorem mergeSort_eq_of_perm {xs ys : List String} (h : xs.Perm ys) :
    xs.mergeSort (fun a b => decide (a ≤ b)) = ys.mergeSort fun a b => decide (a ≤ b) := by
  refine List.Perm.eq_of_pairwise (fun a b _ _ hab hba => String.le_antisymm hab hba)
    (pairwise_mergeSort xs) (pairwise_mergeSort ys) ?_
  exact ((List.mergeSort_perm xs _).trans h).trans (List.mergeSort_perm ys _).symm

theorem forall₂_zip {α β γ : Type} {R : α → β → Prop} {S : α → γ → Prop} {xs : List α}
    {ys : List β} {zs : List γ} (hys : Forall₂ R xs ys) (hzs : Forall₂ S xs zs) :
    Forall₂ (fun x pair => R x pair.1 ∧ S x pair.2) xs (ys.zip zs) := by
  induction hys generalizing zs with
  | nil =>
      cases hzs
      exact .nil
  | cons hy _ ih =>
      cases hzs with
      | cons hz hzs => exact .cons ⟨hy, hz⟩ (ih hzs)

/-- References do not depend on the order in which they are collected. -/
theorem ReferenceGraph.Acyclic.of_perm {graph graph' : ReferenceGraph} (h : graph.Acyclic)
    (hperm : graph.Perm graph') (hdistinct : (graph.map Prod.fst).Nodup) : graph'.Acyclic := by
  have hrefers (a b : String) (hab : graph'.Refers a b) : graph.Refers a b := by
    obtain ⟨referred, hlookup, hb⟩ := hab
    exact ⟨referred, lookup_of_mem hdistinct (hperm.mem_iff.mpr (mem_of_lookup hlookup)), hb⟩
  exact fun name hcycle => h name (hcycle.lift id hrefers)

/-! ### Descriptions under two orders of the classes -/

/-- Maps of one class whose members match in order. -/
structure ClassMap.Matches (names names' : List String) (map map' : ClassMap) : Prop where
  className : map'.className = map.className
  members : Forall₂ (MemberMap.Matches names names') map.members map'.members

theorem ClassMap.Matches.names_eq {names names' : List String} {map map' : ClassMap}
    (h : map.Matches names names' map') : map'.names = map.names :=
  (Declaration.map_eq_of_forall₂ h.members fun _ _ hentry => hentry.member.symm).symm

namespace Declaration

section

variable {names names' : List String}

theorem rel_lookup_classesOf (hdistinct : names.Nodup) (hperm : names.Perm names')
    (name : String) :
    Option.Rel (Encoder.Matches names names') ((classesOf names).lookup name)
      ((classesOf names').lookup name) := by
  have hdistinct' : names'.Nodup := hperm.nodup_iff.mp hdistinct
  by_cases hname : name ∈ names
  · obtain ⟨place, hplace⟩ := List.mem_iff_getElem?.mp hname
    obtain ⟨place', hplace'⟩ := List.mem_iff_getElem?.mp (hperm.mem_iff.mp hname)
    rw [(lookup_classesOf hdistinct).mpr ⟨place, hplace, rfl⟩,
      (lookup_classesOf hdistinct').mpr ⟨place', hplace', rfl⟩]
    exact .some (.document hplace hplace')
  · rw [lookup_classesOf_eq_none.mpr hname,
      lookup_classesOf_eq_none.mpr (mt hperm.mem_iff.mpr hname)]
    exact .none

theorem alike_classOf (hdistinct : names.Nodup) (hperm : names.Perm names') (node : Flow)
    (place : String) :
    Alike id (Encoder.Matches names names') (classOf (classesOf names) node place)
      (classOf (classesOf names') node place) := by
  refine .after _ fun found => .after _ fun name => ?_
  have hlookup := rel_lookup_classesOf hdistinct hperm name
  generalize (classesOf names).lookup name = found at hlookup ⊢
  generalize (classesOf names').lookup name = found' at hlookup ⊢
  cases hlookup with
  | none => exact rfl
  | some hmatch => exact hmatch

mutual

/-- A type description gives encoders that match, or fails in one way. -/
theorem alike_encoderOf (hdistinct : names.Nodup) (hperm : names.Perm names')
    (member place : String) : (node : Flow) →
      Alike id (Encoder.Matches names names') (encoderOf (classesOf names) member place node)
        (encoderOf (classesOf names') member place node)
  | .null | .plain _ | .quoted _ | .sequence _ => by
      rw [encoderOf, encoderOf]
      exact rfl
  | .mapping entries => by
      rw [encoderOf, encoderOf]
      refine .after _ fun found => .after _ fun type => ?_
      split
      · exact .string
      · exact .boolean
      · exact .boolean
      · exact .double
      · exact .after _ fun representation => .integer .int32 representation
      · exact .after _ fun representation => .integer .int64 representation
      · cases hscalar : enumerationOf (.mapping entries) member place with
        | ok encoder =>
            obtain ⟨name, values, representation, rfl⟩ := enumerationOf_eq_ok hscalar
            exact .enumeration name values representation
        | error e => exact rfl
      · exact (alike_encoderUnder hdistinct hperm member "element" _ entries).bind
          fun _ _ hitem => .array hitem
      · refine (alike_encoderUnder hdistinct hperm member "key" _ entries).bind fun _ _ hkey => ?_
        refine (alike_encoderUnder hdistinct hperm member "value" _ entries).bind fun _ _ hvalue => ?_
        exact .after _ fun layout => .dictionary layout hkey hvalue
      · exact alike_classOf hdistinct hperm (.mapping entries) place
      · exact rfl

theorem alike_encoderUnder (hdistinct : names.Nodup) (hperm : names.Perm names')
    (member key place : String) : (entries : List (String × Flow)) →
      Alike id (Encoder.Matches names names')
        (encoderUnder (classesOf names) member key place entries)
        (encoderUnder (classesOf names') member key place entries)
  | [] => by
      rw [encoderUnder, encoderUnder]
      exact rfl
  | (k, node) :: rest => by
      rw [encoderUnder, encoderUnder]
      exact .ite (alike_encoderOf hdistinct hperm member place node)
        (alike_encoderUnder hdistinct hperm member key place rest)

end

theorem MemberOf.exists_matches (hdistinct : names.Nodup) (hperm : names.Perm names')
    {className : String} {node : Option Flow} {entry : MemberMap}
    (h : MemberOf (classesOf names) className node entry) :
    ∃ entry', MemberOf (classesOf names') className node entry' ∧
      entry.Matches names names' entry' := by
  have halike := alike_encoderOf hdistinct hperm entry.member (className ++ "." ++ entry.member)
    (node.getD .null)
  rw [h.encoder] at halike
  cases hencoder : encoderOf (classesOf names') entry.member (className ++ "." ++ entry.member)
      (node.getD .null) with
  | ok encoder =>
      rw [hencoder] at halike
      exact ⟨⟨entry.member, entry.element, encoder⟩, ⟨h.named, hencoder, h.element⟩,
        ⟨rfl, rfl, halike⟩⟩
  | error e =>
      rw [hencoder] at halike
      exact halike.elim

theorem Defines.exists_matches (hdistinct : names.Nodup) (hperm : names.Perm names')
    {node : Option Flow} {map : ClassMap} (h : Defines (classesOf names) node map) :
    ∃ map', Defines (classesOf names') node map' ∧ map.Matches names names' map' := by
  obtain ⟨entries, hentries, hmatches⟩ := exists_forall₂ h.members fun _ _ hentry _ =>
    hentry.exists_matches hdistinct hperm
  have hmap : map.Matches names names' ⟨map.className, entries⟩ := ⟨rfl, hmatches⟩
  have hdistinct' : (ClassMap.mk map.className entries).names.Nodup := by
    rw [hmap.names_eq]
    exact h.distinct
  exact ⟨⟨map.className, entries⟩, ⟨h.named, hentries, hdistinct'⟩, hmap⟩

end

/-! ### Models of descriptions in another order -/

theorem graphOf_className (maps : List ClassMap) (references : List (List String)) :
    graphOf (maps.map ClassMap.className) references =
      (maps.zip references).map fun entry =>
        (entry.1.className, ReferenceGraph.ordered entry.2) := by
  rw [graphOf, List.zip_map]
  rfl

/-- Descriptions in another order come to class maps in that order, each of which
matches the map that the description came to before. -/
theorem Describes.exists_of_perm {descriptions descriptions' : List (Option Flow)}
    {maps : List ClassMap} (h : Describes descriptions maps)
    (hperm : descriptions.Perm descriptions') :
    ∃ moved maps', maps.Perm moved ∧
      Forall₂ (ClassMap.Matches (maps.map ClassMap.className) (maps'.map ClassMap.className))
        moved maps' ∧
      Describes descriptions' maps' := by
  obtain ⟨references, hreferences, hacyclic⟩ := h.acyclic
  have hlength : maps.length = references.length := by
    rw [← h.defines.length_eq, hreferences.length_eq]
  obtain ⟨entries, hentries, hmoved⟩ :=
    List.perm_comp_forall₂ hperm.symm (forall₂_zip h.defines hreferences)
  have hmaps : maps.Perm (entries.map Prod.fst) := by
    have hfst := (hmoved.map Prod.fst).symm
    rwa [List.map_fst_zip (Nat.le_of_eq hlength)] at hfst
  have hnames := hmaps.map ClassMap.className
  have hdistinct := hnames.nodup_iff.mp h.distinct
  obtain ⟨maps', hdefines, hmatches⟩ :=
    exists_forall₂ (List.forall₂_map_right_iff.mpr (hentries.imp fun _ _ hentry => hentry.1))
      fun _ _ hdefines _ => hdefines.exists_matches h.distinct hnames
  have hnames' : (entries.map Prod.fst).map ClassMap.className = maps'.map ClassMap.className :=
    map_eq_of_forall₂ hmatches fun _ _ hmatch => hmatch.className.symm
  rw [hnames'] at hdistinct hdefines hmatches
  refine ⟨entries.map Prod.fst, maps', hmaps, hmatches, hdistinct, ?_, hdefines⟩
  refine ⟨entries.map Prod.snd, List.forall₂_map_right_iff.mpr
    (hentries.imp fun _ _ hentry => hentry.2), ?_⟩
  refine hacyclic.of_perm ?_ ?_
  · have hentries : (entries.map Prod.fst).zip (entries.map Prod.snd) = entries :=
      (List.zip_of_prod rfl rfl).symm
    rw [← hnames', graphOf_className, graphOf_className, hentries]
    exact (hmoved.map _).symm
  · rw [graphOf, List.map_fst_zip (by simp [hlength])]
    exact h.distinct

section

variable {maps moved maps' : List ClassMap}

theorem forall₂_members_ofMaps (hdistinct : (maps'.map ClassMap.className).Nodup)
    (hmaps : maps.Perm moved)
    (hmatches : Forall₂ (ClassMap.Matches (maps.map ClassMap.className)
      (maps'.map ClassMap.className)) moved maps')
    {name : String} {place place' : Nat}
    (hplace : (maps.map ClassMap.className)[place]? = some name)
    (hplace' : (maps'.map ClassMap.className)[place']? = some name) :
    Forall₂ (MemberMap.Matches (maps.map ClassMap.className) (maps'.map ClassMap.className))
      ((ofMaps maps).maps.members (encoderAt name place))
      ((ofMaps maps').maps.members (encoderAt name place')) := by
  obtain ⟨map, hmap, rfl⟩ : ∃ map, maps[place]? = some map ∧ map.className = name := by
    simpa using hplace
  obtain ⟨map', hmap', hname⟩ :
      ∃ map', maps'[place']? = some map' ∧ map'.className = map.className := by
    simpa using hplace'
  obtain ⟨other, hother, hmatch⟩ := exists_of_forall₂_mem hmatches.flip
    (hmaps.mem_iff.mp (List.mem_of_getElem? hmap))
  obtain rfl : other = map' := List.inj_on_of_nodup_map hdistinct hother
    (List.mem_of_getElem? hmap') (hmatch.className.trans hname.symm)
  have hmembers : (ofMaps maps).maps.members (encoderAt map.className place) = map.members :=
    members_ofMaps hmap map.className
  have hmembers' : (ofMaps maps').maps.members (encoderAt map.className place') = other.members :=
    members_ofMaps hmap' map.className
  rw [hmembers, hmembers']
  exact hmatch.members

theorem matches_ofMaps (hdistinct : (maps.map ClassMap.className).Nodup)
    (hdistinct' : (maps'.map ClassMap.className).Nodup) (hmaps : maps.Perm moved)
    (hmatches : Forall₂ (ClassMap.Matches (maps.map ClassMap.className)
      (maps'.map ClassMap.className)) moved maps') :
    (ofMaps maps).Matches (ofMaps maps') := by
  have hmoved : moved.map ClassMap.className = maps'.map ClassMap.className :=
    map_eq_of_forall₂ hmatches fun _ _ hmatch => hmatch.className.symm
  have hnames : (maps.map ClassMap.className).Perm (maps'.map ClassMap.className) :=
    hmoved ▸ hmaps.map ClassMap.className
  refine ⟨fun e e' he => ?_, fun t t' ht => ?_⟩
  · cases he with
    | document hplace hplace' =>
        exact forall₂_members_ofMaps hdistinct' hmaps hmatches hplace hplace'
    | _ => exact .nil
  · rw [find?_ofMaps hdistinct, find?_ofMaps hdistinct', ht, findByName?_ofMaps hdistinct,
      findByName?_ofMaps hdistinct']
    exact rel_lookup_classesOf hdistinct hnames t.name

theorem typeNames_ofMaps (maps : List ClassMap) :
    (ofMaps maps).registry.typeNames =
      (maps.map ClassMap.className).mergeSort fun a b => decide (a ≤ b) := by
  rw [Registry.typeNames, ofMaps, map_name_classesOf]

end

/-- What descriptions come to in another order: the same classes, listed under
the same names. -/
theorem exists_modelOf_of_perm {descriptions descriptions' : List (Option Flow)} {model : Model}
    (h : modelOf descriptions = .ok model) (hperm : descriptions.Perm descriptions') :
    ∃ model', modelOf descriptions' = .ok model' ∧ model.Matches model' ∧
      model'.registry.typeNames = model.registry.typeNames ∧
      ∀ name, Option.Rel (model.Match model') (model.registry.findByName? name)
        (model'.registry.findByName? name) := by
  obtain ⟨maps, hmaps, rfl⟩ := modelOf_eq_ok_iff.mp h
  obtain ⟨moved, maps', hmoved, hmatches, hmaps'⟩ := hmaps.exists_of_perm hperm
  have hnames : (maps.map ClassMap.className).Perm (maps'.map ClassMap.className) := by
    rw [← map_eq_of_forall₂ hmatches fun _ _ hmatch => hmatch.className.symm]
    exact hmoved.map ClassMap.className
  refine ⟨ofMaps maps', modelOf_eq_ok_iff.mpr ⟨maps', hmaps', rfl⟩,
    matches_ofMaps hmaps.distinct hmaps'.distinct hmoved hmatches, ?_, fun name => ?_⟩
  · rw [typeNames_ofMaps, typeNames_ofMaps, mergeSort_eq_of_perm hnames]
  · rw [findByName?_ofMaps hmaps.distinct, findByName?_ofMaps hmaps'.distinct]
    exact rel_lookup_classesOf hmaps.distinct hnames name

end Declaration

/-! ### Documents in another order -/

/-- Documents that differ in the order of a sequence of classes. It stands under
the first key of its name. -/
inductive Flow.Reordered : Flow → Flow → Prop where
  | classes {before after : List (String × Flow)} {items items' : List Flow} :
      before.lookup "classes" = none → items.Perm items' →
      Reordered (.mapping (before ++ ("classes", .sequence items) :: after))
        (.mapping (before ++ ("classes", .sequence items') :: after))

theorem Flow.Reordered.symm {root root' : Flow} (h : root.Reordered root') :
    root'.Reordered root := by
  cases h with
  | classes hfirst hperm => exact .classes hfirst hperm.symm

namespace Configuration

/-- Texts that a reader reads as documents that differ in the order of their
classes. -/
def Reordered (reader : Reader) (text text' : String) : Prop :=
  ∃ root root', reader.document? text = some root ∧ reader.document? text' = some root' ∧
    root.Reordered root'

variable {reader : Reader} {text text' : String}

theorem Reordered.symm (h : Reordered reader text text') : Reordered reader text' text := by
  obtain ⟨root, root', hroot, hroot', hreordered⟩ := h
  exact ⟨root', root, hroot', hroot, hreordered.symm⟩

/-- Configurations with the same settings and the same classes, wherever these
are kept. -/
structure SameClasses (config config' : Configuration) : Prop where
  maxDepth : config'.maxDepth = config.maxDepth
  logLevel : config'.logLevel = config.logLevel
  typeNames : config'.model.registry.typeNames = config.model.registry.typeNames
  classes : ∀ name, Option.Rel
    (fun e e' => config.model.Match config'.model e e' ∧
      Forall₂ (MemberMap.Matches config.model.classNames config'.model.classNames)
        (config.model.maps.members e) (config'.model.maps.members e'))
    (config.model.registry.findByName? name) (config'.model.registry.findByName? name)
  filters : ∀ (maxDepth : Nat) (p p' : Predicate), p'.unplaced = p.unplaced →
    (Compile.predicate config'.model maxDepth p').mapError CompileError.unplaced =
      (Compile.predicate config.model maxDepth p).mapError CompileError.unplaced

theorem ofFlow_eq_ok_iff {entries : List (String × Flow)} {config : Configuration} :
    ofFlow reader (.mapping entries) = .ok config ↔
      ∃ settings, settingsOf reader (entries.lookup "translation") = .ok settings ∧
        ∃ model, Declaration.modelOf ((entries.lookup "classes").toList.flatMap Flow.visited)
          = .ok model ∧ config = ⟨settings.1, settings.2, model⟩ := by
  have hentry (key : String) : Flow.entry (some (.mapping entries)) key
      = .ok (entries.lookup key) := rfl
  unfold ofFlow
  rw [hentry, hentry, ok_bind, bind_eq_ok]
  simp only [ok_bind, bind_eq_ok]
  refine exists_congr fun settings => and_congr_right fun _ => ?_
  refine exists_congr fun model => and_congr_right fun _ => ?_
  exact ⟨fun h => (Except.ok.inj h).symm, fun h => congrArg Except.ok h.symm⟩

theorem ofFlow_classes_eq_ok_iff {before after : List (String × Flow)} {items : List Flow}
    (hfirst : before.lookup "classes" = none) {config : Configuration} :
    ofFlow reader (.mapping (before ++ ("classes", .sequence items) :: after)) = .ok config ↔
      ∃ settings, settingsOf reader ((before ++ after).lookup "translation") = .ok settings ∧
        ∃ model, Declaration.modelOf (items.map some) = .ok model ∧
          config = ⟨settings.1, settings.2, model⟩ := by
  have hclasses : (before ++ ("classes", .sequence items) :: after).lookup "classes"
      = some (.sequence items) := by
    rw [List.lookup_append, hfirst, List.lookup_cons_self]
    rfl
  have htranslation : (before ++ ("classes", Flow.sequence items) :: after).lookup "translation"
      = (before ++ after).lookup "translation" := by
    rw [List.lookup_append, List.lookup_append, List.lookup_cons]
    rfl
  rw [ofFlow_eq_ok_iff, hclasses, htranslation]
  simp only [Option.toList_some, List.flatMap_singleton, Flow.visited]

theorem exists_ofText_of_reordered (h : Reordered reader text text') {config : Configuration}
    (hconfig : ofText reader text = .ok config) :
    ∃ config', ofText reader text' = .ok config' ∧ config.SameClasses config' := by
  obtain ⟨root, root', hroot, hroot', hreordered⟩ := h
  unfold ofText at hconfig ⊢
  rw [hroot] at hconfig
  rw [hroot']
  cases hreordered with
  | classes hfirst hperm =>
      obtain ⟨settings, hsettings, model, hmodel, rfl⟩ :=
        (ofFlow_classes_eq_ok_iff hfirst).mp hconfig
      obtain ⟨model', hmodel', hmatches, htypeNames, hclasses⟩ :=
        Declaration.exists_modelOf_of_perm hmodel (hperm.map some)
      -- the other model is one in the same order as itself
      obtain ⟨same, hsame, hself, -⟩ := Declaration.exists_modelOf_of_perm hmodel' (.refl _)
      obtain rfl : model' = same := by
        rw [hmodel'] at hsame
        exact Except.ok.inj hsame
      refine ⟨⟨settings.1, settings.2, model'⟩,
        (ofFlow_classes_eq_ok_iff hfirst).mpr ⟨settings, hsettings, model', hmodel', rfl⟩,
        rfl, rfl, htypeNames, fun name => ?_,
        fun maxDepth p p' hp => Compile.predicate_eq_of_matches hmatches hself maxDepth hp⟩
      have hname := hclasses name
      dsimp only
      generalize model.registry.findByName? name = found at hname ⊢
      generalize model'.registry.findByName? name = found' at hname ⊢
      cases hname with
      | none => exact .none
      | some hmatch => exact .some ⟨hmatch, hmatches.members _ _ hmatch⟩

/-- Whoever reads documents, one is accepted exactly if it is with its classes in
any other order, and then it comes to the same classes, the same settings and the
same filters. -/
theorem sameClasses_of_reordered (h : Reordered reader text text') :
    ((∃ config, ofText reader text = .ok config) ↔
      ∃ config', ofText reader text' = .ok config') ∧
      ∀ config config', ofText reader text = .ok config → ofText reader text' = .ok config' →
        config.SameClasses config' := by
  refine ⟨⟨fun ⟨config, hconfig⟩ => ?_, fun ⟨config', hconfig'⟩ => ?_⟩,
    fun config config' hconfig hconfig' => ?_⟩
  · obtain ⟨config', hconfig', -⟩ := exists_ofText_of_reordered h hconfig
    exact ⟨config', hconfig'⟩
  · obtain ⟨config, hconfig, -⟩ := exists_ofText_of_reordered h.symm hconfig'
    exact ⟨config, hconfig⟩
  · obtain ⟨other, hother, hsame⟩ := exists_ofText_of_reordered h hconfig
    rw [hother] at hconfig'
    exact Except.ok.inj hconfig' ▸ hsame

/-- Descriptions of the same classes are written down in their order. -/
theorem reordered_dump {d d' : ModelSpec} (h : d.classes.Perm d'.classes) :
    Reordered .json d.json.dump d'.json.dump := by
  refine ⟨d.json.flow, d'.json.flow, Flow.parse?_dump d.textual_json,
    Flow.parse?_dump d'.textual_json, ?_⟩
  have hitems := (h.map ClassSpec.json).map Json.flow
  rw [← Json.flowItems_eq, ← Json.flowItems_eq] at hitems
  exact @Flow.Reordered.classes [] [] _ _ rfl hitems

end Configuration

/-- Orders are described before the lines in them. -/
def ModelSpec.ordersFirst : ModelSpec where
  classes := [⟨"Order", [⟨"Lines", none, .array (.reference "Line")⟩]⟩,
    ⟨"Line", [⟨"Price", none, .double⟩]⟩]

def ModelSpec.linesFirst : ModelSpec where
  classes := ordersFirst.classes.reverse

/-- Lines have another place when they come first. -/
theorem Configuration.sameClasses_of_reordered_lines :
    Reordered .json ModelSpec.ordersFirst.json.dump ModelSpec.linesFirst.json.dump ∧
      ∃ config config', ofText .json ModelSpec.ordersFirst.json.dump = .ok config ∧
        ofText .json ModelSpec.linesFirst.json.dump = .ok config' ∧ config.SameClasses config' ∧
        config.model.registry.findByName? "Line" = some (.document "Line" (some 1) 1) ∧
        config'.model.registry.findByName? "Line" = some (.document "Line" (some 0) 0) := by
  have hreordered := reordered_dump (List.reverse_perm ModelSpec.ordersFirst.classes).symm
  obtain ⟨config, hconfig, hmodel⟩ :
      ∃ config, ofText .json ModelSpec.ordersFirst.json.dump = .ok config ∧
        config.model = Declaration.ofMaps
          [⟨"Order", [⟨"Lines", "Lines", .array (.document "Line" (some 1) 1)⟩]⟩,
            ⟨"Line", [⟨"Price", "Price", .double⟩]⟩] :=
    model_of_maps (by decide +kernel)
  obtain ⟨config', hconfig', hmodel'⟩ :
      ∃ config, ofText .json ModelSpec.linesFirst.json.dump = .ok config ∧
        config.model = Declaration.ofMaps
          [⟨"Line", [⟨"Price", "Price", .double⟩]⟩,
            ⟨"Order", [⟨"Lines", "Lines", .array (.document "Line" (some 0) 0)⟩]⟩] :=
    model_of_maps (by decide +kernel)
  refine ⟨hreordered, config, config', hconfig, hconfig',
    (sameClasses_of_reordered hreordered).2 config config' hconfig hconfig', ?_, ?_⟩
  · rw [hmodel]
    decide
  · rw [hmodel']
    decide

end QueryFilter
