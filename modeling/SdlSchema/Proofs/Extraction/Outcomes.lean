/-
# When a document has a schema

Only directive definitions can be in error, and of these only the ones whose markers are known.  The
error of a document is the first place that such a definition lists and that is in neither
vocabulary.  A document without such a place has a schema, and several documents have theirs when
each of them has one.

* `failure?_mapM` : of several steps the first that fails gives the error;
* `gather_eq_ok_iff`, `exists_gather_eq_error` : work done side by side gives all values, or the
  error of any piece that has one;
* `Extractor.knownDirectives` : the directive definitions whose markers are known;
* `Extractor.extract_fails_iff` : exactly which documents are in error, and with which place.
-/
import SdlSchema.Extraction.Extractor
import SdlSchema.Proofs.Schema.Collected

namespace SdlSchema

/-! ## Results of several steps -/

section

variable {α β ε : Type}

theorem failure?_eq_some_iff {result : Except ε α} {error : ε} :
    failure? result = some error ↔ result = .error error := by
  cases result <;> simp [failure?]

theorem failure?_eq_none_iff {result : Except ε α} :
    failure? result = none ↔ ∃ value, result = .ok value := by
  cases result <;> simp [failure?]

/-- What is made of a value does not change the error. -/
theorem failure?_map (f : α → β) (result : Except ε α) :
    failure? (result.map f) = failure? result := by
  cases result <;> rfl

theorem map_eq_ok_iff {f : α → β} {result : Except ε α} {value : β} :
    result.map f = .ok value ↔ ∃ given, result = .ok given ∧ value = f given := by
  cases result <;> simp [Except.map, eq_comm]

/-- Of several steps the first that fails gives the error. -/
theorem failure?_mapM (f : α → Except ε β) (list : List α) :
    failure? (list.mapM f) = list.findSome? fun item => failure? (f item) := by
  induction list with
  | nil => rfl
  | cons item list ih =>
    rw [List.mapM_cons, List.findSome?_cons, ← ih]
    cases f item with
    | error error => rfl
    | ok value => exact failure?_map (value :: ·) (list.mapM f)

/-- Where no step fails, each item gives the value in its place. -/
theorem mapM_eq_ok_iff {f : α → Except ε β} {list : List α} {values : List β} :
    list.mapM f = .ok values ↔ List.Forall₂ (fun item value => f item = .ok value) list values := by
  induction list generalizing values with
  | nil =>
    rw [List.forall₂_nil_left_iff]
    exact ⟨fun h => by cases h; rfl, fun h => by cases h; rfl⟩
  | cons item list ih =>
    rw [List.mapM_cons, bind_eq_ok, List.forall₂_cons_left_iff]
    constructor
    · rintro ⟨value, hvalue, h⟩
      obtain ⟨rest, hrest, h⟩ := bind_eq_ok.mp h
      cases h
      exact ⟨value, rest, hvalue, ih.mp hrest, rfl⟩
    · rintro ⟨value, rest, hvalue, hrest, rfl⟩
      exact ⟨value, hvalue, bind_eq_ok.mpr ⟨rest, ih.mpr hrest, rfl⟩⟩

/-- Steps that give nothing where there is nothing to work on may be left out. -/
theorem map_filterMap_mapM {γ δ : Type} {found : α → Option γ} {give : γ → Except ε δ}
    {tell : α → Except ε (Option δ)} (hsome : ∀ item value, found item = some value →
      tell item = (give value).map some)
    (hnone : ∀ item, found item = none → tell item = .ok none) (list : List α) :
    (list.mapM tell).map (List.filterMap id) = (list.filterMap found).mapM give := by
  induction list with
  | nil => rfl
  | cons item list ih =>
    cases hfound : found item with
    | none =>
      rw [List.filterMap_cons_none hfound, ← ih, List.mapM_cons, hnone item hfound]
      cases list.mapM tell <;> rfl
    | some value =>
      rw [List.filterMap_cons_some hfound, List.mapM_cons, List.mapM_cons, ← ih,
        hsome item value hfound]
      cases give value <;> cases list.mapM tell <;> rfl

/-- The first item with the property, as what is made of it. -/
theorem findSome?_ite (p : α → Prop) [DecidablePred p] (f : α → β) (list : List α) :
    (list.findSome? fun item => if p item then some (f item) else none)
      = (list.find? fun item => decide (p item)).map f := by
  rw [List.find?_eq_findSome?_guard, List.map_findSome?]
  congr 1
  funext item
  by_cases h : p item <;> simp [Option.guard, h]

end

/-! ## Results of work done side by side -/

section Gather

variable {α ε : Type} {results : List (Except ε α)} {schedule : Schedule results.length} {error : ε}

/-- No error comes up on a schedule exactly if no result is one, since each result comes up. -/
theorem Schedule.findSome?_failure?_eq_none_iff (schedule : Schedule results.length) :
    (schedule.order.findSome? fun piece => failure? (results.get piece)) = none ↔
      ∀ result ∈ results, failure? result = none := by
  rw [List.findSome?_eq_none_iff]
  constructor
  · intro h result hmem
    obtain ⟨piece, rfl⟩ := List.mem_iff_get.mp hmem
    exact h piece (schedule.mem_order piece)
  · exact fun h piece _ => h _ (List.get_mem results piece)

theorem failure?_gather (results : List (Except ε α)) (schedule : Schedule results.length) :
    failure? (gather results schedule)
      = schedule.order.findSome? fun piece => failure? (results.get piece) := by
  rw [gather]
  cases schedule.order.findSome? fun piece => failure? (results.get piece) <;> rfl

theorem failure?_gather_eq_none_iff :
    failure? (gather results schedule) = none ↔ ∀ result ∈ results, failure? result = none := by
  rw [failure?_gather, schedule.findSome?_failure?_eq_none_iff]

/-- Where none is an error, the values are those of the results. -/
theorem map_ok_filterMap_toOption {list : List (Except ε α)}
    (h : ∀ result ∈ list, failure? result = none) :
    (list.filterMap Except.toOption).map .ok = list := by
  induction list with
  | nil => rfl
  | cons result list ih =>
    rw [List.forall_mem_cons] at h
    obtain ⟨value, rfl⟩ := failure?_eq_none_iff.mp h.1
    exact congrArg (.ok value :: ·) (ih h.2)

/-- The values that are gathered are those of the results, on every schedule. -/
theorem gather_eq_ok_iff {values : List α} :
    gather results schedule = .ok values ↔ results = values.map .ok := by
  constructor
  · intro h
    have hnone : failure? (gather results schedule) = none := by rw [h]; rfl
    have hall := failure?_gather_eq_none_iff.mp hnone
    rw [gather, schedule.findSome?_failure?_eq_none_iff.mpr hall] at h
    cases h
    exact (map_ok_filterMap_toOption hall).symm
  · rintro rfl
    have hall : ∀ result ∈ values.map (Except.ok (ε := ε)), failure? result = none := by
      simp [failure?]
    rw [gather, schedule.findSome?_failure?_eq_none_iff.mpr hall]
    refine congrArg Except.ok ?_
    rw [List.filterMap_map]
    exact List.filterMap_some

/-- An error that is gathered is one of the results. -/
theorem mem_of_gather_eq_error (h : gather results schedule = .error error) :
    .error error ∈ results := by
  rw [← failure?_eq_some_iff, failure?_gather] at h
  obtain ⟨piece, -, hpiece⟩ := List.exists_of_findSome?_eq_some h
  rw [← failure?_eq_some_iff.mp hpiece]
  exact List.get_mem results piece

/-- Every error among the results is gathered on some schedule, one on which it comes up first. -/
theorem exists_gather_eq_error (h : .error error ∈ results) :
    ∃ schedule, gather results schedule = .error error := by
  obtain ⟨piece, hpiece⟩ := List.mem_iff_get.mp h
  refine ⟨⟨piece :: List.finRange _, fun _ => List.mem_cons_of_mem _ (List.mem_finRange _)⟩, ?_⟩
  rw [← failure?_eq_some_iff, failure?_gather, List.findSome?_cons, hpiece]
  rfl

end Gather

/-! ## Places -/

namespace DirectiveLocation

/-- The names that are in one of the two vocabularies. -/
def names : List String :=
  ["QUERY", "MUTATION", "SUBSCRIPTION", "FIELD", "FRAGMENT_DEFINITION", "FRAGMENT_SPREAD",
    "INLINE_FRAGMENT", "SCHEMA", "SCALAR", "OBJECT", "FIELD_DEFINITION", "ARGUMENT_DEFINITION",
    "INTERFACE", "UNION", "ENUM", "ENUM_VALUE", "INPUT_OBJECT", "INPUT_FIELD_DEFINITION"]

theorem names_eq : names = all.map name := rfl

theorem ofName?_eq_none_iff (text : String) : ofName? text = none ↔ text ∉ names := by
  rw [ofName?, List.find?_eq_none, names_eq, List.mem_map]
  simp

theorem parse_eq_ok_iff {text : String} {place : DirectiveLocation} :
    parse text = .ok place ↔ ofName? text = some place := by
  unfold parse
  split
  · next found hfound => rw [hfound, Except.ok.injEq, Option.some.injEq]
  · next hnone => rw [hnone]; exact ⟨nofun, nofun⟩

/-- A place that was read bears the name it was read from. -/
theorem name_of_parse {text : String} {place : DirectiveLocation} (h : parse text = .ok place) :
    place.name = text := name_of_ofName? (parse_eq_ok_iff.mp h)

/-- Exactly the names outside the vocabularies are in error. -/
theorem failure?_parse (text : String) :
    failure? (parse text) = if text ∉ names then some (.invalidLocation text) else none := by
  unfold parse
  split
  · next place hplace =>
    have hmem : ¬ text ∉ names := by rw [← ofName?_eq_none_iff, hplace]; exact nofun
    rw [if_neg hmem]
    rfl
  · next hnone => rw [if_pos ((ofName?_eq_none_iff text).mp hnone)]; rfl

end DirectiveLocation

namespace ListedLocation

theorem parse_eq_ok_iff {text : String} {listed : ListedLocation} :
    parse text = .ok listed ↔
      listed.name = text ∧ DirectiveLocation.parse text = .ok listed.location := by
  rw [parse, bind_eq_ok]
  constructor
  · rintro ⟨location, hlocation, h⟩
    cases h
    exact ⟨rfl, hlocation⟩
  · rintro ⟨rfl, hlocation⟩
    exact ⟨listed.location, hlocation, rfl⟩

/-- A place is listed under the name in the list. -/
theorem name_of_parse {text : String} {listed : ListedLocation} (h : parse text = .ok listed) :
    listed.name = text := (parse_eq_ok_iff.mp h).1

/-- A place that was read from a list bears the name it is listed by. -/
theorem location_name_of_parse {text : String} {listed : ListedLocation}
    (h : parse text = .ok listed) : listed.location.name = listed.name := by
  obtain ⟨rfl, hlocation⟩ := parse_eq_ok_iff.mp h
  exact DirectiveLocation.name_of_parse hlocation

/-- Keeping the name beside the place does not change the error. -/
theorem failure?_parse (text : String) :
    failure? (parse text) = failure? (DirectiveLocation.parse text) := failure?_map _ _

end ListedLocation

namespace Extractor

variable (extractor : Extractor)

/-! ## Known directive definitions -/

/-- The directive definitions of a document whose markers are known, each with the directive that
its marker stands for. -/
def knownDirectives (document : Run) : List (Directive × Described DirectiveDeclaration) :=
  (directiveDeclarations document).filterMap fun found =>
    (extractor.table.get? found.item.marker).map fun applied => (applied, found)

/-- The directive definitions of a document are those of its declarations with known markers. -/
theorem directives_eq_known (document : Run) :
    extractor.directives document = ((extractor.knownDirectives document).mapM fun known =>
      directive known.1 known.2).map NameIndex.collect := by
  have hsome : ∀ (found : Described DirectiveDeclaration) known,
      ((extractor.table.get? found.item.marker).map fun applied => (applied, found)) = some known →
      extractor.directive? found = (directive known.1 known.2).map some := by
    intro found known hknown
    obtain ⟨applied, happlied, rfl⟩ := Option.map_eq_some_iff.mp hknown
    rw [directive?, happlied]
  have hnone : ∀ found : Described DirectiveDeclaration,
      ((extractor.table.get? found.item.marker).map fun applied => (applied, found)) = none →
      extractor.directive? found = .ok none := by
    intro found hfound
    rw [directive?, Option.map_eq_none_iff.mp hfound]
  rw [knownDirectives, ← map_filterMap_mapM hsome hnone, directives]
  cases (directiveDeclarations document).mapM extractor.directive? <;> rfl

/-! ## Listed places -/

/-- The names of the places that the directive definitions with known markers list, in the order of
the text. -/
def listedPlaces (document : Run) : List String :=
  (extractor.knownDirectives document).flatMap fun known =>
    known.2.item.locations.items.map Element.name

/-- The first listed place that is in neither vocabulary. -/
def firstInvalid? (document : Run) : Option String :=
  (extractor.listedPlaces document).find? fun place => place ∉ DirectiveLocation.names

theorem failure?_directive (applied : Directive) (found : Described DirectiveDeclaration) :
    failure? (directive applied found)
      = ((found.item.locations.items.map Element.name).find? fun place =>
          place ∉ DirectiveLocation.names).map .invalidLocation := by
  have hparse : failure? (found.item.locations.items.mapM fun element =>
      ListedLocation.parse element.name)
        = ((found.item.locations.items.map Element.name).find? fun place =>
          place ∉ DirectiveLocation.names).map .invalidLocation := by
    rw [failure?_mapM, List.find?_map, Option.map_map]
    simp only [ListedLocation.failure?_parse, DirectiveLocation.failure?_parse]
    exact findSome?_ite (fun element : Element => element.name ∉ DirectiveLocation.names) _ _
  rw [← hparse, directive]
  exact failure?_map _ _

/-- The directive definitions are in error exactly for the first listed place in neither vocabulary.
-/
theorem failure?_directives (document : Run) :
    failure? (extractor.directives document)
      = (extractor.firstInvalid? document).map .invalidLocation := by
  rw [directives_eq_known, failure?_map, failure?_mapM, firstInvalid?, listedPlaces,
    List.find?_flatMap, List.map_findSome?]
  simp only [failure?_directive]
  rfl

/-- Nothing else in a document is ever in error. -/
theorem failure?_extract (text : String) :
    failure? (extractor.extract text)
      = (extractor.firstInvalid? (Run.ofString text)).map .invalidLocation := by
  rw [extract_parallel, extractInTurn, ← failure?_directives]
  exact failure?_map _ _

theorem eq_invalidLocation_iff {α : Type} {result : Except SchemaError α} {first? : Option String}
    (h : failure? result = first?.map .invalidLocation) (place : String) :
    result = .error (.invalidLocation place) ↔ first? = some place := by
  rw [← failure?_eq_some_iff, h]
  cases first? <;> simp

/-! ## What is there without an error -/

/-- A directive definition takes its places from its list and the rest of what it says from the
directive that its marker stands for. -/
theorem directive_eq_ok {applied : Directive} {found : Described DirectiveDeclaration}
    {definition : DirectiveDefinition} :
    directive applied found = .ok definition ↔ ∃ listed,
      List.Forall₂ (fun element place => ListedLocation.parse element.name = .ok place)
        found.item.locations.items listed ∧
      definition = ⟨applied.name, found.item.isRepeatable, presentText found.description,
        NameIndex.collect listed, present (applied.arguments.map fun arguments =>
          arguments.mapWithName DirectiveArgument.mk)⟩ := by
  rw [directive, bind_eq_ok]
  simp only [mapM_eq_ok_iff]
  constructor
  · rintro ⟨listed, hlisted, heq⟩
    cases heq
    exact ⟨listed, hlisted, rfl⟩
  · rintro ⟨listed, hlisted, rfl⟩
    exact ⟨listed, hlisted, rfl⟩

variable {extractor}

/-- Without an error, what is collected is what the definitions with known markers give. -/
theorem published_directives {document : Run} {index : NameIndex DirectiveDefinition}
    (h : extractor.directives document = .ok index) :
    Published (extractor.knownDirectives document) (fun known => known.1.name)
      (fun known definition => directive known.1 known.2 = .ok definition) index := by
  rw [directives_eq_known, map_eq_ok_iff] at h
  obtain ⟨defined, hdefined, rfl⟩ := h
  refine published_collect ((mapM_eq_ok_iff.mp hdefined).imp fun known definition hknown => ?_)
  obtain ⟨listed, -, rfl⟩ := directive_eq_ok.mp hknown
  exact ⟨rfl, hknown⟩

theorem extractInTurn_eq_ok {schema : Schema} :
    extractor.extractInTurn document = .ok schema ↔
      ∃ directives, extractor.directives document = .ok directives ∧
        schema = assemble (extractor.fieldedTypes document) (extractor.unions document)
          (extractor.enums document) (extractor.scalars document) directives := by
  rw [extractInTurn, bind_eq_ok]
  constructor
  · rintro ⟨directives, hdirectives, heq⟩
    cases heq
    exact ⟨directives, hdirectives, rfl⟩
  · rintro ⟨directives, hdirectives, rfl⟩
    exact ⟨directives, hdirectives, rfl⟩

/-- Each listed place stands under the name in the list, and is the place of that name. -/
theorem names_of_mem_elements {document : Run} {index : NameIndex DirectiveDefinition}
    (h : extractor.directives document = .ok index) {definition : DirectiveDefinition}
    (hmem : definition ∈ index.values) {name : String} {place : ListedLocation}
    (hplace : (name, place) ∈ definition.elements.entries) :
    place.name = name ∧ place.location.name = place.name := by
  obtain ⟨known, -, hknown⟩ := (published_directives h).exists_mem hmem
  obtain ⟨listed, hlisted, rfl⟩ := directive_eq_ok.mp hknown
  obtain ⟨hname, before, after, rfl, -⟩ := NameIndex.mem_entries_collect.mp hplace
  obtain ⟨element, behind, hparse, -⟩ :=
    List.forall₂_cons_right_iff.mp (List.forall₂_drop_append _ _ _ hlisted)
  exact ⟨hname, ListedLocation.location_name_of_parse hparse⟩

/-- Without a place that is none, there are directive definitions and a schema. -/
theorem exists_schema_of_firstInvalid?_eq_none {text : String}
    (h : extractor.firstInvalid? (Run.ofString text) = none) : ∃ index schema,
      extractor.directives (Run.ofString text) = .ok index ∧
      extractor.extract text = .ok schema ∧ schema.directives = index ∧
      ∀ definition ∈ index.values, ∀ entry ∈ definition.elements.entries,
        entry.2.name = entry.1 ∧ entry.2.location.name = entry.2.name := by
  have hok : failure? (extractor.directives (Run.ofString text)) = none := by
    rw [failure?_directives, h, Option.map_none]
  obtain ⟨index, hindex⟩ := failure?_eq_none_iff.mp hok
  have hschema := extractor.extractInTurn_eq_ok.mpr ⟨index, hindex, rfl⟩
  rw [← extract_parallel] at hschema
  exact ⟨index, _, hindex, hschema, rfl, fun definition hmem entry hentry =>
    names_of_mem_elements hindex hmem hentry⟩

/-! ## Several documents -/

section SideBySide

variable {texts : List String} {schedule : Schedule (texts.map extractor.extract).length}
  {error : SchemaError}

/-- On every schedule, several documents have for their schemas those of each of them. -/
theorem extractAll_eq_ok_iff {schemas : List Schema} :
    extractor.extractAll texts schedule = .ok schemas ↔
      List.Forall₂ (fun text schema => extractor.extract text = .ok schema) texts schemas := by
  rw [extractAll, gather_eq_ok_iff, ← List.forall₂_eq_eq_eq, List.forall₂_map_left_iff,
    List.forall₂_map_right_iff]

/-- On every schedule, several documents have schemas exactly if each of them has one. -/
theorem exists_extractAll_iff :
    (∃ schemas, extractor.extractAll texts schedule = .ok schemas) ↔
      ∀ text ∈ texts, ∃ schema, extractor.extract text = .ok schema := by
  rw [extractAll, ← failure?_eq_none_iff, failure?_gather_eq_none_iff, List.forall_mem_map]
  simp only [failure?_eq_none_iff]

/-- An error of several documents is that of one of them. -/
theorem exists_mem_of_extractAll_eq_error (h : extractor.extractAll texts schedule = .error error) :
    ∃ text ∈ texts, extractor.extract text = .error error :=
  List.mem_map.mp (mem_of_gather_eq_error h)

/-- The error of any document may come up first. -/
theorem exists_extractAll_eq_error {text : String} (hmem : text ∈ texts)
    (h : extractor.extract text = .error error) :
    ∃ schedule, extractor.extractAll texts schedule = .error error :=
  exists_gather_eq_error (List.mem_map.mpr ⟨text, hmem, h⟩)

end SideBySide

/-! ## Exactly when extraction fails -/

/-- **The only error is the first place that is none.**  Take the directive definitions whose
markers are known, in the order of the text.  Their index and the schema of the document are in
error exactly if one of the places they list is in neither vocabulary, and the error is the first
such place in the order of the definitions and of each list; what definitions with unknown markers
list does not count.  Otherwise both are there, and each listed place stands under the name in the
list, and is the place of that name.  Several documents that are worked on side by side have their
schemas exactly if each of them has one; else the error is that of one of them, and may be that of
any. -/
theorem extract_fails_iff (extractor : Extractor) :
    (∀ text : String,
      (∀ place, extractor.directives (Run.ofString text) = .error (.invalidLocation place) ↔
        extractor.firstInvalid? (Run.ofString text) = some place) ∧
      (∀ place, extractor.extract text = .error (.invalidLocation place) ↔
        extractor.firstInvalid? (Run.ofString text) = some place) ∧
      (extractor.firstInvalid? (Run.ofString text) = none → ∃ index schema,
        extractor.directives (Run.ofString text) = .ok index ∧
        extractor.extract text = .ok schema ∧ schema.directives = index ∧
        ∀ definition ∈ index.values, ∀ entry ∈ definition.elements.entries,
          entry.2.name = entry.1 ∧ entry.2.location.name = entry.2.name)) ∧
    ∀ texts : List String,
      (∀ schedule,
        (∀ schemas, extractor.extractAll texts schedule = .ok schemas ↔
          List.Forall₂ (fun text schema => extractor.extract text = .ok schema) texts schemas) ∧
        ((∃ schemas, extractor.extractAll texts schedule = .ok schemas) ↔
          ∀ text ∈ texts, ∃ schema, extractor.extract text = .ok schema) ∧
        ∀ error, extractor.extractAll texts schedule = .error error →
          ∃ text ∈ texts, extractor.extract text = .error error) ∧
      ∀ text ∈ texts, ∀ error, extractor.extract text = .error error →
        ∃ schedule, extractor.extractAll texts schedule = .error error := by
  refine ⟨fun text => ⟨?_, ?_, exists_schema_of_firstInvalid?_eq_none⟩,
    fun texts => ⟨fun schedule => ⟨?_, ?_, ?_⟩, ?_⟩⟩
  · exact eq_invalidLocation_iff (extractor.failure?_directives _)
  · exact eq_invalidLocation_iff (extractor.failure?_extract _)
  · exact fun schemas => extractAll_eq_ok_iff
  · exact exists_extractAll_iff
  · exact fun error => exists_mem_of_extractAll_eq_error
  · exact fun text hmem error => exists_extractAll_eq_error hmem

/-- A definition with an unknown marker lists a wrong place, one with a known marker lists two. -/
example : failure? (extract ⟨NameIndex.ofPairs [("%0", .ofName "a")], {}⟩
    "directive %1 on NOWHERE\ndirective %0 on FIELD | field | NOWHERE")
      = some (.invalidLocation "field") := by decide +kernel

end Extractor

end SdlSchema
