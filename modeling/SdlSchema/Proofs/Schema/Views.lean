/-
# Ways to look at schemas

A view shows the types and descriptions of a schema in words of its own, and everything else as it
is: the names, in their order, and the directives.

* `View.schema` : a schema as a view shows it;
* `NameIndex.collect_map` : what is collected is shown value by value.
-/
import SdlSchema.NameIndex.Lemmas
import SdlSchema.Schema.Basic

namespace SdlSchema

/-! ## Other values under the same names -/

namespace NameIndex

variable {α β : Type}

theorem eq_of_entries_eq {index other : NameIndex α} (h : index.entries = other.entries) :
    index = other := by
  cases index
  cases other
  simpa using h

/-- A value may be changed before or after it is inserted. -/
theorem insertEntry_map (f : α → β) (key : String) (value : α) (entries : List (String × α)) :
    insertEntry key (f value) (entries.map fun entry => (entry.1, f entry.2))
      = (insertEntry key value entries).map fun entry => (entry.1, f entry.2) := by
  induction entries with
  | nil => rfl
  | cons entry entries ih =>
    rw [List.map_cons, insertEntry, insertEntry]
    split
    · rfl
    · rw [ih, List.map_cons]

/-- Values may be changed before or after they are put into an index. -/
theorem ofPairs_map (f : α → β) (pairs : List (String × α)) :
    ofPairs (pairs.map fun pair => (pair.1, f pair.2))
      = (ofPairs pairs).mapWithName fun _ => f := by
  induction pairs using reverse_induction with
  | nil => rfl
  | concat pairs pair ih =>
    rw [List.map_append, List.map_singleton, ofPairs_concat, ih, ofPairs_concat]
    exact eq_of_entries_eq (insertEntry_map f pair.1 pair.2 (ofPairs pairs).entries)

/-- Values that keep their names may be changed before or after they are collected. -/
theorem collect_map [Named α] [Named β] (f : α → β)
    (h : ∀ item, Named.name (f item) = Named.name item) (items : List α) :
    collect (items.map f) = (collect items).mapWithName fun _ => f := by
  rw [collect, collect, ← ofPairs_map, List.map_map, List.map_map]
  congr 2
  funext item
  simp only [Function.comp, h]

/-- Values that look alike are indexed alike. -/
theorem mapWithName_collect_congr [Named α] [Named β] (f : α → β)
    (h : ∀ item, Named.name (f item) = Named.name item) {items others : List α}
    (hsame : items.map f = others.map f) :
    (collect items).mapWithName (fun _ => f) = (collect others).mapWithName fun _ => f := by
  rw [← collect_map f h, ← collect_map f h, hsame]

/-- An index whose values are left as they are is left as it is. -/
theorem mapWithName_eq_self {f : α → α} (h : ∀ value, f value = value) (index : NameIndex α) :
    (index.mapWithName fun _ => f) = index := by
  apply eq_of_entries_eq
  simp only [mapWithName, h, List.map_id']

theorem isEmpty_mapWithName (f : String → α → β) (index : NameIndex α) :
    (index.mapWithName f).isEmpty = index.isEmpty := by
  rw [isEmpty, isEmpty, mapWithName, List.isEmpty_map]

end NameIndex

/-- Changing values keeps which indexes are worth presenting. -/
theorem present_map {α β : Type} (f : α → β) (index : Option (NameIndex α)) :
    present (index.map (NameIndex.mapWithName fun _ => f))
      = (present index).map (NameIndex.mapWithName fun _ => f) := by
  cases index with
  | none => rfl
  | some index =>
    simp only [present, Option.map_some, Option.bind_some, NameIndex.nonEmpty?,
      NameIndex.isEmpty_mapWithName]
    split <;> rfl

/-! ## Views -/

/-- A way to look at schemas. -/
structure View where
  /-- How the text of a type is shown. -/
  type : String → String
  /-- How a description is shown. -/
  description : Option String → Option String

namespace View

variable (view : View)

/-- An input value as the view shows it: its type and description. -/
def inputValue (value : InputValue) : InputValue :=
  { value with type := view.type value.type, description := view.description value.description }

/-- Input values as the view shows them, under their names. -/
def inputValues (values : Option (NameIndex InputValue)) : Option (NameIndex InputValue) :=
  values.map (NameIndex.mapWithName fun _ => view.inputValue)

/-- A field as the view shows it, with its arguments. -/
def field (field : Field) : Field where
  toInputValue := view.inputValue field.toInputValue
  arguments := view.inputValues field.arguments

/-- Fields as the view shows them, under their names. -/
def fields (fields : Option (NameIndex Field)) : Option (NameIndex Field) :=
  fields.map (NameIndex.mapWithName fun _ => view.field)

/-- A type as the view shows it, if its body is shown in the given way. -/
def definition {Body : Type} (body : Body → Body) (type : TypeDefinition Body) :
    TypeDefinition Body :=
  { type with description := view.description type.description, body := body type.body }

/-- The body of an object as the view shows it; interfaces have only names. -/
def objectBody (body : ObjectBody) : ObjectBody := { body with fields := view.fields body.fields }

/-- A directive definition as the view shows it: its description. -/
def directive (definition : DirectiveDefinition) : DirectiveDefinition :=
  { definition with description := view.description definition.description }

/-- A schema as the view shows it. -/
def schema (schema : Schema) : Schema where
  objects := schema.objects.mapWithName fun _ => view.definition view.objectBody
  interfaces := schema.interfaces.mapWithName fun _ => view.definition view.fields
  inputs := schema.inputs.mapWithName fun _ => view.definition view.inputValues
  unions := schema.unions.mapWithName fun _ => view.definition id
  enums := schema.enums.mapWithName fun _ => view.definition id
  scalars := schema.scalars.mapWithName fun _ => view.definition id
  directives := schema.directives.mapWithName fun _ => view.directive

/-! ## The plain view -/

/-- The view that shows everything as it is. -/
def plain : View := ⟨id, id⟩

theorem inputValue_plain (value : InputValue) : plain.inputValue value = value := rfl

theorem inputValues_plain (values : Option (NameIndex InputValue)) :
    plain.inputValues values = values := by
  rw [inputValues, Option.map_congr fun index _ =>
    NameIndex.mapWithName_eq_self inputValue_plain index, Option.map_id']

theorem field_plain (field : Field) : plain.field field = field := by
  rw [View.field, inputValue_plain, inputValues_plain]

/-- The plain view shows fields as they are. -/
theorem fields_plain (fields : Option (NameIndex Field)) : plain.fields fields = fields := by
  rw [View.fields, Option.map_congr fun index _ => NameIndex.mapWithName_eq_self field_plain index,
    Option.map_id']

/-- The plain view shows a type as it is, if it does so with the body. -/
theorem definition_plain {Body : Type} {body : Body → Body} (h : ∀ part, body part = part)
    (type : TypeDefinition Body) : plain.definition body type = type := by
  rw [definition, h]
  rfl

/-- The plain view shows a schema as it is. -/
theorem schema_plain (schema : Schema) : plain.schema schema = schema := by
  have hobject : ∀ body, plain.objectBody body = body := fun body => by
    rw [objectBody, fields_plain]
  have hplain : ∀ {Body : Type} (type : TypeDefinition Body), plain.definition id type = type :=
    fun _ => rfl
  simp only [View.schema, NameIndex.mapWithName_eq_self (definition_plain hobject),
    NameIndex.mapWithName_eq_self (definition_plain fields_plain),
    NameIndex.mapWithName_eq_self (definition_plain inputValues_plain),
    NameIndex.mapWithName_eq_self hplain,
    NameIndex.mapWithName_eq_self fun directive => (rfl : plain.directive directive = directive)]

end View

end SdlSchema
