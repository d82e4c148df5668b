/-
# Places for directives

The two closed vocabularies of places where a directive may be applied: in executable documents
and in type system documents.

* `ofName?_name` : every place is found by its name;
* `name_of_ofName?` : a place is found by no other name.
-/
import SdlSchema.NameIndex.Basic

namespace SdlSchema

/-! ## The vocabularies -/

/-- Places in executable documents. -/
inductive ExecutableLocation where
  | query | mutation | subscription | field | fragmentDefinition | fragmentSpread | inlineFragment
  deriving DecidableEq

/-- Places in type system documents. -/
inductive TypeSystemLocation where
  | schema | scalar | object | fieldDefinition | argumentDefinition | interface | union | enum
  | enumValue | inputObject | inputFieldDefinition
  deriving DecidableEq

namespace ExecutableLocation

/-- All places in executable documents. -/
def all : List ExecutableLocation :=
  [.query, .mutation, .subscription, .field, .fragmentDefinition, .fragmentSpread, .inlineFragment]

/-- The name of a place, as a definition spells it. -/
def name : ExecutableLocation → String
  | .query => "QUERY"
  | .mutation => "MUTATION"
  | .subscription => "SUBSCRIPTION"
  | .field => "FIELD"
  | .fragmentDefinition => "FRAGMENT_DEFINITION"
  | .fragmentSpread => "FRAGMENT_SPREAD"
  | .inlineFragment => "INLINE_FRAGMENT"

theorem mem_all (location : ExecutableLocation) : location ∈ all := by cases location <;> decide

end ExecutableLocation

namespace TypeSystemLocation

/-- All places in type system documents. -/
def all : List TypeSystemLocation :=
  [.schema, .scalar, .object, .fieldDefinition, .argumentDefinition, .interface, .union, .enum,
    .enumValue, .inputObject, .inputFieldDefinition]

/-- The name of a place, as a definition spells it. -/
def name : TypeSystemLocation → String
  | .schema => "SCHEMA"
  | .scalar => "SCALAR"
  | .object => "OBJECT"
  | .fieldDefinition => "FIELD_DEFINITION"
  | .argumentDefinition => "ARGUMENT_DEFINITION"
  | .interface => "INTERFACE"
  | .union => "UNION"
  | .enum => "ENUM"
  | .enumValue => "ENUM_VALUE"
  | .inputObject => "INPUT_OBJECT"
  | .inputFieldDefinition => "INPUT_FIELD_DEFINITION"

theorem mem_all (location : TypeSystemLocation) : location ∈ all := by cases location <;> decide

end TypeSystemLocation

/-! ## Places -/

/-- A place where a directive may be applied. -/
inductive DirectiveLocation where
  | executable (location : ExecutableLocation)
  | typeSystem (location : TypeSystemLocation)
  deriving DecidableEq

namespace DirectiveLocation

/-- All places, executable ones first. -/
def all : List DirectiveLocation :=
  ExecutableLocation.all.map .executable ++ TypeSystemLocation.all.map .typeSystem

/-- The name of a place, as a definition spells it. -/
def name : DirectiveLocation → String
  | .executable location => location.name
  | .typeSystem location => location.name

/-- Whether the place is in executable documents. -/
def isExecutable : DirectiveLocation → Bool
  | .executable _ => true
  | .typeSystem _ => false

/-- The place of a given name, spelled exactly. -/
def ofName? (name : String) : Option DirectiveLocation := all.find? fun place => place.name == name

instance : Named DirectiveLocation := ⟨name⟩

theorem mem_all (location : DirectiveLocation) : location ∈ all := by
  cases location with
  | executable location =>
    exact List.mem_append_left _ (List.mem_map.mpr ⟨location, location.mem_all, rfl⟩)
  | typeSystem location =>
    exact List.mem_append_right _ (List.mem_map.mpr ⟨location, location.mem_all, rfl⟩)

/-- A place is found by no other name. -/
theorem name_of_ofName? {name : String} {location : DirectiveLocation}
    (h : ofName? name = some location) : location.name = name := by
  simpa using List.find?_some h

end DirectiveLocation

end SdlSchema
