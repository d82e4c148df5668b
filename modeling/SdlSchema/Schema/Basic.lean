/-
# Schemas

Everything that a document defines, one index for each kind of definition.
-/
import SdlSchema.Schema.Definition

namespace SdlSchema

/-- The definitions of a document. -/
structure Schema where
  objects : NameIndex ObjectDefinition
  interfaces : NameIndex InterfaceDefinition
  inputs : NameIndex InputDefinition
  unions : NameIndex UnionDefinition
  enums : NameIndex EnumDefinition
  scalars : NameIndex ScalarDefinition
  directives : NameIndex DirectiveDefinition
  deriving BEq

namespace Schema

/-- The number of definitions. -/
def size (schema : Schema) : Nat :=
  schema.objects.size + schema.interfaces.size + schema.inputs.size + schema.unions.size
    + schema.enums.size + schema.scalars.size + schema.directives.size

/-- Whether nothing is defined. -/
def isEmpty (schema : Schema) : Bool :=
  schema.objects.isEmpty && schema.interfaces.isEmpty && schema.inputs.isEmpty
    && schema.unions.isEmpty && schema.enums.isEmpty && schema.scalars.isEmpty
    && schema.directives.isEmpty

end Schema

/-! ## Errors -/

/-- Why a document has no schema.  Incomplete declarations are no errors; they are left out. -/
inductive SchemaError where
  /-- A directive definition names a place that is in neither vocabulary. -/
  | invalidLocation (location : String)
  deriving DecidableEq

/-- The wording of an error. -/
def SchemaError.message : SchemaError → String
  | .invalidLocation location =>
    "invalid directive location '" ++ location
      ++ "': not an executable or type system directive location"

/-- The place of a given name, which has to be in one of the vocabularies. -/
def DirectiveLocation.parse (name : String) : Except SchemaError DirectiveLocation :=
  match ofName? name with
  | some location => .ok location
  | none => .error (.invalidLocation name)

/-- The place listed under a name, which has to be in one of the vocabularies. -/
def ListedLocation.parse (name : String) : Except SchemaError ListedLocation := do
  let location ← DirectiveLocation.parse name
  pure ⟨name, location⟩

end SdlSchema
