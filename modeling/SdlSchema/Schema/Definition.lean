/-
# Definitions

The records of a schema.  Every definition has a name; most may have a description and
directives.  What sets the kinds of type apart is their body: members, fields, or nothing.
Records refer to each other by name alone.
-/
import SdlSchema.Schema.Directive
import SdlSchema.Schema.Location

namespace SdlSchema

/-! ## Parts of definitions -/

/-- A mention of something defined elsewhere, by its name. -/
structure Reference where
  name : String
  deriving DecidableEq

instance : Named Reference := ⟨Reference.name⟩

/-- A field of an input type, or an argument of a field. -/
structure InputValue where
  name : String
  /-- The type as it was written. -/
  type : String
  description : Option String
  directives : Directives
  deriving BEq

instance : Named InputValue := ⟨InputValue.name⟩

namespace InputValue

/-- An input value of which only name and type are known. -/
def ofType (name type : String) : InputValue := ⟨name, type, none, none⟩

/-- The input value with this description instead of its own. -/
def withDescription (value : InputValue) (description : Option String) : InputValue :=
  { value with description := presentText description }

/-- The input value with these directives instead of its own. -/
def withDirectives (value : InputValue) (directives : Directives) : InputValue :=
  { value with directives := present directives }

end InputValue

/-- A field of an object or interface, which may have arguments. -/
structure Field extends InputValue where
  arguments : Option (NameIndex InputValue)
  deriving BEq

instance : Named Field := ⟨fun field => field.name⟩

namespace Field

/-- A field of which only name and type are known. -/
def ofType (name type : String) : Field := ⟨.ofType name type, none⟩

/-- The field with this description instead of its own. -/
def withDescription (field : Field) (description : Option String) : Field :=
  { field with toInputValue := field.toInputValue.withDescription description }

/-- The field with these directives instead of its own. -/
def withDirectives (field : Field) (directives : Directives) : Field :=
  { field with toInputValue := field.toInputValue.withDirectives directives }

/-- The field with these arguments instead of its own. -/
def withArguments (field : Field) (arguments : Option (NameIndex InputValue)) : Field :=
  { field with arguments := present arguments }

end Field

/-- A member of a union, or a value of an enum. -/
structure Member where
  name : String
  directives : Directives
  deriving BEq

instance : Named Member := ⟨Member.name⟩

namespace Member

/-- A member without directives. -/
def ofName (name : String) : Member := ⟨name, none⟩

/-- The member with these directives instead of its own. -/
def withDirectives (element : Member) (directives : Directives) : Member :=
  { element with directives := present directives }

end Member

/-! ## Type definitions -/

/-- A type of the schema.  `isExtended` tells whether the declaration extends another. -/
structure TypeDefinition (Body : Type) where
  name : String
  isExtended : Bool
  description : Option String
  directives : Directives
  body : Body
  deriving BEq

instance (Body : Type) : Named (TypeDefinition Body) := ⟨TypeDefinition.name⟩

namespace TypeDefinition

variable {Body : Type}

/-- A type of which only name and body are known. -/
def ofBody (name : String) (isExtended : Bool) (body : Body) : TypeDefinition Body :=
  ⟨name, isExtended, none, none, body⟩

/-- The type with this description instead of its own. -/
def withDescription (type : TypeDefinition Body) (description : Option String) :
    TypeDefinition Body :=
  { type with description := presentText description }

/-- The type with these directives instead of its own. -/
def withDirectives (type : TypeDefinition Body) (directives : Directives) : TypeDefinition Body :=
  { type with directives := present directives }

end TypeDefinition

/-- What an object owns: fields, and the interfaces it implements. -/
structure ObjectBody where
  fields : Option (NameIndex Field)
  interfaces : Option (NameIndex Reference)
  deriving BEq

/-- A scalar has a heading and nothing else. -/
abbrev ScalarDefinition := TypeDefinition Unit

/-- A union lists its members. -/
abbrev UnionDefinition := TypeDefinition (NameIndex Member)

/-- An enum lists its values. -/
abbrev EnumDefinition := TypeDefinition (NameIndex Member)

/-- An interface owns fields that may have arguments. -/
abbrev InterfaceDefinition := TypeDefinition (Option (NameIndex Field))

/-- An input owns fields without arguments. -/
abbrev InputDefinition := TypeDefinition (Option (NameIndex InputValue))

/-- An object owns fields that may have arguments, and implements interfaces. -/
abbrev ObjectDefinition := TypeDefinition ObjectBody

/-- The interface or input with these fields instead of its own. -/
def TypeDefinition.withFields {α : Type} (type : TypeDefinition (Option (NameIndex α)))
    (fields : Option (NameIndex α)) : TypeDefinition (Option (NameIndex α)) :=
  { type with body := present fields }

namespace ObjectDefinition

/-- The object with these fields instead of its own. -/
def withFields (object : ObjectDefinition) (fields : Option (NameIndex Field)) :
    ObjectDefinition :=
  { object with body := { object.body with fields := present fields } }

/-- The object with these interfaces instead of its own. -/
def withInterfaces (object : ObjectDefinition) (interfaces : Option (NameIndex Reference)) :
    ObjectDefinition :=
  { object with body := { object.body with interfaces := present interfaces } }

end ObjectDefinition

/-! ## Directive definitions -/

/-- An argument of a directive definition: its name and declared type. -/
structure DirectiveArgument where
  name : String
  type : String
  deriving DecidableEq

instance : Named DirectiveArgument := ⟨DirectiveArgument.name⟩

/-- A place as a directive definition lists it: the name in the list, and the place it was read
as. -/
structure ListedLocation where
  name : String
  location : DirectiveLocation
  deriving DecidableEq

instance : Named ListedLocation := ⟨ListedLocation.name⟩

/-- A place listed under its own name. -/
def ListedLocation.ofLocation (location : DirectiveLocation) : ListedLocation :=
  ⟨location.name, location⟩

/-- The definition of a directive, with the places where it may be applied. -/
structure DirectiveDefinition where
  name : String
  isRepeatable : Bool
  description : Option String
  /-- Each listed place under the name in the list. -/
  elements : NameIndex ListedLocation
  arguments : Option (NameIndex DirectiveArgument)
  deriving BEq

instance : Named DirectiveDefinition := ⟨DirectiveDefinition.name⟩

namespace DirectiveDefinition

/-- A definition of which only name and listed places are known. -/
def ofElements (name : String) (elements : NameIndex ListedLocation) : DirectiveDefinition :=
  ⟨name, false, none, elements, none⟩

/-- A definition of which only name and places are known, each under the name it is listed by. -/
def ofLocations (name : String) (locations : NameIndex DirectiveLocation) : DirectiveDefinition :=
  ofElements name (locations.mapWithName ListedLocation.mk)

/-- The places where the directive may be applied, under the names they are listed by. -/
def locations (definition : DirectiveDefinition) : NameIndex DirectiveLocation :=
  definition.elements.mapWithName fun _ element => element.location

/-- Directive definitions cannot be extended. -/
def isExtended (_definition : DirectiveDefinition) : Bool := false

/-- The definition with this description instead of its own. -/
def withDescription (definition : DirectiveDefinition) (description : Option String) :
    DirectiveDefinition :=
  { definition with description := presentText description }

/-- The definition with these arguments instead of its own. -/
def withArguments (definition : DirectiveDefinition)
    (arguments : Option (NameIndex DirectiveArgument)) : DirectiveDefinition :=
  { definition with arguments := present arguments }

/-- The definition, repeatable or not. -/
def repeatable (definition : DirectiveDefinition) (isRepeatable : Bool) : DirectiveDefinition :=
  { definition with isRepeatable := isRepeatable }

end DirectiveDefinition

end SdlSchema
