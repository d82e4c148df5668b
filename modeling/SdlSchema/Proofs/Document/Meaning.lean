/-
# What a document defines

The schema of a document, read off its tree: each declaration gives one definition.  Descriptions
are trimmed, and absent if nothing is left of them; markers stand for what the table says; and of
two definitions with one name the later counts.

* `Document.schema` : the schema of a document.
-/
import SdlSchema.Extraction.Extractor
import SdlSchema.Proofs.Document.Grammar

namespace SdlSchema

namespace Document

/-- What a description says. -/
def descriptionText (description : Option Description) : Option String :=
  presentText (description.map Description.text)

/-- The directives that markers stand for. -/
def directivesOf (table : MarkerTable) (markers : List Marker) : Directives :=
  present (some (NameIndex.collect (markers.filterMap fun marker => table.get? marker.text)))

/-! ## Fields and members -/

/-- The characters of a type reference. -/
def TypeReference.chars : TypeReference → List Char
  | .named name isNonNull => name.chars ++ if isNonNull then ['!'] else []
  | .list item isNonNull => '[' :: (item.chars ++ ']' :: if isNonNull then ['!'] else [])

/-- The input value that a parameter defines. -/
def Parameter.inputValue (table : MarkerTable) (parameter : Parameter) : InputValue where
  name := parameter.name.text
  type := String.ofList parameter.type.chars
  description := descriptionText parameter.description
  directives := directivesOf table parameter.markers

/-- The field that a field of an object or interface defines. -/
def Field.definition (table : MarkerTable) (field : Field) : SdlSchema.Field where
  toInputValue := field.inputValue table
  arguments := field.parameters.map fun parameters =>
    NameIndex.collect (parameters.items.map (Parameter.inputValue table))

/-- The fields of an object or interface. -/
def fieldsOf (table : MarkerTable) (fields : Nonempty Field) : NameIndex SdlSchema.Field :=
  NameIndex.collect (fields.items.map (Field.definition table))

/-- The fields of an input, whose parameters do not count. -/
def inputFieldsOf (table : MarkerTable) (fields : Nonempty Field) : NameIndex InputValue :=
  NameIndex.collect (fields.items.map fun field => field.inputValue table)

/-- The member of a union or value of an enum. -/
def Member.definition (table : MarkerTable) (member : Member) : SdlSchema.Member where
  name := member.name.text
  directives := directivesOf table member.markers

/-- The members of a union or the values of an enum. -/
def membersOf (table : MarkerTable) (members : Nonempty Member) : NameIndex SdlSchema.Member :=
  NameIndex.collect (members.items.map (Member.definition table))

/-- The interfaces that an object implements. -/
def interfacesOf (interfaces : Nonempty Name) : NameIndex Reference :=
  NameIndex.collect (interfaces.items.map fun name => ⟨name.text⟩)

/-! ## Declarations -/

/-- The type that a heading with a body defines. -/
def TypeHeading.definition {Body : Type} (extractor : Extractor) (heading : TypeHeading)
    (body : Body) : TypeDefinition Body where
  name := if heading.isExtended then heading.name.text ++ extractor.options.extensionSuffix
    else heading.name.text
  isExtended := heading.isExtended
  description := descriptionText heading.description
  directives := directivesOf extractor.table heading.markers
  body := body

namespace Declaration

variable (extractor : Extractor)

/-- The object that a declaration defines. -/
def object? : Declaration → Option ObjectDefinition
  | .fielded .object heading interfaces fields =>
    some (heading.definition extractor
      { fields := some (fieldsOf extractor.table fields)
        interfaces := interfaces.map interfacesOf })
  | _ => none

/-- The interface that a declaration defines. -/
def interface? : Declaration → Option InterfaceDefinition
  | .fielded .interface heading _ fields =>
    some (heading.definition extractor (some (fieldsOf extractor.table fields)))
  | _ => none

/-- The input that a declaration defines. -/
def input? : Declaration → Option InputDefinition
  | .fielded .input heading _ fields =>
    some (heading.definition extractor (some (inputFieldsOf extractor.table fields)))
  | _ => none

/-- The union that a declaration defines. -/
def union? : Declaration → Option UnionDefinition
  | .union heading members =>
    some (heading.definition extractor (membersOf extractor.table members))
  | _ => none

/-- The enum that a declaration defines. -/
def enum? : Declaration → Option EnumDefinition
  | .enum heading values => some (heading.definition extractor (membersOf extractor.table values))
  | _ => none

/-- The scalar that a declaration defines. -/
def scalar? : Declaration → Option ScalarDefinition
  | .scalar heading => some (heading.definition extractor ())
  | _ => none

/-- The directive definition that a declaration gives, if its marker is in the table.  The
arguments are those of the directive that the marker stands for. -/
def directive? : Declaration → Option DirectiveDefinition
  | .directive description marker isRepeatable locations =>
    (extractor.table.get? marker.text).map fun applied =>
      { name := applied.name
        isRepeatable := isRepeatable
        description := descriptionText description
        elements := NameIndex.collect (locations.items.map .ofLocation)
        arguments := present (applied.arguments.map fun arguments =>
          arguments.mapWithName DirectiveArgument.mk) }
  | _ => none

end Declaration

end Document

open Document in
/-- The schema of a document. -/
def Document.schema (extractor : Extractor) (document : Document) : Schema where
  objects := NameIndex.collect (document.filterMap (Declaration.object? extractor))
  interfaces := NameIndex.collect (document.filterMap (Declaration.interface? extractor))
  inputs := NameIndex.collect (document.filterMap (Declaration.input? extractor))
  unions := NameIndex.collect (document.filterMap (Declaration.union? extractor))
  enums := NameIndex.collect (document.filterMap (Declaration.enum? extractor))
  scalars := NameIndex.collect (document.filterMap (Declaration.scalar? extractor))
  directives := NameIndex.collect (document.filterMap (Declaration.directive? extractor))

end SdlSchema
