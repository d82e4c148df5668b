/-
# Fields, arguments and members from their lines

What a body declares becomes an index of records: a later declaration replaces an earlier one of
its name.
-/
import SdlSchema.Body.Element
import SdlSchema.Body.Field
import SdlSchema.Schema.Definition
import SdlSchema.MarkerTable

namespace SdlSchema

namespace MarkerTable

/-- The input value that a line declares. -/
def inputValue (table : MarkerTable) (description : Option String) (line : ArgumentLine) :
    InputValue where
  name := line.name
  type := line.type.text
  description := presentText description
  directives := table.directives line.markers

/-- The arguments between parentheses. -/
def arguments (table : MarkerTable) (body : Run) : NameIndex InputValue :=
  NameIndex.collect
    ((argumentLines body).map fun line => table.inputValue line.description line.item)

/-- The fields of an input.  Arguments are no part of an input field, and are left out. -/
def inputFields (table : MarkerTable) (body : Run) : NameIndex InputValue :=
  NameIndex.collect
    ((fieldLines body).map fun line => table.inputValue line.description line.item.toArgumentLine)

/-- The field that a line declares. -/
def field (table : MarkerTable) (line : Described FieldLine) : Field where
  toInputValue := table.inputValue line.description line.item.toArgumentLine
  arguments := present (line.item.arguments.map table.arguments)

/-- The fields of an object or interface. -/
def fields (table : MarkerTable) (body : Run) : NameIndex Field :=
  NameIndex.collect ((fieldLines body).map table.field)

/-- The member or value that an element of a list declares. -/
def member (table : MarkerTable) (element : Element) : Member where
  name := element.name
  directives := table.directives element.markers

/-- The members or values of a list. -/
def members (table : MarkerTable) (list : List Element) : NameIndex Member :=
  NameIndex.collect (list.map table.member)

end MarkerTable

end SdlSchema
