/-
# Marker tables

A document was written with its directives replaced by markers; the table tells which directive
each marker stands for.  Markers that are not in the table stand for nothing.
-/
import SdlSchema.Token.Basic
import SdlSchema.Schema.Directive

namespace SdlSchema

/-- Markers with the directives they stand for. -/
abbrev MarkerTable := NameIndex Directive

namespace MarkerTable

/-- The directives that the markers of a run stand for, in the order of the markers. -/
def decode (table : MarkerTable) (run : Run) : List Directive :=
  (run.filter Token.isMarker).filterMap fun token => table.get? token.word

/-- The directives of a run under their names; of two with one name the later counts. -/
def resolve (table : MarkerTable) (run : Run) : NameIndex Directive :=
  NameIndex.collect (table.decode run)

/-- The directives of a run of markers, absent if there are none. -/
def directives (table : MarkerTable) (markers : Run) : Directives :=
  present (some (table.resolve markers))

end MarkerTable

end SdlSchema
