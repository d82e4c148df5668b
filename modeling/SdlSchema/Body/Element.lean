/-
# Elements of lists

Enum values, union members, directive locations and implemented interfaces are lists of names,
each of which may carry markers on its own line.
-/
import SdlSchema.Reading.Items
import SdlSchema.Reading.Markers

namespace SdlSchema

/-- A name in a list, with the markers that follow it on its line. -/
structure Element where
  name : String
  markers : Run
  deriving DecidableEq

namespace Element

/-- Reads a name and the markers after it on the same line. -/
def reader : Reader Element where
  read run := do
    let (name, rest) ← run.expectName
    let (markers, rest) := rest.acceptMarkers Token.isInlineTrivia
    pure (⟨name, markers⟩, rest)
  left := by
    intro run rest element h
    obtain ⟨⟨name, left⟩, hname, heq⟩ := bind_eq_ok.mp h
    cases heq
    exact (Run.expectName_left hname).of_suffix (Run.acceptMarkers_suffix _ left)

/-- Reads a name alone. -/
def bareReader : Reader Element where
  read run := do
    let (name, rest) ← run.expectName
    pure (⟨name, []⟩, rest)
  left := by
    intro run rest element h
    obtain ⟨⟨name, left⟩, hname, heq⟩ := bind_eq_ok.mp h
    cases heq
    exact Run.expectName_left hname

end Element

/-- The elements of a list, whatever separates them: what is no element is passed over. -/
def elements (run : Run) : List Element :=
  Element.reader.items Token.isSeparator (fun _ => true) run

end SdlSchema
