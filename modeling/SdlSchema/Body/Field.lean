/-
# Fields and arguments

A field declares a name, perhaps arguments in parentheses, a type, perhaps a default value, and
markers; an argument declares the same without arguments of its own.  Both may have a
description in front, and both end with their line or at a comma.  A default value is skipped.
-/
import SdlSchema.Reading.Items
import SdlSchema.Reading.Markers
import SdlSchema.Reading.Balanced
import SdlSchema.Reading.TypeReference

namespace SdlSchema

/-! ## What a line declares -/

/-- A declared type and the markers after it. -/
structure TypedLine where
  type : Run
  markers : Run

/-- A declared argument. -/
structure ArgumentLine extends TypedLine where
  name : String

/-- A declared field, with what stands between its parentheses if it has any. -/
structure FieldLine extends ArgumentLine where
  arguments : Option Run

/-! ## Readers -/

namespace TypedLine

/-- Reads a colon, a type, an optional default value and markers, up to the end of the item. -/
def read (run : Run) : Except Miss (TypedLine × Run) := do
  let rest ← run.expect (.punctuation .colon)
  let (type, rest) ← rest.skipInline.expectType
  let (markers, rest) := rest.skipInline.skipDefault.acceptMarkers Token.isInlineTrivia
  if rest.skipInline.atItemEnd then pure (⟨type, markers⟩, rest.skipInline) else throw .noMatch

theorem read_left {run rest : Run} {line : TypedLine} (h : read run = .ok (line, rest)) :
    Left rest run := by
  obtain ⟨afterColon, hcolon, h⟩ := bind_eq_ok.mp h
  obtain ⟨⟨type, afterType⟩, htype, h⟩ := bind_eq_ok.mp h
  dsimp only at h
  split at h
  · cases h
    exact (Run.expect_left hcolon).of_suffix <| (Run.skipInline_suffix _).trans <|
      (Run.acceptMarkers_suffix _ _).trans <| (Run.skipDefault_suffix _).trans <|
      (Run.skipInline_suffix afterType).trans <| (Run.expectType_left htype).suffix.trans <|
      Run.skipInline_suffix afterColon
  · cases h

end TypedLine

/-- Reads an argument. -/
def ArgumentLine.reader : Reader ArgumentLine where
  read run := do
    let (name, rest) ← run.expectName
    let (line, rest) ← TypedLine.read rest.skipInline
    pure (⟨line, name⟩, rest)
  left := by
    intro run rest argument h
    obtain ⟨⟨name, afterName⟩, hname, h⟩ := bind_eq_ok.mp h
    obtain ⟨⟨line, afterLine⟩, hline, h⟩ := bind_eq_ok.mp h
    cases h
    exact (Run.expectName_left hname).of_suffix
      ((TypedLine.read_left hline).suffix.trans (Run.skipInline_suffix afterName))

namespace FieldLine

/-- Reads the arguments of a field, if there is an opening parenthesis, and the trivia after them.
-/
def readArguments (run : Run) : Except Miss (Option Run × Run) :=
  match run.take? (.punctuation .leftParen) with
  | some inner => do
    let (body, rest) ← inner.closeBracket .paren
    pure (some body, rest.skipInline)
  | none => pure (none, run)

theorem readArguments_suffix {run rest : Run} {arguments : Option Run}
    (h : readArguments run = .ok (arguments, rest)) : rest <:+ run := by
  unfold readArguments at h
  split at h
  · next inner hopen =>
    obtain ⟨⟨body, afterClose⟩, hclose, h⟩ := bind_eq_ok.mp h
    cases h
    exact (Run.skipInline_suffix afterClose).trans
      ((Run.closeBracket_left hclose).suffix.trans (Run.take?_left hopen).suffix)
  · cases h; exact List.suffix_refl _

/-- Reads a field. -/
def reader : Reader FieldLine where
  read run := do
    let (name, rest) ← run.expectName
    let (arguments, rest) ← readArguments rest.skipInline
    let (line, rest) ← TypedLine.read rest
    pure (⟨⟨line, name⟩, arguments⟩, rest)
  left := by
    intro run rest field h
    obtain ⟨⟨name, afterName⟩, hname, h⟩ := bind_eq_ok.mp h
    obtain ⟨⟨arguments, afterArguments⟩, harguments, h⟩ := bind_eq_ok.mp h
    obtain ⟨⟨line, afterLine⟩, hline, h⟩ := bind_eq_ok.mp h
    cases h
    exact (Run.expectName_left hname).of_suffix
      ((TypedLine.read_left hline).suffix.trans
        ((readArguments_suffix harguments).trans (Run.skipInline_suffix afterName)))

end FieldLine

/-! ## Bodies -/

/-- The fields of a body.  A line that does not read as a field is passed over. -/
def fieldLines (body : Run) : List (Described FieldLine) :=
  FieldLine.reader.described.items Token.isSeparator Token.isNewline body

/-- The arguments between parentheses.  What does not read as an argument is passed over, up to
the next comma or line break. -/
def argumentLines (body : Run) : List (Described ArgumentLine) :=
  ArgumentLine.reader.described.items Token.isSeparator
    (fun token => token.isNewline || token.isMark .comma) body

end SdlSchema
