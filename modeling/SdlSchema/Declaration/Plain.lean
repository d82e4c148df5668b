/-
# Declarations without a block

Unions, scalars and directive definitions.  A scalar has to end with its line; the others end
with their list.
-/
import SdlSchema.Reading.Markers
import SdlSchema.Declaration.Braced

namespace SdlSchema

/-! ## Unions -/

/-- A union declaration. -/
structure UnionDeclaration extends Heading where
  members : NameList

/-- Reads a union declaration. -/
def UnionDeclaration.reader : Reader UnionDeclaration where
  read run := do
    let (isExtended, rest) := run.acceptExtend
    let rest ← rest.expect (.keyword .union)
    let (name, rest) ← rest.skipTrivia.expectName
    let (markers, rest) := rest.acceptMarkers Token.isTrivia
    let rest ← rest.skipTrivia.expect (.punctuation .equals)
    let (members, rest) ← NameList.members.read rest.skipTrivia
    pure (⟨⟨isExtended, name, markers⟩, members⟩, rest)
  left := by
    intro run rest declaration h
    obtain ⟨afterKeyword, hkeyword, h⟩ := bind_eq_ok.mp h
    obtain ⟨⟨name, afterName⟩, hname, h⟩ := bind_eq_ok.mp h
    obtain ⟨afterEquals, hequals, h⟩ := bind_eq_ok.mp h
    obtain ⟨⟨members, afterMembers⟩, hmembers, h⟩ := bind_eq_ok.mp h
    cases h
    exact ((Run.expect_left hkeyword).of_suffix <|
      (NameList.members.left hmembers).suffix.trans <| (Run.skipTrivia_suffix afterEquals).trans <|
      (Run.expect_left hequals).suffix.trans <| (Run.skipTrivia_suffix _).trans <|
      (Run.acceptMarkers_suffix _ afterName).trans <| (Run.expectName_left hname).suffix.trans <|
      Run.skipTrivia_suffix afterKeyword).of_left_suffix (Run.acceptExtend_suffix run)

/-! ## Scalars -/

/-- A scalar declaration. -/
structure ScalarDeclaration extends Heading

/-- Reads a scalar declaration, which has to end with its line. -/
def ScalarDeclaration.reader : Reader ScalarDeclaration where
  read run := do
    let (isExtended, rest) := run.acceptExtend
    let rest ← rest.expect (.keyword .scalar)
    let (name, rest) ← rest.skipTrivia.expectName
    let (markers, rest) := rest.acceptMarkers Token.isInlineTrivia
    if rest.skipInline.atLineEnd then pure (⟨⟨isExtended, name, markers⟩⟩, rest.skipInline)
    else throw .noMatch
  left := by
    intro run rest declaration h
    obtain ⟨afterKeyword, hkeyword, h⟩ := bind_eq_ok.mp h
    obtain ⟨⟨name, afterName⟩, hname, h⟩ := bind_eq_ok.mp h
    dsimp only at h
    split at h
    · cases h
      exact ((Run.expect_left hkeyword).of_suffix <| (Run.skipInline_suffix _).trans <|
        (Run.acceptMarkers_suffix _ afterName).trans <| (Run.expectName_left hname).suffix.trans <|
        Run.skipTrivia_suffix afterKeyword).of_left_suffix (Run.acceptExtend_suffix run)
    · cases h

/-! ## Directive definitions -/

/-- A directive definition.  A marker stands for the name and arguments of the directive. -/
structure DirectiveDeclaration where
  marker : String
  isRepeatable : Bool
  locations : NameList

namespace DirectiveDeclaration

/-- Reads a marker. -/
def readMarker : Run → Except Miss (String × Run)
  | [] => .error .noMatch
  | token :: rest => if token.isMarker then .ok (token.word, rest) else .error .noMatch

/-- The marker that is read is the word of the token in front. -/
theorem readMarker_eq_ok {run rest : Run} {marker : String}
    (h : readMarker run = .ok (marker, rest)) :
    ∃ token, run = token :: rest ∧ token.isMarker = true ∧ marker = token.word := by
  cases run with
  | nil => cases h
  | cons token tail =>
    rw [readMarker] at h
    split at h
    · next hmarker =>
      cases h
      exact ⟨token, rfl, hmarker, rfl⟩
    · cases h

theorem readMarker_left {run rest : Run} {marker : String}
    (h : readMarker run = .ok (marker, rest)) : Left rest run := by
  obtain ⟨token, rfl, -, -⟩ := readMarker_eq_ok h
  exact ⟨token, rest, rfl, List.suffix_refl _⟩

/-- Reads a directive definition. -/
def reader : Reader DirectiveDeclaration where
  read run := do
    let rest ← run.expect (.keyword .directive)
    let (marker, rest) ← readMarker rest.skipInline
    let (isRepeatable, rest) := rest.skipTrivia.accept (.keyword .repeatable)
    let rest ← rest.skipTrivia.expect (.keyword .on)
    let (locations, rest) ← NameList.locations.read rest.skipTrivia
    pure (⟨marker, isRepeatable, locations⟩, rest)
  left := by
    intro run rest declaration h
    obtain ⟨afterKeyword, hkeyword, h⟩ := bind_eq_ok.mp h
    obtain ⟨⟨marker, afterMarker⟩, hmarker, h⟩ := bind_eq_ok.mp h
    obtain ⟨afterOn, hon, h⟩ := bind_eq_ok.mp h
    obtain ⟨⟨locations, afterLocations⟩, hlocations, h⟩ := bind_eq_ok.mp h
    cases h
    exact (Run.expect_left hkeyword).of_suffix <|
      (NameList.locations.left hlocations).suffix.trans <| (Run.skipTrivia_suffix afterOn).trans <|
      (Run.expect_left hon).suffix.trans <| (Run.skipTrivia_suffix _).trans <|
      (Run.accept_suffix _ _).trans <| (Run.skipTrivia_suffix afterMarker).trans <|
      (readMarker_left hmarker).suffix.trans <| Run.skipInline_suffix afterKeyword

end DirectiveDeclaration

/-! ## In a document -/

/-- The union declarations of a document. -/
def unionDeclarations (document : Run) : List (Described UnionDeclaration) :=
  UnionDeclaration.reader.scan document

/-- The scalar declarations of a document. -/
def scalarDeclarations (document : Run) : List (Described ScalarDeclaration) :=
  ScalarDeclaration.reader.scan document

/-- The directive definitions of a document. -/
def directiveDeclarations (document : Run) : List (Described DirectiveDeclaration) :=
  DirectiveDeclaration.reader.scan document

end SdlSchema
