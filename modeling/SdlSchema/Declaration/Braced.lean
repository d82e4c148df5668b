/-
# Declarations with a block

Objects, interfaces and inputs own a block of fields; enums own a block of values.  The block is
captured as it stands between its braces, and read further by the readers of bodies.
-/
import SdlSchema.Text.Blank
import SdlSchema.Reading.Markers
import SdlSchema.Reading.Balanced
import SdlSchema.Declaration.NameList
import SdlSchema.Declaration.Scan

namespace SdlSchema

/-- What every named declaration says of itself: whether it extends another, its name, its
markers. -/
structure Heading where
  isExtended : Bool
  name : String
  markers : Run

/-! ## Fielded types -/

/-- The three kinds of type that own fields. -/
inductive FieldedKind where
  | object | interface | input
  deriving DecidableEq

/-- The kind that a keyword introduces. -/
def FieldedKind.ofKind? : Kind → Option FieldedKind
  | .keyword .type => some .object
  | .keyword .interface => some .interface
  | .keyword .input => some .input
  | _ => none

/-- An object, interface or input declaration. -/
structure FieldedDeclaration extends Heading where
  kind : FieldedKind
  interfaces : Option NameList
  body : Run

namespace FieldedDeclaration

/-- Reads the keyword of a fielded type. -/
def readKind : Run → Except Miss (FieldedKind × Run)
  | [] => .error .noMatch
  | token :: rest =>
    match FieldedKind.ofKind? token.kind with
    | some kind => .ok (kind, rest)
    | none => .error .noMatch

theorem readKind_left {run rest : Run} {kind : FieldedKind} (h : readKind run = .ok (kind, rest)) :
    Left rest run := by
  cases run with
  | nil => cases h
  | cons token tail =>
    rw [readKind] at h
    split at h
    · cases h; exact ⟨token, _, rfl, List.suffix_refl _⟩
    · cases h

/-- Reads the interfaces after `implements`, if it is there. -/
def readInterfaces (run : Run) : Except Miss (Option NameList × Run) :=
  match run.take? (.keyword .implements) with
  | some rest => do
    let (list, rest) ← NameList.interfaces.read rest.skipTrivia
    pure (some list, rest)
  | none => pure (none, run)

theorem readInterfaces_suffix {run rest : Run} {interfaces : Option NameList}
    (h : readInterfaces run = .ok (interfaces, rest)) : rest <:+ run := by
  unfold readInterfaces at h
  split at h
  · next inner hkeyword =>
    obtain ⟨⟨list, afterList⟩, hlist, h⟩ := bind_eq_ok.mp h
    cases h
    exact (NameList.interfaces.left hlist).suffix.trans
      ((Run.skipTrivia_suffix inner).trans (Run.take?_left hkeyword).suffix)
  · cases h; exact List.suffix_refl _

/-- Reads an object, interface or input declaration.  One with a blank body declares nothing. -/
def reader : Reader FieldedDeclaration where
  read run := do
    let (isExtended, rest) := run.acceptExtend
    let (kind, rest) ← readKind rest
    let (name, rest) ← rest.skipTrivia.expectName
    let (interfaces, rest) ← readInterfaces rest.skipTrivia
    let (markers, rest) := rest.acceptMarkers Token.isTrivia
    let rest ← rest.skipTrivia.expect (.punctuation .leftBrace)
    let (body, rest) ← rest.closeBracket .brace
    if Text.allBlank body.chars then throw .noMatch
    else pure (⟨⟨isExtended, name, markers⟩, kind, interfaces, body⟩, rest)
  left := by
    intro run rest declaration h
    obtain ⟨⟨kind, afterKind⟩, hkind, h⟩ := bind_eq_ok.mp h
    obtain ⟨⟨name, afterName⟩, hname, h⟩ := bind_eq_ok.mp h
    obtain ⟨⟨interfaces, afterInterfaces⟩, hinterfaces, h⟩ := bind_eq_ok.mp h
    obtain ⟨afterOpen, hopen, h⟩ := bind_eq_ok.mp h
    obtain ⟨⟨body, afterClose⟩, hclose, h⟩ := bind_eq_ok.mp h
    dsimp only at h
    split at h
    · cases h
    · cases h
      exact ((readKind_left hkind).of_suffix <|
        (Run.closeBracket_left hclose).suffix.trans <| (Run.expect_left hopen).suffix.trans <|
        (Run.skipTrivia_suffix _).trans <| (Run.acceptMarkers_suffix _ afterInterfaces).trans <|
        (readInterfaces_suffix hinterfaces).trans <| (Run.skipTrivia_suffix afterName).trans <|
        (Run.expectName_left hname).suffix.trans <| Run.skipTrivia_suffix afterKind).of_left_suffix
        (Run.acceptExtend_suffix run)

end FieldedDeclaration

/-! ## Enums -/

/-- An enum declaration. -/
structure EnumDeclaration extends Heading where
  body : Run

/-- Reads an enum declaration. -/
def EnumDeclaration.reader : Reader EnumDeclaration where
  read run := do
    let (isExtended, rest) := run.acceptExtend
    let rest ← rest.expect (.keyword .enum)
    let (name, rest) ← rest.skipTrivia.expectName
    let (markers, rest) := rest.acceptMarkers Token.isTrivia
    let rest ← rest.skipTrivia.expect (.punctuation .leftBrace)
    let (body, rest) ← rest.closeBracket .brace
    pure (⟨⟨isExtended, name, markers⟩, body⟩, rest)
  left := by
    intro run rest declaration h
    obtain ⟨afterKeyword, hkeyword, h⟩ := bind_eq_ok.mp h
    obtain ⟨⟨name, afterName⟩, hname, h⟩ := bind_eq_ok.mp h
    obtain ⟨afterOpen, hopen, h⟩ := bind_eq_ok.mp h
    obtain ⟨⟨body, afterClose⟩, hclose, h⟩ := bind_eq_ok.mp h
    cases h
    exact ((Run.expect_left hkeyword).of_suffix <|
      (Run.closeBracket_left hclose).suffix.trans <| (Run.expect_left hopen).suffix.trans <|
      (Run.skipTrivia_suffix _).trans <| (Run.acceptMarkers_suffix _ afterName).trans <|
      (Run.expectName_left hname).suffix.trans <| Run.skipTrivia_suffix afterKeyword).of_left_suffix
      (Run.acceptExtend_suffix run)

/-! ## In a document -/

/-- The object, interface and input declarations of a document. -/
def fieldedDeclarations (document : Run) : List (Described FieldedDeclaration) :=
  FieldedDeclaration.reader.scan document

/-- The enum declarations of a document. -/
def enumDeclarations (document : Run) : List (Described EnumDeclaration) :=
  EnumDeclaration.reader.scan document

end SdlSchema
