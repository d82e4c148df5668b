/-
# Writing documents down

The text of a document, token by token.  Each declaration begins on a line of its own, below its
description.  Fields and enum values have a line each, descriptions of fields the line above;
parameters stand on the line of their field.

* `Declaration.run`, `Document.run` : the tokens of a declaration and of a document;
* `Document.text` : the text of a document.
-/
import SdlSchema.Proofs.Lexing.Spelling
import SdlSchema.Proofs.Document.Grammar

namespace SdlSchema

namespace Document

open Token (ofMark ofKeyword space indent lineBreak)

def Name.token (name : Name) : Token := .ofName name.chars

def Marker.token (marker : Marker) : Token := ⟨.marker, marker.chars⟩

def Description.token (description : Description) : Token :=
  ⟨.blockString, ['"', '"', '"'] ++ description.chars ++ ['"', '"', '"']⟩

def IntegerLiteral.token (literal : IntegerLiteral) : Token := ⟨.integer, literal.chars⟩

def StringLiteral.token (literal : StringLiteral) : Token :=
  ⟨.string, '"' :: literal.chars ++ ['"']⟩

/-! ## Parts of declarations -/

/-- The items one after the other, with the gap between them. -/
def Nonempty.run {α : Type} (gap : Run) (print : α → Run) (list : Nonempty α) : Run :=
  print list.first ++ list.others.flatMap fun item => gap ++ print item

/-- Markers, each with a blank in front. -/
def markersRun (markers : List Marker) : Run := markers.flatMap fun marker => [space, marker.token]

/-- A description and the gap behind it, if there is one. -/
def descriptionRun (gap : Run) : Option Description → Run
  | some description => description.token :: gap
  | none => []

mutual

/-- The tokens of a default value. -/
def Value.run : Value → Run
  | .integer literal => [literal.token]
  | .name name => [name.token]
  | .string literal => [literal.token]
  | .list items => ofMark .leftBracket :: (items.run [] ++ [ofMark .rightBracket])
  | .object entries => ofMark .leftBrace :: (entries.run [] ++ [ofMark .rightBrace])

/-- The items of a list value, with a gap in front of the first. -/
def Values.run (gap : Run) : Values → Run
  | .nil => []
  | .cons value others => gap ++ (value.run ++ others.run [ofMark .comma, space])

/-- The entries of an object value, with a gap in front of the first. -/
def Entries.run (gap : Run) : Entries → Run
  | .nil => []
  | .cons key value others =>
    gap ++ key.token :: ofMark .colon :: space ::
      (value.run ++ others.run [ofMark .comma, space])

end

/-- A default value behind its equals sign, if there is one. -/
def defaultRun : Option Value → Run
  | some value => space :: ofMark .equals :: space :: value.run
  | none => []

/-- The mark of a non-null type. -/
def nonNullRun (isNonNull : Bool) : Run := if isNonNull then [ofMark .bang] else []

/-- The tokens of a type reference. -/
def TypeReference.run : TypeReference → Run
  | .named name isNonNull => name.token :: nonNullRun isNonNull
  | .list item isNonNull =>
    ofMark .leftBracket :: (item.run ++ ofMark .rightBracket :: nonNullRun isNonNull)

/-- What a parameter says behind its name. -/
def Parameter.typeRun (parameter : Parameter) : Run :=
  ofMark .colon :: space ::
    (parameter.type.run ++ defaultRun parameter.default ++ markersRun parameter.markers)

/-- The tokens of a parameter. -/
def Parameter.run (parameter : Parameter) : Run :=
  descriptionRun [space] parameter.description ++ parameter.name.token :: parameter.typeRun

/-- The parameters between parentheses. -/
def parametersRun (parameters : Nonempty Parameter) : Run :=
  parameters.run [ofMark .comma, space] Parameter.run

/-- The parameters of a field with their parentheses, if it has any. -/
def parenthesizedRun : Option (Nonempty Parameter) → Run
  | some parameters =>
    ofMark .leftParen :: (parametersRun parameters ++ [ofMark .rightParen])
  | none => []

/-- The tokens of a field. -/
def Field.run (field : Field) : Run :=
  descriptionRun [lineBreak, indent] field.description
    ++ field.name.token :: (parenthesizedRun field.parameters ++ field.typeRun)

/-- The tokens of a member or value. -/
def Member.run (member : Member) : Run := member.name.token :: markersRun member.markers

/-- The lines between the braces of a block. -/
def linesRun {α : Type} (print : α → Run) (lines : Nonempty α) : Run :=
  lineBreak :: lines.items.flatMap fun line => indent :: (print line ++ [lineBreak])

/-- The interfaces behind their keyword, if there are any. -/
def interfacesRun : Option (Nonempty Name) → Run
  | some interfaces =>
    space :: ofKeyword .implements :: space ::
      interfaces.run [space, ofMark .ampersand, space] fun name => [name.token]
  | none => []

/-! ## Declarations -/

/-- The keyword of a kind of fielded type. -/
def fieldedKeyword : FieldedKind → Keyword
  | .object => .type
  | .interface => .interface
  | .input => .input

/-- The beginning of a declared type: what it extends, its keyword and its name. -/
def TypeHeading.run (keyword : Keyword) (heading : TypeHeading) : Run :=
  (if heading.isExtended then [ofKeyword .extend, space] else [])
    ++ [ofKeyword keyword, space, heading.name.token]

namespace Declaration

/-- The description of a declaration. -/
def description : Declaration → Option Description
  | .scalar heading => heading.description
  | .union heading _ => heading.description
  | .enum heading _ => heading.description
  | .fielded _ heading _ _ => heading.description
  | .directive description _ _ _ => description

/-- The tokens of a declaration behind its description. -/
def constructRun : Declaration → Run
  | .scalar heading => heading.run .scalar ++ markersRun heading.markers
  | .union heading members =>
    heading.run .union ++ (markersRun heading.markers ++ space :: ofMark .equals :: space ::
      members.run [space, ofMark .pipe, space] Member.run)
  | .enum heading values =>
    heading.run .enum ++ (markersRun heading.markers ++ space :: ofMark .leftBrace ::
      (linesRun Member.run values ++ [ofMark .rightBrace]))
  | .fielded kind heading interfaces fields =>
    heading.run (fieldedKeyword kind) ++ (interfacesRun interfaces ++
      (markersRun heading.markers ++ space :: ofMark .leftBrace ::
        (linesRun Field.run fields ++ [ofMark .rightBrace])))
  | .directive _ marker isRepeatable locations =>
    ofKeyword .directive :: space :: marker.token :: space ::
      ((if isRepeatable then [ofKeyword .repeatable, space] else []) ++
        ofKeyword .on :: space ::
          locations.run [space, ofMark .pipe, space] fun location =>
            [.ofName location.name.toList])

/-- The tokens of a declaration. -/
def run (declaration : Declaration) : Run :=
  descriptionRun [lineBreak] declaration.description ++ (declaration.constructRun ++ [lineBreak])

end Declaration

end Document

/-- The tokens of a document. -/
def Document.run (document : Document) : Run := document.flatMap Document.Declaration.run

/-- The text of a document. -/
def Document.text (document : Document) : String := document.run.text

/-- An extended enum with one value. -/
example : Document.text [.enum ⟨none, true, ⟨'E', [], by decide, by simp⟩, []⟩
    ⟨⟨⟨'A', [], by decide, by simp⟩, []⟩, []⟩] = "extend enum E \x7b\n  A\n\x7d\n" := by decide

end SdlSchema
