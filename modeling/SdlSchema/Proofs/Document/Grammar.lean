/-
# Documents as trees

What a document says, before it is written down: names, descriptions, types, default values, and
the seven kinds of declaration made of them.  The trees carry the proofs of their own
well-formedness, so every tree can be written down.
-/
import SdlSchema.Token.Tokenize
import SdlSchema.Schema.Location
import SdlSchema.Declaration.Braced

namespace SdlSchema.Document

/-- A list with one item at least. -/
structure Nonempty (α : Type) where
  first : α
  others : List α

/-- The items of a list with one item at least. -/
def Nonempty.items {α : Type} (list : Nonempty α) : List α := list.first :: list.others

/-! ## Words -/

/-- A letter or an underscore, then letters, digits and underscores.  The words that introduce
declarations are names like any other. -/
structure Name where
  first : Char
  others : List Char
  begins : Lexicon.beginsName first = true
  continues : ∀ c ∈ others, Lexicon.continuesName c = true

/-- The characters of a name. -/
def Name.chars (name : Name) : List Char := name.first :: name.others

/-- A name as a string. -/
def Name.text (name : Name) : String := String.ofList name.chars

/-- A percent sign, then letters, digits and underscores, one at least. -/
structure Marker where
  first : Char
  others : List Char
  continues : ∀ c ∈ first :: others, Lexicon.continuesName c = true

/-- The characters of a marker. -/
def Marker.chars (marker : Marker) : List Char := '%' :: marker.first :: marker.others

/-- A marker as a string. -/
def Marker.text (marker : Marker) : String := String.ofList marker.chars

/-- A text for block quotation: no three quotation marks in a row, and none at the end. -/
structure Description where
  chars : List Char
  noDelimiter : ¬ ['"', '"', '"'] <:+: chars
  noQuoteAtEnd : chars.getLast? ≠ some '"'

/-- A description as a string. -/
def Description.text (description : Description) : String := String.ofList description.chars

/-! ## Default values -/

/-- Decimal digits, one at least, with an optional minus sign. -/
structure IntegerLiteral where
  isNegative : Bool
  first : Char
  others : List Char
  digits : ∀ c ∈ first :: others, c.isDigit = true

/-- The characters of an integer. -/
def IntegerLiteral.chars (literal : IntegerLiteral) : List Char :=
  if literal.isNegative then '-' :: literal.first :: literal.others
  else literal.first :: literal.others

/-- A text for single quotation marks, without quotation marks, backslashes and line breaks. -/
structure StringLiteral where
  chars : List Char
  plain : ∀ c ∈ chars, c ≠ '"' ∧ c ≠ '\\' ∧ c ≠ '\n'

mutual

/-- A default value. -/
inductive Value where
  | integer (literal : IntegerLiteral)
  | name (name : Name)
  | string (literal : StringLiteral)
  | list (items : Values)
  | object (entries : Entries)

/-- The items of a list value. -/
inductive Values where
  | nil
  | cons (value : Value) (others : Values)

/-- The entries of an object value. -/
inductive Entries where
  | nil
  | cons (key : Name) (value : Value) (others : Entries)

end

/-! ## Fields -/

/-- A reference to a type, each level of it non-null or not. -/
inductive TypeReference where
  | named (name : Name) (isNonNull : Bool)
  | list (item : TypeReference) (isNonNull : Bool)

/-- A parameter: a name with a type, perhaps a description and a default value, and markers. -/
structure Parameter where
  description : Option Description
  name : Name
  type : TypeReference
  default : Option Value
  markers : List Marker

/-- A field: what a parameter has, and perhaps parameters of its own. -/
structure Field extends Parameter where
  parameters : Option (Nonempty Parameter)

/-- A member of a union or a value of an enum, with its markers. -/
structure Member where
  name : Name
  markers : List Marker

/-! ## Declarations -/

/-- What every declared type says of itself. -/
structure TypeHeading where
  description : Option Description
  isExtended : Bool
  name : Name
  markers : List Marker

/-- A declaration.  Nothing comes of the interfaces of an input or an interface, which may be
written all the same. -/
inductive Declaration where
  | scalar (heading : TypeHeading)
  | union (heading : TypeHeading) (members : Nonempty Member)
  | enum (heading : TypeHeading) (values : Nonempty Member)
  | fielded (kind : FieldedKind) (heading : TypeHeading) (interfaces : Option (Nonempty Name))
      (fields : Nonempty Field)
  | directive (description : Option Description) (marker : Marker) (isRepeatable : Bool)
      (locations : Nonempty DirectiveLocation)

end SdlSchema.Document

namespace SdlSchema

/-- A document: declarations in the order of the text. -/
abbrev Document := List Document.Declaration

end SdlSchema
