/-
# Kinds of tokens

The alphabet in which schema texts are read: trivia, literals, markers, punctuation and
keywords.  Keywords are contextual, so a keyword also counts as a name.
-/

namespace SdlSchema

/-! ## Keywords and punctuation -/

/-- The words that introduce or join declarations. -/
inductive Keyword where
  | type | interface | input | extend | implements | union | scalar | enum | directive
  | repeatable | on
  deriving DecidableEq

namespace Keyword

/-- All keywords, in the order of their codes. -/
def all : List Keyword :=
  [.type, .interface, .input, .extend, .implements, .union, .scalar, .enum, .directive,
    .repeatable, .on]

/-- The spelling of a keyword. -/
def text : Keyword → String
  | .type => "type"
  | .interface => "interface"
  | .input => "input"
  | .extend => "extend"
  | .implements => "implements"
  | .union => "union"
  | .scalar => "scalar"
  | .enum => "enum"
  | .directive => "directive"
  | .repeatable => "repeatable"
  | .on => "on"

/-- No keyword is left out of `all`. -/
theorem mem_all (keyword : Keyword) : keyword ∈ all := by cases keyword <;> decide

end Keyword

/-- The single characters that stand for themselves. -/
inductive Punctuation where
  | leftBrace | rightBrace | leftBracket | rightBracket | leftParen | rightParen
  | colon | comma | equals | bang | pipe | ampersand | at | dollar
  deriving DecidableEq

namespace Punctuation

/-- All punctuation, in the order of its codes. -/
def all : List Punctuation :=
  [.leftBrace, .rightBrace, .leftBracket, .rightBracket, .leftParen, .rightParen, .colon, .comma,
    .equals, .bang, .pipe, .ampersand, .at, .dollar]

/-- The character of a punctuation mark. -/
def char : Punctuation → Char
  | .leftBrace => '{'
  | .rightBrace => '}'
  | .leftBracket => '['
  | .rightBracket => ']'
  | .leftParen => '('
  | .rightParen => ')'
  | .colon => ':'
  | .comma => ','
  | .equals => '='
  | .bang => '!'
  | .pipe => '|'
  | .ampersand => '&'
  | .at => '@'
  | .dollar => '$'

/-- No mark is left out of `all`. -/
theorem mem_all (mark : Punctuation) : mark ∈ all := by cases mark <;> decide

end Punctuation

/-! ## Kinds -/

/-- What a token is. -/
inductive Kind where
  /-- Blanks and tabs, never a line break. -/
  | whitespace
  /-- One line break. -/
  | newline
  /-- From `#` to the end of the line. -/
  | comment
  | identifier
  | integer
  | float
  /-- Text in single quotation marks, on one line. -/
  | string
  /-- Text in triple quotation marks. -/
  | blockString
  /-- The stand-in for a directive. -/
  | marker
  | punctuation (mark : Punctuation)
  | keyword (word : Keyword)
  /-- Text that no rule describes. -/
  | unknown
  /-- The end of the text; no token has this kind. -/
  | endOfText
  deriving DecidableEq

namespace Kind

/-- All kinds, in the order of their codes. -/
def all : List Kind :=
  [.whitespace, .newline, .comment, .identifier, .integer, .float, .string, .blockString, .marker]
    ++ Punctuation.all.map .punctuation ++ Keyword.all.map .keyword ++ [.unknown, .endOfText]

/-- No kind is left out of `all`. -/
theorem mem_all (kind : Kind) : kind ∈ all := by
  cases kind with
  | punctuation mark => cases mark <;> decide
  | keyword word => cases word <;> decide
  | _ => decide

/-- The number of a kind: its place in `all`. -/
def code (kind : Kind) : Nat := all.idxOf kind

/-- The kind at the place of a kind's code is that kind. -/
theorem getElem?_code (kind : Kind) : all[kind.code]? = some kind := by
  have h := List.idxOf_lt_length_of_mem (mem_all kind)
  rw [code, List.getElem?_eq_getElem h, List.getElem_idxOf]

/-- Different kinds have different codes. -/
theorem code_injective {kind other : Kind} (h : kind.code = other.code) : kind = other := by
  have hk := getElem?_code kind
  rw [h, getElem?_code other] at hk
  exact (Option.some.inj hk).symm

/-- Whether a token of this kind only separates others. -/
def isTrivia : Kind → Bool
  | .whitespace | .newline | .comment => true
  | _ => false

/-- Trivia that never ends a line. -/
def isInlineTrivia : Kind → Bool
  | .whitespace | .comment => true
  | _ => false

/-- Whether a token of this kind is a keyword. -/
def isKeyword : Kind → Bool
  | .keyword _ => true
  | _ => false

/-- Whether a token of this kind can name something: identifiers and keywords can. -/
def isName : Kind → Bool
  | .identifier | .keyword _ => true
  | _ => false

/-- Whether a token of this kind can describe what follows it: string literals can. -/
def isDescription : Kind → Bool
  | .string | .blockString => true
  | _ => false

/-- Trivia is inline trivia or a line break. -/
theorem isTrivia_eq (kind : Kind) : kind.isTrivia = (kind.isInlineTrivia || kind == .newline) := by
  cases kind <;> rfl

end Kind

end SdlSchema
