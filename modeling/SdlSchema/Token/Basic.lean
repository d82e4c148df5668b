/-
# Tokens and runs of tokens

A token is a piece of text with its kind; a run is a stretch of consecutive tokens.  Readers
consume a run from the left, and what they consumed is the part of the run in front of what they
left.

* `upTo_append` : the part in front of a suffix, followed by the suffix, is the whole run.
-/
import SdlSchema.Token.Kind

namespace SdlSchema

/-- A piece of text with its kind. -/
structure Token where
  kind : Kind
  text : List Char
  deriving DecidableEq

/-- Consecutive tokens of a text. -/
abbrev Run := List Token

namespace Token

/-- Whether the token only separates others. -/
def isTrivia (token : Token) : Bool := token.kind.isTrivia

/-- Whether the token is trivia that never ends a line. -/
def isInlineTrivia (token : Token) : Bool := token.kind.isInlineTrivia

/-- Whether the token can name something. -/
def isName (token : Token) : Bool := token.kind.isName

/-- Whether the token can describe what follows it. -/
def isDescription (token : Token) : Bool := token.kind.isDescription

/-- Whether the token is the given punctuation mark. -/
def isMark (mark : Punctuation) (token : Token) : Bool := token.kind == .punctuation mark

/-- Whether the token is a line break. -/
def isNewline (token : Token) : Bool := token.kind == .newline

/-- Whether the token stands for a directive. -/
def isMarker (token : Token) : Bool := token.kind == .marker

/-- Whether the token may stand between two items of a body: trivia and commas may. -/
def isSeparator (token : Token) : Bool := token.isTrivia || token.isMark .comma

/-- The text of a token as a string. -/
def word (token : Token) : String := String.ofList token.text

/-- The number of quotation marks on each side of a string literal. -/
def quotes (token : Token) : Nat := if token.kind = .blockString then 3 else 1

/-- The text between the quotation marks of a string literal. -/
def content (token : Token) : String :=
  String.ofList ((token.text.drop token.quotes).take (token.text.length - 2 * token.quotes))

/-- The length of a token in bytes of UTF-8. -/
def byteLength (token : Token) : Nat := token.word.utf8ByteSize

end Token

namespace Run

/-! ## Text of a run -/

/-- The characters that the tokens of a run cover. -/
def chars (run : Run) : List Char := run.flatMap Token.text

/-- The text that the tokens of a run cover. -/
def text (run : Run) : String := String.ofList run.chars

/-- Each token with the bytes at which it starts and ends, in a run that starts at byte `start`. -/
def spansFrom (start : Nat) : Run → List (Nat × Nat × Token)
  | [] => []
  | token :: rest =>
    (start, start + token.byteLength, token) :: spansFrom (start + token.byteLength) rest

/-- Each token with the bytes at which it starts and ends. -/
def spans (run : Run) : List (Nat × Nat × Token) := spansFrom 0 run

@[simp] theorem chars_nil : Run.chars [] = [] := rfl

@[simp] theorem chars_cons (token : Token) (run : Run) :
    Run.chars (token :: run) = token.text ++ Run.chars run := rfl

@[simp] theorem chars_append (left right : Run) :
    Run.chars (left ++ right) = Run.chars left ++ Run.chars right := by simp [chars]

/-! ## Consuming a run -/

/-- The run without the trivia it begins with. -/
def skipTrivia (run : Run) : Run := run.dropWhile Token.isTrivia

/-- The run without the trivia it begins with on the same line. -/
def skipInline (run : Run) : Run := run.dropWhile Token.isInlineTrivia

/-- The part of `run` in front of its suffix `rest`. -/
def upTo (run rest : Run) : Run := run.take (run.length - rest.length)

theorem skipTrivia_suffix (run : Run) : run.skipTrivia <:+ run := List.dropWhile_suffix _

theorem skipInline_suffix (run : Run) : run.skipInline <:+ run := List.dropWhile_suffix _

/-- The part in front of a suffix, followed by the suffix, is the whole run. -/
theorem upTo_append {run rest : Run} (h : rest <:+ run) : run.upTo rest ++ rest = run := by
  obtain ⟨front, rfl⟩ := h
  simp [upTo]

end Run

end SdlSchema
