/-
# Cutting a text into tokens

The rules of the language, and the cut of a text into tokens by them: at each place the longest
word that some rule describes, or else an unknown token as far as some rule could be followed,
one character at least.

* `chars_tokenize` : the tokens cover the text, so nothing is lost;
* `text_ne_nil_of_mem_tokenize` : no token is empty.
-/
import SdlSchema.Lexical.Munch
import SdlSchema.Token.Basic

namespace SdlSchema

/-! ## The rules -/

namespace Lexicon

/-- Blanks inside a line. -/
def isSpace (c : Char) : Bool := c == ' ' || c == '\t' || c == '\r' || c == '\x0c'

/-- The characters a name may begin with. -/
def beginsName (c : Char) : Bool := c == '_' || c.isAlpha

/-- The characters of names and markers. -/
def continuesName (c : Char) : Bool := c == '_' || c.isAlphanum

/-- Any number of decimal digits, one at least. -/
def digits : Pattern := .oneOrMore (.one Char.isDigit)

/-- Decimal digits with an optional minus sign. -/
def integer : Pattern := .inOrder [.optional (.char '-'), digits]

/-- An integer with decimal places and an optional exponent. -/
def float : Pattern :=
  .inOrder [integer, .char '.', digits,
    .optional (.inOrder [.one fun c => c == 'e' || c == 'E',
      .optional (.one fun c => c == '+' || c == '-'), digits])]

/-- Text on one line between quotation marks, in which a backslash keeps what follows it. -/
def string : Pattern :=
  .inOrder [.char '"',
    .many (.either (.one fun c => c != '"' && c != '\\' && c != '\n')
      (.inOrder [.char '\\', .one (· != '\n')])),
    .char '"']

/-- Text between threefold quotation marks, up to the first three in a row. -/
def blockString : Pattern :=
  .inOrder [.text ['"', '"', '"'],
    .many (.either (.one (· != '"'))
      (.either (.inOrder [.char '"', .one (· != '"')])
        (.inOrder [.char '"', .char '"', .one (· != '"')]))),
    .text ['"', '"', '"']]

/-- The words of the language.  A keyword wins over the identifier of the same length. -/
def sdl : Lexicon Kind :=
  (Keyword.all.map fun keyword => ⟨.keyword keyword, .text keyword.text.toList⟩)
    ++ (Punctuation.all.map fun mark => ⟨.punctuation mark, .char mark.char⟩)
    ++ [⟨.whitespace, .oneOrMore (.one isSpace)⟩,
        ⟨.newline, .char '\n'⟩,
        ⟨.comment, .inOrder [.char '#', .many (.one (· != '\n'))]⟩,
        ⟨.identifier, .inOrder [.one beginsName, .many (.one continuesName)]⟩,
        ⟨.integer, integer⟩,
        ⟨.float, float⟩,
        ⟨.string, string⟩,
        ⟨.blockString, blockString⟩,
        ⟨.marker, .inOrder [.char '%', .oneOrMore (.one continuesName)]⟩]

end Lexicon

/-! ## The cut -/

/-- The kind of the token that begins with `c`, and how many characters of `text` it has besides. -/
def firstToken (c : Char) (text : List Char) : Kind × Nat :=
  match (Lexicon.sdl.after c).longest text with
  | some (length, kind) => (kind, length)
  | none => (.unknown, (Lexicon.sdl.after c).reach text)

/-- The tokens of a text. -/
def tokenize : List Char → Run
  | [] => []
  | c :: text =>
    let (kind, length) := firstToken c text
    ⟨kind, c :: text.take length⟩ :: tokenize (text.drop length)
  termination_by text => text.length
  decreasing_by
    simp only [List.length_drop, List.length_cons]
    omega

/-- The tokens of a string. -/
def Run.ofString (text : String) : Run := tokenize text.toList

theorem tokenize_nil : tokenize [] = [] := by rw [tokenize]

theorem tokenize_cons (c : Char) (text : List Char) :
    tokenize (c :: text) =
      ⟨(firstToken c text).1, c :: text.take (firstToken c text).2⟩
        :: tokenize (text.drop (firstToken c text).2) := by
  rw [tokenize]

/-- The tokens cover the text, so nothing is lost. -/
theorem chars_tokenize (text : List Char) : (tokenize text).chars = text := by
  induction hn : text.length using Nat.strongRecOn generalizing text with
  | _ n ih =>
    cases text with
    | nil => rw [tokenize_nil]; rfl
    | cons c text =>
      have hlt : (text.drop (firstToken c text).2).length < n := by
        rw [← hn, List.length_drop, List.length_cons]
        omega
      rw [tokenize_cons, Run.chars_cons, ih _ hlt _ rfl]
      simp

/-- No token is empty. -/
theorem text_ne_nil_of_mem_tokenize {text : List Char} {token : Token}
    (h : token ∈ tokenize text) : token.text ≠ [] := by
  induction hn : text.length using Nat.strongRecOn generalizing text with
  | _ n ih =>
    cases text with
    | nil => rw [tokenize_nil] at h; simp at h
    | cons c text =>
      have hlt : (text.drop (firstToken c text).2).length < n := by
        rw [← hn, List.length_drop, List.length_cons]
        omega
      rw [tokenize_cons, List.mem_cons] at h
      rcases h with rfl | h
      · simp
      · exact ih _ hlt h rfl

end SdlSchema
