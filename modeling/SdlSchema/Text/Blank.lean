/-
# Blank characters and trimming

Which characters count as blank is the Unicode property `White_Space`.  Trimming drops blanks
from both ends of a text, and a description that holds nothing else is no description.
-/

namespace SdlSchema.Text

/-! ## The property `White_Space` -/

/-- The code point ranges of the Unicode property `White_Space`, both ends included. -/
def blankRanges : List (Nat × Nat) :=
  [(0x09, 0x0D), (0x20, 0x20), (0x85, 0x85), (0xA0, 0xA0), (0x1680, 0x1680), (0x2000, 0x200A),
    (0x2028, 0x2029), (0x202F, 0x202F), (0x205F, 0x205F), (0x3000, 0x3000)]

/-- Whether a character has the Unicode property `White_Space`. -/
def isBlank (c : Char) : Bool :=
  blankRanges.any fun (first, last) => first ≤ c.toNat && c.toNat ≤ last

/-- The ASCII white space of the core library is blank. -/
theorem isBlank_of_isWhitespace {c : Char} (h : c.isWhitespace = true) : isBlank c = true := by
  simp only [Char.isWhitespace, Bool.or_eq_true, decide_eq_true_eq] at h
  rcases h with ((rfl | rfl) | rfl) | rfl <;> decide

/-! ## Trimming -/

/-- A text without the blanks it ends with. -/
def trimEnd (text : List Char) : List Char := (text.reverse.dropWhile isBlank).reverse

/-- A text without the blanks it begins and ends with. -/
def trim (text : List Char) : List Char := trimEnd (text.dropWhile isBlank)

/-- Whether a text holds nothing but blanks. -/
def allBlank (text : List Char) : Bool := text.all isBlank

/-! ## Texts that say something -/

/-- The trimmed text, if anything is left of it. -/
def nonBlank (text : String) : Option String :=
  match trim text.toList with
  | [] => none
  | c :: rest => some (String.ofList (c :: rest))

end SdlSchema.Text
