/-
# What single steps do on known tokens

A step of reading looks at the first token only, so what it does follows from the kind of that
token, whatever comes behind.

* `Token.of_isName` : what can name something is nothing else;
* `Run.upTo_append_left` : what stands in front of the rest is what was consumed.
-/
import SdlSchema.Reading.Basic

namespace SdlSchema

/-- What can name something is neither trivia nor a string nor a marker nor a mark. -/
theorem Token.of_isName {token : Token} (h : token.isName = true) :
    token.isTrivia = false ∧ token.isInlineTrivia = false ∧ token.isDescription = false ∧
      token.isNewline = false ∧ token.isMarker = false ∧ ∀ mark, token.isMark mark = false := by
  unfold isName at h
  cases hkind : token.kind <;> simp [hkind, Kind.isName] at h <;>
    simp [isTrivia, isInlineTrivia, isDescription, isNewline, isMarker, isMark, Kind.isTrivia,
      Kind.isInlineTrivia, Kind.isDescription, hkind]

/-- A mark is no other mark. -/
theorem Token.isMark_eq_false {token : Token} {mark other : Punctuation}
    (h : token.isMark mark = true) (hne : mark ≠ other) : token.isMark other = false := by
  rw [isMark, beq_iff_eq] at h
  rw [isMark, h, beq_eq_false_iff_ne]
  exact fun heq => hne (by cases heq; rfl)

/-- A line break separates items. -/
theorem Token.isSeparator_of_isNewline {token : Token} (h : token.isNewline = true) :
    token.isSeparator = true := by
  rw [isNewline, beq_iff_eq] at h
  simp [isSeparator, isTrivia, h, Kind.isTrivia]

namespace Run

variable {token : Token} {rest : Run}

theorem skipTrivia_cons (h : token.isTrivia = true) :
    Run.skipTrivia (token :: rest) = Run.skipTrivia rest := List.dropWhile_cons_of_pos h

/-- Nothing is passed over at a token that is no trivia. -/
theorem skipTrivia_significant (h : token.isTrivia = false) :
    Run.skipTrivia (token :: rest) = token :: rest :=
  List.dropWhile_cons_of_neg (by simp [h])

/-- A token of another kind is not taken. -/
theorem take?_eq_none {kind : Kind} (h : token.kind ≠ kind) :
    Run.take? kind (token :: rest) = none := by
  rw [take?, if_neg h]

theorem take?_mark_eq_none {mark : Punctuation} (h : token.isMark mark = false) :
    Run.take? (.punctuation mark) (token :: rest) = none :=
  take?_eq_none (by simpa [Token.isMark] using h)

/-- A description is accepted with the trivia behind it. -/
theorem acceptDescription_of_isDescription (h : token.isDescription = true) :
    acceptDescription (token :: rest) = (some token.content, rest.skipTrivia) := by
  rw [acceptDescription, if_pos h]

/-- A token that is neither a description nor trivia is left. -/
theorem acceptDescription_of_significant (h : token.isDescription = false)
    (htrivia : token.isTrivia = false) :
    acceptDescription (token :: rest) = (none, token :: rest) := by
  rw [acceptDescription, if_neg (by simp [h]), skipTrivia_significant htrivia]

/-- What is read of a run is what stands in front of the rest. -/
theorem upTo_append_left (front rest : Run) : Run.upTo (front ++ rest) rest = front := by
  simp [upTo]

end Run

end SdlSchema
