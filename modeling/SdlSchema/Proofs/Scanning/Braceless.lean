/-
# Steps without braces

Apart from blocks, no step of reading takes a brace, and none gives up for lack of text.  A step
that takes something takes a significant token last, or trivia of the same line behind it; so no
line starts behind what was read.

* `Braceless` : what is left behind tokens that are no braces;
* `EndsInLine` : what is left behind a significant token, on the same line;
* `EndsInLine.endsAtLineStart_upTo` : behind what was read no line starts.
-/
import Mathlib.Data.List.TakeWhile
import SdlSchema.Proofs.Reading.Attempts
import SdlSchema.Proofs.Reading.Steps
import SdlSchema.Proofs.Scanning.Matching

namespace SdlSchema

/-! ## Tokens without braces -/

/-- Whether the token opens or closes a block. -/
def Token.isBrace (token : Token) : Bool := token.isMark .leftBrace || token.isMark .rightBrace

/-- A token of any other kind is no brace. -/
theorem Token.isBrace_eq_false_of_kind {token : Token} {kind : Kind} (hkind : token.kind = kind)
    (hleft : kind ≠ .punctuation .leftBrace) (hright : kind ≠ .punctuation .rightBrace) :
    token.isBrace = false := by
  simp [isBrace, isMark, hkind, hleft, hright]

/-- Trivia holds no brace token, since a comment is one token with all that stands in it. -/
theorem Token.isBrace_of_isTrivia {token : Token} (h : token.isTrivia = true) :
    token.isBrace = false := by
  unfold isTrivia at h
  cases hkind : token.kind <;> simp [hkind, Kind.isTrivia] at h <;>
    simp [isBrace, isMark, hkind]

/-- What may be skipped within a line may be skipped anywhere. -/
theorem Token.isTrivia_of_isInlineTrivia {token : Token} (h : token.isInlineTrivia = true) :
    token.isTrivia = true := by
  rw [isTrivia, Kind.isTrivia_eq]
  exact Bool.or_eq_true_iff.mpr (Or.inl h)

/-- A mark is significant. -/
theorem Token.isTrivia_of_isMark {token : Token} {mark : Punctuation}
    (h : token.isMark mark = true) : token.isTrivia = false := by
  have hkind : token.kind = .punctuation mark := by simpa [isMark] using h
  rw [isTrivia, hkind]
  rfl

/-- A name is no brace; it may be a keyword. -/
theorem Token.isBrace_of_isName {token : Token} (h : token.isName = true) :
    token.isBrace = false := by
  have hmark := (Token.of_isName h).2.2.2.2.2
  rw [isBrace, hmark, hmark, Bool.or_false]

/-- That `rest` is what is left of `run` after tokens that are no braces. -/
def Braceless (rest run : Run) : Prop :=
  ∃ front, run = front ++ rest ∧ ∀ token ∈ front, token.isBrace = false

namespace Braceless

theorem refl (run : Run) : Braceless run run := ⟨[], rfl, by simp⟩

/-- Two stretches without braces make one. -/
theorem trans {rest middle run : Run} (h : Braceless rest middle) (h' : Braceless middle run) :
    Braceless rest run := by
  obtain ⟨front, rfl, hfront⟩ := h
  obtain ⟨front', rfl, hfront'⟩ := h'
  refine ⟨front' ++ front, (List.append_assoc _ _ _).symm, fun token hmem => ?_⟩
  exact (List.mem_append.mp hmem).elim (hfront' token) (hfront token)

/-- What is left behind tokens that are no braces is a suffix. -/
theorem suffix {rest run : Run} (h : Braceless rest run) : rest <:+ run := by
  obtain ⟨front, rfl, -⟩ := h
  exact List.suffix_append front rest

theorem cons {token : Token} (h : token.isBrace = false) (rest : Run) :
    Braceless rest (token :: rest) := ⟨[token], rfl, by simpa using h⟩

/-- Skipping passes over no brace, if nothing that may be skipped is one. -/
theorem dropWhile {skip : Token → Bool} (h : ∀ token, skip token = true → token.isBrace = false)
    (run : Run) : Braceless (run.dropWhile skip) run :=
  ⟨run.takeWhile skip, List.takeWhile_append_dropWhile.symm,
    fun token hmem => h token (List.mem_takeWhile_imp hmem)⟩

theorem skipTrivia (run : Run) : Braceless run.skipTrivia run :=
  dropWhile (fun _ => Token.isBrace_of_isTrivia) run

theorem skipInline (run : Run) : Braceless run.skipInline run :=
  dropWhile (fun _ h => Token.isBrace_of_isTrivia (Token.isTrivia_of_isInlineTrivia h)) run

end Braceless

/-! ## The last significant token -/

/-- That `rest` is what is left of `run` after a significant token and trivia on its line. -/
def EndsInLine (rest run : Run) : Prop :=
  ∃ front token blanks, run = front ++ token :: (blanks ++ rest) ∧ token.isTrivia = false ∧
    ∀ blank ∈ blanks, blank.isInlineTrivia = true

namespace EndsInLine

/-- It does not matter what stands in front of the significant token. -/
theorem of_suffix {rest middle run : Run} (h : EndsInLine rest middle) (hs : middle <:+ run) :
    EndsInLine rest run := by
  obtain ⟨front, rfl⟩ := hs
  obtain ⟨front', token, blanks, rfl, htoken, hblanks⟩ := h
  exact ⟨front ++ front', token, blanks, by rw [List.append_assoc], htoken, hblanks⟩

/-- A significant token ends in its own line. -/
theorem cons {token : Token} (h : token.isTrivia = false) (rest : Run) :
    EndsInLine rest (token :: rest) := ⟨[], token, [], rfl, h, by simp⟩

/-- What ends in a line may be followed by more trivia on that line. -/
theorem skipInline {rest run : Run} (h : EndsInLine rest run) : EndsInLine rest.skipInline run := by
  obtain ⟨front, token, blanks, rfl, htoken, hblanks⟩ := h
  refine ⟨front, token, blanks ++ rest.takeWhile Token.isInlineTrivia, ?_, htoken, ?_⟩
  · rw [List.append_assoc, Run.skipInline, List.takeWhile_append_dropWhile]
  · intro blank hmem
    exact (List.mem_append.mp hmem).elim (hblanks blank) List.mem_takeWhile_imp

/-- Whether a line starts behind a run is found from one stretch of it to the next. -/
theorem endsAtLineStart_append (lineStart : Bool) (front rest : Run) :
    Run.endsAtLineStart lineStart (front ++ rest)
      = Run.endsAtLineStart (Run.endsAtLineStart lineStart front) rest := by
  induction front generalizing lineStart with
  | nil => rfl
  | cons token front ih => rw [List.cons_append, Run.endsAtLineStart, Run.endsAtLineStart, ih]

/-- Trivia of a line leads to no other line. -/
theorem endsAtLineStart_inline {blanks : Run} (h : ∀ blank ∈ blanks, blank.isInlineTrivia = true) :
    Run.endsAtLineStart false blanks = false := by
  induction blanks with
  | nil => rfl
  | cons blank blanks ih =>
    have hblank := h blank List.mem_cons_self
    have hnewline : blank.isNewline = false := by
      unfold Token.isInlineTrivia at hblank
      cases hkind : blank.kind <;> simp [hkind, Kind.isInlineTrivia] at hblank <;>
        simp [Token.isNewline, hkind]
    rw [Run.endsAtLineStart, hnewline, Bool.and_false, Bool.or_false]
    exact ih fun blank hmem => h blank (List.mem_cons_of_mem _ hmem)

/-- A significant token is followed by no line start. -/
theorem endsAtLineStart_significant {token : Token} (h : token.isTrivia = false)
    (lineStart : Bool) : Run.endsAtLineStart lineStart [token] = false := by
  unfold Token.isTrivia at h
  cases hkind : token.kind <;> simp [hkind, Kind.isTrivia] at h <;>
    simp [Run.endsAtLineStart, Token.isNewline, hkind]

/-- What ends in a line is followed by no line start. -/
theorem endsAtLineStart_upTo {rest run : Run} (h : EndsInLine rest run) (lineStart : Bool) :
    Run.endsAtLineStart lineStart (run.upTo rest) = false := by
  obtain ⟨front, token, blanks, rfl, htoken, hblanks⟩ := h
  have hupTo : Run.upTo (front ++ token :: (blanks ++ rest)) rest
      = front ++ ([token] ++ blanks) := by
    have hassoc : front ++ token :: (blanks ++ rest) = (front ++ ([token] ++ blanks)) ++ rest := by
      simp
    rw [hassoc, Run.upTo_append_left]
  rw [hupTo, endsAtLineStart_append, endsAtLineStart_append,
    endsAtLineStart_significant htoken, endsAtLineStart_inline hblanks]

end EndsInLine

/-! ## Single steps -/

namespace Run

/-- What is taken is the next token, which is of the kind asked for. -/
theorem take?_eq_some {kind : Kind} {run rest : Run} (h : run.take? kind = some rest) :
    ∃ token, run = token :: rest ∧ token.kind = kind := by
  cases run with
  | nil => cases h
  | cons token tail =>
    rw [take?] at h
    split at h
    · next hkind => cases h; exact ⟨token, rfl, hkind⟩
    · cases h

theorem expect_eq_ok {kind : Kind} {run rest : Run} (h : run.expect kind = .ok rest) :
    ∃ token, run = token :: rest ∧ token.kind = kind := by
  unfold expect at h
  split at h
  · next htake => cases h; exact take?_eq_some htake
  · cases h

/-- A name that was read is the word of the next token. -/
theorem expectName_eq_ok {run rest : Run} {name : String} (h : run.expectName = .ok (name, rest)) :
    ∃ token, run = token :: rest ∧ token.isName = true ∧ name = token.word := by
  unfold expectName at h
  split at h
  · next hname =>
    cases h
    cases run with
    | nil => cases hname
    | cons token tail =>
      rw [name?] at hname
      split at hname
      · next htoken => cases hname; exact ⟨token, rfl, htoken, rfl⟩
      · cases hname
  · cases h

/-- A token that is expected and not there is a miss, and no lack of text, even at the end. -/
theorem expect_ne_exhausted (kind : Kind) (run : Run) : run.expect kind ≠ .error .exhausted := by
  unfold expect
  split <;> simp

/-- A name that is expected and not there is a miss as well. -/
theorem expectName_ne_exhausted (run : Run) : run.expectName ≠ .error .exhausted := by
  unfold expectName
  split <;> simp

/-- A step that asks for anything but a brace takes none. -/
theorem take?_braceless {kind : Kind} {run rest : Run} (h : run.take? kind = some rest)
    (hleft : kind ≠ .punctuation .leftBrace) (hright : kind ≠ .punctuation .rightBrace) :
    Braceless rest run := by
  obtain ⟨token, rfl, hkind⟩ := take?_eq_some h
  exact .cons (Token.isBrace_eq_false_of_kind hkind hleft hright) rest

theorem expect_braceless {kind : Kind} {run rest : Run} (h : run.expect kind = .ok rest)
    (hleft : kind ≠ .punctuation .leftBrace) (hright : kind ≠ .punctuation .rightBrace) :
    Braceless rest run := by
  obtain ⟨token, rfl, hkind⟩ := expect_eq_ok h
  exact .cons (Token.isBrace_eq_false_of_kind hkind hleft hright) rest

theorem expectName_braceless {run rest : Run} {name : String}
    (h : run.expectName = .ok (name, rest)) : Braceless rest run := by
  obtain ⟨token, rfl, htoken, -⟩ := expectName_eq_ok h
  exact .cons (Token.isBrace_of_isName htoken) rest

/-- A name that was read is significant, so what was read ends in its line. -/
theorem expectName_endsInLine {run rest : Run} {name : String}
    (h : run.expectName = .ok (name, rest)) : EndsInLine rest run := by
  obtain ⟨token, rfl, htoken, -⟩ := expectName_eq_ok h
  exact .cons (Token.of_isName htoken).1 rest

theorem acceptExtend_braceless (run : Run) : Braceless run.acceptExtend.2 run := by
  unfold acceptExtend
  split
  · next h => exact (Braceless.skipTrivia _).trans (take?_braceless h (by simp) (by simp))
  · exact .refl run

/-- A description is one token, and so are the comments behind it; braces in them are no tokens. -/
theorem acceptDescription_braceless (run : Run) : Braceless run.acceptDescription.2 run := by
  cases run with
  | nil => exact .refl []
  | cons token rest =>
    rw [acceptDescription]
    split
    · next h =>
      have hbrace : token.isBrace = false := by
        unfold Token.isDescription at h
        cases hkind : token.kind <;> simp [hkind, Kind.isDescription] at h <;>
          simp [Token.isBrace, Token.isMark, hkind]
      exact (Braceless.skipTrivia rest).trans (.cons hbrace rest)
    · exact .skipTrivia _

/-- Markers are read up to the last of them, and there is no brace among them. -/
theorem afterMarkers_eq_some {skip : Token → Bool} {run rest : Run}
    (hskip : ∀ token, skip token = true → token.isBrace = false)
    (h : run.afterMarkers skip = some rest) : Braceless rest run ∧ EndsInLine rest run := by
  induction run generalizing rest with
  | nil => cases h
  | cons token run ih =>
    rw [afterMarkers] at h
    split at h
    · next hmarker =>
      have hkind : token.kind = .marker := by simpa [Token.isMarker] using hmarker
      have hbraceless : Braceless run (token :: run) :=
        .cons (Token.isBrace_eq_false_of_kind hkind (by simp) (by simp)) run
      cases h
      cases hmore : afterMarkers skip run with
      | none => exact ⟨hbraceless, .cons (by simp [Token.isTrivia, hkind, Kind.isTrivia]) run⟩
      | some left =>
        obtain ⟨hleft, hends⟩ := ih hmore
        exact ⟨hleft.trans hbraceless, hends.of_suffix (List.suffix_cons token run)⟩
    · split at h
      · next htoken =>
        obtain ⟨hleft, hends⟩ := ih h
        exact ⟨hleft.trans (.cons (hskip token htoken) run),
          hends.of_suffix (List.suffix_cons token run)⟩
      · cases h

/-- Markers and the trivia between them hold no brace. -/
theorem acceptMarkers_braceless {skip : Token → Bool}
    (hskip : ∀ token, skip token = true → token.isTrivia = true) (run : Run) :
    Braceless (run.acceptMarkers skip).2 run := by
  unfold acceptMarkers
  split
  · next h =>
    exact (afterMarkers_eq_some (fun token h => Token.isBrace_of_isTrivia (hskip token h)) h).1
  · exact .refl run

/-- Accepted markers end in their line, as what stands in front of them does. -/
theorem acceptMarkers_endsInLine {skip : Token → Bool}
    (hskip : ∀ token, skip token = true → token.isTrivia = true) {middle run : Run}
    (h : EndsInLine middle run) : EndsInLine (middle.acceptMarkers skip).2 run := by
  unfold acceptMarkers
  split
  · next hmarkers =>
    have hends := (afterMarkers_eq_some
      (fun token h => Token.isBrace_of_isTrivia (hskip token h)) hmarkers).2
    obtain ⟨front, token, blanks, rfl, -, -⟩ := h
    exact hends.of_suffix ⟨front ++ token :: blanks, by simp⟩
  · exact h

/-- What stands between brackets reaches to the closer that counting finds. -/
theorem closeBracket_eq_ok {bracket : Bracket} {run body rest : Run}
    (h : run.closeBracket bracket = .ok (body, rest)) :
    run.balanced bracket 0 = some (body, rest) := by
  unfold closeBracket at h
  split at h
  · next hbalanced => cases h; exact hbalanced
  · cases h

/-- A bracket is in error only if counting finds no closer for it. -/
theorem closeBracket_eq_error {bracket : Bracket} {run : Run} {miss : Miss}
    (h : run.closeBracket bracket = .error miss) : run.balanced bracket 0 = none := by
  unfold closeBracket at h
  split at h
  · cases h
  · next hnone => exact hnone

end Run

end SdlSchema
