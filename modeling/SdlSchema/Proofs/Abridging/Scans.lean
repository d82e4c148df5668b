/-
# Scans of abridged documents

What a scan finds in the abridged document is what is left of what it finds in the document.  Where
a line starts can still be told: blanks do not change it, and behind a comment the line ends.

* `Abridgement.scanFrom_part` : a scan of an abridged run;
* `Abridgement.declarations_part` : the declarations of an abridged document.
-/
import SdlSchema.Proofs.Abridging.Attempts
import SdlSchema.Proofs.Lexing.Comments

namespace SdlSchema

variable {α : Type}

/-! ## Lines -/

/-- Where the line ends it does not matter whether it began. -/
theorem Reader.scanFrom_newline {reader : Reader α} {run : Run}
    (h : ∀ token ∈ run.head?, token.isNewline = true) (lineStart lineStart' closable : Bool) :
    reader.scanFrom lineStart closable run = reader.scanFrom lineStart' closable run := by
  cases run with
  | nil => rw [scanFrom_nil, scanFrom_nil]
  | cons token tail =>
    have hnewline := h token rfl
    have htrivia : token.isTrivia = true := by
      rw [Token.isTrivia, Kind.isTrivia_eq, Bool.or_eq_true]
      exact Or.inr hnewline
    have hline : ∀ before, Run.endsAtLineStart before [token] = true := by
      intro before
      rw [Run.endsAtLineStart, hnewline]
      rfl
    rw [scanFrom_trivia htrivia, scanFrom_trivia htrivia, hline, hline]

/-- Trivia inside a line may be left out of a scan. -/
theorem Reader.scanFrom_inline {reader : Reader α} {token : Token} {tail : Run}
    (h : token.isInlineTrivia = true) (hlines : Run.CommentsEndLines (token :: tail))
    (lineStart closable : Bool) :
    reader.scanFrom lineStart closable (token :: tail)
      = reader.scanFrom lineStart closable tail := by
  rw [scanFrom_trivia (Token.isTrivia_of_isInlineTrivia h)]
  cases hkind : token.kind with
  | whitespace =>
    have hline : Run.endsAtLineStart lineStart [token] = lineStart := by
      simp [Run.endsAtLineStart, Token.isNewline, hkind]
    rw [hline]
  | comment =>
    apply scanFrom_newline
    intro next hnext
    cases tail with
    | nil => cases hnext
    | cons first tail =>
      obtain rfl : first = next := Option.some.inj hnext
      have hnewline := (List.isChain_cons_cons.mp hlines).1 hkind
      simpa [Token.isNewline] using hnewline
  | _ => simp [Token.isInlineTrivia, hkind, Kind.isInlineTrivia] at h

/-! ## Abridged documents -/

namespace Abridgement

variable (A : Abridgement)

theorem scanFrom_part {reader told : Reader α} {tell : α → α} (h : A.Carries [] reader told tell)
    {run : Run} (hlines : run.CommentsEndLines) (lineStart closable : Bool) :
    told.scanFrom lineStart closable (A.part run)
      = (reader.scanFrom lineStart closable run).map (A.described tell) := by
  induction hlength : run.length using Nat.strongRecOn generalizing run lineStart closable with
  | _ n ih =>
    -- by induction on the length, since a scan goes on behind what it read or stepped over
    have hnext : ∀ left lineStart closable, left <:+ run → left.length < run.length →
        told.scanFrom lineStart closable (A.part left)
          = (reader.scanFrom lineStart closable left).map (A.described tell) :=
      fun left lineStart closable hsuffix hlt =>
        ih _ (hlength ▸ hlt) (hlines.of_isInfix hsuffix.isInfix) lineStart closable rfl
    cases run with
    | nil =>
      have hnil : A.part [] = [] := rfl
      rw [hnil, Reader.scanFrom_nil, Reader.scanFrom_nil, List.map_nil]
    | cons token tail =>
      have htail := fun lineStart closable =>
        hnext tail lineStart closable (List.suffix_cons token tail) (Nat.lt_succ_self _)
      cases hkept : A.token? token with
      | none =>
        -- a token that is left out is trivia inside a line, over which a scan steps
        rw [A.part_cons_none hkept, htail,
          Reader.scanFrom_inline (A.isInlineTrivia_of_eq_none hkept) hlines]
      | some kept =>
        have hsame : kept.isTrivia = token.isTrivia := congrArg Kind.isTrivia (A.kind_eq hkept)
        rw [A.part_cons_some hkept]
        cases htoken : token.isTrivia with
        | true =>
          have hline : Run.endsAtLineStart lineStart [kept]
              = Run.endsAtLineStart lineStart [token] := by
            simp only [Run.endsAtLineStart, Token.isNewline, A.kind_eq hkept]
          rw [Reader.scanFrom_trivia (hsame.trans htoken), Reader.scanFrom_trivia htoken, hline,
            htail]
        | false =>
          -- at a significant token both scans try alike, and a miss leads both to the same place
          have hattempt := A.attempt_onto h (Run.stopsBefore_nil (token :: tail)) htoken hkept
            lineStart
          rw [A.onto_nil_left] at hattempt
          rw [Reader.scanFrom_significant (hsame.trans htoken), Reader.scanFrom_significant htoken,
            hattempt]
          cases hread : reader.attempt lineStart token tail with
          | ok found =>
            obtain ⟨item, left⟩ := found
            have hleft := Reader.attempt_left hread
            simp only [Except.map, Prod.map, A.onto_nil_left, List.map_cons]
            rw [hnext left false closable hleft.suffix hleft.length_lt]
          | error miss =>
            cases miss with
            | exhausted => rfl
            | noMatch =>
              have hstep := A.stepOver_onto [] tail hkept closable (Or.inl rfl)
              have hsuffix := Run.stepOver_suffix closable token tail
              rw [A.onto_nil_left] at hstep
              simp only [Except.map, hstep, Prod.map, id, A.onto_nil_left]
              exact hnext _ false _ (hsuffix.trans (List.suffix_cons token tail))
                (Nat.lt_succ_of_le hsuffix.length_le)

end Abridgement

/-- The declarations of a document, where a body that passes the test is no body. -/
def declarationsExcluding (blank : Run → Bool) (kind : DeclarationKind) (document : Run) :
    List (Described kind.Declaration) := (kind.readerExcluding blank).scan document

theorem declarations_eq (kind : DeclarationKind) (document : Run) :
    kind.declarations document
      = declarationsExcluding (fun body => Text.allBlank body.chars) kind document := by
  rw [DeclarationKind.declarations, DeclarationKind.reader_eq]
  rfl

/-- What is found in the abridged document is what is left of what is found in the document, if
bodies are tested for what is left of them. -/
theorem Abridgement.declarations_part (A : Abridgement) {document : Run}
    (hlines : document.CommentsEndLines) (kind : DeclarationKind) :
    kind.declarations (A.part document)
      = (declarationsExcluding (fun body => Text.allBlank (A.part body).chars) kind document).map
        (A.described (A.declaration kind)) := by
  rw [declarations_eq]
  exact A.scanFrom_part (A.carries_reader [] (fun body => Text.allBlank body.chars) kind) hlines
    true true

end SdlSchema
