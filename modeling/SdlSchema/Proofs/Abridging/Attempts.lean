/-
# Scans of abridged runs, step by step

At a significant token a scan tries to read, and steps over a token or a block.  On the abridged run
both lead to what is left of what they lead to on the run.

* `Abridgement.attempt_onto` : what is tried;
* `Abridgement.stepOver_onto` : what is stepped over.
-/
import SdlSchema.Proofs.Scanning.Passing
import SdlSchema.Proofs.Abridging.Declarations

namespace SdlSchema.Abridgement

variable (A : Abridgement) {behind tail : Run} {token kept : Token}

/-- What is tried at a token finds in the abridged run what is left of what it finds in the run. -/
theorem attempt_onto {α : Type} {reader told : Reader α} {tell : α → α}
    (h : A.Carries behind reader told tell) (hrun : Run.StopsBefore (token :: tail) behind)
    (htoken : token.isTrivia = false) (hkept : A.token? token = some kept) (lineStart : Bool) :
    told.attempt lineStart kept (A.onto behind tail)
      = (reader.attempt lineStart token tail).map
        (Prod.map (A.described tell) (A.onto behind)) := by
  have hat : Run.AtToken (token :: tail) := by
    intro first hfirst
    obtain rfl : token = first := Option.some.inj hfirst
    cases hinline : token.isInlineTrivia with
    | false => rfl
    | true => rw [Token.isTrivia_of_isInlineTrivia hinline] at htoken; cases htoken
  have hread := A.carries_described h hrun hat
  rw [A.onto_cons_some hkept] at hread
  unfold Reader.attempt
  rw [isDescription_eq hkept, hread]
  split <;> rfl

/-- What is left behind the token or block that is stepped over, and whether blocks are still
believed to close. -/
theorem stepOver_onto (behind tail : Run) (hkept : A.token? token = some kept) (closable : Bool)
    (h : behind = [] ∨ (token.isMark .leftBrace = true → tail.balanced .brace 0 ≠ none)) :
    (Run.stepOver closable kept (A.onto behind tail)).2
      = Prod.map (A.onto behind) id (Run.stepOver closable token tail).2 := by
  unfold Run.stepOver
  rw [isMark_eq hkept]
  split
  · next hopens =>
    rw [A.balanced_onto .brace (h.imp_right fun h => h hopens.2)]
    cases tail.balanced .brace 0 <;> rfl
  · rfl

end SdlSchema.Abridgement
