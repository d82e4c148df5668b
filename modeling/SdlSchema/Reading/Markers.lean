/-
# Runs of markers

A construct may carry markers, each standing for a directive.  The markers of a construct form
one run, from the first marker to the last, with nothing between them but the trivia that the
place allows.
-/
import SdlSchema.Reading.Basic

namespace SdlSchema.Run

/-- What is left after the last of the markers at the start of the run, when tokens that pass
`skip` may stand before and between them; nothing if there is no marker. -/
def afterMarkers (skip : Token → Bool) : Run → Option Run
  | [] => none
  | token :: rest =>
    if token.isMarker then some ((afterMarkers skip rest).getD rest)
    else if skip token then afterMarkers skip rest
    else none

/-- The markers at the start of the run, from the first to the last, and what follows them.
Without a marker nothing is read, and the run is left as it was. -/
def acceptMarkers (skip : Token → Bool) (run : Run) : Run × Run :=
  match run.afterMarkers skip with
  | some rest => (upTo (run.dropWhile skip) rest, rest)
  | none => ([], run)

theorem afterMarkers_left {skip : Token → Bool} {run rest : Run}
    (h : run.afterMarkers skip = some rest) : Left rest run := by
  induction run generalizing rest with
  | nil => simp [afterMarkers] at h
  | cons token run ih =>
    rw [afterMarkers] at h
    split at h
    · cases h
      cases hm : afterMarkers skip run with
      | none => exact ⟨token, run, rfl, List.suffix_refl _⟩
      | some left => exact ⟨token, run, rfl, (ih hm).suffix⟩
    · split at h
      · exact Left.of_left_suffix (ih h) (List.suffix_cons token run)
      · cases h

/-- Accepting markers leaves a suffix, with or without any. -/
theorem acceptMarkers_suffix (skip : Token → Bool) (run : Run) :
    (run.acceptMarkers skip).2 <:+ run := by
  unfold acceptMarkers
  split
  · next h => exact (afterMarkers_left h).suffix
  · exact List.suffix_refl _

end SdlSchema.Run
