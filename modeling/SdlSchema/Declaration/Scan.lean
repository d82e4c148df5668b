/-
# Finding declarations in a document

A declaration is looked for at the first significant token of each line and right after each
description.  Where none is read the scan goes on with the next token, or behind the whole block
if that token opens one, so that keywords inside a block nobody claimed are never read.

* `flatMap_run_segmentsFrom` : the segments put together are the document.
-/
import SdlSchema.Reading.Items
import SdlSchema.Reading.Balanced

namespace SdlSchema

namespace Run

/-- Whether only blanks separate the end of `run` from the last line break in it or, if it has
none, from a point that was itself so placed. -/
def endsAtLineStart (before : Bool) : Run → Bool
  | [] => before
  | token :: rest =>
    endsAtLineStart (token.isNewline || (token.kind == .whitespace && before)) rest

/-- The block or the single token at the start of a run, what follows it, and whether blocks are
still believed to close.  A block is stepped over only while they are, and a block that does not
close ends the belief. -/
def stepOver (closable : Bool) (token : Token) (tail : Run) : Run × Run × Bool :=
  if closable ∧ token.isMark .leftBrace then
    match tail.balanced .brace 0 with
    | some (_, rest) => (upTo (token :: tail) rest, rest, true)
    | none => ([token], tail, false)
  else ([token], tail, closable)

theorem stepOver_append (closable : Bool) (token : Token) (tail : Run) :
    (stepOver closable token tail).1 ++ (stepOver closable token tail).2.1 = token :: tail := by
  unfold stepOver
  split
  · split
    · next body rest h =>
      exact upTo_append ((balanced_left h).suffix.trans (List.suffix_cons token tail))
    · rfl
  · rfl

theorem stepOver_suffix (closable : Bool) (token : Token) (tail : Run) :
    (stepOver closable token tail).2.1 <:+ tail := by
  unfold stepOver
  split
  · split
    · next body rest h => exact (balanced_left h).suffix
    · exact List.suffix_refl _
  · exact List.suffix_refl _

end Run

namespace Reader

variable {α : Type}

/-- An attempt to read at a token: only a description, or a place where a line starts, allows one.
-/
def attempt (reader : Reader α) (lineStart : Bool) (token : Token) (tail : Run) :
    Except Miss (Described α × Run) :=
  if token.isDescription ∨ lineStart then reader.described.read (token :: tail)
  else .error .noMatch

theorem attempt_left {reader : Reader α} {lineStart : Bool} {token : Token} {tail rest : Run}
    {item : Described α} (h : reader.attempt lineStart token tail = .ok (item, rest)) :
    Left rest (token :: tail) := by
  unfold attempt at h
  split at h
  · exact reader.described.left h
  · cases h

/-- The rest of a document cut into declarations and what is passed over.  `lineStart` says
whether only blanks stand between a line start and here, `closable` whether blocks are still
believed to close. -/
def segmentsFrom (reader : Reader α) (lineStart closable : Bool) (run : Run) :
    List (Segment (Described α)) :=
  match _hrun : run.skipTrivia with
  | [] => [.passed run]
  | token :: tail =>
    let blanks : Run := run.takeWhile Token.isTrivia
    match _hread : reader.attempt (blanks.endsAtLineStart lineStart) token tail with
    | .ok (item, rest) =>
      .passed blanks :: .item item (Run.upTo (token :: tail) rest)
        :: segmentsFrom reader false closable rest
    | .error .exhausted => [.passed run]
    | .error .noMatch =>
      .passed blanks :: .passed (Run.stepOver closable token tail).1
        :: segmentsFrom reader false (Run.stepOver closable token tail).2.2
          (Run.stepOver closable token tail).2.1
  termination_by run.length
  decreasing_by
    · have h1 := (attempt_left _hread).length_lt
      have h2 := (Run.skipTrivia_suffix run).length_le
      rw [_hrun] at h2
      omega
    · have h1 := (Run.stepOver_suffix closable token tail).length_le
      have h2 := (Run.skipTrivia_suffix run).length_le
      rw [_hrun] at h2
      simp only [List.length_cons] at h2
      omega

/-- A document cut into declarations and what is passed over. -/
def scanSegments (reader : Reader α) (document : Run) : List (Segment (Described α)) :=
  reader.segmentsFrom true true document

/-- The declarations of a document, in the order of the text. -/
def scan (reader : Reader α) (document : Run) : List (Described α) :=
  Segment.values (reader.scanSegments document)

/-- The segments put together are the document. -/
theorem flatMap_run_segmentsFrom (reader : Reader α) (lineStart closable : Bool) (run : Run) :
    (reader.segmentsFrom lineStart closable run).flatMap Segment.run = run := by
  fun_induction segmentsFrom reader lineStart closable run with
  | case1 lineStart closable run h => simp [Segment.run]
  | case2 lineStart closable run token tail h blanks item rest hread ih =>
    rw [List.flatMap_cons, List.flatMap_cons, ih]
    simp only [Segment.run]
    rw [Run.upTo_append (attempt_left hread).suffix, ← h]
    exact List.takeWhile_append_dropWhile
  | case3 lineStart closable run token tail h hread => simp [Segment.run]
  | case4 lineStart closable run token tail h blanks hread ih =>
    rw [List.flatMap_cons, List.flatMap_cons, ih]
    simp only [Segment.run]
    rw [Run.stepOver_append, ← h]
    exact List.takeWhile_append_dropWhile

end Reader

end SdlSchema
