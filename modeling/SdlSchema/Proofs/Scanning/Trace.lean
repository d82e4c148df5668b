/-
# Where a scan stands

A scan goes through a document once, from left to right.  Between two of its segments it knows
whether a line starts, and whether blocks are still believed to close.  What it knows is true of
the document: the first says what stands on the line so far; the second holds as long as nothing
is left open, and once it does not hold, some block in front is never closed.

* `ScanState` : what is true of the document where the scan stands;
* `ScanState.capture`, `ScanState.stepOver` : a declaration and a step keep it so;
* `Trace`, `trace_segmentsFrom` : the segments of a scan, with what was true at each of them.
-/
import Mathlib.Data.List.Induction
import SdlSchema.Proofs.Scanning.Readers
import SdlSchema.Proofs.Scanning.Passing

namespace SdlSchema

/-! ## Captures with their places -/

/-- A declaration found in a document, with the place of its first token and the place behind its
last. -/
structure Capture (α : Type) where
  start : Nat
  stop : Nat
  found : Described α

/-- The place of the keyword with which a declaration begins, behind its description. -/
def Capture.keyword {α : Type} (document : Run) (capture : Capture α) : Nat :=
  document.length - (Run.acceptDescription (document.drop capture.start)).2.length

namespace Segment

variable {α : Type}

/-- The declarations among segments that start at a place. -/
def captures : Nat → List (Segment (Described α)) → List (Capture α)
  | _, [] => []
  | place, .passed run :: segments => captures (place + run.length) segments
  | place, .item found run :: segments =>
    ⟨place, place + run.length, found⟩ :: captures (place + run.length) segments

/-- The significant tokens of the last segment if it was passed over, where a scan may have given
up. -/
def unread : List (Segment (Described α)) → Run
  | [] => []
  | [segment] => segment.run.skipTrivia
  | _ :: next :: segments => unread (next :: segments)

theorem map_found_captures (place : Nat) (segments : List (Segment (Described α))) :
    (captures place segments).map Capture.found = values segments := by
  induction segments generalizing place with
  | nil => rfl
  | cons segment segments ih =>
    cases segment with
    | passed run => exact ih _
    | item found run =>
      rw [captures, List.map_cons, ih]
      rfl

end Segment

namespace Reader

variable {α : Type}

/-- The declarations of a document with their places. -/
def captures (reader : Reader α) (document : Run) : List (Capture α) :=
  Segment.captures 0 (reader.scanSegments document)

/-- What a scan leaves unread because the text ends inside a declaration. -/
def unread (reader : Reader α) (document : Run) : Run :=
  Segment.unread (reader.scanSegments document)

/-- The captures hold the declarations that the scan finds, in the same order. -/
theorem map_found_captures (reader : Reader α) (document : Run) :
    (reader.captures document).map Capture.found = reader.scan document :=
  Segment.map_found_captures 0 _

end Reader

/-! ## Line starts -/

namespace Run

/-- Only blanks stand between the place and the last line break in front of it, or the start of the
document. -/
def StartsLine (document : Run) (place : Nat) : Prop :=
  ∃ lines blanks : Run, document.take place = lines ++ blanks ∧
    (∀ blank ∈ blanks, blank.kind = .whitespace) ∧
      ∀ last, lines.getLast? = some last → last.isNewline = true

/-- Following the tokens tells whether only blanks stand behind the last line break. -/
theorem endsAtLineStart_iff (front : Run) :
    endsAtLineStart true front = true ↔ ∃ lines blanks : Run, front = lines ++ blanks ∧
      (∀ blank ∈ blanks, blank.kind = .whitespace) ∧
        ∀ last, lines.getLast? = some last → last.isNewline = true := by
  induction front using List.reverseRecOn with
  | nil => exact ⟨fun _ => ⟨[], [], rfl, by simp, by simp⟩, fun _ => rfl⟩
  | append_singleton front token ih =>
    -- a line break begins a line, and a blank leaves it as it was
    have hstep : endsAtLineStart true (front ++ [token])
        = (token.isNewline || (token.kind == .whitespace && endsAtLineStart true front)) := by
      rw [EndsInLine.endsAtLineStart_append]
      rfl
    rw [hstep, Bool.or_eq_true, Bool.and_eq_true, ih, beq_iff_eq]
    constructor
    · rintro (hnewline | ⟨hwhitespace, lines, blanks, rfl, hblanks, hlines⟩)
      · exact ⟨front ++ [token], [], by simp, by simp, by simpa using hnewline⟩
      · refine ⟨lines, blanks ++ [token], by simp, fun blank hmem => ?_, hlines⟩
        rcases List.mem_append.mp hmem with hmem | hmem
        · exact hblanks blank hmem
        · rw [List.mem_singleton.mp hmem, hwhitespace]
    · rintro ⟨lines, blanks, hsplit, hblanks, hlines⟩
      rcases List.eq_nil_or_concat blanks with rfl | ⟨blanks, blank, rfl⟩
      · rw [List.append_nil] at hsplit
        exact Or.inl (hlines token (by rw [← hsplit]; simp))
      · rw [List.concat_eq_append, ← List.append_assoc] at hsplit
        obtain ⟨rfl, hlast⟩ := List.append_inj' hsplit rfl
        obtain rfl : token = blank := by simpa using hlast
        refine Or.inr ⟨hblanks token (by simp), lines, blanks, rfl, fun blank hmem => ?_, hlines⟩
        exact hblanks blank (by simp [hmem])

theorem startsLine_iff (document : Run) (place : Nat) :
    document.StartsLine place ↔ endsAtLineStart true (document.take place) = true :=
  (endsAtLineStart_iff _).symm

end Run

/-! ## The state of a scan -/

open Run

/-- What is true of the document where a scan stands between `before` and `run`. -/
structure ScanState (document before run : Run) (lineStart closable : Bool) : Prop where
  split : document = before ++ run
  startsLine : Run.endsAtLineStart true before = lineStart
  closed : closable = true → Run.openFrom .brace [] 0 before = []
  unclosed : closable = false → UnclosedBefore .brace document before.length

namespace ScanState

variable {document before run rest : Run} {lineStart closable : Bool}

/-- In front of the document everything is as the scan takes it to be. -/
theorem start (document : Run) : ScanState document [] document true true :=
  ⟨rfl, rfl, fun _ => rfl, fun h => absurd h.symm Bool.false_ne_true⟩

/-- The scan goes on behind any stretch that closes each brace that it opens. -/
theorem append {front : Run} (h : ScanState document before (front ++ rest) lineStart closable)
    (hfront : Neutral .brace front) :
    ScanState document (before ++ front) rest (front.endsAtLineStart lineStart) closable where
  split := by rw [h.split, List.append_assoc]
  startsLine := by rw [EndsInLine.endsAtLineStart_append, h.startsLine]
  closed hclosable := by rw [openFrom_append, h.closed hclosable, hfront]
  unclosed hclosable :=
    (h.unclosed hclosable).mono (by rw [List.length_append]; exact Nat.le_add_right _ _)

/-- The scan goes on behind trivia. -/
theorem skipTrivia (h : ScanState document before run lineStart closable) :
    ScanState document (before ++ run.takeWhile Token.isTrivia) run.skipTrivia
      (Run.endsAtLineStart lineStart (run.takeWhile Token.isTrivia)) closable := by
  refine append (by rw [Run.skipTrivia, List.takeWhile_append_dropWhile]; exact h) ?_
  refine neutral_of_forall fun token hmem => Bool.or_eq_false_iff.mp ?_
  exact Token.isBrace_of_isTrivia (List.mem_takeWhile_imp hmem)

/-- The scan goes on behind a declaration. -/
theorem capture {α : Type} {reader : Reader α} (hreader : reader.IsDeclaration)
    {found : Described α} (h : ScanState document before run lineStart closable)
    (hread : reader.described.read run = .ok (found, rest)) :
    ScanState document (before ++ run.upTo rest) rest false closable := by
  have hitem := (Reader.described_read_eq_ok.mp hread).2
  have hends := (hreader.endsInLine hitem).of_suffix (acceptDescription_suffix run)
  obtain ⟨front, rfl, hfront⟩ :=
    (hreader.closesBraces hitem).trans (acceptDescription_braceless run).closesBraces
  have hupTo := upTo_append_left front rest
  have hline := hends.endsAtLineStart_upTo lineStart
  rw [hupTo] at hline ⊢
  rw [← hline]
  exact h.append hfront

/-- The scan goes on behind a single token that is no opening brace, whatever it believes. -/
theorem pass {token : Token} {tail : Run}
    (h : ScanState document before (token :: tail) lineStart closable)
    (htoken : token.isTrivia = false) (hopener : closable = true → token.isMark .leftBrace = false) :
    ScanState document (before ++ [token]) tail false closable where
  split := by rw [h.split, List.append_assoc]; rfl
  startsLine := by
    rw [EndsInLine.endsAtLineStart_append, EndsInLine.endsAtLineStart_significant htoken]
  closed hclosable := by
    rw [openFrom_append, h.closed hclosable]
    simp [openFrom, Bracket.opener, hopener hclosable]
  unclosed hclosable :=
    (h.unclosed hclosable).mono (by rw [List.length_append]; exact Nat.le_add_right _ _)

/-- The scan goes on behind a block or a single token. -/
theorem stepOver {token : Token} {tail : Run}
    (h : ScanState document before (token :: tail) lineStart closable)
    (htoken : token.isTrivia = false) :
    ScanState document (before ++ (Run.stepOver closable token tail).1)
      (Run.stepOver closable token tail).2.1 false (Run.stepOver closable token tail).2.2 := by
  rcases Run.stepOver_cases closable token tail with
    ⟨rfl, hopener, body, closer, rest, hbalanced, hcloser, rfl, hstep⟩ |
    ⟨rfl, hopener, hnone, hstep⟩ | ⟨hopener, hstep⟩ <;> rw [hstep]
  · -- the block is closed, so that no brace is left open behind it
    have hblock :
        ScanState document before (token :: (body ++ [closer]) ++ rest) lineStart true := by
      simpa using h
    have hline : Run.endsAtLineStart lineStart (token :: (body ++ [closer])) = false := by
      have hkind : closer.kind = .punctuation .rightBrace := by simpa [Token.isMark] using hcloser
      rw [← List.cons_append, EndsInLine.endsAtLineStart_append,
        EndsInLine.endsAtLineStart_significant (by simp [Token.isTrivia, hkind, Kind.isTrivia])]
    have hnext := hblock.append (neutral_of_balanced hopener hcloser hbalanced)
    rwa [hline] at hnext
  · have hunclosed : UnclosedBefore .brace document (before ++ [token]).length := by
      refine ⟨before.length, by simp, ?_⟩
      rw [h.split]
      exact unclosed_of_balanced_eq_none hopener hnone
    have hline : Run.endsAtLineStart true (before ++ [token]) = false := by
      rw [EndsInLine.endsAtLineStart_append, EndsInLine.endsAtLineStart_significant htoken]
    have hsplit : document = (before ++ [token]) ++ tail := by
      rw [h.split, List.append_assoc]
      rfl
    exact ⟨hsplit, hline, fun hfalse => absurd hfalse Bool.false_ne_true, fun _ => hunclosed⟩
  · exact h.pass htoken hopener

end ScanState

/-! ## The course of a scan -/

/-- The scan stands behind `before`, and looks at the first significant token, behind `blanks`. -/
structure LooksAt (document before blanks : Run) (token : Token) (tail : Run)
    (lineStart closable : Bool) : Prop where
  blank : ∀ blank ∈ blanks, blank.isTrivia = true
  significant : token.isTrivia = false
  state : ScanState document (before ++ blanks) (token :: tail) lineStart closable

/-- The segments into which a scan cuts a document from the end of `before` on. -/
inductive Trace {α : Type} (reader : Reader α) (document : Run) :
    Run → List (Segment (Described α)) → Prop
  /-- Nothing is left but trivia. -/
  | finish {before run : Run} (hsplit : document = before ++ run)
      (htrivia : ∀ token ∈ run, token.isTrivia = true) : Trace reader document before [.passed run]
  /-- The text ends inside a declaration. -/
  | giveUp {before blanks tail : Run} {token : Token} {lineStart closable : Bool}
      (hlooks : LooksAt document before blanks token tail lineStart closable)
      (hattempt : reader.attempt lineStart token tail = .error .exhausted) :
      Trace reader document before [.passed (blanks ++ token :: tail)]
  /-- A declaration is read. -/
  | capture {before blanks tail consumed rest : Run} {token : Token} {lineStart closable : Bool}
      {found : Described α} {segments : List (Segment (Described α))}
      (hlooks : LooksAt document before blanks token tail lineStart closable)
      (hattempt : reader.attempt lineStart token tail = .ok (found, rest))
      (hconsumed : consumed ++ rest = token :: tail)
      (next : Trace reader document (before ++ blanks ++ consumed) segments) :
      Trace reader document before (.passed blanks :: .item found consumed :: segments)
  /-- Nothing is read, and a block or a single token is stepped over. -/
  | step {before blanks tail : Run} {token : Token} {lineStart closable : Bool}
      {segments : List (Segment (Described α))}
      (hlooks : LooksAt document before blanks token tail lineStart closable)
      (hattempt : reader.attempt lineStart token tail = .error .noMatch)
      (next : Trace reader document (before ++ blanks ++ (Run.stepOver closable token tail).1)
        segments) :
      Trace reader document before
        (.passed blanks :: .passed (Run.stepOver closable token tail).1 :: segments)

/-- A declaration that an attempt reads is read with its description. -/
theorem Reader.read_of_attempt {α : Type} {reader : Reader α} {lineStart : Bool} {token : Token}
    {tail rest : Run} {found : Described α}
    (h : reader.attempt lineStart token tail = .ok (found, rest)) :
    reader.described.read (token :: tail) = .ok (found, rest) := by
  rw [attempt] at h
  split at h
  · exact h
  · cases h

namespace ScanState

variable {document before run : Run} {lineStart closable : Bool}

/-- Behind the trivia the scan looks at a significant token. -/
theorem looksAt {token : Token} {tail : Run}
    (h : ScanState document before run lineStart closable) (hrun : run.skipTrivia = token :: tail) :
    LooksAt document before (run.takeWhile Token.isTrivia) token tail
      (Run.endsAtLineStart lineStart (run.takeWhile Token.isTrivia)) closable where
  blank _ := List.mem_takeWhile_imp
  significant := by
    have hhead := List.head?_dropWhile_not Token.isTrivia run
    rw [← Run.skipTrivia, hrun] at hhead
    simpa using hhead
  state := hrun ▸ h.skipTrivia

variable {α : Type} {reader : Reader α}

/-- From a true state a scan takes its course with true states. -/
theorem trace_segmentsFrom (hreader : reader.IsDeclaration) (lineStart closable : Bool)
    (run : Run) : ∀ {before : Run}, ScanState document before run lineStart closable →
      Trace reader document before (reader.segmentsFrom lineStart closable run) := by
  fun_induction Reader.segmentsFrom reader lineStart closable run
  case case1 lineStart closable run hrun =>
    intro before h
    refine .finish h.split fun token hmem => ?_
    rw [Run.skipTrivia, List.dropWhile_eq_nil_iff] at hrun
    exact hrun token hmem
  case case2 lineStart closable run token tail hrun blanks found rest hread ih =>
    intro before h
    have hlooks := h.looksAt hrun
    have hleft := upTo_append (Reader.attempt_left hread).suffix
    exact .capture hlooks hread hleft (ih (hlooks.state.capture hreader
      (Reader.read_of_attempt hread)))
  case case3 lineStart closable run token tail hrun blanks hread =>
    intro before h
    have hrun' : run = run.takeWhile Token.isTrivia ++ token :: tail := by
      rw [← hrun, Run.skipTrivia, List.takeWhile_append_dropWhile]
    have hgive := Trace.giveUp (h.looksAt hrun) hread
    rwa [← hrun'] at hgive
  case case4 lineStart closable run token tail hrun blanks hread ih =>
    intro before h
    have hlooks := h.looksAt hrun
    exact .step hlooks hread (ih (hlooks.state.stepOver hlooks.significant))

end ScanState

/-- A scan of a document takes its course from the start of it. -/
theorem trace_scanSegments {α : Type} {reader : Reader α} (hreader : reader.IsDeclaration)
    (document : Run) : Trace reader document [] (reader.scanSegments document) :=
  ScanState.trace_segmentsFrom hreader true true document (ScanState.start document)

/-- What is left unread is decided at the end of the course. -/
theorem Trace.unread_cons {α : Type} {reader : Reader α} {document before : Run}
    {segments : List (Segment (Described α))} (h : Trace reader document before segments)
    (blanks segment : Segment (Described α)) :
    Segment.unread (blanks :: segment :: segments) = Segment.unread segments := by
  cases h <;> rfl

end SdlSchema
