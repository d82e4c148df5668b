/-
# What a scan finds

Wherever a declaration can be read, at a description or at the first token of a line, the scan
finds it, unless it stands inside a block that is stepped over.  Where every brace has a match,
nothing outside of the blocks is hidden.  Where a brace is never closed, the blocks behind it are
no longer stepped over, so that what reads as a declaration in a closed block is found as one.

* `captured_or_enclosed` : what reads as a declaration is captured, or stands in a block;
* `captured_of_allClosed` : no text around a declaration hides it, if every brace is closed;
* `captured_enclosed_iff` : inside a block a declaration is captured exactly if a brace in front of
  it is never closed.
-/
import SdlSchema.Token.Tokenize
import SdlSchema.Proofs.Scanning.Trace

namespace SdlSchema

open Run

variable {α : Type} {reader : Reader α}

/-! ## Where a declaration can be read -/

/-- A declaration can be read at the place, and it is one where scans look for declarations: there
is a description, or the first token of a line. -/
structure Reader.ReadsAt (reader : Reader α) (document : Run) (place : Nat) : Prop where
  looked : ∃ token, document[place]? = some token ∧ token.isTrivia = false ∧
    (token.isDescription = true ∨ document.StartsLine place)
  reads : ∃ found rest, reader.described.read (document.drop place) = .ok (found, rest)

namespace Reader.ReadsAt

variable {document before blanks rest : Run} {place : Nat}

/-- A declaration with its description begins with no brace. -/
theorem isBrace (hreader : reader.IsDeclaration) (h : reader.ReadsAt document place)
    {token : Token} (htoken : document[place]? = some token) : token.isBrace = false := by
  obtain ⟨token', htoken', hsignificant, -⟩ := h.looked
  obtain rfl : token = token' := Option.some.inj (htoken.symm.trans htoken')
  obtain ⟨found, rest, hread⟩ := h.reads
  obtain ⟨hlt, hget⟩ := List.getElem?_eq_some_iff.mp htoken
  have hdrop : document.drop place = token :: document.drop (place + 1) := by
    rw [← hget, List.getElem_cons_drop]
  obtain ⟨first, tail, word, hbegins, hkind⟩ :=
    hreader.begins (Reader.described_read_eq_ok.mp hread).2
  rw [hdrop, acceptDescription] at hbegins
  split at hbegins
  · next hdescription =>
    unfold Token.isDescription at hdescription
    cases hstring : token.kind <;> simp [hstring, Kind.isDescription] at hdescription <;>
      simp [Token.isBrace, Token.isMark, hstring]
  · rw [Run.skipTrivia, List.dropWhile_cons_of_neg (by simp [hsignificant])] at hbegins
    obtain ⟨rfl, -⟩ := List.cons.inj hbegins
    exact Token.isBrace_eq_false_of_kind hkind (by simp) (by simp)

/-- No declaration begins in trivia. -/
theorem length_le (h : reader.ReadsAt document place)
    (hsplit : document = before ++ blanks ++ rest)
    (hblanks : ∀ blank ∈ blanks, blank.isTrivia = true) (hle : before.length ≤ place) :
    (before ++ blanks).length ≤ place := by
  obtain ⟨token, htoken, hsignificant, -⟩ := h.looked
  by_contra hlt
  rw [hsplit, List.getElem?_append_left (by omega), List.getElem?_append_right hle] at htoken
  rw [hblanks token (List.mem_of_getElem? htoken)] at hsignificant
  cases hsignificant

end Reader.ReadsAt

namespace ScanState

variable {document before tail : Run} {token : Token} {lineStart closable : Bool}

/-- Where the scan stands at a declaration, it tries to read it. -/
theorem attempt_eq_ok (h : ScanState document before (token :: tail) lineStart closable)
    (hreads : reader.ReadsAt document before.length) :
    ∃ found rest, reader.attempt lineStart token tail = .ok (found, rest) := by
  obtain ⟨token', htoken', -, hlooked⟩ := hreads.looked
  obtain ⟨found, rest, hread⟩ := hreads.reads
  rw [h.split, List.getElem?_append_right (Nat.le_refl _), Nat.sub_self] at htoken'
  obtain rfl : token = token' := by simpa using htoken'
  rw [startsLine_iff, h.split, List.take_left, h.startsLine] at hlooked
  rw [h.split, List.drop_left] at hread
  refine ⟨found, rest, ?_⟩
  rw [Reader.attempt, if_pos hlooked]
  exact hread

/-- Behind a stretch that closes its braces no block is around, or some brace in front of the
stretch is never closed. -/
theorem not_enclosed_or {front rest : Run}
    (h : ScanState document before (front ++ rest) lineStart closable)
    (hfront : Neutral .brace front) :
    ¬ Enclosed .brace document (before ++ front).length ∨
      UnclosedBefore .brace document before.length := by
  cases hclosable : closable with
  | false => exact Or.inr (h.unclosed hclosable)
  | true =>
    have hnext := h.append hfront
    rw [hnext.split]
    exact Or.inl (not_enclosed_of_openFrom_eq_nil (hnext.closed hclosable))

/-- What is stepped over behind the first token stands in a closed block, up to the closing brace,
and every brace in front of it is closed. -/
theorem enclosed_of_stepOver (h : ScanState document before (token :: tail) lineStart closable)
    {place : Nat} (hlt : before.length < place)
    (hplace : place < (before ++ (Run.stepOver closable token tail).1).length)
    (hbrace : ∀ token, document[place]? = some token → token.isBrace = false) :
    Enclosed .brace document place ∧ ¬ UnclosedBefore .brace document place := by
  rw [List.length_append] at hplace
  rcases Run.stepOver_cases closable token tail with
    ⟨rfl, hopener, body, closer, rest, hbalanced, hcloser, rfl, hstep⟩ |
    ⟨rfl, hopener, hnone, hstep⟩ | ⟨hopener, hstep⟩ <;> rw [hstep] at hplace
  · have hpair : (before.length, before.length + 1 + body.length)
        ∈ pairs .brace (before ++ token :: (body ++ closer :: rest)) :=
      mem_pairs_of_balanced hopener hbalanced
    have hneutral : Neutral .brace (token :: (body ++ [closer])) :=
      neutral_of_balanced hopener hcloser hbalanced
    have hsplit : document = (before ++ token :: (body ++ [closer])) ++ rest := by
      rw [h.split]
      simp
    simp only [List.length_cons, List.length_append, List.length_nil] at hplace
    -- the place is not that of the closing brace, so it lies between the two
    have hne : place ≠ before.length + 1 + body.length := by
      rintro rfl
      have hget : document[before.length + 1 + body.length]? = some closer := by
        rw [h.split, List.getElem?_append_right (by omega)]
        have hindex : before.length + 1 + body.length - before.length = body.length + 1 := by omega
        rw [hindex, List.getElem?_cons_succ, List.getElem?_append_right (Nat.le_refl _)]
        simp
      have hfalse := hbrace closer hget
      rw [Token.isBrace, Bool.or_eq_false_iff] at hfalse
      exact absurd hcloser (by rw [hfalse.2]; exact Bool.false_ne_true)
    refine ⟨⟨_, h.split ▸ hpair, hlt, by omega⟩, fun hunclosed => ?_⟩
    have hopen : openFrom .brace [] 0 (before ++ token :: (body ++ [closer])) = [] := by
      rw [openFrom_append, h.closed rfl, hneutral]
    have hclosed := @not_unclosedBefore_of_openFrom_eq_nil .brace _ rest hopen
    rw [← hsplit] at hclosed
    refine hclosed (hunclosed.mono ?_)
    simp only [List.length_append, List.length_cons, List.length_nil]
    omega
  · -- a single token leaves no place behind the first
    rw [List.length_singleton] at hplace
    omega
  · rw [List.length_singleton] at hplace
    omega

end ScanState

/-! ## Along the course of a scan -/

namespace Trace

variable {document before : Run} {segments : List (Segment (Described α))}

/-- Where a declaration was captured, the scan stood and read it. -/
theorem of_mem_captures (h : Trace reader document before segments) {capture : Capture α}
    (hmem : capture ∈ Segment.captures before.length segments) :
    ∃ front token tail lineStart closable rest, capture.start = List.length front ∧
      ScanState document front (token :: tail) lineStart closable ∧ token.isTrivia = false ∧
      reader.attempt lineStart token tail = .ok (capture.found, rest) := by
  induction h with
  | finish hsplit htrivia => simp [Segment.captures] at hmem
  | giveUp hlooks hattempt => simp [Segment.captures] at hmem
  | capture hlooks hattempt hconsumed next ih =>
    rw [Segment.captures, Segment.captures, ← List.length_append, ← List.length_append,
      List.mem_cons] at hmem
    rcases hmem with rfl | hmem
    · exact ⟨_, _, _, _, _, _, rfl, hlooks.state, hlooks.significant, hattempt⟩
    · exact ih hmem
  | step hlooks hattempt next ih =>
    rw [Segment.captures, Segment.captures, ← List.length_append, ← List.length_append] at hmem
    exact ih hmem

/-- A declaration that was captured has its keyword behind its description, and outside of all
blocks unless some brace in front of it is never closed. -/
theorem keyword_of_mem_captures (hreader : reader.IsDeclaration)
    (h : Trace reader document before segments) {capture : Capture α}
    (hmem : capture ∈ Segment.captures before.length segments) :
    (∃ token word, document[capture.keyword document]? = some token ∧
        token.kind = .keyword word) ∧
      (Enclosed .brace document (capture.keyword document) →
        UnclosedBefore .brace document capture.start) := by
  obtain ⟨front, token, tail, lineStart, closable, rest, hstart, hstate, -, hattempt⟩ :=
    h.of_mem_captures hmem
  obtain ⟨first, tail', word, hbegins, hword⟩ :=
    hreader.begins (Reader.described_read_eq_ok.mp (Reader.read_of_attempt hattempt)).2
  -- the keyword stands behind the description, which opens no brace
  obtain ⟨description, hrun, hneutral⟩ :=
    (acceptDescription_braceless (token :: tail)).closesBraces
  have hdrop : document.drop capture.start = token :: tail := by
    rw [hstart, hstate.split, List.drop_left]
  rw [hbegins] at hrun
  have hkeyword : capture.keyword document = (front ++ description).length := by
    rw [Capture.keyword, hdrop, hbegins, hstate.split, hrun]
    simp only [List.length_append]
    omega
  rw [hrun] at hstate
  rw [hkeyword, hstart]
  constructor
  · refine ⟨first, word, ?_, hword⟩
    rw [hstate.split, ← List.append_assoc, List.getElem?_append_right (Nat.le_refl _),
      Nat.sub_self]
    rfl
  · intro henclosed
    rcases hstate.not_enclosed_or hneutral with houtside | hunclosed
    · exact absurd henclosed houtside
    · exact hunclosed

/-- What reads as a declaration is captured, or stands in a block that is stepped over. -/
theorem captured_or_enclosed (hreader : reader.IsDeclaration)
    (h : Trace reader document before segments) {place : Nat}
    (hreads : reader.ReadsAt document place) (hle : before.length ≤ place)
    (hlt : place + (Segment.unread segments).length < document.length) :
    (∃ capture ∈ Segment.captures before.length segments,
        capture.start ≤ place ∧ place < capture.stop) ∨
      (Enclosed .brace document place ∧ ¬ UnclosedBefore .brace document place) := by
  induction h with
  | @finish before run hsplit htrivia =>
    -- the rest of the document is trivia, in which no declaration begins
    have hall : document = before ++ run ++ [] := by rw [hsplit, List.append_nil]
    have hpast := hreads.length_le hall htrivia hle
    rw [← hsplit] at hpast
    omega
  | @giveUp before blanks tail token lineStart closable hlooks hattempt =>
    -- what the scan leaves unread begins at the declaration in which the text ends
    have hpast := hreads.length_le hlooks.state.split hlooks.blank hle
    have hunread : (blanks ++ token :: tail).dropWhile Token.isTrivia = token :: tail := by
      rw [List.dropWhile_append_of_pos hlooks.blank,
        List.dropWhile_cons_of_neg (by simp [hlooks.significant])]
    rw [Segment.unread, Segment.run, Run.skipTrivia, hunread, hlooks.state.split,
      List.length_append] at hlt
    omega
  | @capture before blanks tail consumed rest token _ _ found segments hlooks hattempt hconsumed
      next ih =>
    have hpast := hreads.length_le hlooks.state.split hlooks.blank hle
    rw [next.unread_cons] at hlt
    rw [Segment.captures, Segment.captures, ← List.length_append, ← List.length_append]
    by_cases hinside : place < (before ++ blanks ++ consumed).length
    · exact Or.inl ⟨_, List.mem_cons_self, hpast, hinside⟩
    · refine (ih (by omega) hlt).imp_left ?_
      rintro ⟨capture, hmem, hbounds⟩
      exact ⟨capture, List.mem_cons_of_mem _ hmem, hbounds⟩
  | @step before blanks tail token _ closable segments hlooks hattempt next ih =>
    have hpast := hreads.length_le hlooks.state.split hlooks.blank hle
    rw [next.unread_cons] at hlt
    rw [Segment.captures, Segment.captures, ← List.length_append, ← List.length_append]
    rcases Nat.eq_or_lt_of_le hpast with heq | hbehind
    · -- the scan tried this very place, and would have read the declaration
      obtain ⟨found, rest, hok⟩ := hlooks.state.attempt_eq_ok (heq ▸ hreads)
      rw [hattempt] at hok
      cases hok
    by_cases hinside : place < (before ++ blanks ++ (Run.stepOver closable token tail).1).length
    · exact Or.inr (hlooks.state.enclosed_of_stepOver hbehind hinside fun token htoken =>
        hreads.isBrace hreader htoken)
    · exact ih (by omega) hlt

/-- A scan leaves nothing unread if every brace is closed. -/
theorem unread_eq_nil (hreader : reader.IsDeclaration)
    (h : Trace reader document before segments) (hclosed : document.AllClosed .brace) :
    Segment.unread segments = [] := by
  induction h with
  | finish hsplit htrivia => exact List.dropWhile_eq_nil_iff.mpr htrivia
  | @giveUp before blanks tail token lineStart closable hlooks hattempt =>
    -- giving up shows a brace for which counting finds no closer
    have hread : reader.read (acceptDescription (token :: tail)).2 = .error .exhausted := by
      rw [Reader.attempt] at hattempt
      split at hattempt
      · rcases bind_eq_error.mp hattempt with hread | ⟨found, -, hread⟩
        · exact hread
        · cases hread
      · cases hattempt
    obtain ⟨front, opener, rest, hrun, hopener, hnone⟩ :=
      (hreader.exhausted hread).of_suffix (acceptDescription_suffix _)
    have hunclosed : Unclosed .brace (before ++ blanks ++ front ++ opener :: rest)
        (before ++ blanks ++ front).length := unclosed_of_balanced_eq_none hopener hnone
    rw [List.append_assoc (before ++ blanks), ← hrun, ← hlooks.state.split] at hunclosed
    exact absurd hunclosed (hclosed.not_unclosed _)
  | capture hlooks hattempt hconsumed next ih => rw [next.unread_cons, ih]
  | step hlooks hattempt next ih => rw [next.unread_cons, ih]

end Trace

/-! ## Main results -/

/-- **No text hides a declaration.**  If every opening brace of a document has its closing brace,
then each kind of declaration is read to the end of the document, and wherever one can be read
outside of all blocks, at a description or at the first token of a line, one of the declarations
that the scan finds spans the place. -/
theorem captured_of_allClosed (kind : DeclarationKind) {document : Run}
    (hclosed : document.AllClosed .brace) :
    (kind.reader.captures document).map Capture.found = kind.declarations document ∧
      kind.reader.unread document = [] ∧
      ∀ place, kind.reader.ReadsAt document place → ¬ Enclosed .brace document place →
        ∃ capture ∈ kind.reader.captures document,
          capture.start ≤ place ∧ place < capture.stop := by
  have htrace := trace_scanSegments kind.isDeclaration_reader document
  have hunread := htrace.unread_eq_nil kind.isDeclaration_reader hclosed
  refine ⟨Reader.map_found_captures _ _, hunread, fun place hreads houtside => ?_⟩
  obtain ⟨token, htoken, -⟩ := hreads.looked
  have hlt := (List.getElem?_eq_some_iff.mp htoken).1
  have hfound := htrace.captured_or_enclosed kind.isDeclaration_reader hreads (Nat.zero_le _)
    (by rw [hunread]; exact hlt)
  rcases hfound with hcaptured | ⟨henclosed, -⟩
  · exact hcaptured
  · exact absurd henclosed houtside

/-- A stray brace, an enum with a value named as a keyword, and half a union hide no scalar. -/
theorem captured_of_allClosed_scalar :
    ∃ capture ∈ DeclarationKind.scalar.reader.captures
        (Run.ofString "\x7d enum E \x7b\nscalar\n\x7d union =\n\"d\" scalar A"),
      capture.start ≤ 16 ∧ 16 < capture.stop := by
  have hread : (DeclarationKind.scalar.reader.described.read ((Run.ofString
      "\x7d enum E \x7b\nscalar\n\x7d union =\n\"d\" scalar A").drop 16)).toOption.isSome
        = true := by decide +kernel
  refine (captured_of_allClosed .scalar (by decide +kernel)).2.2 16
    ⟨⟨⟨.string, ['"', 'd', '"']⟩, by decide +kernel, rfl, Or.inl rfl⟩, ?_⟩ (by decide +kernel)
  revert hread
  generalize DeclarationKind.scalar.reader.described.read _ = outcome
  intro hread
  cases outcome with
  | error miss => cases hread
  | ok found => exact ⟨found.1, found.2, rfl⟩

/-- **Blocks behind a brace that is never closed are open to the scan.**  The keyword of a
declaration that the scan finds stands in a closed block only if some brace in front of the
declaration is never closed.  Conversely, wherever a declaration can be read, at a place that the
scan reaches and that is inside no other declaration it finds, it is found exactly if the place is
in no closed block or behind a brace that is never closed. -/
theorem captured_enclosed_iff (kind : DeclarationKind) (document : Run) :
    (∀ capture ∈ kind.reader.captures document,
      Enclosed .brace document (capture.keyword document) →
        UnclosedBefore .brace document capture.start) ∧
    ∀ place, kind.reader.ReadsAt document place →
      place + (kind.reader.unread document).length < document.length →
      (∀ capture ∈ kind.reader.captures document, place ≤ capture.start ∨ capture.stop ≤ place) →
      ((∃ capture ∈ kind.reader.captures document, capture.start = place) ↔
        (Enclosed .brace document place → UnclosedBefore .brace document place)) := by
  have hreader := kind.isDeclaration_reader
  have htrace := trace_scanSegments hreader document
  refine ⟨fun capture hmem => (htrace.keyword_of_mem_captures hreader hmem).2, ?_⟩
  intro place hreads hreached houtside
  constructor
  · rintro ⟨capture, hmem, rfl⟩ henclosed
    obtain ⟨front, token, tail, lineStart, closable, rest, hstart, hstate, -, -⟩ :=
      htrace.of_mem_captures hmem
    have hneutral : Neutral .brace [] := neutral_of_forall (by simp)
    have hor := hstate.not_enclosed_or hneutral
    rw [List.append_nil, ← hstart] at hor
    exact hor.resolve_left (absurd henclosed)
  · intro hopen
    rcases htrace.captured_or_enclosed hreader hreads (Nat.zero_le _) hreached with
      ⟨capture, hmem, hle, hlt⟩ | ⟨henclosed, hclosed⟩
    · refine ⟨capture, hmem, ?_⟩
      have := houtside capture hmem
      omega
    · exact absurd (hopen henclosed) hclosed

/-- The first brace is never closed, and the block behind it, which is, is read all the same. -/
theorem scalar_captured_in_closed_block :
    ∃ capture ∈ DeclarationKind.scalar.reader.captures
        (Run.ofString "\x7b\n\x7b\nscalar A\n\x7d"),
      Enclosed .brace (Run.ofString "\x7b\n\x7b\nscalar A\n\x7d")
        (capture.keyword (Run.ofString "\x7b\n\x7b\nscalar A\n\x7d")) := by
  decide +kernel

end SdlSchema
