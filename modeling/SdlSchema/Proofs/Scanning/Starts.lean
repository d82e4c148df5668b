/-
# Where declarations start

A scan looks for a declaration at a description, with the declaration behind it, and otherwise only
where a line starts.  A description that was looked at with nothing to describe behind it is
stepped over alone, and what is behind it is not read later without it: it was just tried, and what
a reader takes ends with no description.  So a declaration has exactly the description in front of
its first word, and without one it starts a line.

* `Run.significantBefore` : the nearest significant token in front of a place;
* `Reader.Tried` : what stands behind a description was tried with it;
* `Trace.start_of_mem_captures` : along a scan this stays so, up to each declaration it reads;
* `captures_attached` : each declaration has the description in front of its first word.
-/
import SdlSchema.Proofs.Cursor.Steps
import SdlSchema.Proofs.Forms.Declarations
import SdlSchema.Proofs.Scanning.Items

namespace SdlSchema

/-! ## The nearest significant token -/

namespace Run

/-- The nearest significant token in front of a place. -/
def significantBefore (document : Run) (place : Nat) : Option Token :=
  ((document.take place).filter fun token => !token.isTrivia).getLast?

variable {document before run rest gap : Run} {last : Token}

/-- Trivia does not change which significant token was the last. -/
theorem significantBefore_gap (hgap : Gap Token.isTrivia gap) (hsplit : document = before ++ run)
    (hrun : gap <+: run) :
    document.significantBefore (before ++ gap).length
      = document.significantBefore before.length := by
  obtain ⟨rest, rfl⟩ := hrun
  have hnone : gap.filter (fun token => !token.isTrivia) = [] :=
    List.filter_eq_nil_iff.mpr fun token hmem => by simp [hgap token hmem]
  rw [significantBefore, significantBefore, hsplit, List.take_left, ← List.append_assoc,
    List.take_left, List.filter_append, hnone, List.append_nil]

/-- Behind a significant token and trivia that token was the last significant one. -/
theorem significantBefore_of_last (hlast : last.isTrivia = false) (hgap : Gap Token.isTrivia gap)
    (hsplit : document = before ++ last :: (gap ++ rest)) :
    document.significantBefore (before ++ last :: gap).length = some last := by
  have hnone : gap.filter (fun token => !token.isTrivia) = [] :=
    List.filter_eq_nil_iff.mpr fun token hmem => by simp [hgap token hmem]
  have hassoc : before ++ last :: (gap ++ rest) = (before ++ last :: gap) ++ rest := by simp
  rw [significantBefore, hsplit, hassoc, List.take_left, List.filter_append,
    List.filter_cons_of_pos (by simp [hlast]), hnone, List.getLast?_append]
  rfl

end Run

/-! ## Descriptions that were tried -/

/-- If a description is the last significant token in front of the place, then nothing can be read
behind it. -/
def Reader.Tried {α : Type} (reader : Reader α) (document : Run) (place : Nat) : Prop :=
  ∀ last, document.significantBefore place = some last → last.isDescription = true →
    ∀ found, reader.read (Run.skipTrivia (document.drop place)) ≠ .ok found

/-- Behind what ends with no description there is none to be tried. -/
theorem Reader.tried_of_concludes {α : Type} (reader : Reader α)
    {document before front gap rest : Run} (hsplit : document = before ++ (front ++ gap) ++ rest)
    (hfront : front.Concludes) (hgap : Gap Token.isTrivia gap) :
    reader.Tried document (before ++ (front ++ gap)).length := by
  obtain ⟨inner, last, rfl, htrivia, hdescription⟩ := hfront
  have hwhole : document = (before ++ inner) ++ last :: (gap ++ rest) := by
    rw [hsplit]
    simp
  have hlast := Run.significantBefore_of_last htrivia hgap hwhole
  intro other hother htrue
  have hassoc : before ++ (inner ++ [last] ++ gap) = (before ++ inner) ++ last :: gap := by simp
  rw [hassoc, hlast] at hother
  cases hother
  rw [hdescription] at htrue
  cases htrue

/-! ## Along a scan -/

namespace Trace

variable {kind : DeclarationKind} {document before : Run}
  {segments : List (Segment (Described kind.Declaration))}

/-- A scan that steps over a description has tried to read what is behind it, and what is stepped
over otherwise ends with no description. -/
theorem tried_stepOver {blanks tail : Run} {token : Token} {lineStart closable : Bool}
    (hlooks : LooksAt document before blanks token tail lineStart closable)
    (hattempt : kind.reader.attempt lineStart token tail = .error .noMatch) :
    kind.reader.Tried document
      (before ++ blanks ++ (Run.stepOver closable token tail).1).length := by
  have hsplit := hlooks.state.split
  have htoken := hlooks.significant
  -- where a single token is stepped over, it may be a description
  have hsingle : kind.reader.Tried document (before ++ blanks ++ [token]).length := by
    cases hdescription : token.isDescription with
    | false =>
      have hwhole : document = before ++ blanks ++ ([token] ++ []) ++ tail := by
        rw [hsplit]
        simp
      have htried := kind.reader.tried_of_concludes hwhole
        (Run.Concludes.singleton htoken hdescription) .nil
      rwa [List.append_nil] at htried
    | true =>
      intro last _ _ found hread
      have hdrop : document.drop (before ++ blanks ++ [token]).length = tail := by
        have hassoc : document = (before ++ blanks ++ [token]) ++ tail := by
          rw [hsplit]
          simp
        rw [hassoc, List.drop_left]
      rw [hdrop] at hread
      have hdescribed : kind.reader.described.read (token :: tail)
          = .ok (⟨some token.content, found.1⟩, found.2) :=
        Reader.described_read_eq_ok.mpr (by
          rw [Run.acceptDescription_of_isDescription hdescription]
          exact ⟨rfl, hread⟩)
      rw [Reader.attempt, if_pos (.inl hdescription), hdescribed] at hattempt
      cases hattempt
  rcases Run.stepOver_cases closable token tail with
    ⟨rfl, hopener, body, closer, rest, -, hcloser, rfl, hstep⟩ |
    ⟨rfl, -, -, hstep⟩ | ⟨-, hstep⟩ <;> rw [hstep]
  · have hconcludes : Run.Concludes (token :: (body ++ [closer])) :=
      (Run.Concludes.of_isMark hcloser).append_left (token :: body)
    have hwhole : document = before ++ blanks ++ (token :: (body ++ [closer]) ++ []) ++ rest := by
      rw [hsplit]
      simp
    have htried := kind.reader.tried_of_concludes hwhole hconcludes .nil
    rwa [List.append_nil] at htried
  · exact hsingle
  · exact hsingle

/-- Where a declaration was captured, the scan stood and read it, and if it stood at no description
then none was in front of it. -/
theorem start_of_mem_captures (h : Trace kind.reader document before segments)
    (htried : kind.reader.Tried document before.length) {capture : Capture kind.Declaration}
    (hmem : capture ∈ Segment.captures before.length segments) :
    ∃ front token tail lineStart closable rest, capture.start = List.length front ∧
      capture.stop + List.length rest = document.length ∧
      ScanState document front (token :: tail) lineStart closable ∧ token.isTrivia = false ∧
      kind.reader.attempt lineStart token tail = .ok (capture.found, rest) ∧
      (token.isDescription = false → ∀ last, document.significantBefore front.length = some last →
        last.isDescription = false) := by
  induction h with
  | finish hsplit htrivia => simp [Segment.captures] at hmem
  | giveUp hlooks hattempt => simp [Segment.captures] at hmem
  | @capture before blanks tail consumed rest token lineStart closable found segments hlooks
      hattempt hconsumed next ih =>
    have hsplit := hlooks.state.split
    have hread := Reader.described_read_eq_ok.mp (Reader.read_of_attempt hattempt)
    rw [Segment.captures, Segment.captures, ← List.length_append, ← List.length_append,
      List.mem_cons] at hmem
    rcases hmem with rfl | hmem
    · refine ⟨_, _, _, _, _, _, rfl, ?_, hlooks.state, hlooks.significant, hattempt, ?_⟩
      · rw [hsplit, ← hconsumed]
        simp only [List.length_append]
        omega
      · intro hdescription last hlast
        rw [List.append_assoc] at hsplit
        rw [Run.significantBefore_gap hlooks.blank hsplit (List.prefix_append _ _)] at hlast
        rw [Run.acceptDescription_of_significant hdescription hlooks.significant] at hread
        -- what is read here stands behind `last`, where nothing could be read
        have hdrop : Run.skipTrivia (document.drop before.length) = token :: tail := by
          rw [hsplit, List.drop_left]
          exact Gap.skipTrivia hlooks.blank hlooks.significant
        rw [Bool.eq_false_iff]
        exact fun htrue => htried last hlast htrue _ (by rw [hdrop]; exact hread.2)
    · refine ih ?_ hmem
      obtain ⟨front, gap, hrun, hfront, hgap⟩ := kind.concludes_of_read hread.2
      obtain ⟨described, hdescribed⟩ := Run.acceptDescription_suffix (token :: tail)
      have hwhole : consumed = described ++ (front ++ gap) := by
        have happend : consumed ++ rest = (described ++ (front ++ gap)) ++ rest := by
          rw [hconsumed, ← hdescribed, hrun]
          simp
        exact List.append_cancel_right happend
      have hdocument : document = before ++ blanks ++ described ++ (front ++ gap) ++ rest := by
        rw [hsplit, ← hconsumed, hwhole]
        simp
      rw [hwhole, ← List.append_assoc (before ++ blanks)]
      exact kind.reader.tried_of_concludes hdocument hfront hgap
  | step hlooks hattempt next ih =>
    rw [Segment.captures, Segment.captures, ← List.length_append, ← List.length_append] at hmem
    exact ih (tried_stepOver hlooks hattempt) hmem

end Trace

/-! ## Descriptions of declarations -/

/-- A captured declaration has its first word behind its description and trivia; it has the
description in front of that word, if there is one, and otherwise starts a line. -/
structure Capture.Attached (kind : DeclarationKind) (document : Run)
    (capture : Capture kind.Declaration) : Prop where
  /-- The first word is `extend` or a keyword of the kind. -/
  word : ∃ token, document[capture.keyword document]? = some token ∧ kind.BeginsWith token
  start_le : capture.start ≤ capture.keyword document
  lt_stop : capture.keyword document < capture.stop
  /-- There is no word of the declaration in front of it. -/
  first : ∀ place token, capture.start ≤ place → place < capture.keyword document →
    document[place]? = some token → token.isTrivia = true ∨ token.isDescription = true
  /-- A description in front of the word is that of the declaration, without its quotation
  marks. -/
  described : ∀ last, document.significantBefore (capture.keyword document) = some last →
    last.isDescription = true → document[capture.start]? = some last ∧
      capture.start < capture.keyword document ∧
      ∃ inner, last.text = List.replicate last.quotes '"' ++
          (inner ++ List.replicate last.quotes '"') ∧
        capture.found.description = some (String.ofList inner)
  /-- Without a description in front of the word there is none, and the word starts a line. -/
  undescribed : (∀ last, document.significantBefore (capture.keyword document) = some last →
      last.isDescription = false) →
    capture.found.description = none ∧ capture.start = capture.keyword document ∧
      document.StartsLine (capture.keyword document)

namespace Capture

variable {kind : DeclarationKind} {document front gap others : Run} {token first : Token}
  {capture : Capture kind.Declaration}

/-- A declaration whose first word starts a line has no description. -/
theorem attached_of_startsLine (hsplit : document = front ++ first :: others)
    (hfirst : kind.BeginsWith first) (hstart : capture.start = List.length front)
    (hkeyword : capture.keyword document = List.length front)
    (hstop : List.length front < capture.stop) (hline : document.StartsLine (List.length front))
    (hnone : capture.found.description = none)
    (hbefore : ∀ last, document.significantBefore (List.length front) = some last →
      last.isDescription = false) : capture.Attached kind document where
  word := ⟨first, by rw [hkeyword, hsplit]; simp, hfirst⟩
  start_le := by rw [hstart, hkeyword]
  lt_stop := by rw [hkeyword]; exact hstop
  first place _ hle hlt := by omega
  described last hlast htrue := by
    rw [hkeyword] at hlast
    rw [hbefore last hlast] at htrue
    cases htrue
  undescribed _ := ⟨hnone, by rw [hstart, hkeyword], by rw [hkeyword]; exact hline⟩

/-- A declaration whose first word stands behind a description and a gap has that description. -/
theorem attached_of_description {inner : List Char}
    (hsplit : document = front ++ token :: (gap ++ first :: others))
    (hdescription : token.isDescription = true) (htrivia : token.isTrivia = false)
    (hgap : Gap Token.isTrivia gap) (hfirst : kind.BeginsWith first)
    (hstart : capture.start = List.length front)
    (hkeyword : capture.keyword document = List.length (front ++ token :: gap))
    (hstop : List.length (front ++ token :: gap) < capture.stop)
    (hquoted : token.text
      = List.replicate token.quotes '"' ++ (inner ++ List.replicate token.quotes '"'))
    (hfound : capture.found.description = some (String.ofList inner)) :
    capture.Attached kind document := by
  -- the description is the last significant token in front of the keyword
  have hlast : document.significantBefore (capture.keyword document) = some token := by
    rw [hkeyword]
    exact Run.significantBefore_of_last htrivia hgap hsplit
  have hlt : capture.start < capture.keyword document := by
    rw [hstart, hkeyword]
    simp
  constructor
  case word =>
    refine ⟨first, ?_, hfirst⟩
    have hassoc : document = (front ++ token :: gap) ++ first :: others := by
      rw [hsplit]
      simp
    rw [hkeyword, hassoc, List.getElem?_append_right (Nat.le_refl _), Nat.sub_self]
    rfl
  case start_le => exact Nat.le_of_lt hlt
  case lt_stop => rw [hkeyword]; exact hstop
  case first =>
    intro place other hle hplace hother
    have hassoc : document = front ++ ((token :: gap) ++ first :: others) := by
      rw [hsplit]
      simp
    rw [hstart] at hle
    rw [hkeyword, List.length_append] at hplace
    rw [hassoc, List.getElem?_append_right hle, List.getElem?_append_left (by omega)] at hother
    -- between the start and the keyword there is the description, and then the gap
    rcases List.mem_cons.mp (List.mem_of_getElem? hother) with rfl | hmem
    · exact .inr hdescription
    · exact .inl (hgap other hmem)
  case described =>
    intro last hother _
    rw [hlast] at hother
    cases hother
    exact ⟨by rw [hstart, hsplit]; simp, hlt, inner, hquoted, hfound⟩
  case undescribed =>
    intro hnone
    rw [hnone token hlast] at hdescription
    cases hdescription

end Capture

/-- What a scan captures has the description in front of its first word. -/
theorem DeclarationKind.attached_of_mem_captures (kind : DeclarationKind) (text : List Char)
    {capture : Capture kind.Declaration} (hmem : capture ∈ kind.reader.captures (tokenize text)) :
    capture.Attached kind (tokenize text) := by
  have htried : kind.reader.Tried (tokenize text) (List.length ([] : Run)) :=
    fun last hlast => by simp [Run.significantBefore] at hlast
  obtain ⟨front, token, tail, lineStart, closable, rest, hstart, hstop, hstate, htoken, hattempt,
    hbefore⟩ := (trace_scanSegments kind.isDeclaration_reader _).start_of_mem_captures htried hmem
  have hsplit := hstate.split
  obtain ⟨hdescription, hread⟩ :=
    Reader.described_read_eq_ok.mp (Reader.read_of_attempt hattempt)
  obtain ⟨first, others, hbegins, hfirst⟩ := kind.begins_of_read hread
  have hleft := (kind.reader.left hread).length_lt
  have hkeyword : capture.keyword (tokenize text)
      = (tokenize text).length - (first :: others).length := by
    rw [Capture.keyword, hstart, hsplit, List.drop_left, hbegins]
  rw [hbegins] at hleft
  cases hdescribes : token.isDescription with
  | false =>
    -- the first word is where the scan stood
    rw [Run.acceptDescription_of_significant hdescribes htoken] at hdescription hbegins
    obtain ⟨rfl, rfl⟩ := List.cons.inj hbegins
    have hlength := congrArg List.length hsplit
    rw [List.length_append] at hlength
    have hline : (tokenize text).StartsLine (List.length front) := by
      rw [Reader.attempt] at hattempt
      split at hattempt
      · next hlooked =>
        rw [Run.startsLine_iff, hsplit, List.take_left, hstate.startsLine]
        simpa [hdescribes] using hlooked
      · cases hattempt
    exact Capture.attached_of_startsLine hsplit hfirst hstart (by omega) (by omega) hline
      hdescription (hbefore hdescribes)
  | true =>
    -- the first word is behind the description and a gap
    rw [Run.acceptDescription_of_isDescription hdescribes] at hdescription hbegins
    obtain ⟨gap, hgapSplit, hgap⟩ := Gap.exists_dropWhile Token.isTrivia tail
    rw [show tail.dropWhile Token.isTrivia = first :: others from hbegins] at hgapSplit
    rw [hgapSplit] at hsplit
    have hlength := congrArg List.length hsplit
    simp only [List.length_append, List.length_cons] at hlength hleft hkeyword
    have hmemToken : token ∈ tokenize text := by
      rw [hsplit]
      simp
    obtain ⟨inner, hquoted⟩ := exists_content_of_isDescription hmemToken hdescribes
    rw [Token.content_eq_of_quoted hquoted] at hdescription
    refine Capture.attached_of_description hsplit hdescribes htoken hgap hfirst hstart ?_ ?_ hquoted
      hdescription <;>
    · simp only [List.length_append, List.length_cons]
      omega

/-- **Descriptions stay where they are.**  Every declaration that a scan returns has its first word
behind the description in front of it, with nothing but trivia between them, and has the text
between its quotation marks; without a description in front of it the word starts a line.  The
declarations stand one behind the other, so no two of them share a word or a description. -/
theorem captures_attached (kind : DeclarationKind) (text : String) :
    (kind.reader.captures (Run.ofString text)).map Capture.found
        = kind.declarations (Run.ofString text) ∧
      (∀ capture ∈ kind.reader.captures (Run.ofString text),
        capture.Attached kind (Run.ofString text)) ∧
      (kind.reader.captures (Run.ofString text)).Pairwise fun first second =>
        first.stop ≤ second.start :=
  ⟨Reader.map_found_captures _ _, fun _ => kind.attached_of_mem_captures text.toList,
    Segment.pairwise_captures _ _⟩

/-- A description in front of a comment, a description that describes nothing, and a scalar that
starts a line behind it. -/
theorem captures_attached_scalars :
    (DeclarationKind.scalar.reader.captures
        (Run.ofString "\"d\" # c\nscalar A\n\"\"\"e\"\"\" ?\nextend scalar B")).map (fun capture =>
          (capture.start, capture.keyword
            (Run.ofString "\"d\" # c\nscalar A\n\"\"\"e\"\"\" ?\nextend scalar B"),
            capture.stop, capture.found.description))
        = [(0, 4, 7, some "d"), (12, 12, 17, none)] ∧
      ∀ capture ∈ DeclarationKind.scalar.reader.captures
          (Run.ofString "\"d\" # c\nscalar A\n\"\"\"e\"\"\" ?\nextend scalar B"),
        capture.Attached .scalar
          (Run.ofString "\"d\" # c\nscalar A\n\"\"\"e\"\"\" ?\nextend scalar B") :=
  ⟨by decide +kernel, (captures_attached .scalar _).2.1⟩

end SdlSchema
