/-
# Scans by positions

A scan of a body takes item after item, and one of a document looks for declarations.  Each turn of
either goes further right, whatever it finds, so a scan ends; and it finds what the readers find.

* `returns_items`, `returns_elements` : the items of a body;
* `returns_scan` : the declarations of a document.
-/
import SdlSchema.Proofs.Abridging.Bodies
import SdlSchema.Proofs.Cursor.Constructs

namespace SdlSchema

open Walk

variable {α β : Type}

/-! ## Bodies -/

namespace Attempt

/-- Takes one more item behind separators, and recovers from a miss; the recovery tells whether the
scan goes on. -/
def itemTurn (attempt : Attempt β) (recover : Nat → Miss → Walk Bool) (found : List β) :
    Walk (List β ⊕ List β) := do
  skipWhile Token.isSeparator
  if ← atEnd then pure (.inr found)
  else do
    let start ← position
    match ← attempt.run with
    | .ok item => pure (.inl (found ++ [item]))
    | .error miss => do
      if ← recover start miss then pure (.inl found) else pure (.inr found)

/-- Takes item after item. -/
def items (attempt : Attempt β) (recover : Nat → Miss → Walk Bool) : Walk (List β) :=
  Walk.turns (itemTurn attempt recover) []

/-- Passes over the rest of the line and its line break. -/
def recoverToLineEnd : Walk Unit := do
  skipWhile fun token => !token.isNewline
  let _ ← eat .newline
  pure ()

/-- After a miss a scan of fields goes on with the next line, unless the text has ended. -/
def recoverField (start : Nat) : Miss → Walk Bool
  | .noMatch => do
    goTo start
    recoverToLineEnd
    pure true
  | .exhausted => pure false

/-- After a miss a scan of arguments goes on at the next comma or line break. -/
def recoverArgument (start : Nat) (_ : Miss) : Walk Bool := do
  goTo (start + 1)
  skipWhile fun token => !(token.isNewline || token.isMark .comma)
  pure true

/-- Takes one more element behind separators, or else passes over a token. -/
def elementTurn (found : List ElementText) : Walk (List ElementText ⊕ List ElementText) := do
  skipWhile Token.isSeparator
  if ← atEnd then pure (.inr found)
  else do
    match ← eatName with
    | some name => do
      let markers ← acceptMarkers Token.isInlineTrivia
      pure (.inl (found ++ [⟨name, markers⟩]))
    | none => do
      let _ ← bump
      pure (.inl found)

/-- Takes element after element. -/
def elements : Walk (List ElementText) := Walk.turns elementTurn []

end Attempt

/-! ## Documents -/

namespace Attempt

/-- Whether a declaration may begin here: behind a description, or where a line starts. -/
def mayBegin (description : Option String) : Walk Bool :=
  if description.isSome then pure true else atLineStart

/-- Takes a declaration with its description, where one may begin. -/
def attemptHere (attempt : Attempt β) : Attempt (Described β) := do
  let found ← acceptDescription
  if ← mayBegin found then do
    let item ← attempt
    pure ⟨found, item⟩
  else throw .noMatch

/-- Passes over a block if one opens here.  Stays where it is if the block does not close, and tells
so. -/
def skipBlock : Walk Bool := do
  let start ← position
  if ← eat (.punctuation .leftBrace) then do
    match ← balanced .brace with
    | some _ => pure true
    | none => do
      goTo start
      pure false
  else pure true

/-- Passes over a block if one opens here, as long as blocks are believed to close. -/
def skipClosable (closable : Bool) : Walk Bool := if closable then skipBlock else pure false

/-- Passes over a block or a token, and tells whether blocks are still believed to close. -/
def stepOver (start : Nat) (closable : Bool) : Walk Bool := do
  let closable ← skipClosable closable
  let here ← position
  if here = start then do
    let _ ← bump
    pure closable
  else pure closable

/-- Takes one more declaration behind trivia, or else steps on. -/
def scanTurn (attempt : Attempt β) (state : List (Described β) × Bool) :
    Walk ((List (Described β) × Bool) ⊕ List (Described β)) := do
  skipTrivia
  if ← atEnd then pure (.inr state.1)
  else do
    let start ← position
    match ← (attemptHere attempt).run with
    | .ok item => pure (.inl (state.1 ++ [item], state.2))
    | .error .exhausted => pure (.inr state.1)
    | .error .noMatch => do
      goTo start
      let closable ← stepOver start state.2
      pure (.inl (state.1, closable))

/-- Takes declaration after declaration. -/
def scan (attempt : Attempt β) : Walk (List (Described β)) :=
  Walk.turns (scanTurn attempt) ([], true)

end Attempt

/-! ## Item after item -/

namespace Attempt

variable {reader : Reader α} {separates resumes : Token → Bool} {tell : α → β} {text : List Char}
  {start here : Nat} {run left : Run} {token : Token} {tail : Run}

/-- A recovery goes on where the readers go on, or else gives up as they do. -/
structure Recovers (reader : Reader α) (recover : Nat → Miss → Walk Bool) (text : List Char)
    (resumes : Token → Bool) : Prop where
  noMatch : ∀ {start here token tail}, At text start (token :: tail) →
    token.isSeparator = false → Returns (recover start .noMatch) (Source.of text) here
      fun goesOn stop => goesOn = true ∧ start < stop ∧ ∃ left, At text stop left ∧
        left.dropWhile Token.isSeparator
          = (tail.dropWhile fun t => !resumes t).dropWhile Token.isSeparator
  exhausted : ∀ {start here run}, reader.read run = .error .exhausted →
    Returns (recover start .exhausted) (Source.of text) here fun goesOn _ => goesOn = false

theorem returns_items {attempt : Attempt β} {recover : Nat → Miss → Walk Bool}
    (hattempt : ∀ {start run}, At text start run →
      Follows attempt text start tell (reader.read run))
    (hrecover : Recovers reader recover text resumes) (h : At text start run) :
    Returns (items attempt recover) (Source.of text) start fun found _ =>
      found = (reader.items Token.isSeparator resumes run).map tell := by
  -- what was found so far and what is found in the rest are together what the run gives
  refine turns_returns (fun found position => ∃ left, At text position left ∧
    found ++ (reader.items Token.isSeparator resumes left).map tell
      = (reader.items Token.isSeparator resumes run).map tell) ⟨run, h, rfl⟩ h.le ?_
  rintro found position ⟨left, hleft, hsame⟩
  refine (returns_skipWhile hleft _).bind fun _ stop hstop => ?_
  refine .step (atEnd_eq hstop) ?_
  rw [Abridgement.items_eq] at hsame
  cases hdrop : left.dropWhile Token.isSeparator with
  | nil =>
    rw [hdrop] at hsame
    exact .pure (by simpa using hsame)
  | cons token tail =>
    have hseparator : token.isSeparator = false := by
      have hhead := List.head?_dropWhile_not Token.isSeparator left
      rw [hdrop] at hhead
      simpa using hhead
    -- no attempt is made at a separator, so that the walk begins behind all of them
    obtain ⟨middle, -, hle⟩ := hleft.stretch hstop (List.dropWhile_suffix _)
    rw [hdrop] at hsame hstop
    dsimp only at hsame
    refine .step (position_eq _ _) (Returns.bind (hattempt hstop) fun result stop' hresult => ?_)
    cases hread : reader.read (token :: tail) with
    | ok taken =>
      obtain ⟨item, rest⟩ := taken
      rw [hread] at hsame hresult
      obtain ⟨rfl, hrest⟩ := hresult
      have hlt := hstop.lt_of_left hrest (reader.left hread)
      exact .pure ⟨⟨rest, hrest, by simpa using hsame⟩, by omega, hrest.le⟩
    | error miss =>
      rw [hread] at hsame hresult
      obtain rfl := hresult
      cases miss with
      | exhausted =>
        refine (hrecover.exhausted hread).bind fun goesOn _ hgoesOn => ?_
        exact hgoesOn ▸ .pure (by simpa using hsame)
      | noMatch =>
        refine (hrecover.noMatch hstop hseparator).bind
          fun goesOn stop ⟨hgoesOn, hlt, left', hleft', hdrop'⟩ => ?_
        subst hgoesOn
        exact .pure ⟨⟨left', hleft', by rw [Reader.items_congr hdrop', hsame]⟩, by omega, hleft'.le⟩

/-! ## Recoveries -/

theorem returns_recoverToLineEnd (h : At text start run) :
    Returns recoverToLineEnd (Source.of text) start fun _ stop => ∃ left, At text stop left ∧
      left <:+ run.dropWhile (fun token => !token.isNewline) ∧
        left.dropWhile Token.isSeparator
          = (run.dropWhile fun token => !token.isNewline).dropWhile Token.isSeparator := by
  refine (returns_skipWhile h _).bind fun _ stop hstop => ?_
  generalize run.dropWhile (fun token => !token.isNewline) = line at hstop ⊢
  refine (returns_eat hstop).bind fun _ stop ⟨_, hend⟩ => .pure ⟨_, hend, ?_⟩
  rw [Run.accept]
  cases htake : Run.take? .newline line with
  | none => exact ⟨List.suffix_refl _, rfl⟩
  | some rest =>
    obtain ⟨token, rfl, hkind⟩ := Run.take?_eq_some htake
    have hseparator := Token.isSeparator_of_isNewline (beq_iff_eq.mpr hkind)
    exact ⟨List.suffix_cons token rest, by rw [List.dropWhile_cons_of_pos hseparator]⟩

theorem recovers_recoverField : Recovers FieldLine.reader.described recoverField text
    Token.isNewline where
  noMatch {start here token tail} h hseparator := by
    have hnewline : token.isNewline = false := by
      rw [Bool.eq_false_iff]
      exact fun hnewline => by simp [Token.isSeparator_of_isNewline hnewline] at hseparator
    refine .step (goTo_eq h) ((returns_recoverToLineEnd h).bind
      fun _ stop ⟨left, hleft, hsuffix, hdrop⟩ => ?_)
    rw [List.dropWhile_cons_of_pos (by simp [hnewline])] at hsuffix hdrop
    refine .pure ⟨rfl, h.lt_of_left hleft ⟨token, tail, rfl, ?_⟩, left, hleft, hdrop⟩
    exact hsuffix.trans (List.dropWhile_suffix _)
  exhausted _ := .pure rfl

theorem recovers_recoverArgument : Recovers ArgumentLine.reader.described recoverArgument text
    (fun token => token.isNewline || token.isMark .comma) where
  noMatch {start here token tail} h _ := by
    refine .step (goTo_eq h.next) ((returns_skipWhile h.next _).bind fun _ stop hstop => ?_)
    refine .pure ⟨rfl, h.lt_of_left hstop ⟨token, tail, rfl, ?_⟩, _, hstop, rfl⟩
    exact List.dropWhile_suffix _
  exhausted {start here run} hread := by
    rcases bind_eq_error.mp hread with hread | ⟨_, -, hread⟩
    · exact absurd hread (ArgumentLine.read_ne_exhausted _)
    · cases hread

/-! ## Element after element -/

/-- The elements of a list are taken as the readers take them. -/
theorem returns_elements (hshort : Text.byteLength text < 2 ^ 32) (h : At text start run) :
    Returns elements (Source.of text) start fun found _ =>
      found = (SdlSchema.elements run).map Element.texts := by
  refine turns_returns (fun found position => ∃ left, At text position left ∧
    found ++ (SdlSchema.elements left).map Element.texts
      = (SdlSchema.elements run).map Element.texts) ⟨run, h, rfl⟩ h.le ?_
  rintro found position ⟨left, hleft, hsame⟩
  refine (returns_skipWhile hleft _).bind fun _ stop hstop => ?_
  obtain ⟨middle, -, hle⟩ := hleft.stretch hstop (List.dropWhile_suffix _)
  refine .step (atEnd_eq hstop) ?_
  rw [← elements_dropWhile_isSeparator] at hsame
  cases hdrop : left.dropWhile Token.isSeparator with
  | nil =>
    rw [hdrop, elements_nil] at hsame
    exact .pure (by simpa using hsame)
  | cons token tail =>
    rw [hdrop] at hsame hstop
    rw [elements_cons] at hsame
    cases hname : token.isName with
    | true =>
      have hname? : Run.name? (token :: tail) = some (token.word, tail) := if_pos hname
      obtain ⟨heat, hrest⟩ := eatName_of_name? hstop hname?
      refine .step heat ((returns_acceptMarkers hshort hrest skipsTrivia_isInlineTrivia).bind
        fun markers stop ⟨hmarkers, hend⟩ => .pure ?_)
      obtain ⟨middle, -, hle'⟩ := hrest.stretch hend (Run.acceptMarkers_suffix _ _)
      rw [hname, if_pos rfl] at hsame
      refine ⟨⟨_, hend, ?_⟩, by omega, hend.le⟩
      rw [hmarkers, elements_acceptMarkers, ← hsame]
      simp [Element.texts]
    | false =>
      have hname? : Run.name? (token :: tail) = none := if_neg (by simp [hname])
      obtain ⟨lexeme, hbump, -⟩ := bump_eq hstop
      refine .step (eatName_of_name?_none hstop hname?) (.step hbump (.pure ?_))
      rw [hname, if_neg (by simp)] at hsame
      exact ⟨⟨tail, hstop.next, hsame⟩, by omega, hstop.lt⟩

/-! ## Steps of a scan -/

section Blocks

variable {closable : Bool} {body rest : Run}

theorem skipBlock_of_closed (h : At text start (token :: tail))
    (hopens : token.isMark .leftBrace = true)
    (hbalanced : Run.balanced .brace 0 tail = some (body, rest)) :
    Returns skipBlock (Source.of text) start fun closable stop =>
      closable = true ∧ start < stop ∧ At text stop rest := by
  have htake : Run.take? (.punctuation .leftBrace) (token :: tail) = some tail :=
    if_pos (beq_iff_eq.mp hopens)
  obtain ⟨heat, hrest⟩ := eat_of_take? h htake
  refine .step (position_eq _ _) (.step heat ?_)
  refine (returns_balanced .brace hrest).bind fun found stop hfound => ?_
  rw [hbalanced] at hfound
  obtain ⟨rfl, closed, rfl, -⟩ := hfound
  obtain ⟨closer, -, rfl⟩ := Run.balanced_eq hbalanced
  exact .pure ⟨rfl, by omega, hrest.behind.next⟩

theorem skipBlock_of_unclosed (h : At text start (token :: tail))
    (hopens : token.isMark .leftBrace = true) (hbalanced : Run.balanced .brace 0 tail = none) :
    Returns skipBlock (Source.of text) start fun closable stop =>
      closable = false ∧ stop = start := by
  have htake : Run.take? (.punctuation .leftBrace) (token :: tail) = some tail :=
    if_pos (beq_iff_eq.mp hopens)
  obtain ⟨heat, hrest⟩ := eat_of_take? h htake
  refine .step (position_eq _ _) (.step heat ?_)
  refine (returns_balanced .brace hrest).bind fun found stop hfound => ?_
  rw [hbalanced] at hfound
  exact hfound ▸ .step (goTo_eq h) (.pure ⟨rfl, rfl⟩)

theorem skipBlock_of_other (h : At text start (token :: tail))
    (hopens : token.isMark .leftBrace = false) :
    skipBlock (Source.of text) start = .ok (true, start) := by
  have htake : Run.take? (.punctuation .leftBrace) (token :: tail) = none :=
    if_neg fun hkind => absurd (beq_iff_eq.mpr hkind) (by simpa [Token.isMark] using hopens)
  exact bind_eq_ok.mpr ⟨_, position_eq _ _, bind_eq_ok.mpr ⟨_, eat_of_take?_none h htake, rfl⟩⟩

/-- A block or a token is stepped over as the readers do. -/
theorem returns_stepOver (h : At text start (token :: tail)) :
    Returns (stepOver start closable) (Source.of text) start fun closable' stop =>
      closable' = (Run.stepOver closable token tail).2.2 ∧
        At text stop (Run.stepOver closable token tail).2.1 := by
  obtain ⟨lexeme, hbump, -⟩ := bump_eq h
  rcases Run.stepOver_cases closable token tail with
    ⟨rfl, hopens, body, closer, rest, hbalanced, -, -, hstep⟩ | ⟨rfl, hopens, hbalanced, hstep⟩ |
    ⟨hopens, hstep⟩ <;> rw [hstep]
  · refine (skipBlock_of_closed h hopens hbalanced).bind
      fun closable stop ⟨hclosable, hlt, hrest⟩ => .step (position_eq _ _) ?_
    exact .ite (fun heq => absurd heq (by omega)) fun _ => .pure ⟨hclosable, hrest⟩
  · refine (skipBlock_of_unclosed h hopens hbalanced).bind
      fun closable stop ⟨hclosable, hstop⟩ => .step (position_eq _ _) ?_
    exact .ite (fun _ => hstop ▸ .step hbump (.pure ⟨hclosable, h.next⟩))
      fun hne => absurd hstop hne
  · have hskip : skipClosable closable (Source.of text) start = .ok (closable, start) := by
      cases closable with
      | true => exact skipBlock_of_other h (hopens rfl)
      | false => rfl
    refine .step hskip (.step (position_eq _ _) ?_)
    exact .ite (fun _ => .step hbump (.pure ⟨rfl, h.next⟩)) fun hne => absurd rfl hne

end Blocks

/-! ## Declaration after declaration -/

/-- A declaration is looked for where the readers look for one. -/
theorem Follows.attemptHere {attempt : Attempt β} {front : Run}
    (hattempt : ∀ {start run}, At text start run →
      Follows attempt text start tell (reader.read run))
    (hsplit : tokenize text = front ++ token :: tail) (hsignificant : token.isTrivia = false) :
    Follows (Attempt.attemptHere attempt) text (List.length front) (Described.map tell)
      (reader.attempt (front.endsAtLineStart true) token tail) := by
  have h : At text (List.length front) (token :: tail) := ⟨front, hsplit, rfl⟩
  refine lift (returns_acceptDescription h) fun found stop ⟨hfound, hstop⟩ => ?_
  have hmay : mayBegin found (Source.of text) stop
      = .ok (token.isDescription || front.endsAtLineStart true, stop) := by
    rw [hfound, Run.acceptDescription]
    cases hdescription : token.isDescription with
    | true => rfl
    | false =>
      rw [Run.acceptDescription, hdescription, if_neg (by simp),
        Run.skipTrivia_significant hsignificant] at hstop
      rw [h.unique hstop]
      exact atLineStart_eq hsplit
  rw [Reader.attempt]
  refine step hmay ?_
  simp only [Bool.or_eq_true]
  exact ite (fun _ => behindDescription hfound (hattempt hstop)) fun _ => throw _

/-- The declarations of a document are taken as the readers take them. -/
theorem returns_scan {attempt : Attempt β} (hreader : reader.IsDeclaration)
    (hattempt : ∀ {start run}, At text start run →
      Follows attempt text start tell (reader.read run)) :
    Returns (scan attempt) (Source.of text) 0 fun found _ =>
      found = (reader.scan (tokenize text)).map (Described.map tell) := by
  -- what is known of the document in front of the position is what the scan of the readers knows
  refine turns_returns (fun state position => ∃ before left lineStart,
    ScanState (tokenize text) before left lineStart state.2 ∧ position = List.length before ∧
      state.1 ++ (reader.scanFrom lineStart state.2 left).map (Described.map tell)
        = (reader.scan (tokenize text)).map (Described.map tell))
    ⟨[], tokenize text, true, ScanState.start _, rfl, rfl⟩ (Nat.zero_le _) ?_
  rintro ⟨found, closable⟩ position ⟨before, left, lineStart, hstate, rfl, hsame⟩
  have hleft : At text (List.length before) left := ⟨before, hstate.split, rfl⟩
  refine (returns_skipWhile hleft _).bind fun _ stop hstop => ?_
  rw [← Run.skipTrivia] at hstop
  refine .step (atEnd_eq hstop) ?_
  rw [Reader.scanFrom_eq] at hsame
  cases hskip : left.skipTrivia with
  | nil =>
    rw [hskip] at hsame
    exact .pure (by simpa using hsame)
  | cons token tail =>
    obtain ⟨middle, -, hle⟩ := hleft.stretch hstop (Run.skipTrivia_suffix left)
    have hlooks := hstate.looksAt hskip
    rw [hskip] at hsame hstop
    dsimp only at hsame
    obtain rfl := At.unique ⟨_, hlooks.state.split, rfl⟩ hstop
    have hfollows := Follows.attemptHere hattempt hlooks.state.split hlooks.significant
    rw [hlooks.state.startsLine] at hfollows
    refine .step (position_eq _ _) (Returns.bind hfollows fun result stop hresult => ?_)
    cases hread : reader.attempt (Run.endsAtLineStart lineStart (left.takeWhile Token.isTrivia))
        token tail with
    | ok taken =>
      obtain ⟨item, rest⟩ := taken
      rw [hread] at hsame hresult
      obtain ⟨rfl, hrest⟩ := hresult
      have hnext := hlooks.state.capture hreader (Reader.read_of_attempt hread)
      have hlt := hstop.lt_of_left hrest (Reader.attempt_left hread)
      exact .pure ⟨⟨_, rest, false, hnext, At.unique ⟨_, hnext.split, rfl⟩ hrest,
        by simpa using hsame⟩, by omega, hrest.le⟩
    | error miss =>
      rw [hread] at hsame hresult
      obtain rfl := hresult
      cases miss with
      | exhausted => exact .pure (by simpa using hsame)
      | noMatch =>
        refine .step (goTo_eq hstop) ((returns_stepOver hstop).bind ?_)
        rintro _ stop ⟨rfl, hrest⟩
        have hnext := hlooks.state.stepOver hlooks.significant
        have hlt := hstop.lt_of_left hrest
          ⟨token, tail, rfl, Run.stepOver_suffix closable token tail⟩
        exact .pure ⟨⟨_, _, false, hnext, At.unique ⟨_, hnext.split, rfl⟩ hrest, hsame⟩,
          by omega, hrest.le⟩

end Attempt

end SdlSchema
