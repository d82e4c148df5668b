/-
# Single steps of a walk

What a walk does at one token: it looks at it, takes it, passes over trivia, takes a description.
Each step does at a position what the readers do on the run that begins there.

* `Walk.returns_eat`, `Walk.eatName_of_name?` : a token or a name is taken;
* `Walk.returns_skipWhile` : tokens are passed over;
* `Walk.returns_acceptDescription` : a description is taken.
-/
import Mathlib.Data.List.Induction
import SdlSchema.Proofs.Lexing.MaximalMunch
import SdlSchema.Proofs.Scanning.Trace
import SdlSchema.Proofs.Cursor.Position

namespace SdlSchema

/-! ## String literals -/

/-- The content of a string literal is what stands between its quotation marks. -/
theorem Token.content_eq_of_quoted {token : Token} {inner : List Char}
    (h : token.text
      = List.replicate token.quotes '"' ++ (inner ++ List.replicate token.quotes '"')) :
    token.content = String.ofList inner := by
  have hlength : token.text.length - 2 * token.quotes = inner.length := by
    rw [h]
    simp only [List.length_append, List.length_replicate]
    omega
  rw [content, hlength, h, List.drop_left' (List.length_replicate ..), List.take_left]

open Lexicon in
/-- A string literal stands between its quotation marks. -/
theorem exists_content_of_isDescription {text : List Char} {token : Token}
    (h : token ∈ tokenize text) (hkind : token.isDescription = true) :
    ∃ inner, token.text
      = List.replicate token.quotes '"' ++ (inner ++ List.replicate token.quotes '"') := by
  obtain ⟨c, rest, rfl⟩ := exists_firstToken_of_mem h
  have hmatches : ∀ kind, (firstToken c rest).1 = kind → kind = .string ∨ kind = .blockString →
      (if kind = .blockString then blockString else string).Matches
        (c :: rest.take (firstToken c rest).2) := by
    rintro kind hfirst (rfl | rfl) <;>
    · obtain ⟨rule, hmem, hrule, hmatches⟩ := matches_of_firstToken hfirst rfl (by simp) (by simp)
      simp only [otherRules, List.mem_cons, List.not_mem_nil, or_false] at hmem
      rcases hmem with rfl | rfl | rfl | rfl | rfl | rfl | rfl | rfl | rfl <;> cases hrule
      exact hmatches
  cases hfirst : (firstToken c rest).1 with
  | string =>
    have hstring := hmatches _ hfirst (Or.inl rfl)
    obtain ⟨_, _, hopener, hbehind, hword⟩ := (Pattern.matches_seq _ _ _).mp hstring
    obtain ⟨inner, _, -, hcloser, rfl⟩ := (Pattern.matches_seq _ _ _).mp hbehind
    obtain ⟨opener, hquote, rfl⟩ := (Pattern.matches_one _ _).mp hopener
    obtain ⟨closer, hquote', rfl⟩ := (Pattern.matches_one _ _).mp hcloser
    obtain rfl : opener = '"' := by simpa using hquote
    obtain rfl : closer = '"' := by simpa using hquote'
    exact ⟨inner, hword⟩
  | blockString =>
    obtain ⟨inner, hword, -⟩ := exists_inner_of_matches (hmatches _ hfirst (Or.inr rfl))
    exact ⟨inner, hword⟩
  | _ => simp [Token.isDescription, hfirst, Kind.isDescription] at hkind

/-! ## The steps -/

namespace Walk

/-- Whether the next token passes the test; at the end there is none. -/
def sees (test : Token → Bool) : Walk Bool := do
  let next ← current
  pure (next.any fun lexeme => test lexeme.token)

/-- Whether no token is left. -/
def atEnd : Walk Bool := fun source position =>
  .ok (decide (source.lexemes.length ≤ position), position)

/-- Takes the next token, if there is one. -/
def bump : Walk (Option Lexeme) := do
  match ← current with
  | some lexeme => do
    advance
    pure (some lexeme)
  | none => pure none

/-- Takes the next token if it has the given kind. -/
def eat (kind : Kind) : Walk Bool := do
  if ← sees fun token => token.kind == kind then do
    advance
    pure true
  else pure false

/-- Takes the next token if it is a name. -/
def eatName : Walk (Option String) := do
  if ← sees Token.isName then do
    let taken ← bump
    pure (taken.map fun lexeme => lexeme.token.word)
  else pure none

/-- Passes over the tokens that pass the test. -/
def skipWhile (test : Token → Bool) : Walk Unit :=
  turns (fun _ => do
    if ← sees test then do
      advance
      pure (.inl ())
    else pure (.inr ())) ()

/-- Passes over trivia. -/
def skipTrivia : Walk Unit := skipWhile Token.isTrivia

/-- Passes over trivia of the line. -/
def skipInline : Walk Unit := skipWhile Token.isInlineTrivia

/-- Whether only blanks stand between the position and the line break in front of it, or the start.
All tokens in front of the position are looked up. -/
def atLineStart : Walk Bool := fun source position =>
  if position ≤ source.lexemes.length then
    let significant := (source.lexemes.take position).reverse.find? fun lexeme =>
      lexeme.token.kind != .whitespace
    .ok (significant.all fun lexeme => lexeme.token.isNewline, position)
  else .error .index

/-- The index of the token that was taken last. -/
def lastTaken : Walk Nat := do
  let next ← position
  check (less next 1)

/-- The text inside the quotation marks of a token. -/
def content (token : Token) : Except Fault String := do
  let stop ← less token.byteLength token.quotes
  Text.cut token.quotes stop token.text

/-- Takes a description, if there is one. -/
def description : Walk (Option String) := do
  if ← sees Token.isDescription then
    match ← bump with
    | some lexeme => do
      let text ← check (content lexeme.token)
      pure (some text)
    | none => pure none
  else pure none

/-- Takes a description and the trivia after it, if there is one. -/
def acceptDescription : Walk (Option String) := do
  let found ← description
  skipTrivia
  pure found

variable {text : List Char} {start : Nat} {run rest : Run}

/-! ## What they do -/

theorem current_eq_none (h : At text start []) :
    current (Source.of text) start = .ok (none, start) := by
  rw [current, h.getElem?_nil]

/-- The token looked at is the first of the run. -/
theorem current_eq_some {token : Token} (h : At text start (token :: rest)) :
    ∃ lexeme, current (Source.of text) start = .ok (some lexeme, start) ∧
      (Source.of text).lexemes[start]? = some lexeme ∧ lexeme.token = token := by
  obtain ⟨front, hsplit, rfl⟩ := h
  have hlexeme := At.getElem?_lexemes hsplit
  exact ⟨_, by rw [current, hlexeme], hlexeme, rfl⟩

/-- A test of the next token is a test of the first of the run, and it fails at the end. -/
theorem sees_eq (h : At text start run) (test : Token → Bool) :
    sees test (Source.of text) start = .ok (run.head?.any test, start) := by
  cases run with
  | nil => exact bind_eq_ok.mpr ⟨_, current_eq_none h, rfl⟩
  | cons token rest =>
    obtain ⟨lexeme, hcurrent, -, rfl⟩ := current_eq_some h
    exact bind_eq_ok.mpr ⟨_, hcurrent, rfl⟩

theorem atEnd_eq (h : At text start run) :
    atEnd (Source.of text) start = .ok (run.isEmpty, start) := by
  obtain ⟨front, hsplit, rfl⟩ := h
  have hlength : (Source.of text).lexemes.length = List.length front + List.length run := by
    rw [Source.length_lexemes_of, hsplit, List.length_append]
  rw [atEnd, hlength]
  cases run <;> simp

/-- The walk may go to any position up to the end. -/
theorem goTo_of_le {source : Source} {target : Nat} (h : target ≤ source.lexemes.length)
    (here : Nat) : goTo target source here = .ok ((), target) := by
  rw [goTo, Nat.min_eq_left h]

theorem goTo_eq {here target : Nat} (h : At text target run) :
    goTo target (Source.of text) here = .ok ((), target) := goTo_of_le h.le here

theorem bump_eq_some {source : Source} {lexeme : Lexeme}
    (h : source.lexemes[start]? = some lexeme) :
    bump source start = .ok (some lexeme, start + 1) :=
  bind_eq_ok.mpr ⟨(some lexeme, start), by rw [current, h], rfl⟩

theorem bump_eq_none {source : Source} (h : source.lexemes[start]? = none) :
    bump source start = .ok (none, start) :=
  bind_eq_ok.mpr ⟨(none, start), by rw [current, h], rfl⟩

/-- Taking the next token leads to the rest of the run. -/
theorem bump_eq {token : Token} (h : At text start (token :: rest)) :
    ∃ lexeme, bump (Source.of text) start = .ok (some lexeme, start + 1) ∧
      (Source.of text).lexemes[start]? = some lexeme ∧ lexeme.token = token := by
  obtain ⟨lexeme, -, hlexeme, htoken⟩ := current_eq_some h
  exact ⟨lexeme, bump_eq_some hlexeme, hlexeme, htoken⟩

/-- A token of the kind that is asked for is taken, and the rest of the run is behind it. -/
theorem eat_of_take? {kind : Kind} (h : At text start run) (htake : run.take? kind = some rest) :
    eat kind (Source.of text) start = .ok (true, start + 1) ∧ At text (start + 1) rest := by
  obtain ⟨token, rfl, hkind⟩ := Run.take?_eq_some htake
  refine ⟨bind_eq_ok.mpr ⟨_, sees_eq h _, ?_⟩, h.next⟩
  rw [List.head?_cons, Option.any_some, hkind, beq_self_eq_true]
  rfl

theorem eat_of_take?_none {kind : Kind} (h : At text start run) (htake : run.take? kind = none) :
    eat kind (Source.of text) start = .ok (false, start) := by
  refine bind_eq_ok.mpr ⟨_, sees_eq h _, ?_⟩
  have hhead : (run.head?.any fun token => token.kind == kind) = false := by
    cases run with
    | nil => rfl
    | cons token tail =>
      rw [Run.take?] at htake
      split at htake
      · cases htake
      · next hkind => simpa using hkind
  rw [hhead]
  rfl

/-- A token that may be there is accepted as the run accepts it. -/
theorem returns_eat {kind : Kind} (h : At text start run) :
    Returns (eat kind) (Source.of text) start fun found stop =>
      found = (run.accept kind).1 ∧ At text stop (run.accept kind).2 := by
  rw [Run.accept]
  cases htake : run.take? kind with
  | some rest =>
    obtain ⟨heat, hrest⟩ := eat_of_take? h htake
    exact ⟨true, start + 1, heat, rfl, hrest⟩
  | none => exact ⟨false, start, eat_of_take?_none h htake, rfl, h⟩

/-- A name is taken with its text, and the rest of the run is behind it. -/
theorem eatName_of_name? {name : String} (h : At text start run)
    (hname : run.name? = some (name, rest)) :
    eatName (Source.of text) start = .ok (some name, start + 1) ∧ At text (start + 1) rest := by
  cases run with
  | nil => cases hname
  | cons token tail =>
    rw [Run.name?] at hname
    split at hname
    · next htoken =>
      cases hname
      obtain ⟨lexeme, hbump, -, rfl⟩ := bump_eq h
      refine ⟨bind_eq_ok.mpr ⟨_, sees_eq h _, ?_⟩, h.next⟩
      rw [List.head?_cons, Option.any_some, htoken]
      exact bind_eq_ok.mpr ⟨_, hbump, rfl⟩
    · cases hname

theorem eatName_of_name?_none (h : At text start run) (hname : run.name? = none) :
    eatName (Source.of text) start = .ok (none, start) := by
  refine bind_eq_ok.mpr ⟨_, sees_eq h _, ?_⟩
  have hhead : run.head?.any Token.isName = false := by
    cases run with
    | nil => rfl
    | cons token tail =>
      rw [Run.name?] at hname
      split at hname
      · cases hname
      · next htoken => simpa using htoken
  rw [hhead]
  rfl

/-- Passing over tokens leads to the first that does not pass the test. -/
theorem returns_skipWhile (h : At text start run) (test : Token → Bool) :
    Returns (skipWhile test) (Source.of text) start
      fun _ stop => At text stop (run.dropWhile test) := by
  refine turns_returns (fun _ position => ∃ left, At text position left ∧
    left.dropWhile test = run.dropWhile test) ⟨run, h, rfl⟩ h.le ?_
  rintro - position ⟨left, hleft, hsame⟩
  refine .step (sees_eq hleft test) ?_
  cases left with
  | nil => exact .pure (hsame ▸ hleft)
  | cons token tail =>
    rw [List.dropWhile_cons] at hsame
    rw [List.head?_cons, Option.any_some]
    cases htoken : test token with
    | true =>
      rw [htoken, if_pos rfl] at hsame
      exact .step (a := ()) rfl (.pure ⟨⟨tail, hleft.next, hsame⟩, Nat.lt_succ_self _, hleft.lt⟩)
    | false =>
      rw [htoken, if_neg (by simp)] at hsame
      exact .pure (hsame ▸ hleft)

/-- Of the tokens in front, the last that is no blank tells whether a line starts behind them. -/
theorem all_find?_reverse (lexemes : List Lexeme) :
    ((lexemes.reverse.find? fun lexeme => lexeme.token.kind != .whitespace).all
      fun lexeme => lexeme.token.isNewline)
      = Run.endsAtLineStart true (lexemes.map Lexeme.token) := by
  induction lexemes using List.reverseRecOn with
  | nil => rfl
  | append_singleton lexemes lexeme ih =>
    rw [List.map_append, EndsInLine.endsAtLineStart_append, ← ih, List.reverse_append,
      List.reverse_singleton, List.singleton_append, List.find?_cons, List.map_singleton,
      Run.endsAtLineStart, Run.endsAtLineStart]
    by_cases hblank : lexeme.token.kind = .whitespace
    · simp [hblank, Token.isNewline]
    · rw [bne_iff_ne.mpr hblank, beq_eq_false_iff_ne.mpr hblank]
      simp

/-- What stands in front of a position tells whether a line starts there. -/
theorem atLineStart_eq {front : Run} (hsplit : tokenize text = front ++ run) :
    atLineStart (Source.of text) (List.length front)
      = .ok (Run.endsAtLineStart true front, List.length front) := by
  have hat : At text (List.length front) run := ⟨front, hsplit, rfl⟩
  have hfront : ((Source.of text).lexemes.take (List.length front)).map Lexeme.token = front := by
    rw [List.map_take]
    show (Source.of text).run.take _ = front
    rw [Source.run_of, hsplit, List.take_left]
  rw [atLineStart, if_pos hat.le]
  exact congrArg (fun starts => Except.ok (starts, List.length front))
    ((all_find?_reverse _).trans (by rw [hfront]))

theorem lastTaken_eq (source : Source) (start : Nat) :
    lastTaken source (start + 1) = .ok (start, start + 1) := rfl

/-- The quotation marks of a string literal are cut off without a fault. -/
theorem content_eq {token : Token} (h : token ∈ tokenize text)
    (hkind : token.isDescription = true) : content token = .ok token.content := by
  obtain ⟨inner, hquoted⟩ := exists_content_of_isDescription h hkind
  have hmarks : Text.byteLength (List.replicate token.quotes '"') = token.quotes := by
    rw [Token.quotes]
    split <;> rfl
  have hlength : token.byteLength = token.quotes + (Text.byteLength inner + token.quotes) := by
    rw [Run.byteLength_token, hquoted, Text.byteLength_append, Text.byteLength_append, hmarks]
  have hless : less token.byteLength token.quotes = .ok (token.quotes + Text.byteLength inner) := by
    rw [less, if_pos (by omega)]
    congr 1
    omega
  have hstart : Text.isBoundary token.quotes token.text = true :=
    Text.isBoundary_iff.mpr ⟨_, _, hquoted, hmarks⟩
  have hstop : Text.isBoundary (token.quotes + Text.byteLength inner) token.text = true :=
    Text.isBoundary_iff.mpr ⟨List.replicate token.quotes '"' ++ inner, _,
      by rw [hquoted, List.append_assoc], by rw [Text.byteLength_append, hmarks]⟩
  have hslice := Text.slice_append (List.replicate token.quotes '"') inner
    (List.replicate token.quotes '"')
  rw [hmarks, ← hquoted] at hslice
  rw [content, hless, Token.content_eq_of_quoted hquoted]
  show Text.cut _ _ _ = _
  rw [Text.cut, if_pos ⟨Nat.le_add_right _ _, hstart, hstop⟩, hslice]

/-- A description is taken as the readers take it. -/
theorem returns_acceptDescription (h : At text start run) :
    Returns acceptDescription (Source.of text) start fun found stop =>
      found = run.acceptDescription.1 ∧ At text stop run.acceptDescription.2 := by
  cases run with
  | nil =>
    have hnone : description (Source.of text) start = .ok (none, start) :=
      bind_eq_ok.mpr ⟨_, sees_eq h _, rfl⟩
    refine .step hnone ((returns_skipWhile h _).bind fun _ stop hstop => .pure ⟨rfl, hstop⟩)
  | cons token tail =>
    rw [Run.acceptDescription]
    have hsees := sees_eq h Token.isDescription
    rw [List.head?_cons, Option.any_some] at hsees
    cases htoken : token.isDescription with
    | true =>
      obtain ⟨lexeme, hbump, -, rfl⟩ := bump_eq h
      have hcontent := content_eq (h.mem List.mem_cons_self) htoken
      rw [htoken] at hsees
      have hfound : description (Source.of text) start
          = .ok (some lexeme.token.content, start + 1) :=
        bind_eq_ok.mpr ⟨_, hsees, bind_eq_ok.mpr ⟨_, hbump,
          bind_eq_ok.mpr ⟨_, by rw [hcontent, check_ok], rfl⟩⟩⟩
      exact .step hfound ((returns_skipWhile h.next _).bind fun _ stop hstop => .pure ⟨rfl, hstop⟩)
    | false =>
      rw [htoken] at hsees
      have hnone : description (Source.of text) start = .ok (none, start) :=
        bind_eq_ok.mpr ⟨_, hsees, rfl⟩
      exact .step hnone ((returns_skipWhile h _).bind fun _ stop hstop => .pure ⟨rfl, hstop⟩)

end Walk

end SdlSchema
