/-
# Counting brackets

A default value, and the body of a bracket, are passed over with a count of the brackets that are
open.  The count goes down only where it is not zero, and the text of a body is that from the end of
the opening bracket to the start of the closing one.

* `returns_skipDefault`, `returns_balanced` : brackets are counted as the readers count them;
* `returns_closer` : so are tokens of any two kinds, over any tokens;
* `Follows.block` : a block is taken, and its text is cut out.
-/
import SdlSchema.Proofs.Cursor.Attempt
import SdlSchema.Proofs.Scanning.Closers

namespace SdlSchema

/-! ## Marks that exclude each other -/

namespace Token

variable {token : Token}

/-- An opening bracket goes on with a value. -/
theorem endsValue_of_opensBracket (h : token.opensBracket = true) : token.endsValue = false := by
  rw [opensBracket, isMark, isMark, isMark, Bool.or_eq_true, Bool.or_eq_true, beq_iff_eq,
    beq_iff_eq, beq_iff_eq] at h
  rcases h with (h | h) | h <;>
    simp [endsValue, closesBracket, isMark, isNewline, isMarker, h]

end Token

namespace Walk

variable {text : List Char} {start : Nat} {run rest : Run}

/-- A count that is not zero goes down. -/
theorem check_less_one {depth : Nat} {source : Source} (h : depth ≠ 0) :
    check (less depth 1) source start = .ok (depth - 1, start) := by
  rw [less, if_pos (Nat.one_le_iff_ne_zero.mpr h), check_ok]

/-! ## Default values -/

/-- Takes one more token of a value, `depth` brackets deep, unless the value ends in front of it. -/
def valueTurn (depth : Nat) : Walk (Nat ⊕ Unit) := do
  match ← current with
  | none => pure (.inr ())
  | some ⟨token, _⟩ =>
    if token.opensBracket then do
      let _ ← bump
      pure (.inl (depth + 1))
    else if token.closesBracket then
      if depth = 0 then pure (.inr ())
      else do
        let depth ← check (less depth 1)
        let _ ← bump
        pure (.inl depth)
    else if depth = 0 ∧ (token.isNewline || token.isMark .comma || token.isMarker) then
      pure (.inr ())
    else do
      let _ ← bump
      pure (.inl depth)

/-- Passes over an optional default value. -/
def skipDefault : Walk Unit := do
  if ← eat (.punctuation .equals) then turns valueTurn 0 else pure ()

/-- A token of a value is passed over as the readers do, and no count falls below zero. -/
theorem returns_valueTurn {depth : Nat} (h : At text start run) :
    Returns (valueTurn depth) (Source.of text) start fun outcome stop =>
      match outcome with
      | .inl depth' => start < stop ∧ ∃ left, At text stop left ∧
          run.skipValue depth = Run.skipValue depth' left
      | .inr () => At text stop (run.skipValue depth) := by
  cases run with
  | nil => exact .step (current_eq_none h) (.pure h)
  | cons token tail =>
    obtain ⟨⟨token', range⟩, hcurrent, -, htoken⟩ := current_eq_some h
    obtain rfl : token' = token := htoken
    obtain ⟨lexeme, hbump, -⟩ := bump_eq h
    refine .step hcurrent ?_
    -- whatever the count becomes, one token is taken
    have hgo : ∀ depth', Run.skipValue depth (token' :: tail) = Run.skipValue depth' tail →
        start < start + 1 ∧ ∃ left, At text (start + 1) left ∧
          Run.skipValue depth (token' :: tail) = Run.skipValue depth' left :=
      fun _ hsame => ⟨Nat.lt_succ_self _, tail, h.next, hsame⟩
    rw [Run.skipValue] at hgo ⊢
    refine .ite (fun hopens => ?_) (fun hopens => .ite (fun hcloses => ?_) (fun hcloses => ?_))
    · have hends := Token.endsValue_of_opensBracket hopens
      exact .step hbump (.pure (hgo _ (by rw [if_neg (by simp [hends]), if_pos hopens])))
    · have hends : token'.endsValue = true := by rw [Token.endsValue, hcloses, Bool.or_true]
      refine .ite (fun hzero => ?_) (fun hzero => ?_)
      · rw [if_pos ⟨hzero, hends⟩]
        exact .pure h
      · -- the count is above zero, or the value would have ended here
        refine .step (check_less_one hzero) (.step hbump ?_)
        exact .pure (hgo _ (by rw [if_neg (by simp [hzero]), if_neg hopens, if_pos hcloses]))
    · have hends : token'.endsValue
          = (token'.isNewline || token'.isMark .comma || token'.isMarker) := by
        rw [Token.endsValue, Bool.eq_false_iff.mpr hcloses, Bool.or_false]
      rw [hends] at hgo ⊢
      refine .ite (fun hstops => ?_) (fun hstops => ?_)
      · rw [if_pos hstops]
        exact .pure h
      · exact .step hbump (.pure (hgo _ (by rw [if_neg hstops, if_neg hopens, if_neg hcloses])))

/-- A default value is passed over as the readers do. -/
theorem returns_skipDefault (h : At text start run) :
    Returns skipDefault (Source.of text) start fun _ stop => At text stop run.skipDefault := by
  rw [Run.skipDefault]
  cases htake : run.take? (.punctuation .equals) with
  | none => exact .step (eat_of_take?_none h htake) (.pure h)
  | some rest =>
    obtain ⟨heat, hrest⟩ := eat_of_take? h htake
    refine .step heat (turns_returns (fun depth position =>
      ∃ left, At text position left ∧ rest.skipValue 0 = Run.skipValue depth left)
      ⟨rest, hrest, rfl⟩ hrest.le ?_)
    rintro depth position ⟨left, hleft, hsame⟩
    refine (returns_valueTurn hleft).weaken fun outcome stop houtcome => ?_
    cases outcome with
    | inl depth' =>
      obtain ⟨hlt, left', hleft', hsame'⟩ := houtcome
      exact ⟨⟨left', hleft', hsame.trans hsame'⟩, hlt, hleft'.le⟩
    | inr =>
      dsimp only
      rw [hsame]
      exact houtcome

/-! ## Closers -/

/-- Takes one more token, `depth` openers deep; the closer of the outer opener is the last. -/
def closerTurn (opens closes : Kind) (depth : Nat) : Walk (Nat ⊕ Option Lexeme) := do
  match ← bump with
  | none => pure (.inr none)
  | some lexeme =>
    if lexeme.token.kind == opens then pure (.inl (depth + 1))
    else if lexeme.token.kind == closes then
      if depth = 0 then pure (.inr (some lexeme))
      else do
        let depth ← check (less depth 1)
        pure (.inl depth)
    else pure (.inl depth)

/-- Takes the tokens up to the closer of an opener that was taken before, if there is one. -/
def closer (opens closes : Kind) : Walk (Option Lexeme) := turns (closerTurn opens closes) 0

section Closers

variable {source : Source} {opens closes : Kind} {depth : Nat} {lexeme : Lexeme}

/-- A token is counted as it is from the left, and no count falls below zero. -/
theorem returns_closerTurn (h : source.lexemes[start]? = some lexeme) :
    Returns (closerTurn opens closes depth) source start fun outcome stop =>
      stop = start + 1 ∧ match outcome with
      | .inl inner => Run.closerIndex? opens closes depth (source.run.drop start)
          = (Run.closerIndex? opens closes inner (source.run.drop (start + 1))).map (· + 1)
      | .inr found => found = some lexeme ∧
          Run.closerIndex? opens closes depth (source.run.drop start) = some 0 := by
  refine .step (bump_eq_some h) ?_
  rw [Source.drop_run h, Run.closerIndex?]
  refine .ite (fun hopens => ?_) (fun hopens => .ite (fun hcloses => ?_) (fun hcloses => ?_))
  · exact .pure ⟨rfl, if_pos hopens⟩
  · refine .ite (fun hzero => ?_) (fun hzero => ?_)
    · exact .pure ⟨rfl, rfl, by rw [if_neg hopens, if_pos hcloses, if_pos hzero]⟩
    · refine .step (check_less_one hzero) (.pure ⟨rfl, ?_⟩)
      rw [if_neg hopens, if_pos hcloses, if_neg hzero]
  · exact .pure ⟨rfl, by rw [if_neg hopens, if_neg hcloses]⟩

/-- The closer that is taken is the one that counting finds; without it all tokens are taken. -/
theorem returns_closer (opens closes : Kind) (hstart : start ≤ source.lexemes.length) :
    Returns (closer opens closes) source start fun found stop =>
      match Run.closerIndex? opens closes 0 (source.run.drop start) with
      | some index => stop = start + index + 1 ∧
          ∃ closed, found = some closed ∧ source.lexemes[start + index]? = some closed
      | none => stop = source.lexemes.length ∧ found = none := by
  -- behind the tokens that were taken, counting goes on as deep as was counted
  refine turns_returns (fun depth position => position ≤ source.lexemes.length ∧
    ∃ taken, position = start + taken ∧ Run.closerIndex? opens closes 0 (source.run.drop start)
      = (Run.closerIndex? opens closes depth (source.run.drop position)).map (· + taken))
    ⟨hstart, 0, rfl, by simp⟩ hstart ?_
  rintro depth position ⟨hposition, taken, rfl, hsame⟩
  cases hlexeme : source.lexemes[start + taken]? with
  | none =>
    have hend : start + taken = source.lexemes.length :=
      Nat.le_antisymm hposition (List.getElem?_eq_none_iff.mp hlexeme)
    have hdrop : source.run.drop (start + taken) = [] :=
      List.drop_eq_nil_of_le (by rw [Source.run, List.length_map, hend])
    rw [hdrop] at hsame
    rw [hsame]
    exact .step (bump_eq_none hlexeme) (.pure ⟨hend, rfl⟩)
  | some lexeme =>
    have hlt := (List.getElem?_eq_some_iff.mp hlexeme).1
    refine (returns_closerTurn hlexeme).weaken ?_
    rintro outcome stop ⟨rfl, houtcome⟩
    cases outcome with
    | inl inner =>
      refine ⟨⟨hlt, taken + 1, rfl, ?_⟩, Nat.lt_succ_self _, hlt⟩
      rw [hsame, houtcome, Option.map_map]
      simp [Function.comp_def, Nat.add_assoc, Nat.add_comm 1]
    | inr found =>
      obtain ⟨rfl, hindex⟩ := houtcome
      rw [hindex] at hsame
      rw [hsame]
      dsimp only [Option.map_some]
      rw [Nat.zero_add]
      exact ⟨rfl, lexeme, rfl, hlexeme⟩

end Closers

/-! ## Bodies -/

/-- Takes one more token of a body, `depth` brackets deep; the closer of the outer bracket ends
it. -/
def balancedTurn (bracket : Bracket) (depth : Nat) : Walk (Nat ⊕ Option Lexeme) := do
  match ← bump with
  | none => pure (.inr none)
  | some lexeme =>
    if lexeme.token.isMark bracket.opener then pure (.inl (depth + 1))
    else if lexeme.token.isMark bracket.closer then
      if depth = 0 then pure (.inr (some lexeme))
      else do
        let depth ← check (less depth 1)
        pure (.inl depth)
    else pure (.inl depth)

/-- Takes the body of an open bracket and its closer, if there is one. -/
def balanced (bracket : Bracket) : Walk (Option Lexeme) := turns (balancedTurn bracket) 0

theorem balanced_eq_closer (bracket : Bracket) :
    balanced bracket = closer (.punctuation bracket.opener) (.punctuation bracket.closer) := rfl

/-- The closer of a bracket is the one that the readers find. -/
theorem returns_balanced (bracket : Bracket) (h : At text start run) :
    Returns (balanced bracket) (Source.of text) start fun found stop =>
      match run.balanced bracket 0 with
      | some (body, _) => stop = start + List.length body + 1 ∧ ∃ closed, found = some closed ∧
          (Source.of text).lexemes[start + List.length body]? = some closed
      | none => found = none := by
  rw [balanced_eq_closer, Run.balanced_eq_map_closerIndex?]
  refine (returns_closer _ _ h.le).weaken fun found stop hfound => ?_
  obtain ⟨front, hsplit, rfl⟩ := h
  rw [Source.run_of, hsplit, List.drop_left] at hfound
  cases hindex : Run.closerIndex? (.punctuation bracket.opener)
      (.punctuation bracket.closer) 0 run with
  | none =>
    rw [hindex] at hfound
    exact hfound.2
  | some index =>
    rw [hindex] at hfound
    obtain ⟨rfl, closed, rfl, hclosed⟩ := hfound
    have hlt : front.length + index < (tokenize text).length := by
      rw [← Source.length_lexemes_of]
      exact (List.getElem?_eq_some_iff.mp hclosed).1
    have hlength : (List.take index run).length = index := by
      rw [hsplit, List.length_append] at hlt
      rw [List.length_take]
      omega
    dsimp only [Option.map_some]
    rw [hlength]
    exact ⟨rfl, closed, rfl, hclosed⟩

end Walk

/-! ## Blocks -/

namespace Attempt

open Walk

/-- The next token, if it opens a bracket. -/
def opener (bracket : Bracket) : Walk (Option Lexeme) := do
  let next ← current
  pure (next.filter fun lexeme => lexeme.token.isMark bracket.opener)

/-- Takes the token that opens a bracket, the body and the closer, and gives the text of the body.
-/
def body (bracket : Bracket) (opened : Lexeme) : Attempt String := do
  let _ ← bump
  match ← balanced bracket with
  | none => throw .exhausted
  | some closed => textBetween opened closed

/-- Takes a block, and gives the text inside. -/
def block (bracket : Bracket) : Attempt String := do
  match ← opener bracket with
  | none => throw .noMatch
  | some opened => body bracket opened

variable {text : List Char} {start : Nat} {run inner : Run} (bracket : Bracket)

theorem opener_of_take? (h : At text start run)
    (htake : run.take? (.punctuation bracket.opener) = some inner) :
    ∃ token lexeme, run = token :: inner ∧ (Source.of text).lexemes[start]? = some lexeme ∧
      opener bracket (Source.of text) start = .ok (some lexeme, start) := by
  obtain ⟨token, rfl, hkind⟩ := Run.take?_eq_some htake
  obtain ⟨lexeme, hcurrent, hlexeme, rfl⟩ := current_eq_some h
  have hmark : lexeme.token.isMark bracket.opener = true := beq_iff_eq.mpr hkind
  exact ⟨_, lexeme, rfl, hlexeme, bind_eq_ok.mpr ⟨_, hcurrent,
    congrArg (fun found => Except.ok (found, start)) (Option.filter_some_pos hmark)⟩⟩

theorem opener_of_take?_none (h : At text start run)
    (htake : run.take? (.punctuation bracket.opener) = none) :
    opener bracket (Source.of text) start = .ok (none, start) := by
  cases run with
  | nil => exact bind_eq_ok.mpr ⟨_, current_eq_none h, rfl⟩
  | cons token tail =>
    obtain ⟨lexeme, hcurrent, -, rfl⟩ := current_eq_some h
    rw [Run.take?] at htake
    split at htake
    · cases htake
    · next hkind =>
      exact bind_eq_ok.mpr ⟨_, hcurrent, congrArg (fun found => Except.ok (found, start))
        (Option.filter_some_neg (beq_eq_false_iff_ne.mpr hkind))⟩

namespace Follows

/-- The text between a bracket and its closer is that of the body. -/
theorem body {token : Token} {opened : Lexeme} (hshort : Text.byteLength text < 2 ^ 32)
    (h : At text start (token :: inner))
    (hopened : (Source.of text).lexemes[start]? = some opened) :
    Follows (Attempt.body bracket opened) text start Run.text (inner.closeBracket bracket) := by
  obtain ⟨lexeme, hbump, -⟩ := bump_eq h
  refine step hbump (lift (returns_balanced bracket h.next) fun found stop hfound => ?_)
  rw [Run.closeBracket]
  cases hbalanced : inner.balanced bracket 0 with
  | none =>
    rw [hbalanced] at hfound
    exact hfound ▸ throw _
  | some split =>
    obtain ⟨body, rest⟩ := split
    rw [hbalanced] at hfound
    obtain ⟨rfl, closed, rfl, hclosed⟩ := hfound
    obtain ⟨closer, -, rfl⟩ := Run.balanced_eq hbalanced
    exact walk ((returns_textBetween hshort h hopened hclosed).weaken
      fun _ _ ⟨htext, hstop⟩ => ⟨htext, hstop ▸ h.next.behind.next⟩)

/-- A block is taken where the readers take one, and its text is cut out. -/
theorem block {α β : Type} {tell : α → β} {next : String → Attempt β}
    {second : Run × Run → Except Miss (α × Run)} (hshort : Text.byteLength text < 2 ^ 32)
    (h : At text start run)
    (hnext : ∀ (body rest : Run) stop, At text stop rest →
      Follows (next body.text) text stop tell (second (body, rest))) :
    Follows (Attempt.block bracket >>= next) text start tell
      (run.expect (.punctuation bracket.opener) >>= fun inner =>
        inner.closeBracket bracket >>= second) := by
  have hblock : Follows (Attempt.block bracket) text start Run.text
      (run.expect (.punctuation bracket.opener) >>= fun inner => inner.closeBracket bracket) := by
    rw [Run.expect]
    cases htake : run.take? (.punctuation bracket.opener) with
    | none => exact step (opener_of_take?_none bracket h htake) (throw _)
    | some inner =>
      obtain ⟨token, opened, rfl, hopened, hopener⟩ := opener_of_take? bracket h htake
      exact step hopener (Follows.body bracket hshort h hopened)
  rw [← bind_assoc]
  exact hblock.bind fun body rest stop _ hrest => hnext body rest stop hrest

end Follows

end Attempt

end SdlSchema
