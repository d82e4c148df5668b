/-
# Walks over tokens

The readers take tokens from the left of a run.  A walk does the same with a number, the position
of the next token: it looks tokens up by their index, cuts text out by byte offsets, and goes back
to a position that it kept.  Each of these can fail, and a walk that fails gives a fault instead of
a result.  What a walk returns, when it does, is said by a condition on its result and on the
position it reaches.

* `Fault` : what can fail;
* `Walk.Returns` : a walk ends without a fault, with such a result;
* `Walk.Returns.bind`, `Walk.turns_returns` : one walk after the other, and a loop.
-/
import SdlSchema.Reading.Basic
import SdlSchema.Proofs.Lexing.Lossless

namespace SdlSchema

/-! ## Faults -/

/-- Why a walk can fail. -/
inductive Fault where
  /-- A token, or a stretch of tokens, goes beyond the last token. -/
  | index
  /-- A range of bytes ends before it starts. -/
  | range
  /-- A text is cut beyond its ends or inside a character. -/
  | slice
  /-- A number would fall below zero. -/
  | underflow
  /-- A loop takes more turns than there are tokens. -/
  | endless
  deriving DecidableEq

/-- A range of bytes, counted in 32 bits. -/
structure ByteRange where
  start : UInt32
  stop : UInt32

/-- The range between two bytes, which has to start first. -/
def ByteRange.between (start stop : UInt32) : Except Fault ByteRange :=
  if start ≤ stop then .ok ⟨start, stop⟩ else .error .range

/-- A number less another, which may not be greater. -/
def less (n m : Nat) : Except Fault Nat := if m ≤ n then .ok (n - m) else .error .underflow

/-- The text between two bytes, which have to stand in their order between characters of it. -/
def Text.cut (start stop : Nat) (text : List Char) : Except Fault String :=
  if start ≤ stop ∧ isBoundary start text ∧ isBoundary stop text then
    .ok (String.ofList (slice start stop text))
  else .error .slice

/-! ## Sources -/

/-- A token with the bytes at which it stands. -/
structure Lexeme where
  token : Token
  range : ByteRange

/-- A text with its tokens. -/
structure Source where
  text : List Char
  lexemes : List Lexeme

/-- The tokens of a source. -/
def Source.run (source : Source) : Run := source.lexemes.map Lexeme.token

/-- A token with its range, whose bytes are cut down to 32 bits. -/
def Lexeme.read (span : Nat × Nat × Token) : Except Fault Lexeme := do
  let range ← ByteRange.between (UInt32.ofNat span.1) (UInt32.ofNat span.2.1)
  pure ⟨span.2.2, range⟩

/-- The tokens of a text with their ranges. -/
def Lexeme.all (text : List Char) : Except Fault (List Lexeme) :=
  (tokenize text).spans.mapM read

/-- A text with its tokens and their ranges. -/
def Source.read (text : List Char) : Except Fault Source := do
  let lexemes ← Lexeme.all text
  pure ⟨text, lexemes⟩

/-! ## Walks -/

/-- A walk over the tokens of a source: from the position of the next token to a result and another
position, or to a fault. -/
def Walk (α : Type) := Source → Nat → Except Fault (α × Nat)

namespace Walk

variable {α β σ : Type}

instance : Monad Walk where
  pure a := fun _ position => .ok (a, position)
  bind walk next := fun source position => do
    let (a, position) ← walk source position
    next a source position

/-- What can fail wherever the walk stands. -/
def check (result : Except Fault α) : Walk α := fun _ position => do
  let a ← result
  pure (a, position)

/-- The position of the next token. -/
def position : Walk Nat := fun _ position => .ok (position, position)

/-- Goes to a position, or to the end if that lies in front of it. -/
def goTo (target : Nat) : Walk Unit := fun source _ => .ok ((), min target source.lexemes.length)

/-- Goes on by one. -/
def advance : Walk Unit := fun _ position => .ok ((), position + 1)

/-- The next token, if there is one. -/
def current : Walk (Option Lexeme) := fun source position =>
  .ok (source.lexemes[position]?, position)

/-- Takes turns, so many at most, until one has a result. -/
def turnsUpTo (turn : σ → Walk (σ ⊕ β)) : Nat → σ → Walk β
  | 0, _ => check (.error .endless)
  | count + 1, state => do
    match ← turn state with
    | .inl state => turnsUpTo turn count state
    | .inr result => pure result

/-- Takes turns until one has a result; as many as there are tokens, and one more, have to do. -/
def turns (turn : σ → Walk (σ ⊕ β)) (state : σ) : Walk β := fun source position =>
  turnsUpTo turn (source.lexemes.length + 1) state source position

/-! ## What a walk returns -/

theorem check_ok (a : α) (source : Source) (start : Nat) :
    check (.ok a) source start = .ok (a, start) := rfl

theorem position_eq (source : Source) (start : Nat) :
    position source start = .ok (start, start) := rfl

/-- The walk ends without a fault, and the condition holds of its result and of the position it
reaches. -/
def Returns (walk : Walk α) (source : Source) (start : Nat) (holds : α → Nat → Prop) : Prop :=
  ∃ result stop, walk source start = .ok (result, stop) ∧ holds result stop

namespace Returns

variable {source : Source} {start : Nat} {holds : α → Nat → Prop} {walk : Walk α}

theorem pure {a : α} (h : holds a start) : Returns (Pure.pure a) source start holds :=
  ⟨a, start, rfl, h⟩

theorem bind {next : α → Walk β} {after : β → Nat → Prop} (hwalk : Returns walk source start holds)
    (hnext : ∀ a stop, holds a stop → Returns (next a) source stop after) :
    Returns (walk >>= next) source start after := by
  obtain ⟨a, stop, hrun, ha⟩ := hwalk
  obtain ⟨b, stop', hrun', hb⟩ := hnext a stop ha
  exact ⟨b, stop', bind_eq_ok.mpr ⟨(a, stop), hrun, hrun'⟩, hb⟩

/-- A walk whose result is known is followed by the next. -/
theorem step {next : α → Walk β} {after : β → Nat → Prop} {a : α} {stop : Nat}
    (hrun : walk source start = .ok (a, stop)) (hnext : Returns (next a) source stop after) :
    Returns (walk >>= next) source start after := by
  obtain ⟨b, stop', hrun', hb⟩ := hnext
  exact ⟨b, stop', bind_eq_ok.mpr ⟨(a, stop), hrun, hrun'⟩, hb⟩

theorem weaken {holds' : α → Nat → Prop} (h : Returns walk source start holds)
    (hweaker : ∀ a stop, holds a stop → holds' a stop) : Returns walk source start holds' := by
  obtain ⟨a, stop, hrun, ha⟩ := h
  exact ⟨a, stop, hrun, hweaker a stop ha⟩

theorem ite {condition : Prop} [Decidable condition] {other : Walk α}
    (hthen : condition → Returns walk source start holds)
    (helse : ¬ condition → Returns other source start holds) :
    Returns (if condition then walk else other) source start holds := by
  split
  · next h => exact hthen h
  · next h => exact helse h

end Returns

/-- **A loop ends.**  If a condition on the state and the position holds, and each turn either has a
result that is right, or goes on with the condition at a position further right, then the loop has
a right result, and took one turn more than there were tokens at most. -/
theorem turns_returns {source : Source} {turn : σ → Walk (σ ⊕ β)} {holds : β → Nat → Prop}
    (condition : σ → Nat → Prop) {state : σ} {start : Nat} (hstart : condition state start)
    (hle : start ≤ source.lexemes.length)
    (hturn : ∀ state start, condition state start → Returns (turn state) source start
      fun outcome stop => match outcome with
        | .inl state => condition state stop ∧ start < stop ∧ stop ≤ source.lexemes.length
        | .inr result => holds result stop) :
    Returns (turns turn state) source start holds := by
  have hcount : ∀ count state start, condition state start → start ≤ source.lexemes.length →
      source.lexemes.length < start + count →
      Returns (turnsUpTo turn count state) source start holds := by
    intro count
    induction count with
    | zero => intro state start _ hle hlt; omega
    | succ count ih =>
      intro state start hstate hle hlt
      refine (hturn state start hstate).bind fun outcome stop houtcome => ?_
      cases outcome with
      | inl state => exact ih state stop houtcome.1 houtcome.2.2 (by omega)
      | inr result => exact .pure houtcome
  exact hcount _ state start hstart hle (by omega)

end Walk

end SdlSchema
