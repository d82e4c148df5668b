/-
# Attempts of a walk

An attempt is a walk that may miss, as a reader may.  It follows a reader if from the position of a
run it reads what the reader reads of that run, and ends where the reader leaves off; or misses for
the same reason, wherever it stands then.

* `Attempt.Follows` : an attempt does what a reader does;
* `Follows.bind`, `Follows.lift`, `Follows.expect` : one step after the other.
-/
import SdlSchema.Proofs.Cursor.Steps

namespace SdlSchema

variable {α β γ δ σ : Type}

/-- A walk that may miss. -/
abbrev Attempt (α : Type) := ExceptT Miss Walk α

namespace Attempt

/-- A turn for which a miss is a result. -/
def turnOf (turn : σ → Attempt (σ ⊕ β)) (state : σ) : Walk (σ ⊕ Except Miss β) := do
  match ← (turn state).run with
  | .ok (.inl state) => pure (.inl state)
  | .ok (.inr result) => pure (.inr (.ok result))
  | .error miss => pure (.inr (.error miss))

/-- Takes turns until one has a result or misses. -/
def turns (turn : σ → Attempt (σ ⊕ β)) (state : σ) : Attempt β :=
  ExceptT.mk (Walk.turns (turnOf turn) state)

/-- Takes a token of the given kind, which has to be there. -/
def expect (kind : Kind) : Attempt Unit := do
  if ← Walk.eat kind then pure () else throw .noMatch

/-- Takes a name, which has to be there. -/
def expectName : Attempt String := do
  match ← Walk.eatName with
  | some name => pure name
  | none => throw .noMatch

/-! ## What an attempt returns -/

section Returns

variable {source : Source} {start stop : Nat} {after : Except Miss β → Nat → Prop}
  {next : γ → Attempt β}

/-- Behind a result the next attempt goes on; a miss is the miss of both. -/
theorem returns_bind {attempt : Attempt γ} {holds : Except Miss γ → Nat → Prop}
    (hattempt : Walk.Returns attempt.run source start holds)
    (hok : ∀ c stop, holds (.ok c) stop → Walk.Returns (next c).run source stop after)
    (herror : ∀ miss stop, holds (.error miss) stop → after (.error miss) stop) :
    Walk.Returns (attempt >>= next).run source start after := by
  refine Walk.Returns.bind hattempt fun result stop hresult => ?_
  cases result with
  | ok c => exact hok c stop hresult
  | error miss => exact .pure (herror miss stop hresult)

/-- A walk that cannot miss goes in front. -/
theorem returns_lift {walk : Walk γ} {holds : γ → Nat → Prop}
    (hwalk : Walk.Returns walk source start holds)
    (hnext : ∀ c stop, holds c stop → Walk.Returns (next c).run source stop after) :
    Walk.Returns (liftM walk >>= next : Attempt β).run source start after := by
  obtain ⟨found, stop, hrun, hfound⟩ := hwalk
  exact .step (bind_eq_ok.mpr ⟨_, hrun, rfl⟩) (hnext found stop hfound)

/-- A walk whose result is known goes in front. -/
theorem returns_step {walk : Walk γ} {c : γ} (hrun : walk source start = .ok (c, stop))
    (hnext : Walk.Returns (next c).run source stop after) :
    Walk.Returns (liftM walk >>= next : Attempt β).run source start after :=
  .step (bind_eq_ok.mpr ⟨_, hrun, rfl⟩) hnext

/-- A loop ends with a result or a miss, if each turn has one or goes on further right. -/
theorem returns_turns {turn : σ → Attempt (σ ⊕ β)} (condition : σ → Nat → Prop) {state : σ}
    (hstart : condition state start) (hle : start ≤ source.lexemes.length)
    (hturn : ∀ state start, condition state start → Walk.Returns (turn state).run source start
      fun outcome stop => match outcome with
        | .ok (.inl state) => condition state stop ∧ start < stop ∧ stop ≤ source.lexemes.length
        | .ok (.inr result) => after (.ok result) stop
        | .error miss => after (.error miss) stop) :
    Walk.Returns (turns turn state).run source start after := by
  refine Walk.turns_returns condition hstart hle
    fun state start hstate => Walk.Returns.bind (hturn state start hstate) ?_
  intro outcome stop houtcome
  rcases outcome with miss | state | result <;> exact .pure houtcome

end Returns

/-! ## What an attempt reads -/

/-- The attempt reads what a reader reads, and ends where the reader leaves off; or it misses as the
reader does. -/
def Follows (attempt : Attempt β) (text : List Char) (start : Nat) (tell : α → β)
    (outcome : Except Miss (α × Run)) : Prop :=
  Walk.Returns attempt.run (Source.of text) start fun result stop =>
    match outcome with
    | .ok (item, rest) => result = .ok (tell item) ∧ At text stop rest
    | .error miss => result = .error miss

namespace Follows

variable {text : List Char} {start stop : Nat} {run rest : Run} {tell : α → β} {item : α} {b : β}
  {outcome : Except Miss (α × Run)}

theorem pure (hitem : b = tell item) (h : At text start rest) :
    Follows (Pure.pure b) text start tell (.ok (item, rest)) :=
  Walk.Returns.pure ⟨by rw [hitem], h⟩

theorem throw (miss : Miss) : Follows (throw miss) text start tell (.error miss) :=
  Walk.Returns.pure rfl

/-- One attempt after the other follows one reader after the other. -/
theorem bind {attempt : Attempt γ} {next : γ → Attempt β} {first : Except Miss (δ × Run)}
    {second : δ × Run → Except Miss (α × Run)} {tell' : δ → γ}
    (hattempt : Follows attempt text start tell' first)
    (hnext : ∀ found rest stop, first = .ok (found, rest) → At text stop rest →
      Follows (next (tell' found)) text stop tell (second (found, rest))) :
    Follows (attempt >>= next) text start tell (first >>= second) := by
  cases first with
  | error miss =>
    exact returns_bind hattempt (fun _ _ hresult => nomatch hresult)
      fun _ _ hmiss => congrArg Except.error (Except.error.inj hmiss)
  | ok found =>
    refine returns_bind hattempt (fun c stop hresult => ?_) fun _ _ hresult => nomatch hresult.1
    obtain ⟨hfound, hstop⟩ := hresult
    cases hfound
    exact hnext found.1 found.2 stop rfl hstop

/-- A walk that cannot miss goes in front. -/
theorem lift {walk : Walk γ} {next : γ → Attempt β} {holds : γ → Nat → Prop}
    (hwalk : Walk.Returns walk (Source.of text) start holds)
    (hnext : ∀ found stop, holds found stop → Follows (next found) text stop tell outcome) :
    Follows (liftM walk >>= next) text start tell outcome := returns_lift hwalk hnext

/-- A walk that cannot miss comes last. -/
theorem walk {walk : Walk β} (hwalk : Walk.Returns walk (Source.of text) start fun found stop =>
      found = tell item ∧ At text stop rest) :
    Follows (liftM walk) text start tell (.ok (item, rest)) := by
  obtain ⟨found, stop, hrun, hfound, hstop⟩ := hwalk
  exact ⟨.ok found, stop, bind_eq_ok.mpr ⟨_, hrun, rfl⟩, congrArg _ hfound, hstop⟩

/-- A walk whose result is known goes in front. -/
theorem step {walk : Walk γ} {next : γ → Attempt β} {found : γ}
    (hrun : walk (Source.of text) start = .ok (found, stop))
    (hnext : Follows (next found) text stop tell outcome) :
    Follows (liftM walk >>= next) text start tell outcome := returns_step hrun hnext

/-- Attempt and reader decide the same. -/
theorem ite {condition : Prop} [Decidable condition] {attempt other : Attempt β}
    {outcome' : Except Miss (α × Run)}
    (hthen : condition → Follows attempt text start tell outcome)
    (helse : ¬ condition → Follows other text start tell outcome') :
    Follows (if condition then attempt else other) text start tell
      (if condition then outcome else outcome') := by
  split
  · next h => exact hthen h
  · next h => exact helse h

/-- A token is taken where the reader takes it. -/
theorem expect {kind : Kind} {next : Unit → Attempt β} {second : Run → Except Miss (α × Run)}
    (h : At text start run)
    (hnext : ∀ rest, run.expect kind = .ok rest → At text (start + 1) rest →
      Follows (next ()) text (start + 1) tell (second rest)) :
    Follows (Attempt.expect kind >>= next) text start tell (run.expect kind >>= second) := by
  cases htake : run.take? kind with
  | some rest =>
    have hexpect : run.expect kind = .ok rest := by rw [Run.expect, htake]
    obtain ⟨heat, hrest⟩ := Walk.eat_of_take? h htake
    obtain ⟨result, stop, hrun, hresult⟩ := hnext rest hexpect hrest
    rw [hexpect]
    refine ⟨result, stop, ?_, hresult⟩
    exact bind_eq_ok.mpr ⟨(.ok (), start + 1),
      bind_eq_ok.mpr ⟨(.ok true, start + 1), bind_eq_ok.mpr ⟨_, heat, rfl⟩, rfl⟩, hrun⟩
  | none =>
    have hexpect : run.expect kind = .error .noMatch := by rw [Run.expect, htake]
    rw [hexpect]
    exact ⟨.error .noMatch, start, bind_eq_ok.mpr ⟨(.error .noMatch, start),
      bind_eq_ok.mpr ⟨(.ok false, start),
        bind_eq_ok.mpr ⟨_, Walk.eat_of_take?_none h htake, rfl⟩, rfl⟩, rfl⟩, rfl⟩

/-- A name is taken where the reader takes it. -/
theorem expectName (h : At text start run) :
    Follows Attempt.expectName text start id run.expectName := by
  cases hname : run.name? with
  | some found =>
    obtain ⟨name, rest⟩ := found
    obtain ⟨heat, hrest⟩ := Walk.eatName_of_name? h hname
    rw [Run.expectName, hname]
    exact step heat (.pure rfl hrest)
  | none =>
    rw [Run.expectName, hname]
    exact step (Walk.eatName_of_name?_none h hname) (.throw .noMatch)

end Follows

end Attempt

end SdlSchema
