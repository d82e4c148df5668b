/-
# Where walks end

A walk over a source returns a result and a position, or there is a fault.  What is said here of
where it ends says nothing of faults, apart from one: that no loop is endless.  A loop ends if each
of its turns that goes on leaves its start behind; it then takes no more turns than there are
tokens, and one more.

* `Walk.Ends` : what a walk returns, if there is no fault, and that no loop is endless;
* `Walk.Ends.turns` : a loop whose turns go on further right ends;
* `Walk.Stays` : a walk that looks around without moving.
-/
import SdlSchema.Proofs.Cursor.Scans

namespace SdlSchema

variable {α β γ σ : Type} {source : Source} {start low : Nat}

namespace Walk

/-! ## What a walk returns without a fault -/

/-- The walk ends, and unless there is a fault the condition holds of its result and of the position
it reaches. -/
structure Ends (walk : Walk α) (source : Source) (start : Nat) (holds : α → Nat → Prop) : Prop where
  of_ok : ∀ {a stop}, walk source start = .ok (a, stop) → holds a stop
  ne_endless : walk source start ≠ .error .endless

namespace Ends

variable {walk : Walk α} {holds : α → Nat → Prop}

theorem pure {a : α} (h : holds a start) : Ends (Pure.pure a) source start holds where
  of_ok hrun := by cases hrun; exact h
  ne_endless hrun := by cases hrun

/-- A walk whose result is known ends there. -/
theorem of_run {a : α} {stop : Nat} (hrun : walk source start = .ok (a, stop)) (h : holds a stop) :
    Ends walk source start holds where
  of_ok hrun' := by rw [hrun] at hrun'; cases hrun'; exact h
  ne_endless hrun' := by rw [hrun] at hrun'; cases hrun'

/-- The second walk starts wherever the first may have ended. -/
theorem bind {next : α → Walk β} {after : β → Nat → Prop} (hwalk : Ends walk source start holds)
    (hnext : ∀ a stop, holds a stop → Ends (next a) source stop after) :
    Ends (walk >>= next) source start after where
  of_ok hrun := by
    obtain ⟨⟨a, stop⟩, hfirst, hrest⟩ := bind_eq_ok.mp hrun
    exact (hnext a stop (hwalk.of_ok hfirst)).of_ok hrest
  ne_endless hrun := by
    rcases bind_eq_error.mp hrun with hfirst | ⟨⟨a, stop⟩, hfirst, hrest⟩
    · exact hwalk.ne_endless hfirst
    · exact (hnext a stop (hwalk.of_ok hfirst)).ne_endless hrest

/-- A walk whose result is known is followed by the next. -/
theorem step {next : α → Walk β} {after : β → Nat → Prop} {a : α} {stop : Nat}
    (hrun : walk source start = .ok (a, stop)) (hnext : Ends (next a) source stop after) :
    Ends (walk >>= next) source start after := by
  refine bind (of_run hrun ⟨rfl, rfl⟩ : Ends walk source start fun b end' => b = a ∧ end' = stop) ?_
  rintro _ _ ⟨rfl, rfl⟩
  exact hnext

/-- A result is one that the walk really has. -/
theorem with_run (h : Ends walk source start holds) :
    Ends walk source start fun a stop => holds a stop ∧ walk source start = .ok (a, stop) :=
  ⟨fun hrun => ⟨h.of_ok hrun, hrun⟩, h.ne_endless⟩

theorem weaken {holds' : α → Nat → Prop} (h : Ends walk source start holds)
    (hweaker : ∀ a stop, holds a stop → holds' a stop) : Ends walk source start holds' :=
  ⟨fun hrun => hweaker _ _ (h.of_ok hrun), h.ne_endless⟩

/-- **A loop ends.**  If a condition on the state and the position is kept by each turn that goes
on, and each such turn leaves its start behind, then one turn more than there are tokens will do. -/
theorem turns {turn : σ → Walk (σ ⊕ β)} {after : β → Nat → Prop} (condition : σ → Nat → Prop)
    {state : σ} (hstart : condition state start) (hle : start ≤ source.lexemes.length)
    (hturn : ∀ state start, condition state start → start ≤ source.lexemes.length →
      Ends (turn state) source start fun outcome stop => match outcome with
        | .inl state => condition state stop ∧ start < stop ∧ stop ≤ source.lexemes.length
        | .inr result => after result stop) :
    Ends (Walk.turns turn state) source start after := by
  have hcount : ∀ count state start, condition state start → start ≤ source.lexemes.length →
      source.lexemes.length < start + count →
      Ends (turnsUpTo turn count state) source start after := by
    intro count
    induction count with
    | zero => intro state start _ hle hlt; omega
    | succ count ih =>
      intro state start hstate hle hlt
      refine (hturn state start hstate hle).bind fun outcome stop houtcome => ?_
      cases outcome with
      | inl state => exact ih state stop houtcome.1 houtcome.2.2 (by omega)
      | inr result => exact .pure houtcome
  have hall := hcount (source.lexemes.length + 1) state start hstart hle (by omega)
  exact ⟨hall.of_ok, hall.ne_endless⟩

end Ends

/-! ## Walks that stay -/

/-- The walk looks around, and stays where it is. -/
def Stays (walk : Walk α) : Prop :=
  ∀ source start, Ends walk source start fun _ stop => stop = start

namespace Stays

variable {walk : Walk α}

/-- To give a result is not to move. -/
theorem pure (a : α) : Stays (Pure.pure a) := fun _ _ => .pure rfl

/-- Walks that stay, one after the other, stay. -/
theorem bind {next : α → Walk β} (hwalk : Stays walk) (hnext : ∀ a, Stays (next a)) :
    Stays (walk >>= next) := by
  intro source start
  refine (hwalk source start).bind fun a stop hstop => ?_
  rw [hstop]
  exact hnext a source start

theorem ite {condition : Prop} [Decidable condition] {other : Walk α} (hthen : Stays walk)
    (helse : Stays other) : Stays (if condition then walk else other) := by
  split
  · exact hthen
  · exact helse

/-- A check stays where it is, whether it succeeds or faults; it is no loop. -/
theorem check {result : Except Fault α} (h : result ≠ .error .endless) : Stays (check result) := by
  intro source start
  constructor
  · intro a stop hrun
    obtain ⟨found, -, hfound⟩ := bind_eq_ok.mp hrun
    cases hfound
    rfl
  · intro hrun
    rcases bind_eq_error.mp hrun with hfault | ⟨found, -, hfound⟩
    · exact h hfault
    · cases hfound

end Stays

/-- A number that would fall below zero is a fault, and no endless loop. -/
theorem less_ne_endless (n m : Nat) : less n m ≠ .error .endless := by
  unfold less
  split <;> simp

/-- A range of bytes that is turned around is a fault, and no endless loop. -/
theorem between_ne_endless (start stop : UInt32) :
    ByteRange.between start stop ≠ .error .endless := by
  unfold ByteRange.between
  split <;> simp

/-- A cut beyond the text or inside a character is a fault, and no endless loop. -/
theorem cut_ne_endless (start stop : Nat) (text : List Char) :
    Text.cut start stop text ≠ .error .endless := by
  unfold Text.cut
  split <;> simp

/-- The quotes of a description are cut off without a loop. -/
theorem content_ne_endless (token : Token) : content token ≠ .error .endless := by
  intro h
  rcases bind_eq_error.mp h with h | ⟨stop, -, h⟩
  · exact less_ne_endless _ _ h
  · exact cut_ne_endless _ _ _ h

namespace Ends

variable {yes no : Walk α} {after : α → Nat → Prop}

/-- In front of the end there is a token. -/
theorem bind_atEnd (hyes : Ends yes source start after)
    (hno : start < source.lexemes.length → Ends no source start after) :
    Ends (atEnd >>= fun ended => if ended then yes else no) source start after := by
  refine .step rfl ?_
  split
  · exact hyes
  · next h => exact hno (by simpa using h)

/-- Where the next token passes a test, there is one. -/
theorem bind_sees {test : Token → Bool}
    (hyes : start < source.lexemes.length → Ends yes source start after)
    (hno : source.lexemes[start]?.any (fun lexeme => test lexeme.token) = false →
      Ends no source start after) :
    Ends (sees test >>= fun found => if found then yes else no) source start after := by
  refine .step (a := source.lexemes[start]?.any fun lexeme => test lexeme.token) rfl ?_
  split
  · next h =>
    obtain ⟨lexeme, hlexeme, -⟩ := (Option.any_eq_true _ _).mp h
    exact hyes (List.getElem?_eq_some_iff.mp hlexeme).1
  · next h => exact hno (by simpa using h)

end Ends

theorem stays_position : Stays position := fun _ _ => .of_run rfl rfl

theorem stays_current : Stays current := fun _ _ => .of_run rfl rfl

/-- To test the next token does not take it. -/
theorem stays_sees (test : Token → Bool) : Stays (sees test) :=
  stays_current.bind fun _ => .pure _

theorem stays_atEnd : Stays atEnd := fun _ _ => .of_run rfl rfl

/-- To look back at the tokens that were taken does not take them back. -/
theorem stays_atLineStart : Stays atLineStart := by
  intro source start
  unfold atLineStart
  constructor
  · intro a stop hrun
    split at hrun
    · cases hrun; rfl
    · cases hrun
  · intro hrun
    split at hrun <;> cases hrun

/-- The position of the last token taken is the one in front, if there is one. -/
theorem stays_lastTaken : Stays lastTaken :=
  stays_position.bind fun _ => .check (less_ne_endless _ _)

/-- Cutting a text out of the source moves nothing. -/
theorem stays_cut (first last : UInt32) : Stays (cut first last) := by
  intro source start
  constructor
  · intro a stop hrun
    obtain ⟨range, -, hrun⟩ := bind_eq_ok.mp hrun
    obtain ⟨text, -, hrun⟩ := bind_eq_ok.mp hrun
    cases hrun
    rfl
  · intro hrun
    rcases bind_eq_error.mp hrun with hfault | ⟨range, -, hrun⟩
    · exact between_ne_endless _ _ hfault
    rcases bind_eq_error.mp hrun with hfault | ⟨text, -, hrun⟩
    · exact cut_ne_endless _ _ _ hfault
    · cases hrun

theorem stays_lexemeAt (index : Nat) : Stays (lexemeAt index) := by
  intro source start
  unfold lexemeAt
  constructor
  · intro a stop hrun
    split at hrun
    · cases hrun; rfl
    · cases hrun
  · intro hrun
    split at hrun <;> cases hrun

/-- Cutting out what stands between two tokens moves nothing; both have to be there. -/
theorem stays_slice (first last : Nat) : Stays (slice first last) :=
  (stays_lexemeAt first).bind fun _ => (stays_lexemeAt last).bind fun _ => stays_cut _ _

/-- Cutting out what stands between two brackets moves nothing. -/
theorem stays_textBetween (opened closed : Lexeme) : Stays (textBetween opened closed) :=
  stays_cut _ _

/-- An opener is looked at in front of a body, and taken by the walk over the body. -/
theorem stays_opener (bracket : Bracket) : Stays (Attempt.opener bracket) :=
  stays_current.bind fun _ => .pure _

theorem stays_atEndOf (terminates : Token → Bool) : Stays (Attempt.atEndOf terminates) :=
  stays_atEnd.bind fun _ => .ite (.pure _) (stays_sees _)

/-- Whether a declaration may begin is told by a description in front or by the tokens taken before.
-/
theorem stays_mayBegin (description : Option String) : Stays (Attempt.mayBegin description) :=
  .ite (.pure _) stays_atLineStart

end Walk

end SdlSchema
