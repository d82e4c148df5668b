/-
# Single steps of reading

Readers take what they need from the left of a run and leave the rest.  A reading attempt misses
for one of two reasons: the construct is not there, or the text ends inside it.

* `Left.length_lt` : what is left after one token or more is shorter, which is why scans end;
* `take?_left`, `name?_left` : a step that takes a token leaves the rest of the run.
-/
import SdlSchema.Token.Basic

namespace SdlSchema

/-- Why an attempt to read a construct failed. -/
inductive Miss where
  /-- The construct is not here, but may be further on. -/
  | noMatch
  /-- The text ends inside the construct, so that no later attempt can close it either. -/
  | exhausted
  deriving DecidableEq

/-! ## What is left of a run -/

/-- That `rest` is what is left of `run` after one token or more. -/
def Left (rest run : Run) : Prop := ∃ token tail, run = token :: tail ∧ rest <:+ tail

/-- What is left is a suffix. -/
theorem Left.suffix {rest run : Run} (h : Left rest run) : rest <:+ run := by
  obtain ⟨token, tail, rfl, h⟩ := h
  exact h.trans (List.suffix_cons token tail)

/-- What is left is shorter, which is why reading ends. -/
theorem Left.length_lt {rest run : Run} (h : Left rest run) : rest.length < run.length := by
  obtain ⟨token, tail, rfl, h⟩ := h
  simpa using Nat.lt_succ_of_le h.length_le

theorem Left.of_suffix {rest middle run : Run} (h : Left middle run) (hs : rest <:+ middle) :
    Left rest run := by
  obtain ⟨token, tail, rfl, h⟩ := h
  exact ⟨token, tail, rfl, hs.trans h⟩

theorem Left.of_left_suffix {rest middle run : Run} (h : Left rest middle) (hs : middle <:+ run) :
    Left rest run := by
  obtain ⟨front, rfl⟩ := hs
  obtain ⟨token, tail, rfl, h⟩ := h
  cases front with
  | nil => exact ⟨token, tail, rfl, h⟩
  | cons first front =>
    exact ⟨first, front ++ token :: tail, rfl,
      h.trans ((List.suffix_cons token tail).trans (List.suffix_append front _))⟩

/-! ## Taking tokens -/

namespace Run

/-- The rest of the run after a first token of the given kind. -/
def take? (kind : Kind) : Run → Option Run
  | [] => none
  | token :: rest => if token.kind = kind then some rest else none

/-- The first token as a name, and the rest of the run. -/
def name? : Run → Option (String × Run)
  | [] => none
  | token :: rest => if token.isName then some (token.word, rest) else none

/-- Whether the first token has the given kind, and the run after it if so. -/
def accept (kind : Kind) (run : Run) : Bool × Run :=
  match run.take? kind with
  | some rest => (true, rest)
  | none => (false, run)

/-- The run after a first token of the given kind, which has to be there. -/
def expect (kind : Kind) (run : Run) : Except Miss Run :=
  match run.take? kind with
  | some rest => .ok rest
  | none => .error .noMatch

/-- The first token as a name, which has to be there. -/
def expectName (run : Run) : Except Miss (String × Run) :=
  match run.name? with
  | some found => .ok found
  | none => .error .noMatch

/-- Whether the run has ended or begins with a line break. -/
def atLineEnd : Run → Bool
  | [] => true
  | token :: _ => token.isNewline

/-- Whether the run has ended or begins with a line break or a comma. -/
def atItemEnd : Run → Bool
  | [] => true
  | token :: _ => token.isNewline || token.isMark .comma

/-! ## What the steps leave -/

/-- Taking a token leaves less. -/
theorem take?_left {kind : Kind} {run rest : Run} (h : run.take? kind = some rest) :
    Left rest run := by
  cases run with
  | nil => simp [take?] at h
  | cons token tail =>
    simp only [take?] at h
    split at h
    · cases h; exact ⟨token, _, rfl, List.suffix_refl _⟩
    · cases h

theorem name?_left {run rest : Run} {found : String} (h : run.name? = some (found, rest)) :
    Left rest run := by
  cases run with
  | nil => simp [name?] at h
  | cons token tail =>
    simp only [name?] at h
    split at h
    · cases h; exact ⟨token, _, rfl, List.suffix_refl _⟩
    · cases h

theorem accept_suffix (kind : Kind) (run : Run) : (run.accept kind).2 <:+ run := by
  unfold accept
  split
  · next h => exact (take?_left h).suffix
  · exact List.suffix_refl _

theorem expect_left {kind : Kind} {run rest : Run} (h : run.expect kind = .ok rest) :
    Left rest run := by
  unfold expect at h
  split at h
  · next h' => cases h; exact take?_left h'
  · cases h

/-- A required name that is found leaves less. -/
theorem expectName_left {run rest : Run} {found : String}
    (h : run.expectName = .ok (found, rest)) : Left rest run := by
  unfold expectName at h
  split at h
  · next h' => cases h; exact name?_left h'
  · cases h

end Run

/-! ## Steps one after the other -/

/-- Two steps succeed when the first does and the second does on what the first leaves. -/
theorem bind_eq_ok {ε α β : Type} {x : Except ε α} {f : α → Except ε β} {b : β} :
    (x >>= f) = .ok b ↔ ∃ a, x = .ok a ∧ f a = .ok b := by
  cases x with
  | error e => exact ⟨fun h => (nomatch h), fun ⟨_, h, _⟩ => (nomatch h)⟩
  | ok a => exact ⟨fun h => ⟨a, rfl, h⟩, fun ⟨_, h, h'⟩ => by cases h; exact h'⟩

/-! ## Modifiers and descriptions -/

/-- Something with the description in front of it, if there is one. -/
structure Described (α : Type) where
  description : Option String
  item : α

namespace Run

/-- Whether the run begins with `extend`, and the run after it and the trivia that follows. -/
def acceptExtend (run : Run) : Bool × Run :=
  match run.take? (.keyword .extend) with
  | some rest => (true, rest.skipTrivia)
  | none => (false, run)

/-- The description at the start of the run, if there is one, and the run after it and the trivia
that follows. -/
def acceptDescription : Run → Option String × Run
  | [] => (none, [])
  | token :: rest =>
    if token.isDescription then (some token.content, skipTrivia rest)
    else (none, skipTrivia (token :: rest))

theorem acceptExtend_suffix (run : Run) : run.acceptExtend.2 <:+ run := by
  unfold acceptExtend
  split
  · next h => exact (skipTrivia_suffix _).trans (take?_left h).suffix
  · exact List.suffix_refl _

/-- Accepting a description leaves a suffix, with or without one. -/
theorem acceptDescription_suffix (run : Run) : run.acceptDescription.2 <:+ run := by
  cases run with
  | nil => exact List.suffix_refl _
  | cons token rest =>
    simp only [acceptDescription]
    split
    · exact (skipTrivia_suffix _).trans (List.suffix_cons token rest)
    · exact skipTrivia_suffix _

end Run

end SdlSchema
