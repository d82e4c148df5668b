/-
# Brackets

Reading up to the bracket that closes one already read, and skipping a default value.  Both
count brackets instead of nesting calls: the first counts one kind of bracket, the second all
three alike.

* `balanced_eq` : a closed bracket splits the run into its body, its closer and what follows.
-/
import SdlSchema.Reading.Basic

namespace SdlSchema

/-- The three kinds of bracket. -/
inductive Bracket where
  | brace | square | paren
  deriving DecidableEq

namespace Bracket

/-- The mark that opens a bracket. -/
def opener : Bracket → Punctuation
  | .brace => .leftBrace
  | .square => .leftBracket
  | .paren => .leftParen

/-- The mark that closes a bracket. -/
def closer : Bracket → Punctuation
  | .brace => .rightBrace
  | .square => .rightBracket
  | .paren => .rightParen

end Bracket

namespace Token

/-- Whether the token opens a bracket of some kind. -/
def opensBracket (token : Token) : Bool :=
  token.isMark .leftBrace || token.isMark .leftBracket || token.isMark .leftParen

/-- Whether the token closes a bracket of some kind. -/
def closesBracket (token : Token) : Bool :=
  token.isMark .rightBrace || token.isMark .rightBracket || token.isMark .rightParen

/-- Whether the token ends a default value outside of brackets. -/
def endsValue (token : Token) : Bool :=
  token.isNewline || token.isMark .comma || token.isMarker || token.closesBracket

end Token

namespace Run

/-! ## Up to the closing bracket -/

/-- The tokens in front of the closer that leaves `depth` inner brackets and the outer one closed,
and the run after that closer; nothing if the run ends before. -/
def balanced (bracket : Bracket) : Nat → Run → Option (Run × Run)
  | _, [] => none
  | depth, token :: rest =>
    if token.isMark bracket.closer ∧ depth = 0 then some ([], rest)
    else
      let inner :=
        if token.isMark bracket.opener then depth + 1
        else if token.isMark bracket.closer then depth - 1
        else depth
      (balanced bracket inner rest).map fun (body, left) => (token :: body, left)

/-- The body of a bracket that is already open and the run after its closer. -/
def closeBracket (bracket : Bracket) (run : Run) : Except Miss (Run × Run) :=
  match run.balanced bracket 0 with
  | some found => .ok found
  | none => .error .exhausted

/-- A closed bracket splits the run into its body, its closer and what follows. -/
theorem balanced_eq {bracket : Bracket} {depth : Nat} {run body rest : Run}
    (h : run.balanced bracket depth = some (body, rest)) :
    ∃ closer : Token, closer.isMark bracket.closer = true ∧ run = body ++ closer :: rest := by
  induction run generalizing depth body with
  | nil => simp [balanced] at h
  | cons token run ih =>
    have keep : ∀ d : Nat,
        (balanced bracket d run).map (fun (inner, left) => (token :: inner, left))
          = some (body, rest) →
        ∃ closer : Token, closer.isMark bracket.closer = true ∧
          token :: run = body ++ closer :: rest := by
      intro d hd
      obtain ⟨⟨inner, left⟩, hin, heq⟩ := Option.map_eq_some_iff.mp hd
      cases heq
      obtain ⟨closer, hc, hrun⟩ := ih hin
      exact ⟨closer, hc, by rw [hrun]; rfl⟩
    rw [balanced] at h
    split at h
    · next hclose => cases h; exact ⟨token, hclose.1, rfl⟩
    · exact keep _ h

theorem balanced_left {bracket : Bracket} {depth : Nat} {run body rest : Run}
    (h : run.balanced bracket depth = some (body, rest)) : Left rest run := by
  obtain ⟨closer, _, rfl⟩ := balanced_eq h
  exact Left.of_left_suffix ⟨closer, rest, rfl, List.suffix_refl _⟩ (List.suffix_append _ _)

theorem closeBracket_left {bracket : Bracket} {run body rest : Run}
    (h : run.closeBracket bracket = .ok (body, rest)) : Left rest run := by
  unfold closeBracket at h
  split at h
  · next h' => cases h; exact balanced_left h'
  · cases h

/-! ## Default values -/

/-- The run after a value, `depth` brackets deep: outside of brackets, where a line break, a
comma, a marker or a closing bracket ends it. -/
def skipValue : Nat → Run → Run
  | _, [] => []
  | depth, token :: rest =>
    if depth = 0 ∧ token.endsValue then token :: rest
    else if token.opensBracket then skipValue (depth + 1) rest
    else if token.closesBracket then skipValue (depth - 1) rest
    else skipValue depth rest

/-- The run after an optional default value. -/
def skipDefault (run : Run) : Run :=
  match run.take? (.punctuation .equals) with
  | some rest => rest.skipValue 0
  | none => run

theorem skipValue_suffix (depth : Nat) (run : Run) : run.skipValue depth <:+ run := by
  induction run generalizing depth with
  | nil => exact List.suffix_refl _
  | cons token run ih =>
    have keep : ∀ d : Nat, skipValue d run <:+ token :: run :=
      fun d => (ih d).trans (List.suffix_cons token run)
    rw [skipValue]
    split
    · exact List.suffix_refl _
    · split
      · exact keep _
      · split
        · exact keep _
        · exact keep _

theorem skipDefault_suffix (run : Run) : run.skipDefault <:+ run := by
  unfold skipDefault
  split
  · next h => exact (skipValue_suffix 0 _).trans (take?_left h).suffix
  · exact List.suffix_refl _

end Run

end SdlSchema
