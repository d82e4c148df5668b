/-
# References to types

A reference names a type, possibly in list brackets, and each of its levels may be marked
non-null: `Int`, `[String!]!`, `[[ID]]`.  Blanks and comments may stand between its tokens, line
breaks may not.  The brackets are counted: as many closers have to follow the name as openers
stand in front of it.
-/
import SdlSchema.Reading.Basic

namespace SdlSchema.Run

/-- The number of opening brackets at the start of the run, and the run after them. -/
def openLists : Run → Nat × Run
  | [] => (0, [])
  | token :: rest =>
    if token.isMark .leftBracket then
      let (depth, left) := openLists (skipInline rest)
      (depth + 1, left)
    else (0, token :: rest)
  termination_by run => run.length
  decreasing_by
    have := (skipInline_suffix rest).length_le
    simp only [List.length_cons]
    omega

/-- The run after an optional non-null mark. -/
def skipNonNull (run : Run) : Run := (run.skipInline.take? (.punctuation .bang)).getD run

/-- The run after as many closing brackets as given, each with its optional non-null mark. -/
def closeLists : Nat → Run → Option Run
  | 0, run => some run
  | depth + 1, run =>
    match run.skipInline.take? (.punctuation .rightBracket) with
    | some rest => closeLists depth rest.skipNonNull
    | none => none

/-- The tokens of the type reference at the start of the run, and the run after it. -/
def typeReference? (run : Run) : Option (Run × Run) :=
  let (depth, inner) := run.openLists
  match inner.name? with
  | some (_, rest) => (closeLists depth rest.skipNonNull).map fun left => (run.upTo left, left)
  | none => none

/-- The type reference at the start of the run, which has to be there. -/
def expectType (run : Run) : Except Miss (Run × Run) :=
  match run.typeReference? with
  | some found => .ok found
  | none => .error .noMatch

/-! ## What is left -/

theorem openLists_suffix (run : Run) : run.openLists.2 <:+ run := by
  fun_induction openLists run with
  | case1 => exact List.suffix_refl _
  | case2 token rest h depth left heq ih =>
    rw [heq] at ih
    exact ih.trans ((skipInline_suffix rest).trans (List.suffix_cons token rest))
  | case3 token rest h => exact List.suffix_refl _

theorem skipNonNull_suffix (run : Run) : run.skipNonNull <:+ run := by
  unfold skipNonNull
  cases h : run.skipInline.take? (.punctuation .bang) with
  | none => exact List.suffix_refl _
  | some rest => exact (take?_left h).suffix.trans (skipInline_suffix run)

/-- Closing lists leaves a suffix. -/
theorem closeLists_suffix {depth : Nat} {run rest : Run} (h : run.closeLists depth = some rest) :
    rest <:+ run := by
  induction depth generalizing run with
  | zero => cases h; exact List.suffix_refl _
  | succ depth ih =>
    rw [closeLists] at h
    split at h
    · next left hleft =>
      exact (ih h).trans ((skipNonNull_suffix left).trans
        ((take?_left hleft).suffix.trans (skipInline_suffix run)))
    · cases h

/-- A type that is found leaves less. -/
theorem typeReference?_left {run found rest : Run} (h : run.typeReference? = some (found, rest)) :
    Left rest run := by
  unfold typeReference? at h
  have hopen := openLists_suffix run
  revert h hopen
  generalize run.openLists = opened
  obtain ⟨depth, inner⟩ := opened
  intro h hopen
  simp only at h hopen
  split at h
  · next name left hname =>
    obtain ⟨after, hclose, heq⟩ := Option.map_eq_some_iff.mp h
    cases heq
    exact ((name?_left hname).of_suffix
      ((closeLists_suffix hclose).trans (skipNonNull_suffix left))).of_left_suffix hopen
  · cases h

theorem expectType_left {run found rest : Run} (h : run.expectType = .ok (found, rest)) :
    Left rest run := by
  unfold expectType at h
  split at h
  · next h' => cases h; exact typeReference?_left h'
  · cases h

end SdlSchema.Run
