/-
# Pieces of constructs

What the constructs have in common, read by positions: the word `extend`, runs of markers and
references to types.  Where a piece is a text, the walk keeps the index of its first and of its last
token, and slices the text between them out in the end.

* `returns_acceptMarkers` : a run of markers is taken, and its text is sliced out;
* `returns_typeReference` : so is a reference to a type.
-/
import SdlSchema.Proofs.Reading.Lists
import SdlSchema.Proofs.Cursor.Attempt

namespace SdlSchema

namespace Walk

variable {text : List Char} {start : Nat} {run rest : Run}

/-! ## The word `extend` -/

/-- Takes `extend` and the trivia after it, if it is there. -/
def acceptExtend : Walk Bool := do
  if ← eat (.keyword .extend) then do
    skipTrivia
    pure true
  else pure false

theorem returns_acceptExtend (h : At text start run) :
    Returns acceptExtend (Source.of text) start
      fun found stop => found = run.acceptExtend.1 ∧ At text stop run.acceptExtend.2 := by
  rw [Run.acceptExtend]
  cases htake : run.take? (.keyword .extend) with
  | some rest =>
    obtain ⟨heat, hrest⟩ := eat_of_take? h htake
    exact .step heat ((returns_skipWhile hrest _).bind fun _ _ hstop => .pure ⟨rfl, hstop⟩)
  | none => exact .step (eat_of_take?_none h htake) (.pure ⟨rfl, h⟩)

/-! ## Markers -/

/-- Takes one more marker of a run, behind what may stand between them. -/
def markerTurn (skip : Token → Bool) (last : Nat) : Walk (Nat ⊕ Nat) := do
  let save ← position
  skipWhile skip
  if ← sees Token.isMarker then do
    let last ← position
    let _ ← bump
    pure (.inl last)
  else do
    goTo save
    pure (.inr last)

/-- Takes a run of markers, if there is one, and gives its text. -/
def acceptMarkers (skip : Token → Bool) : Walk (Option String) := do
  let save ← position
  skipWhile skip
  if ← sees Token.isMarker then do
    let first ← position
    let _ ← bump
    let last ← turns (markerTurn skip) first
    let text ← slice first last
    pure (some text)
  else do
    goTo save
    pure none

end Walk

namespace Run

/-- The text of a run, if there are tokens in it. -/
def text? (run : Run) : Option String := if run.isEmpty then none else some run.text

/-- A stretch from which a token was taken has a text. -/
theorem text?_upTo {run rest : Run} (h : Left rest run) :
    text? (run.upTo rest) = some (text (run.upTo rest)) := by
  have hlt := h.length_lt
  rw [text?, if_neg]
  rw [List.isEmpty_iff, ← List.length_eq_zero_iff, upTo, List.length_take]
  omega

end Run

namespace Walk

variable {text : List Char} {start : Nat} {run rest : Run}

/-- One marker after the other is taken, up to the last. -/
theorem returns_turns_markerTurn {skip : Token → Bool} {marker : Token} {tail : Run}
    (hskip : SkipsTrivia skip)
    (h : At text start (marker :: tail)) :
    Returns (turns (markerTurn skip) start) (Source.of text) (start + 1) fun last stop =>
      stop = last + 1 ∧ At text stop ((tail.afterMarkers skip).getD tail) := by
  -- behind each marker that was taken the same run is left in the end
  refine turns_returns (fun last position => position = last + 1 ∧
    ∃ left, At text position left ∧
      (left.afterMarkers skip).getD left = (tail.afterMarkers skip).getD tail)
    ⟨rfl, tail, h.next, rfl⟩ h.lt ?_
  rintro last position ⟨hlast, left, hleft, hsame⟩
  refine .step (position_eq _ _) ((returns_skipWhile hleft skip).bind fun _ stop hstop => ?_)
  refine .step (sees_eq hstop _) ?_
  cases hsees : (left.dropWhile skip).head?.any Token.isMarker with
  | false =>
    rw [Run.afterMarkers_eq_none hskip hsees, Option.getD_none] at hsame
    exact .step (goTo_eq hleft) (.pure ⟨hlast, hsame ▸ hleft⟩)
  | true =>
    cases hdrop : left.dropWhile skip with
    | nil => rw [hdrop] at hsees; cases hsees
    | cons marker' tail' =>
      rw [hdrop, List.head?_cons, Option.any_some] at hsees
      rw [Run.afterMarkers_eq_some_of_dropWhile hskip hdrop hsees, Option.getD_some] at hsame
      obtain ⟨middle, -, hle⟩ := hleft.stretch hstop (List.dropWhile_suffix _)
      rw [hdrop] at hstop
      obtain ⟨lexeme, hbump, -⟩ := bump_eq hstop
      exact .step (position_eq _ _) (.step hbump
        (.pure ⟨⟨rfl, tail', hstop.next, hsame⟩, by omega, hstop.lt⟩))

/-- The markers of a run are taken, and their text is sliced out. -/
theorem returns_acceptMarkers (hshort : Text.byteLength text < 2 ^ 32) (h : At text start run)
    {skip : Token → Bool} (hskip : SkipsTrivia skip) :
    Returns (acceptMarkers skip) (Source.of text) start fun found stop =>
      found = Run.text? (run.acceptMarkers skip).1 ∧ At text stop (run.acceptMarkers skip).2 := by
  refine .step (position_eq _ _) ((returns_skipWhile h skip).bind fun _ stop hstop => ?_)
  refine .step (sees_eq hstop _) ?_
  cases hsees : (run.dropWhile skip).head?.any Token.isMarker with
  | false =>
    have hnone := Run.afterMarkers_eq_none hskip hsees
    -- without a marker the walk goes back in front of what it passed over
    have haccept : run.acceptMarkers skip = ([], run) := by rw [Run.acceptMarkers, hnone]
    rw [haccept]
    exact .step (goTo_eq h) (.pure ⟨rfl, h⟩)
  | true =>
    cases hdrop : run.dropWhile skip with
    | nil => rw [hdrop] at hsees; cases hsees
    | cons marker tail =>
      rw [hdrop, List.head?_cons, Option.any_some] at hsees
      have hsome := Run.afterMarkers_eq_some_of_dropWhile hskip hdrop hsees
      have hafter : Run.afterMarkers skip (marker :: tail)
          = some ((Run.afterMarkers skip tail).getD tail) := by
        rw [Run.afterMarkers, if_pos hsees]
      have hleft := Run.afterMarkers_left hafter
      rw [Run.acceptMarkers, hsome, hdrop]
      rw [hdrop] at hstop
      -- from the first marker on, turns are taken up to the last, which ends the slice
      obtain ⟨lexeme, hbump, -⟩ := bump_eq hstop
      refine .step (position_eq _ _) (.step hbump ((returns_turns_markerTurn hskip hstop).bind ?_))
      rintro last _ ⟨rfl, hend⟩
      refine (returns_slice hshort hstop hend hleft).bind ?_
      rintro _ _ ⟨rfl, rfl⟩
      exact .pure ⟨(Run.text?_upTo hleft).symm, hend⟩

/-! ## References to types -/

/-- Takes an optional non-null mark, and gives its index. -/
def nonNull : Walk (Option Nat) := do
  let save ← position
  skipInline
  if ← eat (.punctuation .bang) then do
    let last ← lastTaken
    pure (some last)
  else do
    goTo save
    pure none

/-- Behind a name or a closing bracket, takes an optional non-null mark.  Gives the index of the
last of them. -/
def levelEnd : Walk Nat := do
  let last ← lastTaken
  let mark ← nonNull
  pure (mark.getD last)

/-- Takes opening brackets, and counts them. -/
def openLists : Walk Nat :=
  turns (fun depth => do
    if ← eat (.punctuation .leftBracket) then do
      skipInline
      pure (.inl (depth + 1))
    else pure (.inr depth)) 0

/-- Takes as many closing brackets, each with an optional non-null mark.  Gives the index of the
last token. -/
def closeLists : Nat → Nat → Walk (Option Nat)
  | 0, last => pure (some last)
  | depth + 1, _ => do
    skipInline
    if ← eat (.punctuation .rightBracket) then do
      let last ← levelEnd
      closeLists depth last
    else pure none

/-- Takes a reference to a type, if there is one, and gives its text. -/
def typeReference : Walk (Option String) := do
  let first ← position
  let depth ← openLists
  match ← eatName with
  | none => pure none
  | some _ => do
    let last ← levelEnd
    match ← closeLists depth last with
    | none => pure none
    | some last => do
      let text ← slice first last
      pure (some text)

theorem returns_nonNull (h : At text start run) :
    Returns nonNull (Source.of text) start fun found stop =>
      At text stop run.skipNonNull ∧ ∀ last, start = last + 1 → stop = found.getD last + 1 := by
  refine .step (position_eq _ _) ((returns_skipWhile h _).bind fun _ stop hstop => ?_)
  rw [Run.skipNonNull]
  cases htake : run.skipInline.take? (.punctuation .bang) with
  | some rest =>
    obtain ⟨heat, hrest⟩ := eat_of_take? hstop htake
    exact .step heat (.step (lastTaken_eq _ _) (.pure ⟨hrest, fun _ _ => rfl⟩))
  | none =>
    exact .step (eat_of_take?_none hstop htake)
      (.step (goTo_eq h) (.pure ⟨h, fun _ hlast => hlast⟩))

theorem returns_levelEnd (h : At text (start + 1) run) :
    Returns levelEnd (Source.of text) (start + 1) fun last stop =>
      stop = last + 1 ∧ At text stop run.skipNonNull :=
  .step (lastTaken_eq _ _) ((returns_nonNull h).bind fun _ _ ⟨hrest, hlast⟩ =>
    .pure ⟨hlast start rfl, hrest⟩)

/-- As many opening brackets are counted as the readers count. -/
theorem returns_openLists (h : At text start run) :
    Returns openLists (Source.of text) start fun depth stop =>
      depth = run.openLists.1 ∧ At text stop run.openLists.2 := by
  -- the count so far and the lists that are still to open make up the whole count
  refine turns_returns (fun depth position => ∃ left, At text position left ∧
    run.openLists = (depth + (Run.openLists left).1, (Run.openLists left).2))
    ⟨run, h, by rw [Nat.zero_add]⟩ h.le ?_
  rintro depth position ⟨left, hleft, hsame⟩
  cases htake : Run.take? (.punctuation .leftBracket) left with
  | some rest =>
    obtain ⟨token, rfl, hkind⟩ := Run.take?_eq_some htake
    obtain ⟨heat, hrest⟩ := eat_of_take? hleft htake
    refine .step heat ((returns_skipWhile hrest _).bind fun _ stop hstop => .pure ?_)
    rw [Run.openLists, if_pos (by simp [Token.isMark, hkind])] at hsame
    obtain ⟨middle, -, hle⟩ := hrest.stretch hstop (List.dropWhile_suffix _)
    refine ⟨⟨_, hstop, ?_⟩, by omega, hstop.le⟩
    rw [hsame]
    show (depth + (_ + 1), _) = _
    rw [Nat.add_right_comm, Nat.add_assoc]
    rfl
  | none =>
    refine .step (eat_of_take?_none hleft htake) (.pure ?_)
    have hnone : Run.openLists left = (0, left) := by
      cases left with
      | nil => rw [Run.openLists]
      | cons token tail =>
        rw [Run.openLists, if_neg]
        rw [Run.take?] at htake
        split at htake
        · cases htake
        · next hkind => simpa [Token.isMark] using hkind
    rw [hsame, hnone]
    exact ⟨rfl, hleft⟩

/-- As many closing brackets are taken as the readers take. -/
theorem returns_closeLists (depth : Nat) {last : Nat} (h : At text (last + 1) run) :
    Returns (closeLists depth last) (Source.of text) (last + 1) fun found stop =>
      match run.closeLists depth with
      | some rest => (∃ last', found = some last' ∧ stop = last' + 1) ∧ At text stop rest
      | none => found = none := by
  induction depth generalizing run last with
  | zero => exact .pure ⟨⟨last, rfl, rfl⟩, h⟩
  | succ depth ih =>
    refine (returns_skipWhile h _).bind fun _ stop hstop => ?_
    rw [Run.closeLists]
    cases htake : run.skipInline.take? (.punctuation .rightBracket) with
    | some rest =>
      obtain ⟨heat, hrest⟩ := eat_of_take? hstop htake
      refine .step heat ((returns_levelEnd hrest).bind ?_)
      rintro last _ ⟨rfl, hend⟩
      exact ih hend
    | none => exact .step (eat_of_take?_none hstop htake) (.pure rfl)

end Walk

namespace Run

variable {run rest : Run}

/-- Without a name behind the opening brackets there is no reference. -/
theorem typeReference?_of_none (h : run.openLists.2.name? = none) : run.typeReference? = none := by
  rcases hopen : run.openLists with ⟨depth, inner⟩
  rw [hopen] at h
  rw [typeReference?, hopen]
  simp only [h]

/-- Behind the name as many brackets close as were opened. -/
theorem typeReference?_of_some {name : String} (h : run.openLists.2.name? = some (name, rest)) :
    run.typeReference?
      = (closeLists run.openLists.1 rest.skipNonNull).map fun left => (run.upTo left, left) := by
  rcases hopen : run.openLists with ⟨depth, inner⟩
  rw [hopen] at h
  rw [typeReference?, hopen]
  simp only [h]

end Run

namespace Walk

variable {text : List Char} {start : Nat} {run rest : Run}

/-- A reference to a type is taken, and its text is sliced out. -/
theorem returns_typeReference (hshort : Text.byteLength text < 2 ^ 32) (h : At text start run) :
    Returns typeReference (Source.of text) start fun found stop =>
      match run.typeReference? with
      | some (type, rest) => found = some type.text ∧ At text stop rest
      | none => found = none := by
  refine .step (position_eq _ _) ((returns_openLists h).bind ?_)
  rintro _ stop ⟨rfl, hstop⟩
  cases hname : run.openLists.2.name? with
  | none =>
    rw [Run.typeReference?_of_none hname]
    exact .step (eatName_of_name?_none hstop hname) (.pure rfl)
  | some found =>
    obtain ⟨name, rest⟩ := found
    have htype := Run.typeReference?_of_some hname
    obtain ⟨heat, hrest⟩ := eatName_of_name? hstop hname
    refine .step heat ((returns_levelEnd hrest).bind ?_)
    rintro last _ ⟨rfl, hlevel⟩
    refine (returns_closeLists run.openLists.1 hlevel).bind fun found stop hfound => ?_
    cases hclose : Run.closeLists run.openLists.1 rest.skipNonNull with
    | none =>
      rw [hclose] at htype hfound
      rw [htype, hfound]
      exact .pure rfl
    | some left =>
      rw [hclose] at htype hfound
      obtain ⟨⟨last, rfl, rfl⟩, hleft⟩ := hfound
      refine (returns_slice hshort h hleft (Run.typeReference?_left htype)).bind ?_
      rintro _ _ ⟨rfl, rfl⟩
      rw [htype]
      exact .pure ⟨rfl, hleft⟩

end Walk

end SdlSchema
