/-
# Abridged runs

An abridgement tells each token of a run in other words or leaves it out.  It keeps kinds, it keeps
the texts of names and markers, and all that it leaves out is trivia inside a line.  Steps of
reading look at nothing else, so on the abridged run they do what they do on the run.  The abridged
run may go on with other tokens behind it, as long as reading does not get there.

* `Abridgement` : what is left of each token;
* `Run.StopsBefore` : reading stops in front of what is behind the run;
* `Abridgement.acceptMarkers_onto` : so do the steps, up to the longest of them.
-/
import SdlSchema.Proofs.Scanning.Readers

namespace SdlSchema

/-- A way to tell runs in other words. -/
structure Abridgement where
  /-- What is left of a token. -/
  token? : Token → Option Token
  /-- What is left of the content of a description. -/
  content : String → String
  isInlineTrivia_of_eq_none : ∀ {token}, token? token = none → token.isInlineTrivia = true
  kind_eq : ∀ {token kept}, token? token = some kept → kept.kind = token.kind
  text_eq : ∀ {token kept}, token? token = some kept →
    token.isName = true ∨ token.isMarker = true → kept.text = token.text
  content_eq : ∀ {token kept}, token? token = some kept →
    token.isDescription = true → kept.content = content token.content

/-! ## Where reading stays -/

/-- Reading does not get to what is behind the run: there is nothing, or a closing brace is still
ahead and each brace that opens is closed. -/
def Run.StopsBefore (run behind : Run) : Prop :=
  behind = [] ∨ ((∃ closer ∈ run, closer.isMark .rightBrace = true) ∧ ¬ HoldsOpenBrace run)

/-- The run does not begin with trivia that may be left out. -/
def Run.AtToken (run : Run) : Prop := ∀ token ∈ run.head?, token.isInlineTrivia = false

namespace Run

variable {behind run rest : Run}

theorem stopsBefore_nil (run : Run) : run.StopsBefore [] := Or.inl rfl

/-- Without a brace in between reading stays where it stayed. -/
theorem StopsBefore.of_braceless (h : run.StopsBefore behind) (hrest : Braceless rest run) :
    rest.StopsBefore behind := by
  rcases h with hnil | ⟨⟨closer, hmem, hcloser⟩, hopen⟩
  · exact Or.inl hnil
  · obtain ⟨front, rfl, hfront⟩ := hrest
    refine Or.inr ⟨⟨closer, ?_, hcloser⟩, fun h => hopen (h.of_suffix (List.suffix_append _ _))⟩
    rcases List.mem_append.mp hmem with hmem | hmem
    · have hbrace := hfront closer hmem
      rw [Token.isBrace, hcloser, Bool.or_true] at hbrace
      cases hbrace
    · exact hmem

/-- One token that is no brace may be passed over. -/
theorem StopsBefore.tail {token : Token} (h : Run.StopsBefore (token :: rest) behind)
    (htoken : token.isBrace = false) : rest.StopsBefore behind :=
  h.of_braceless (.cons htoken rest)

/-- Trivia may be passed over, for it holds no brace. -/
theorem StopsBefore.skipTrivia (h : run.StopsBefore behind) : run.skipTrivia.StopsBefore behind :=
  h.of_braceless (.skipTrivia run)

theorem StopsBefore.skipInline (h : run.StopsBefore behind) : run.skipInline.StopsBefore behind :=
  h.of_braceless (.skipInline run)

/-- Behind passed over trivia the run begins with a token. -/
theorem atToken_skipTrivia (run : Run) : run.skipTrivia.AtToken := by
  intro token hmem
  have htrivia : token.isTrivia = false := by
    have hstop := List.head?_dropWhile_not Token.isTrivia run
    rwa [← Run.skipTrivia, hmem] at hstop
  cases hinline : token.isInlineTrivia with
  | false => rfl
  | true => rw [Token.isTrivia_of_isInlineTrivia hinline] at htrivia; cases htrivia

/-- Behind what is passed over inside a line the run begins with a token or a line break. -/
theorem atToken_skipInline (run : Run) : run.skipInline.AtToken := by
  intro token hmem
  have hstop := List.head?_dropWhile_not Token.isInlineTrivia run
  rwa [← Run.skipInline, hmem] at hstop

end Run

/-! ## Kinds of tokens -/

/-- A description is no brace. -/
theorem Token.isBrace_of_isDescription {token : Token} (h : token.isDescription = true) :
    token.isBrace = false := by
  unfold isDescription at h
  cases hkind : token.kind <;> simp [hkind, Kind.isDescription] at h <;>
    simp [isBrace, isMark, hkind]

/-- A marker is no brace. -/
theorem Token.isBrace_of_isMarker {token : Token} (h : token.isMarker = true) :
    token.isBrace = false :=
  isBrace_eq_false_of_kind (by simpa [isMarker] using h) (by simp) (by simp)

/-- Trivia is neither a name nor a description nor a marker nor a mark. -/
theorem Token.of_isTrivia {token : Token} (h : token.isTrivia = true) :
    token.isName = false ∧ token.isDescription = false ∧ token.isMarker = false ∧
      ∀ mark, token.isMark mark = false := by
  unfold isTrivia at h
  cases hkind : token.kind <;> simp [hkind, Kind.isTrivia] at h <;>
    simp [isName, isDescription, isMarker, isMark, Kind.isName, Kind.isDescription, hkind]

theorem Token.isNewline_of_isInlineTrivia {token : Token} (h : token.isInlineTrivia = true) :
    token.isNewline = false := by
  unfold isInlineTrivia at h
  cases hkind : token.kind <;> simp [hkind, Kind.isInlineTrivia] at h <;> simp [isNewline, hkind]

/-- A test for trivia that may stand between tokens: all that is inside a line, and perhaps line
breaks. -/
structure SkipsTrivia (skip : Token → Bool) : Prop where
  of_isInlineTrivia : ∀ {token}, token.isInlineTrivia = true → skip token = true
  isTrivia : ∀ {token}, skip token = true → token.isTrivia = true
  congr : ∀ {token other : Token}, other.kind = token.kind → skip other = skip token

/-- The test for trivia of every kind passes over trivia only. -/
theorem skipsTrivia_isTrivia : SkipsTrivia Token.isTrivia :=
  ⟨Token.isTrivia_of_isInlineTrivia, id, fun h => congrArg Kind.isTrivia h⟩

theorem skipsTrivia_isInlineTrivia : SkipsTrivia Token.isInlineTrivia :=
  ⟨id, Token.isTrivia_of_isInlineTrivia, fun h => congrArg Kind.isInlineTrivia h⟩

/-- Markers begin behind what is passed over in front of them. -/
theorem Run.suffix_dropWhile_of_afterMarkers {skip : Token → Bool} (hskip : SkipsTrivia skip)
    {run rest : Run} (h : run.afterMarkers skip = some rest) : rest <:+ run.dropWhile skip := by
  induction run with
  | nil => cases h
  | cons token tail ih =>
    by_cases hpass : skip token = true
    · rw [afterMarkers, (Token.of_isTrivia (hskip.isTrivia hpass)).2.2.1, if_neg (by simp),
        if_pos hpass] at h
      rw [List.dropWhile_cons_of_pos hpass]
      exact ih h
    · rw [List.dropWhile_cons_of_neg hpass]
      exact (afterMarkers_left h).suffix

namespace Abridgement

/-- What is left of a run. -/
def part (A : Abridgement) (run : Run) : Run := run.filterMap A.token?

/-- What is left of a run, with other tokens behind it. -/
def onto (A : Abridgement) (behind run : Run) : Run := A.part run ++ behind

variable {A : Abridgement} {behind run rest tail : Run} {token kept : Token}

/-! ## Tokens -/

theorem isName_eq (h : A.token? token = some kept) : kept.isName = token.isName :=
  congrArg Kind.isName (A.kind_eq h)

theorem isMarker_eq (h : A.token? token = some kept) : kept.isMarker = token.isMarker := by
  rw [Token.isMarker, Token.isMarker, A.kind_eq h]

theorem isNewline_eq (h : A.token? token = some kept) : kept.isNewline = token.isNewline := by
  rw [Token.isNewline, Token.isNewline, A.kind_eq h]

/-- An abridgement keeps marks, since it keeps kinds. -/
theorem isMark_eq (h : A.token? token = some kept) (mark : Punctuation) :
    kept.isMark mark = token.isMark mark := by
  rw [Token.isMark, Token.isMark, A.kind_eq h]

theorem isDescription_eq (h : A.token? token = some kept) :
    kept.isDescription = token.isDescription :=
  congrArg Kind.isDescription (A.kind_eq h)

/-- The words of names and markers are kept. -/
theorem word_eq (h : A.token? token = some kept)
    (htoken : token.isName = true ∨ token.isMarker = true) : kept.word = token.word := by
  rw [Token.word, Token.word, A.text_eq h htoken]

variable (A)

/-- A token that is no trivia inside a line is never left out. -/
theorem exists_kept (h : token.isInlineTrivia = false) : ∃ kept, A.token? token = some kept := by
  cases hkept : A.token? token with
  | none => rw [A.isInlineTrivia_of_eq_none hkept] at h; cases h
  | some kept => exact ⟨kept, rfl⟩

/-! ## Parts of runs -/

/-- Abridging works token by token, so it commutes with appending. -/
theorem part_append (front rest : Run) : A.part (front ++ rest) = A.part front ++ A.part rest :=
  List.filterMap_append

theorem part_cons_none (h : A.token? token = none) : A.part (token :: tail) = A.part tail :=
  List.filterMap_cons_none h

theorem part_cons_some (h : A.token? token = some kept) :
    A.part (token :: tail) = kept :: A.part tail := List.filterMap_cons_some h

theorem onto_cons_none (h : A.token? token = none) :
    A.onto behind (token :: tail) = A.onto behind tail := by
  rw [onto, onto, A.part_cons_none h]

theorem onto_cons_some (h : A.token? token = some kept) :
    A.onto behind (token :: tail) = kept :: A.onto behind tail := by
  rw [onto, onto, A.part_cons_some h, List.cons_append]

theorem onto_append (front rest : Run) :
    A.onto behind (front ++ rest) = A.part front ++ A.onto behind rest := by
  rw [onto, onto, part_append, List.append_assoc]

@[simp] theorem onto_nil_left (run : Run) : A.onto [] run = A.part run := List.append_nil _

/-- What is read of the abridged run is what is left of what is read of the run. -/
theorem upTo_onto (h : rest <:+ run) :
    (A.onto behind run).upTo (A.onto behind rest) = A.part (run.upTo rest) := by
  obtain ⟨front, rfl⟩ := h
  rw [onto_append, Run.upTo_append_left, Run.upTo_append_left]

/-- Where reading stays within, an empty run has nothing behind it. -/
theorem onto_nil (h : Run.StopsBefore [] behind) : A.onto behind [] = [] := by
  rcases h with rfl | ⟨⟨closer, hmem, -⟩, -⟩
  · rfl
  · simp at hmem

/-! ## Passing over trivia -/

/-- Passing over trivia commutes with abridging. -/
theorem dropWhile_onto {skip : Token → Bool} (hskip : SkipsTrivia skip)
    (h : run.StopsBefore behind) :
    (A.onto behind run).dropWhile skip = A.onto behind (run.dropWhile skip) := by
  induction run with
  | nil => rw [A.onto_nil h]; exact (A.onto_nil h).symm
  | cons token tail ih =>
    cases hkept : A.token? token with
    | none =>
      have hinline := A.isInlineTrivia_of_eq_none hkept
      have htail := h.tail (Token.isBrace_of_isTrivia (Token.isTrivia_of_isInlineTrivia hinline))
      rw [A.onto_cons_none hkept, ih htail,
        List.dropWhile_cons_of_pos (hskip.of_isInlineTrivia hinline)]
    | some kept =>
      have hsame := hskip.congr (A.kind_eq hkept)
      rw [A.onto_cons_some hkept]
      by_cases hpass : skip token = true
      · rw [List.dropWhile_cons_of_pos hpass, List.dropWhile_cons_of_pos (hsame.trans hpass),
          ih (h.tail (Token.isBrace_of_isTrivia (hskip.isTrivia hpass)))]
      · rw [List.dropWhile_cons_of_neg hpass, List.dropWhile_cons_of_neg (by rwa [hsame]),
          A.onto_cons_some hkept]

theorem skipTrivia_onto (h : run.StopsBefore behind) :
    (A.onto behind run).skipTrivia = A.onto behind run.skipTrivia :=
  A.dropWhile_onto skipsTrivia_isTrivia h

theorem skipInline_onto (h : run.StopsBefore behind) :
    (A.onto behind run).skipInline = A.onto behind run.skipInline :=
  A.dropWhile_onto skipsTrivia_isInlineTrivia h

/-! ## Taking tokens -/

/-- A token that is asked for by its kind is there in both runs or in neither. -/
theorem take?_onto (kind : Kind) (h : run.StopsBefore behind) (hrun : run.AtToken) :
    (A.onto behind run).take? kind = (run.take? kind).map (A.onto behind) := by
  cases run with
  | nil => rw [A.onto_nil h]; rfl
  | cons token tail =>
    obtain ⟨kept, hkept⟩ := A.exists_kept (hrun token rfl)
    rw [A.onto_cons_some hkept, Run.take?, Run.take?, A.kind_eq hkept]
    split <;> rfl

/-- The name in front of the abridged run is the name in front of the run. -/
theorem name?_onto (h : run.StopsBefore behind) (hrun : run.AtToken) :
    (A.onto behind run).name? = run.name?.map (Prod.map id (A.onto behind)) := by
  cases run with
  | nil => rw [A.onto_nil h]; rfl
  | cons token tail =>
    obtain ⟨kept, hkept⟩ := A.exists_kept (hrun token rfl)
    rw [A.onto_cons_some hkept, Run.name?, Run.name?, isName_eq hkept]
    split
    · next hname => rw [word_eq hkept (Or.inl hname)]; rfl
    · rfl

/-- A token that is required is missed in the abridged run exactly if it is missed in the run. -/
theorem expect_onto (kind : Kind) (h : run.StopsBefore behind) (hrun : run.AtToken) :
    (A.onto behind run).expect kind = (run.expect kind).map (A.onto behind) := by
  unfold Run.expect
  rw [A.take?_onto kind h hrun]
  cases run.take? kind <;> rfl

/-- A required name is found or missed alike in both runs. -/
theorem expectName_onto (h : run.StopsBefore behind) (hrun : run.AtToken) :
    (A.onto behind run).expectName = run.expectName.map (Prod.map id (A.onto behind)) := by
  unfold Run.expectName
  rw [A.name?_onto h hrun]
  cases run.name? <;> rfl

/-- A token that may be there is found or passed by alike in both runs. -/
theorem accept_onto (kind : Kind) (h : run.StopsBefore behind) (hrun : run.AtToken) :
    (A.onto behind run).accept kind
      = ((run.accept kind).1, A.onto behind (run.accept kind).2) := by
  unfold Run.accept
  rw [A.take?_onto kind h hrun]
  cases run.take? kind <;> rfl

/-- The abridged run stands at the end of a line exactly if the run does. -/
theorem atLineEnd_onto (h : run.StopsBefore behind) (hrun : run.AtToken) :
    (A.onto behind run).atLineEnd = run.atLineEnd := by
  cases run with
  | nil => rw [A.onto_nil h]
  | cons token tail =>
    obtain ⟨kept, hkept⟩ := A.exists_kept (hrun token rfl)
    rw [A.onto_cons_some hkept]
    exact isNewline_eq hkept

/-! ## Modifiers and descriptions -/

/-- The word `extend` is found alike in both runs. -/
theorem acceptExtend_onto (h : run.StopsBefore behind) (hrun : run.AtToken) :
    (A.onto behind run).acceptExtend
      = (run.acceptExtend.1, A.onto behind run.acceptExtend.2) := by
  unfold Run.acceptExtend
  rw [A.take?_onto _ h hrun]
  cases htake : run.take? (.keyword .extend) with
  | none => rfl
  | some rest =>
    have hrest := h.of_braceless (Run.take?_braceless htake (by simp) (by simp))
    simp only [Option.map_some, A.skipTrivia_onto hrest]

/-- The description found in the abridged run is what is left of the description of the run. -/
theorem acceptDescription_onto (h : run.StopsBefore behind) (hrun : run.AtToken) :
    (A.onto behind run).acceptDescription
      = (run.acceptDescription.1.map A.content, A.onto behind run.acceptDescription.2) := by
  cases run with
  | nil => rw [A.onto_nil h]; exact congrArg (Prod.mk none) (A.onto_nil h).symm
  | cons token tail =>
    obtain ⟨kept, hkept⟩ := A.exists_kept (hrun token rfl)
    have hskip := A.skipTrivia_onto h
    rw [A.onto_cons_some hkept] at hskip ⊢
    rw [Run.acceptDescription, Run.acceptDescription, isDescription_eq hkept, hskip]
    split
    · next hdescription =>
      have htail := h.tail (Token.isBrace_of_isDescription hdescription)
      rw [A.skipTrivia_onto htail, A.content_eq hkept hdescription]
      rfl
    · rfl

/-! ## Markers -/

/-- The markers of the abridged run end where those of the run end. -/
theorem afterMarkers_onto {skip : Token → Bool} (hskip : SkipsTrivia skip)
    (h : run.StopsBefore behind) :
    (A.onto behind run).afterMarkers skip = (run.afterMarkers skip).map (A.onto behind) := by
  induction run with
  | nil => rw [A.onto_nil h]; rfl
  | cons token tail ih =>
    cases hkept : A.token? token with
    | none =>
      have hinline := A.isInlineTrivia_of_eq_none hkept
      have htrivia := Token.isTrivia_of_isInlineTrivia hinline
      have htail := h.tail (Token.isBrace_of_isTrivia htrivia)
      have hmarker := (Token.of_isTrivia htrivia).2.2.1
      rw [A.onto_cons_none hkept, ih htail, Run.afterMarkers, hmarker,
        hskip.of_isInlineTrivia hinline]
      rfl
    | some kept =>
      rw [A.onto_cons_some hkept, Run.afterMarkers, Run.afterMarkers, isMarker_eq hkept,
        hskip.congr (A.kind_eq hkept)]
      split
      · next hmarker =>
        rw [ih (h.tail (Token.isBrace_of_isMarker hmarker))]
        cases Run.afterMarkers skip tail <;> rfl
      · split
        · next hpass => exact ih (h.tail (Token.isBrace_of_isTrivia (hskip.isTrivia hpass)))
        · rfl

/-- The markers of the abridged run are what is left of those of the run. -/
theorem acceptMarkers_onto {skip : Token → Bool} (hskip : SkipsTrivia skip)
    (h : run.StopsBefore behind) :
    (A.onto behind run).acceptMarkers skip
      = (A.part (run.acceptMarkers skip).1, A.onto behind (run.acceptMarkers skip).2) := by
  unfold Run.acceptMarkers
  rw [A.afterMarkers_onto hskip h]
  cases hmarkers : run.afterMarkers skip with
  | none => rfl
  | some rest =>
    simp only [Option.map_some]
    rw [A.dropWhile_onto hskip h, A.upTo_onto (Run.suffix_dropWhile_of_afterMarkers hskip hmarkers)]

end Abridgement

end SdlSchema
