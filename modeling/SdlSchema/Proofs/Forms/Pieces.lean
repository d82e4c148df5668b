/-
# Forms of the pieces of a declaration

A form says of a run of tokens which piece of a declaration it is, without saying how it is read:
a gap of trivia, a word such as `extend`, a run of markers.  A step of reading takes exactly the
form of its piece, provided that what follows cannot belong to the piece.

* `Run.acceptExtend_form`, `Run.acceptExtend_append` : the word `extend`;
* `Run.acceptMarkers_form`, `Run.acceptMarkers_form_append` : markers, up to the last of them;
* `Run.acceptMarkers_mark` : markers in front of a mark, behind trivia that was already skipped.
-/
import SdlSchema.Proofs.Reading.Lists

namespace SdlSchema

/-! ## Gaps -/

/-- Tokens that may stand between others. -/
def Gap (skip : Token → Bool) (gap : Run) : Prop := ∀ token ∈ gap, skip token = true

namespace Gap

variable {skip : Token → Bool} {gap rest : Run} {token : Token}

theorem nil : Gap skip [] := by simp [Gap]

/-- Two gaps one behind the other are a gap. -/
theorem append {more : Run} (h : Gap skip gap) (hmore : Gap skip more) : Gap skip (gap ++ more) :=
  fun token hmem => (List.mem_append.mp hmem).elim (h token) (hmore token)

/-- What may stand between tokens of a line may stand between any tokens. -/
theorem of_inline (h : Gap Token.isInlineTrivia gap) : Gap Token.isTrivia gap :=
  fun token hmem => Token.isTrivia_of_isInlineTrivia (h token hmem)

/-- What is passed over is a gap. -/
theorem takeWhile (skip : Token → Bool) (run : Run) : Gap skip (run.takeWhile skip) :=
  fun _ hmem => List.mem_takeWhile_imp hmem

/-- What is skipped is a gap. -/
theorem exists_dropWhile (skip : Token → Bool) (run : Run) :
    ∃ gap, run = gap ++ run.dropWhile skip ∧ Gap skip gap :=
  ⟨run.takeWhile skip, List.takeWhile_append_dropWhile.symm, takeWhile skip run⟩

/-- A gap is passed over as a whole. -/
theorem dropWhile_append (h : Gap skip gap) (rest : Run) :
    (gap ++ rest).dropWhile skip = rest.dropWhile skip :=
  List.dropWhile_append_of_pos h

/-- A gap is skipped up to what is no part of it. -/
theorem dropWhile_cons (h : Gap skip gap) (htoken : skip token = false) :
    (gap ++ token :: rest).dropWhile skip = token :: rest := by
  rw [h.dropWhile_append, List.dropWhile_cons_of_neg (by simp [htoken])]

/-- A gap is skipped up to what does not begin with a part of it. -/
theorem dropWhile_of_head? (h : Gap skip gap) (hrest : ∀ token ∈ rest.head?, skip token = false) :
    (gap ++ rest).dropWhile skip = rest := by
  rw [h.dropWhile_append]
  cases rest with
  | nil => rfl
  | cons token rest => exact List.dropWhile_cons_of_neg (by simp [hrest token rfl])

theorem skipTrivia (h : Gap Token.isTrivia gap) (htoken : token.isTrivia = false) :
    Run.skipTrivia (gap ++ token :: rest) = token :: rest := h.dropWhile_cons htoken

theorem skipInline (h : Gap Token.isInlineTrivia gap) (htoken : token.isTrivia = false) :
    Run.skipInline (gap ++ token :: rest) = token :: rest :=
  h.dropWhile_cons <| by
    rw [Bool.eq_false_iff]
    exact fun hinline => by simp [Token.isTrivia_of_isInlineTrivia hinline] at htoken

end Gap

/-! ## Significant tokens -/

theorem Token.isMarker_of_isMark {token : Token} {mark : Punctuation}
    (h : token.isMark mark = true) : token.isMarker = false := by
  have hkind : token.kind = .punctuation mark := by simpa [isMark] using h
  simp [isMarker, hkind]

theorem Token.isTrivia_of_isMarker {token : Token} (h : token.isMarker = true) :
    token.isTrivia = false := by
  have hkind : token.kind = .marker := by simpa [isMarker] using h
  simp [isTrivia, hkind, Kind.isTrivia]

theorem Token.isTrivia_of_keyword {token : Token} {word : Keyword}
    (h : token.kind = .keyword word) : token.isTrivia = false := by
  simp [isTrivia, h, Kind.isTrivia]

namespace Run

variable {run rest : Run} {token : Token}

/-- A token of the kind that is asked for is taken. -/
theorem take?_of_kind {kind : Kind} (h : token.kind = kind) :
    Run.take? kind (token :: rest) = some rest := by
  rw [take?, if_pos h]

theorem take?_of_isMark {mark : Punctuation} (h : token.isMark mark = true) :
    Run.take? (.punctuation mark) (token :: rest) = some rest :=
  take?_of_kind (by simpa [Token.isMark] using h)

theorem expect_of_kind {kind : Kind} (h : token.kind = kind) :
    Run.expect kind (token :: rest) = .ok rest := by
  rw [expect, take?_of_kind h]

/-- A required mark is found where it stands. -/
theorem expect_of_isMark {mark : Punctuation} (h : token.isMark mark = true) :
    Run.expect (.punctuation mark) (token :: rest) = .ok rest :=
  expect_of_kind (by simpa [Token.isMark] using h)

theorem expectName_of_isName (h : token.isName = true) :
    Run.expectName (token :: rest) = .ok (token.word, rest) := by
  rw [expectName, name?, if_pos h]

/-- A mark that is expected behind trivia stands behind a gap. -/
theorem expect_skipTrivia_form {kind : Kind} (h : run.skipTrivia.expect kind = .ok rest) :
    ∃ gap token, run = gap ++ token :: rest ∧ Gap Token.isTrivia gap ∧ token.kind = kind := by
  obtain ⟨token, hrun, hkind⟩ := expect_eq_ok h
  obtain ⟨gap, hsplit, hgap⟩ := Gap.exists_dropWhile Token.isTrivia run
  exact ⟨gap, token, by rw [← hrun]; exact hsplit, hgap, hkind⟩

/-- A required name that is found has a gap in front of it. -/
theorem expectName_skipTrivia_form {name : String}
    (h : run.skipTrivia.expectName = .ok (name, rest)) :
    ∃ gap token, run = gap ++ token :: rest ∧ Gap Token.isTrivia gap ∧ token.isName = true ∧
      name = token.word := by
  obtain ⟨token, hrun, htoken, hname⟩ := expectName_eq_ok h
  obtain ⟨gap, hsplit, hgap⟩ := Gap.exists_dropWhile Token.isTrivia run
  exact ⟨gap, token, by rw [← hrun]; exact hsplit, hgap, htoken, hname⟩

end Run

/-! ## Modifiers -/

/-- A word that modifies a declaration and the gap behind it, or nothing. -/
inductive ModifierForm (word : Keyword) : Bool → Run → Prop
  | absent : ModifierForm word false []
  | present {token : Token} {gap : Run} (htoken : token.kind = .keyword word)
      (hgap : Gap Token.isTrivia gap) : ModifierForm word true (token :: gap)

namespace Run

variable {run rest : Run} {token : Token}

/-- What is accepted of `extend` has the form of a modifier. -/
theorem acceptExtend_form (run : Run) :
    ∃ front, run = front ++ run.acceptExtend.2 ∧
      ModifierForm .extend run.acceptExtend.1 front := by
  unfold acceptExtend
  split
  · next inner hextend =>
    obtain ⟨word, rfl, hword⟩ := take?_eq_some hextend
    obtain ⟨gap, hsplit, hgap⟩ := Gap.exists_dropWhile Token.isTrivia inner
    exact ⟨word :: gap, congrArg (word :: ·) hsplit, .present hword hgap⟩
  · exact ⟨[], rfl, .absent⟩

/-- `extend` is read in front of a significant token, which is not a second `extend`. -/
theorem acceptExtend_append {isExtended : Bool} {front : Run}
    (h : ModifierForm .extend isExtended front) (htoken : token.isTrivia = false)
    (hne : token.kind ≠ .keyword .extend) :
    acceptExtend (front ++ token :: rest) = (isExtended, token :: rest) := by
  cases h with
  | absent => rw [List.nil_append, acceptExtend, take?_eq_none hne]
  | present hword hgap =>
    rw [List.cons_append, acceptExtend, take?_of_kind hword]
    simp only [hgap.skipTrivia htoken]

/-- A word that may stand in front of an expected token stands behind a gap. -/
theorem accept_expect_form {word : Keyword} {kind : Kind}
    (h : (run.skipTrivia.accept (.keyword word)).2.skipTrivia.expect kind = .ok rest) :
    ∃ gap front last, run = gap ++ (front ++ last :: rest) ∧ Gap Token.isTrivia gap ∧
      ModifierForm word (run.skipTrivia.accept (.keyword word)).1 front ∧ last.kind = kind := by
  obtain ⟨gap, hsplit, hgap⟩ := Gap.exists_dropWhile Token.isTrivia run
  obtain ⟨gap', last, hlast, hgap', hkind⟩ := expect_skipTrivia_form h
  unfold accept at hlast ⊢
  split at hlast
  · next inner htake =>
    obtain ⟨token, hrun, htoken⟩ := take?_eq_some htake
    refine ⟨gap, token :: gap', last, ?_, hgap, .present htoken hgap', hkind⟩
    rw [hsplit, show run.dropWhile Token.isTrivia = token :: inner from hrun,
      show inner = gap' ++ last :: rest from hlast]
    rfl
  · refine ⟨gap ++ gap', [], last, ?_, hgap.append hgap', .absent, hkind⟩
    rw [hsplit, show run.dropWhile Token.isTrivia = gap' ++ last :: rest from hlast]
    simp

/-- A word is read in front of a significant token, which is not the same word. -/
theorem accept_append {word : Keyword} {isThere : Bool} {gap front : Run}
    (hgap : Gap Token.isTrivia gap) (h : ModifierForm word isThere front)
    (htoken : token.isTrivia = false) (hne : token.kind ≠ .keyword word) (rest : Run) :
    ∃ left : Run, (Run.skipTrivia (gap ++ (front ++ token :: rest))).accept (.keyword word)
      = (isThere, left) ∧ left.skipTrivia = token :: rest := by
  cases h with
  | absent =>
    refine ⟨token :: rest, ?_, skipTrivia_significant htoken⟩
    rw [List.nil_append, hgap.skipTrivia htoken, accept, take?_eq_none hne]
  | @present first gap' hfirst hgap' =>
    refine ⟨gap' ++ token :: rest, ?_, hgap'.skipTrivia htoken⟩
    rw [List.cons_append, hgap.skipTrivia (Token.isTrivia_of_keyword hfirst), accept,
      take?_of_kind hfirst]

end Run

/-! ## Markers -/

/-- Markers, each with a gap in front. -/
inductive MarkerRun (skip : Token → Bool) : Run → Prop
  | nil : MarkerRun skip []
  | cons {gap more : Run} {marker : Token} (hgap : Gap skip gap) (hmarker : marker.isMarker = true)
      (hmore : MarkerRun skip more) : MarkerRun skip (gap ++ marker :: more)

/-- Markers with a gap in front of each; what is kept of them is the run from the first marker to
the last. -/
inductive MarkersForm (skip : Token → Bool) : Run → Run → Prop
  | absent : MarkersForm skip [] []
  | present {gap more : Run} {marker : Token} (hgap : Gap skip gap)
      (hmarker : marker.isMarker = true) (hmore : MarkerRun skip more) :
      MarkersForm skip (marker :: more) (gap ++ marker :: more)

section Markers

variable {skip : Token → Bool} {run rest marked kept : Run} {token : Token}

/-- Markers with a gap in front of each are a run of markers, or none. -/
theorem MarkersForm.markerRun (h : MarkersForm skip kept marked) : MarkerRun skip marked := by
  cases h with
  | absent => exact .nil
  | present hgap hmarker hmore => exact .cons hgap hmarker hmore

theorem MarkerRun.append {more : Run} (h : MarkerRun skip marked) (hmore : MarkerRun skip more) :
    MarkerRun skip (marked ++ more) := by
  induction h with
  | nil => exact hmore
  | cons hgap hmarker _ ih =>
    rw [List.append_assoc, List.cons_append]
    exact .cons hgap hmarker ih

/-- Further markers behind markers belong to them. -/
theorem MarkersForm.append {more : Run} (h : MarkersForm skip kept marked)
    (hmore : MarkerRun skip more) : ∃ kept', MarkersForm skip kept' (marked ++ more) := by
  cases h with
  | absent =>
    cases hmore with
    | nil => exact ⟨[], .absent⟩
    | cons hgap hmarker hmore => exact ⟨_, .present hgap hmarker hmore⟩
  | @present gap middle marker hgap hmarker hmarked =>
    refine ⟨marker :: (middle ++ more), ?_⟩
    rw [List.append_assoc, List.cons_append]
    exact .present hgap hmarker (hmarked.append hmore)

namespace Run

/-- Markers are read behind a gap. -/
theorem afterMarkers_gap (hskip : SkipsTrivia skip) {gap : Run} (hgap : Gap skip gap) (run : Run) :
    (gap ++ run).afterMarkers skip = run.afterMarkers skip := by
  induction gap with
  | nil => rfl
  | cons token gap ih =>
    have htoken : skip token = true := hgap token List.mem_cons_self
    rw [List.cons_append, afterMarkers, if_neg (by simp [hskip.isMarker htoken]), if_pos htoken]
    exact ih fun token hmem => hgap token (List.mem_cons_of_mem _ hmem)

theorem afterMarkers_dropWhile (hskip : SkipsTrivia skip) (run : Run) :
    afterMarkers skip (run.dropWhile skip) = run.afterMarkers skip := by
  obtain ⟨gap, hrun, hgap⟩ := Gap.exists_dropWhile skip run
  rw [← afterMarkers_gap hskip hgap, ← hrun]

/-- Markers, behind which there are no more, are read up to the last of them. -/
theorem afterMarkers_markerRun (hskip : SkipsTrivia skip) (h : MarkerRun skip marked)
    (hrest : rest.afterMarkers skip = none) :
    (marked ++ rest).afterMarkers skip = if marked = [] then none else some rest := by
  induction h with
  | nil => exact hrest
  | @cons gap more marker hgap hmarker _ ih =>
    have hne : gap ++ marker :: more ≠ [] := by simp
    rw [if_neg hne, List.append_assoc, afterMarkers_gap hskip hgap, List.cons_append,
      afterMarkers, if_pos hmarker, ih]
    cases more <;> rfl

/-- What is read of markers has their form, and there are no more markers behind. -/
theorem afterMarkers_form (h : run.afterMarkers skip = some rest) :
    ∃ marked, run = marked ++ rest ∧ marked ≠ [] ∧ MarkerRun skip marked := by
  induction run generalizing rest with
  | nil => cases h
  | cons token run ih =>
    rw [afterMarkers] at h
    split at h
    · next hmarker =>
      cases h
      cases hmore : afterMarkers skip run with
      | none => exact ⟨[token], rfl, by simp, .cons .nil hmarker .nil⟩
      | some left =>
        obtain ⟨marked, rfl, -, hmarked⟩ := ih hmore
        exact ⟨token :: marked, rfl, by simp, .cons .nil hmarker hmarked⟩
    · split at h
      · next htoken =>
        obtain ⟨marked, rfl, hne, hmarked⟩ := ih h
        cases hmarked with
        | nil => exact absurd rfl hne
        | @cons gap more marker hgap hmarker hmore =>
          refine ⟨(token :: gap) ++ marker :: more, rfl, by simp, .cons ?_ hmarker hmore⟩
          have hfirst : Gap skip [token] := by simpa [Gap] using htoken
          exact hfirst.append hgap
      · cases h

/-- The markers that are accepted have a gap in front of each. -/
theorem acceptMarkers_form (hskip : SkipsTrivia skip) (run : Run) :
    ∃ marked, run = marked ++ (run.acceptMarkers skip).2 ∧
      MarkersForm skip (run.acceptMarkers skip).1 marked := by
  unfold acceptMarkers
  split
  · next rest h =>
    obtain ⟨marked, rfl, hne, hmarked⟩ := afterMarkers_form h
    cases hmarked with
    | nil => exact absurd rfl hne
    | @cons gap more marker hgap hmarker hmore =>
      refine ⟨gap ++ marker :: more, rfl, ?_⟩
      have hmarkerSkip : skip marker = false := by
        rw [Bool.eq_false_iff]
        exact fun h => by simp [hskip.isMarker h] at hmarker
      rw [List.append_assoc, List.cons_append, hgap.dropWhile_cons hmarkerSkip,
        ← List.cons_append, upTo_append_left]
      exact .present hgap hmarker hmore
  · exact ⟨[], rfl, .absent⟩

/-- Markers are read whole where no more of them follow. -/
theorem acceptMarkers_form_append (hskip : SkipsTrivia skip) (h : MarkersForm skip kept marked)
    (hrest : rest.afterMarkers skip = none) :
    (marked ++ rest).acceptMarkers skip = (kept, rest) := by
  have hafter := afterMarkers_markerRun hskip h.markerRun hrest
  cases h with
  | absent =>
    rw [if_pos rfl] at hafter
    rw [acceptMarkers, hafter]
    rfl
  | @present gap more marker hgap hmarker hmore =>
    have hmarkerSkip : skip marker = false := by
      rw [Bool.eq_false_iff]
      exact fun h => by simp [hskip.isMarker h] at hmarker
    rw [if_neg (by simp)] at hafter
    rw [acceptMarkers, hafter]
    simp only [List.append_assoc, List.cons_append, hgap.dropWhile_cons hmarkerSkip]
    rw [← List.cons_append, upTo_append_left]

/-- There are no markers between a gap and what is neither a marker nor part of a gap. -/
theorem afterMarkers_gap_eq_none (hskip : SkipsTrivia skip) {gap : Run}
    (hgap : Gap Token.isTrivia gap) (htrivia : token.isTrivia = false)
    (hmarker : token.isMarker = false) : (gap ++ token :: rest).afterMarkers skip = none := by
  refine afterMarkers_eq_none hskip ?_
  obtain ⟨front, hsplit, hfront⟩ := Gap.exists_dropWhile skip gap
  have hpass : skip token = false := by
    rw [Bool.eq_false_iff]
    exact fun h => by simp [hskip.isTrivia h] at htrivia
  rw [hsplit, List.append_assoc, hfront.dropWhile_append]
  cases hleft : gap.dropWhile skip with
  | nil => simp [hpass, hmarker]
  | cons first left =>
    have hfirst : first ∈ gap := by
      rw [hsplit, hleft]
      exact List.mem_append_right _ List.mem_cons_self
    have hpassFirst : skip first = false := by
      simpa [hleft] using List.head?_dropWhile_not skip gap
    rw [List.cons_append, List.dropWhile_cons_of_neg (by simp [hpassFirst])]
    simp [(Token.of_isTrivia (hgap first hfirst)).2.2.1]

/-- Markers are read alike where runs differ in the gap in front of them. -/
theorem acceptMarkers_congr (hskip : SkipsTrivia skip) {left right : Run}
    (h : left.dropWhile skip = right.dropWhile skip) :
    (left.acceptMarkers skip).1 = (right.acceptMarkers skip).1 ∧
      (left.acceptMarkers skip).2.dropWhile skip = (right.acceptMarkers skip).2.dropWhile skip := by
  have hafter : left.afterMarkers skip = right.afterMarkers skip := by
    rw [← afterMarkers_dropWhile hskip left, h, afterMarkers_dropWhile hskip]
  rw [acceptMarkers, acceptMarkers, hafter]
  cases right.afterMarkers skip with
  | some rest => exact ⟨congrArg (upTo · rest) h, rfl⟩
  | none => exact ⟨rfl, h⟩

/-- Markers on whatever line are read up to a mark, also where the trivia in front of them was
skipped before. -/
theorem acceptMarkers_mark {mark : Punctuation} {gap : Run}
    (h : MarkersForm Token.isTrivia kept marked) (hgap : Gap Token.isTrivia gap)
    (hmark : token.isMark mark = true) (rest : Run)
    (hrun : run.skipTrivia = (marked ++ (gap ++ token :: rest)).skipTrivia) :
    (run.acceptMarkers Token.isTrivia).1 = kept ∧
      (run.acceptMarkers Token.isTrivia).2.skipTrivia = token :: rest := by
  have htrivia := Token.isTrivia_of_isMark hmark
  have hnone : (gap ++ token :: rest).afterMarkers Token.isTrivia = none :=
    afterMarkers_gap_eq_none skipsTrivia_isTrivia hgap htrivia (Token.isMarker_of_isMark hmark)
  obtain ⟨hkept, hleft⟩ := acceptMarkers_congr skipsTrivia_isTrivia hrun
  rw [acceptMarkers_form_append skipsTrivia_isTrivia h hnone] at hkept hleft
  exact ⟨hkept, hleft.trans (hgap.skipTrivia htrivia)⟩

end Run

end Markers

/-! ## The end of a line or of an item -/

namespace Run

variable {rest gap : Run}

theorem atItemEnd_of_atLineEnd (h : rest.atLineEnd = true) : rest.atItemEnd = true := by
  cases rest with
  | nil => rfl
  | cons token tail => exact Bool.or_eq_true_iff.mpr (.inl h)

/-- An item ends only in front of a line break, a comma, or nothing. -/
theorem of_mem_head?_of_atItemEnd (h : rest.atItemEnd = true) :
    ∀ token ∈ rest.head?, token.isNewline = true ∨ token.isMark .comma = true := by
  cases rest with
  | nil => exact fun _ hmem => nomatch hmem
  | cons first tail =>
    rintro token hmem
    obtain rfl := Option.some.inj hmem
    exact Bool.or_eq_true_iff.mp h

/-- At the end of an item there is no more trivia of its line. -/
theorem skipInline_of_atItemEnd (h : rest.atItemEnd = true) (hgap : Gap Token.isInlineTrivia gap) :
    Run.skipInline (gap ++ rest) = rest := by
  refine hgap.dropWhile_of_head? fun token hmem => ?_
  rw [Bool.eq_false_iff]
  intro hinline
  rcases of_mem_head?_of_atItemEnd h token hmem with hnewline | hcomma
  · rw [Token.isNewline_of_isInlineTrivia hinline] at hnewline
    cases hnewline
  · rw [(Token.of_isTrivia (Token.isTrivia_of_isInlineTrivia hinline)).2.2.2] at hcomma
    cases hcomma

/-- At the end of an item there are no more markers on its line. -/
theorem afterMarkers_of_atItemEnd (h : rest.atItemEnd = true) (hgap : Gap Token.isInlineTrivia gap) :
    (gap ++ rest).afterMarkers Token.isInlineTrivia = none := by
  refine afterMarkers_eq_none skipsTrivia_isInlineTrivia ?_
  rw [show (gap ++ rest).dropWhile Token.isInlineTrivia = rest from skipInline_of_atItemEnd h hgap]
  cases hhead : rest.head? with
  | none => rfl
  | some token =>
    rcases of_mem_head?_of_atItemEnd h token hhead with hnewline | hcomma
    · have hkind : token.kind = .newline := by simpa [Token.isNewline] using hnewline
      simp [Token.isMarker, hkind]
    · simp [Token.isMarker_of_isMark hcomma]

end Run

end SdlSchema
