/-
# Elements and the markers they carry

The elements of a text are its names, one element for each, whatever stands around them.  A marker
belongs to the last name in front of it if nothing but blanks, comments and markers stands between
the two, and to no element otherwise.

* `Run.acceptMarkers_longest` : what is read of markers is the longest run of them;
* `getElem?_elements` : the element of a name, by the number of names in front of it;
* `carries_iff` : the markers that an element carries;
* `elements_exact` : the elements of a text, with the slices of their markers.
-/
import SdlSchema.Proofs.Forms.Pieces
import SdlSchema.Proofs.Lexing.Relexing

namespace SdlSchema

/-! ## The longest run of markers -/

section Markers

variable {skip : Token → Bool} {run rest gap marked kept : Run} {token marker : Token}

theorem MarkersForm.exists_gap (h : MarkersForm skip kept marked) :
    ∃ gap, marked = gap ++ kept ∧ Gap skip gap := by
  cases h with
  | absent => exact ⟨[], rfl, .nil⟩
  | present hgap _ _ => exact ⟨_, rfl, hgap⟩

/-- A run of markers is made of markers and of what may stand in front of them. -/
theorem MarkerRun.of_mem (h : MarkerRun skip marked) (htoken : token ∈ marked) :
    skip token = true ∨ token.isMarker = true := by
  induction h with
  | nil => cases htoken
  | cons hgap hmarker _ ih =>
    rcases List.mem_append.mp htoken with htoken | htoken
    · exact .inl (hgap token htoken)
    · rcases List.mem_cons.mp htoken with rfl | htoken
      · exact .inr hmarker
      · exact ih htoken

theorem MarkerRun.cons_skip (h : MarkerRun skip marked) (hne : marked ≠ [])
    (htoken : skip token = true) : MarkerRun skip (token :: marked) := by
  cases h with
  | nil => exact absurd rfl hne
  | @cons gap more marker hgap hmarker hmore =>
    have hfirst : Gap skip [token] := by simpa [Gap] using htoken
    exact .cons (hfirst.append hgap) hmarker hmore

/-- Markers and what may stand in front of them, up to a marker, are a run of markers. -/
theorem MarkerRun.of_forall (h : ∀ token ∈ run, skip token = true ∨ token.isMarker = true)
    (hmarker : marker.isMarker = true) : MarkerRun skip (run ++ [marker]) := by
  induction run with
  | nil => exact .cons .nil hmarker .nil
  | cons token run ih =>
    have hrun := ih fun token hmem => h token (List.mem_cons_of_mem _ hmem)
    rcases h token List.mem_cons_self with htoken | htoken
    · exact hrun.cons_skip (by simp) htoken
    · have hnoGap : MarkerRun skip ([] ++ token :: (run ++ [marker])) := .cons .nil htoken hrun
      exact hnoGap

/-- That the longest run of markers at the start of `run` is `gap ++ kept`, of which `kept` reaches
from the first marker to the last, and that it leaves `rest`. -/
structure LongestMarkers (skip : Token → Bool) (gap kept rest run : Run) : Prop where
  split : run = gap ++ (kept ++ rest)
  isForm : MarkersForm skip kept (gap ++ kept)
  longest : ∀ other left, MarkerRun skip other → run = other ++ left →
    other.length ≤ (gap ++ kept).length

/-- Nothing is kept exactly where there is no marker. -/
theorem LongestMarkers.kept_eq_nil_iff (h : LongestMarkers skip gap kept rest run) :
    kept = [] ↔ ∀ gap' marker left, Gap skip gap' → run = gap' ++ marker :: left →
      marker.isMarker = false := by
  have hform := h.isForm
  have hsplit := h.split
  constructor
  · rintro rfl gap' marker left hgap' hrun
    rw [Bool.eq_false_iff]
    intro hmarker
    have hnil : gap ++ [] = [] := by
      generalize gap ++ [] = marked at hform
      cases hform
      rfl
    have hle := h.longest (gap' ++ [marker]) left (.cons hgap' hmarker .nil) (by simp [hrun])
    rw [hnil] at hle
    simp at hle
  · intro hnone
    generalize hmarked : gap ++ kept = marked at hform
    cases hform with
    | absent => rfl
    | @present gap' more marker hgap' hmarker _ =>
      have hrun : run = gap' ++ marker :: (more ++ rest) := by
        rw [hsplit, ← List.append_assoc, hmarked, List.append_assoc, List.cons_append]
      rw [hnone gap' marker _ hgap' hrun] at hmarker
      cases hmarker

/-- No run of markers is longer than one behind which there are no more markers. -/
theorem MarkerRun.length_le (hskip : SkipsTrivia skip) (h : MarkerRun skip marked)
    (hrest : rest.afterMarkers skip = none) {other left : Run} (hother : MarkerRun skip other)
    (hsplit : marked ++ rest = other ++ left) : other.length ≤ marked.length := by
  -- the other run, drawn out as far as markers go, ends where this one does
  obtain ⟨more, hleft, hmore⟩ := Run.acceptMarkers_form hskip left
  have hdrawn := Run.afterMarkers_markerRun hskip (hother.append hmore.markerRun)
    (Run.afterMarkers_acceptMarkers left)
  rw [List.append_assoc, ← hleft, ← hsplit, Run.afterMarkers_markerRun hskip h hrest] at hdrawn
  by_cases hnil : other ++ more = []
  · rw [(List.append_eq_nil_iff.mp hnil).1]
    exact Nat.zero_le _
  · rw [if_neg hnil] at hdrawn
    split at hdrawn
    · cases hdrawn
    · have hlength := congrArg List.length hsplit
      rw [hleft, ← Option.some.inj hdrawn] at hlength
      simp only [List.length_append] at hlength
      omega

/-- What is read of markers is the longest run of them. -/
theorem Run.acceptMarkers_longest (hskip : SkipsTrivia skip) (run : Run) :
    ∃ gap, LongestMarkers skip gap (run.acceptMarkers skip).1 (run.acceptMarkers skip).2 run := by
  obtain ⟨marked, hrun, hform⟩ := Run.acceptMarkers_form hskip run
  obtain ⟨gap, rfl, -⟩ := hform.exists_gap
  refine ⟨gap, ⟨by rwa [List.append_assoc] at hrun, hform, ?_⟩⟩
  intro other left hother hsplit
  exact hform.markerRun.length_le hskip (Run.afterMarkers_acceptMarkers run) hother
    (hrun.symm.trans hsplit)

end Markers

/-! ## The element of a name -/

variable {run rest front tail before : Run} {name : Token} {index : Nat}

/-- Behind as many elements as there are names in front come the elements of the rest. -/
theorem drop_elements_append (front rest : Run) :
    (elements (front ++ rest)).drop (front.countP Token.isName) = elements rest := by
  induction front with
  | nil => rfl
  | cons token front ih =>
    rw [List.cons_append, elements_cons]
    cases hname : token.isName with
    | true => rw [if_pos rfl, List.countP_cons_of_pos hname, List.drop_succ_cons, ih]
    | false =>
      rw [if_neg Bool.false_ne_true, List.countP_cons_of_neg (by simp [hname]), ih]

/-- The element of a name carries the markers that are read behind it. -/
theorem getElem?_elements (hname : name.isName = true) (front tail : Run) :
    (elements (front ++ name :: tail))[front.countP Token.isName]?
      = some ⟨name.word, (tail.acceptMarkers Token.isInlineTrivia).1⟩ := by
  rw [← List.head?_drop, drop_elements_append, elements_cons, if_pos hname, List.head?_cons]

/-! ## The markers of an element -/

/-- That the token behind `before` is one of the markers of element number `index`: the markers of
that element stand behind its name and a gap, and reach over the token. -/
def Carries (run before : Run) (index : Nat) : Prop :=
  ∃ front name gap inner token left rest, before = front ++ name :: (gap ++ inner) ∧
    run = before ++ token :: (left ++ rest) ∧ name.isName = true ∧
    Gap Token.isInlineTrivia gap ∧ front.countP Token.isName = index ∧
    (elements run)[index]? = some ⟨name.word, inner ++ token :: left⟩

/-- That `before` ends with name number `index` and, behind it, nothing but blanks, comments and
markers. -/
def EndsWithName (before : Run) (index : Nat) : Prop :=
  ∃ front name between, before = front ++ name :: between ∧ name.isName = true ∧
    front.countP Token.isName = index ∧
    ∀ token ∈ between, token.isInlineTrivia = true ∨ token.isMarker = true

/-- The name that something ends with is the last one in it. -/
theorem EndsWithName.countP_eq (h : EndsWithName before index) :
    before.countP Token.isName = index + 1 := by
  obtain ⟨front, name, between, rfl, hname, rfl, hbetween⟩ := h
  have hnone : between.countP Token.isName = 0 := by
    rw [List.countP_eq_zero]
    intro token hmem
    rcases hbetween token hmem with htoken | htoken
    · simp [Token.isName_of_isInlineTrivia htoken]
    · simp [Token.isName_of_isMarker htoken]
  rw [List.countP_append, List.countP_cons_of_pos hname, hnone]

/-- What an element carries stands behind its name, with markers, blanks and comments between. -/
theorem Carries.endsWithName (h : Carries run before index) : EndsWithName before index := by
  obtain ⟨front, name, gap, inner, token, left, rest, rfl, hrun, hname, hgap, rfl, helement⟩ := h
  refine ⟨front, name, gap ++ inner, rfl, hname, rfl, fun other hmem => ?_⟩
  rcases List.mem_append.mp hmem with hmem | hmem
  · exact .inl (hgap other hmem)
  · rw [hrun, List.append_assoc, List.cons_append, getElem?_elements hname] at helement
    obtain ⟨marked, -, hform⟩ := Run.acceptMarkers_form skipsTrivia_isInlineTrivia
      (gap ++ inner ++ token :: (left ++ rest))
    obtain ⟨gap', rfl, -⟩ := hform.exists_gap
    have hkept : (Run.acceptMarkers Token.isInlineTrivia
        (gap ++ inner ++ token :: (left ++ rest))).1 = inner ++ token :: left :=
      congrArg Element.markers (Option.some.inj helement)
    refine hform.markerRun.of_mem (List.mem_append_right gap' ?_)
    rw [hkept]
    exact List.mem_append_left _ hmem

/-- A marker belongs to the name in front of it, when only markers, blanks and comments stand
between the two. -/
theorem EndsWithName.carries (h : EndsWithName before index) {marker : Token}
    (hmarker : marker.isMarker = true) (after : Run) :
    Carries (before ++ marker :: after) before index := by
  obtain ⟨front, name, between, rfl, hname, rfl, hbetween⟩ := h
  have hassoc : front ++ name :: between ++ marker :: after
      = front ++ name :: (between ++ marker :: after) := by simp
  have helement := getElem?_elements hname front (between ++ marker :: after)
  obtain ⟨gap, hlongest⟩ :=
    Run.acceptMarkers_longest skipsTrivia_isInlineTrivia (between ++ marker :: after)
  revert helement hlongest
  generalize (Run.acceptMarkers Token.isInlineTrivia (between ++ marker :: after)).1 = kept
  generalize (Run.acceptMarkers Token.isInlineTrivia (between ++ marker :: after)).2 = rest
  intro helement hlongest
  obtain ⟨gap', hgapEq, hgap⟩ := hlongest.isForm.exists_gap
  obtain rfl := List.append_cancel_right hgapEq
  -- the longest run of markers reaches over the marker, and the gap ends in front of it
  have hle := hlongest.longest (between ++ [marker]) after (.of_forall hbetween hmarker) (by simp)
  obtain ⟨left, hleft⟩ : between ++ [marker] <+: gap ++ kept := by
    have hshort : between ++ [marker] <+: between ++ marker :: after := ⟨after, by simp⟩
    have hlong : gap ++ kept <+: between ++ marker :: after :=
      ⟨rest, by rw [List.append_assoc]; exact hlongest.split.symm⟩
    exact List.prefix_of_prefix_length_le hshort hlong hle
  rw [List.append_assoc, List.singleton_append] at hleft
  obtain ⟨inner, hinner, hkept⟩ : ∃ inner, between = gap ++ inner ∧
      kept = inner ++ marker :: left := by
    rcases List.append_eq_append_iff.mp hleft with ⟨extra, hgapEq', hmarkers⟩ | hinner
    · cases extra with
      | nil => exact ⟨[], by simpa using hgapEq'.symm, hmarkers.symm⟩
      | cons first extra =>
        obtain ⟨rfl, -⟩ := List.cons.inj hmarkers
        have hskip : marker.isInlineTrivia = true :=
          hgap marker (by rw [hgapEq']; exact List.mem_append_right _ List.mem_cons_self)
        simp [skipsTrivia_isInlineTrivia.isMarker hskip] at hmarker
    · exact hinner
  have hafter : after = left ++ rest := by
    have hsplit := hlongest.split
    rw [hinner, hkept, List.append_assoc, List.append_assoc] at hsplit
    have htail := List.append_cancel_left (List.append_cancel_left hsplit)
    exact (List.cons.inj htail).2
  refine ⟨front, name, gap, inner, marker, left, rest, by rw [hinner], by rw [hafter], hname, hgap,
    rfl, ?_⟩
  rw [hassoc, helement, hkept]

/-- A marker is carried by the element whose name precedes it, with nothing but blanks, comments
and markers between. -/
theorem carries_iff {marker : Token} (hmarker : marker.isMarker = true) (before after : Run)
    (index : Nat) : Carries (before ++ marker :: after) before index ↔ EndsWithName before index :=
  ⟨Carries.endsWithName, fun h => h.carries hmarker after⟩

/-- No marker is carried by two elements. -/
theorem Carries.unique {other : Nat} (h : Carries run before index)
    (hother : Carries run before other) : index = other := by
  have hindex := h.endsWithName.countP_eq
  have hotherCount := hother.endsWithName.countP_eq
  omega

/-! ## The elements of a text -/

/-- Reading the elements of a text neither loses nor invents any: they bear its names, in their
order; the markers of each are the slice of the longest run of markers behind its name on the same
line, and empty exactly where there is none; and a marker belongs to the one element whose name
precedes it with nothing but blanks, comments and markers between, or to none. -/
theorem elements_exact (text : List Char) :
    (elements (tokenize text)).map Element.name
      = ((tokenize text).filter Token.isName).map Token.word ∧
    (∀ (front tail : Run) (name : Token), tokenize text = front ++ name :: tail →
      name.isName = true → ∃ gap kept rest,
        (elements (tokenize text))[front.countP Token.isName]? = some ⟨name.word, kept⟩ ∧
        LongestMarkers Token.isInlineTrivia gap kept rest tail ∧
        (kept = [] ↔ ∀ (gap' : Run) (marker : Token) (left : Run), Gap Token.isInlineTrivia gap' →
          tail = gap' ++ marker :: left → marker.isMarker = false) ∧
        Text.slice (Text.byteLength (Run.chars (front ++ name :: gap)))
          (Text.byteLength (Run.chars (front ++ name :: gap)) + Text.byteLength kept.chars) text
            = kept.chars) ∧
    (∀ (before after : Run) (marker : Token), tokenize text = before ++ marker :: after →
      marker.isMarker = true →
      ∀ index, Carries (tokenize text) before index ↔ EndsWithName before index) ∧
    ∀ (before : Run) (index other : Nat), Carries (tokenize text) before index →
      Carries (tokenize text) before other → index = other := by
  refine ⟨map_name_elements _, ?_, ?_, fun _ _ _ => Carries.unique⟩
  · intro front tail name hsplit hname
    obtain ⟨gap, hlongest⟩ := Run.acceptMarkers_longest skipsTrivia_isInlineTrivia tail
    refine ⟨gap, _, _, ?_, hlongest, hlongest.kept_eq_nil_iff, ?_⟩
    · rw [hsplit]
      exact getElem?_elements hname front tail
    · have hwhole : tokenize text = front ++ name :: gap
          ++ ((tail.acceptMarkers Token.isInlineTrivia).1
            ++ (tail.acceptMarkers Token.isInlineTrivia).2) := by
        rw [hsplit, List.append_assoc, List.cons_append, ← hlongest.split]
      exact slice_tokenize hwhole
  · intro before after marker hsplit hmarker index
    rw [hsplit]
    exact carries_iff hmarker before after index

/-- A marker on the next line belongs to no name. -/
example : (elements (tokenize "RED %0 # c\n%1 | BLUE %2".toList)).map
    (fun element => (element.name, element.markers.text)) = [("RED", "%0"), ("BLUE", "%2")] := by
  decide +kernel

end SdlSchema
