/-
# The elements of a list

A list is read by going from name to name, whatever stands between them.  A name ends the element in
front of it, and markers belong to the name they follow, so that each name is an element of its own.

* `map_name_elements` : the elements bear the names in the list, in their order;
* `elements_eq_nil_iff` : only a list without names has no elements.
-/
import SdlSchema.Body.Element
import SdlSchema.Proofs.Reading.Steps

namespace SdlSchema

/-! ## What names nothing -/

namespace Token

variable {token : Token}

/-- A token that passes a test which no name passes is no name. -/
theorem isName_eq_false {test : Token → Bool} (hname : token.isName = true → test token = false)
    (h : test token = true) : token.isName = false := by
  rw [Bool.eq_false_iff]
  intro hisName
  rw [hname hisName] at h
  cases h

/-- What separates items is no name. -/
theorem isName_of_isSeparator (h : token.isSeparator = true) : token.isName = false := by
  refine isName_eq_false (fun hname => ?_) h
  obtain ⟨htrivia, -, -, -, -, hmark⟩ := of_isName hname
  rw [isSeparator, htrivia, hmark, Bool.or_self]

theorem isName_of_isMarker (h : token.isMarker = true) : token.isName = false :=
  isName_eq_false (fun hname => (of_isName hname).2.2.2.2.1) h

theorem isName_of_isInlineTrivia (h : token.isInlineTrivia = true) : token.isName = false :=
  isName_eq_false (fun hname => (of_isName hname).2.1) h

end Token

namespace Run

variable {skip : Token → Bool}

/-- The names behind what is skipped are those of the run. -/
theorem filter_isName_dropWhile (hskip : ∀ token, skip token = true → token.isName = false)
    (run : Run) : (run.dropWhile skip).filter Token.isName = run.filter Token.isName := by
  induction run with
  | nil => rfl
  | cons token run ih =>
    rw [List.dropWhile_cons]
    split
    · next h => rw [ih, List.filter_cons_of_neg (by simp [hskip token h])]
    · rfl

/-- The names behind the markers are those of the run. -/
theorem filter_isName_afterMarkers (hskip : ∀ token, skip token = true → token.isName = false)
    {run rest : Run} (h : run.afterMarkers skip = some rest) :
    rest.filter Token.isName = run.filter Token.isName := by
  induction run generalizing rest with
  | nil => cases h
  | cons token run ih =>
    rw [afterMarkers] at h
    split at h
    · next hmarker =>
      cases h
      rw [List.filter_cons_of_neg (by simp [Token.isName_of_isMarker hmarker])]
      cases hmore : afterMarkers skip run with
      | none => rfl
      | some left => exact ih hmore
    · split at h
      · next htoken => rw [ih h, List.filter_cons_of_neg (by simp [hskip token htoken])]
      · cases h

/-- Accepting markers passes over no name. -/
theorem filter_isName_acceptMarkers (hskip : ∀ token, skip token = true → token.isName = false)
    (run : Run) :
    (run.acceptMarkers skip).2.filter Token.isName = run.filter Token.isName := by
  unfold acceptMarkers
  split
  · next h => exact filter_isName_afterMarkers hskip h
  · rfl

end Run

/-! ## From name to name -/

/-- An element is read exactly where a name stands. -/
theorem Element.reader_read_cons (token : Token) (tail : Run) :
    Element.reader.read (token :: tail)
      = if token.isName then .ok (⟨token.word, (tail.acceptMarkers Token.isInlineTrivia).1⟩,
          (tail.acceptMarkers Token.isInlineTrivia).2)
        else .error .noMatch := by
  simp only [Element.reader, Run.expectName, Run.name?]
  cases token.isName <;> rfl

/-- The elements of a list bear the names in it, in their order. -/
theorem map_name_elements (run : Run) :
    (elements run).map Element.name = (run.filter Token.isName).map Token.word := by
  -- what is passed over on the way to the next name holds no name
  unfold elements Reader.items Segment.values
  fun_induction Reader.segments Element.reader Token.isSeparator (fun _ => true) run with
  | case1 run hrun =>
    rw [← Run.filter_isName_dropWhile (fun _ => Token.isName_of_isSeparator), hrun]
    rfl
  | case2 run token tail hrun element rest hread ih =>
    rw [← Run.filter_isName_dropWhile (fun _ => Token.isName_of_isSeparator), hrun]
    rw [Element.reader_read_cons] at hread
    split at hread
    · next hname =>
      cases hread
      rw [List.filter_cons_of_pos hname, List.map_cons,
        ← Run.filter_isName_acceptMarkers (fun _ => Token.isName_of_isInlineTrivia), ← ih]
      rfl
    · cases hread
  | case3 run token tail hrun hread =>
    rw [Element.reader_read_cons] at hread
    split at hread <;> cases hread
  | case4 run token tail hrun hread ih =>
    rw [← Run.filter_isName_dropWhile (fun _ => Token.isName_of_isSeparator), hrun]
    rw [Element.reader_read_cons] at hread
    split at hread
    · cases hread
    · next hname =>
      have htail : tail.dropWhile (fun _ => !true) = tail := by cases tail <;> rfl
      rw [htail] at ih ⊢
      rw [List.filter_cons_of_neg hname]
      exact ih

/-- Only a list without names has no elements. -/
theorem elements_eq_nil_iff (run : Run) : elements run = [] ↔ run.any Token.isName = false := by
  rw [← List.map_eq_nil_iff (f := Element.name), map_name_elements, List.map_eq_nil_iff,
    List.filter_eq_nil_iff, List.any_eq_false]

end SdlSchema
