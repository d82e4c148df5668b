/-
# Lists, read again

A list of names is read item by item, and the tokens from its first to its last are kept.  Read
again from these tokens, as the elements of any text are, the list has the same names; and where
items carry markers, the same items, since behind the last of them no marker is left.

* `elements_cons` : the elements of a run, token by token;
* `elements_append` : what follows a list adds no markers to it, unless it begins with markers;
* `NameList.elements_members`, `NameList.map_name_elements_run` : a list read again.
-/
import Mathlib.Data.List.DropRight
import SdlSchema.Declaration.NameList
import SdlSchema.Proofs.Abridging.Bodies
import SdlSchema.Proofs.Reading.Elements

namespace SdlSchema

variable {run rest : Run} {token : Token}

/-! ## Markers behind trivia -/

/-- What may stand between markers is no marker. -/
theorem SkipsTrivia.isMarker {skip : Token → Bool} (hskip : SkipsTrivia skip) {token : Token}
    (h : skip token = true) : token.isMarker = false := (Token.of_isTrivia (hskip.isTrivia h)).2.2.1

namespace Run

variable {skip : Token → Bool}

/-- Without a marker behind what may stand in front of it, nothing is read. -/
theorem afterMarkers_eq_none {run : Run} (hskip : SkipsTrivia skip)
    (h : (run.dropWhile skip).head?.any Token.isMarker = false) : run.afterMarkers skip = none := by
  induction run with
  | nil => rfl
  | cons token run ih =>
    rw [List.dropWhile_cons] at h
    rw [afterMarkers]
    cases htoken : skip token with
    | true =>
      rw [htoken, if_pos rfl] at h
      rw [if_neg (by simp [hskip.isMarker htoken]), if_pos rfl, ih h]
    | false =>
      rw [htoken, if_neg (by simp), List.head?_cons, Option.any_some] at h
      rw [if_neg (by simp [h]), if_neg (by simp)]

/-- A marker behind what may stand in front of it is read, and so are those behind it. -/
theorem afterMarkers_eq_some_of_dropWhile {run tail : Run} {marker : Token}
    (hskip : SkipsTrivia skip)
    (h : run.dropWhile skip = marker :: tail) (hmarker : marker.isMarker = true) :
    run.afterMarkers skip = some ((tail.afterMarkers skip).getD tail) := by
  induction run with
  | nil => cases h
  | cons token run ih =>
    rw [List.dropWhile_cons] at h
    rw [afterMarkers]
    cases htoken : skip token with
    | true =>
      rw [htoken, if_pos rfl] at h
      rw [if_neg (by simp [hskip.isMarker htoken]), if_pos rfl, ih h]
    | false =>
      rw [htoken, if_neg (by simp)] at h
      cases h
      rw [if_pos hmarker]

/-- What stands in front of two rests of one run does not depend on what they share. -/
theorem upTo_append_append (front left rest : Run) :
    upTo (front ++ rest) (left ++ rest) = front.upTo left := by
  rw [upTo, upTo, List.length_append, List.length_append, Nat.add_sub_add_right,
    List.take_append_of_le_length (Nat.sub_le _ _)]

/-- Markers end in front of what does not begin with markers. -/
theorem afterMarkers_append (h : rest.afterMarkers skip = none) (front : Run) :
    afterMarkers skip (front ++ rest) = (front.afterMarkers skip).map fun left => left ++ rest := by
  induction front with
  | nil => exact h
  | cons token front ih =>
    rw [List.cons_append, afterMarkers, afterMarkers, ih]
    split
    · cases afterMarkers skip front <;> rfl
    · split <;> rfl

/-- Markers are accepted up to where no further marker follows. -/
theorem acceptMarkers_append (hskip : SkipsTrivia skip) (h : rest.afterMarkers skip = none)
    (front : Run) : (acceptMarkers skip (front ++ rest)).1 = (front.acceptMarkers skip).1 := by
  rw [acceptMarkers, acceptMarkers, afterMarkers_append h]
  cases hfront : front.afterMarkers skip with
  | none => rfl
  | some left =>
    have hne : (front.dropWhile skip).isEmpty = false := by
      rw [Bool.eq_false_iff, ne_eq, List.isEmpty_iff]
      intro hnil
      rw [afterMarkers_eq_none hskip (by rw [hnil]; rfl)] at hfront
      cases hfront
    show upTo ((front ++ rest).dropWhile skip) (left ++ rest) = upTo (front.dropWhile skip) left
    rw [List.dropWhile_append, hne, if_neg Bool.false_ne_true, upTo_append_append]

/-- Behind markers there are no more of them. -/
theorem afterMarkers_afterMarkers (h : run.afterMarkers skip = some rest) :
    rest.afterMarkers skip = none := by
  induction run generalizing rest with
  | nil => cases h
  | cons token run ih =>
    rw [afterMarkers] at h
    split at h
    · cases h
      cases hmore : afterMarkers skip run with
      | none => exact hmore
      | some left => exact ih hmore
    · split at h
      · exact ih h
      · cases h

/-- Behind accepted markers there is no further one. -/
theorem afterMarkers_acceptMarkers (run : Run) :
    (run.acceptMarkers skip).2.afterMarkers skip = none := by
  rw [acceptMarkers]
  split
  · next h => exact afterMarkers_afterMarkers h
  · next h => exact h

end Run

/-! ## Elements, token by token -/

/-- The items of a body depend on what stands behind the separators alone. -/
theorem Reader.items_congr {α : Type} {reader : Reader α} {separates resumes : Token → Bool}
    {left : Run} (h : left.dropWhile separates = run.dropWhile separates) :
    reader.items separates resumes left = reader.items separates resumes run := by
  rw [Abridgement.items_eq, h, ← Abridgement.items_eq]

theorem Reader.items_nil {α : Type} {reader : Reader α} {separates resumes : Token → Bool} :
    reader.items separates resumes [] = [] := by
  rw [Abridgement.items_eq]
  rfl

/-- A token that is no name is passed over. -/
theorem elements_cons_of_not_name (h : token.isName = false) :
    elements (token :: run) = elements run := by
  cases hseparator : token.isSeparator with
  | true => exact Reader.items_congr (List.dropWhile_cons_of_pos hseparator)
  | false =>
    rw [elements, Abridgement.items_eq, List.dropWhile_cons_of_neg (by simp [hseparator])]
    dsimp only
    rw [Element.reader_read_cons, h, if_neg Bool.false_ne_true]
    cases run <;> rfl

/-- Separators in front of a list do not change its elements. -/
theorem elements_dropWhile_isSeparator (run : Run) :
    elements (run.dropWhile Token.isSeparator) = elements run :=
  Reader.items_congr (List.dropWhile_idempotent Token.isSeparator run)

/-- Markers name nothing. -/
theorem elements_of_afterMarkers {skip : Token → Bool}
    (hskip : ∀ token, skip token = true → token.isName = false)
    (h : run.afterMarkers skip = some rest) : elements rest = elements run := by
  induction run generalizing rest with
  | nil => cases h
  | cons token run ih =>
    rw [Run.afterMarkers] at h
    split at h
    · next hmarker =>
      cases h
      rw [elements_cons_of_not_name (Token.isName_of_isMarker hmarker)]
      cases hmore : Run.afterMarkers skip run with
      | none => rfl
      | some left => exact ih hmore
    · split at h
      · next htoken => rw [elements_cons_of_not_name (hskip token htoken), ih h]
      · cases h

/-- Markers in front of a list do not change its elements. -/
theorem elements_acceptMarkers (run : Run) :
    elements (run.acceptMarkers Token.isInlineTrivia).2 = elements run := by
  rw [Run.acceptMarkers]
  split
  · next h => exact elements_of_afterMarkers (fun _ => Token.isName_of_isInlineTrivia) h
  · rfl

/-- Each name is an element, with the markers behind it on its line. -/
theorem elements_cons (token : Token) (run : Run) :
    elements (token :: run) = if token.isName then
      ⟨token.word, (run.acceptMarkers Token.isInlineTrivia).1⟩ :: elements run
    else elements run := by
  cases hname : token.isName with
  | false => exact elements_cons_of_not_name hname
  | true =>
    have hseparator : token.isSeparator = false := by
      rw [Bool.eq_false_iff]
      exact fun h => by simp [Token.isName_of_isSeparator h] at hname
    rw [elements, Abridgement.items_eq, List.dropWhile_cons_of_neg (by simp [hseparator])]
    dsimp only
    rw [Element.reader_read_cons, hname, if_pos rfl, if_pos rfl]
    exact congrArg _ (elements_acceptMarkers run)

theorem elements_nil : elements [] = [] := Reader.items_nil

/-- What does not begin with markers adds none to the elements in front of it. -/
theorem elements_append (h : rest.afterMarkers Token.isInlineTrivia = none) (front : Run) :
    elements (front ++ rest) = elements front ++ elements rest := by
  induction front with
  | nil => rw [elements_nil]; rfl
  | cons token front ih =>
    rw [List.cons_append, elements_cons, elements_cons, ih,
      Run.acceptMarkers_append skipsTrivia_isInlineTrivia h]
    split <;> rfl

/-! ## From item to item -/

/-- A way to collect something from a run that looks at names alone, and of which a reader takes the
first when it takes an item. -/
structure Collects {γ : Type} (collect : Run → List γ) (tell : Element → γ)
    (item : Reader Element) : Prop where
  pass : ∀ {token run}, token.isName = false → collect (token :: run) = collect run
  read : ∀ {run rest element}, item.read run = .ok (element, rest) →
    collect run = tell element :: collect rest

namespace Collects

variable {γ : Type} {collect : Run → List γ} {tell : Element → γ} {item : Reader Element}
  {tail : ListTail Element} {element : Element}

/-- Passing over what is no name does not change what is collected. -/
theorem dropWhile (h : Collects collect tell item) {skip : Token → Bool}
    (hskip : ∀ token, skip token = true → token.isName = false) (run : Run) :
    collect (run.dropWhile skip) = collect run := by
  induction run with
  | nil => rfl
  | cons token run ih =>
    rw [List.dropWhile_cons]
    split
    · next htoken => rw [ih, h.pass (hskip token htoken)]
    · rfl

/-- Taking a mark does not change what is collected. -/
theorem take? (h : Collects collect tell item) {mark : Punctuation}
    (htake : run.take? (.punctuation mark) = some rest) : collect rest = collect run := by
  obtain ⟨token, rfl, hkind⟩ := Run.take?_eq_some htake
  rw [h.pass (by simp [Token.isName, hkind, Kind.isName])]

theorem skipTrivia (h : Collects collect tell item) (run : Run) :
    collect run.skipTrivia = collect run :=
  h.dropWhile (fun _ htrivia => (Token.of_isTrivia htrivia).1) run

theorem skipInline (h : Collects collect tell item) (run : Run) :
    collect run.skipInline = collect run :=
  h.dropWhile (fun _ => Token.isName_of_isInlineTrivia) run

/-- An item behind a pipe is the next that is collected. -/
theorem piped (h : Collects collect tell item)
    (hnext : (ListTail.piped item).next run = .ok (some (element, rest))) :
    collect run = tell element :: collect rest := by
  simp only [ListTail.piped] at hnext
  split at hnext
  · next inner hpipe =>
    cases hread : item.read inner.skipTrivia with
    | error miss => rw [hread] at hnext; cases hnext
    | ok found =>
      rw [hread] at hnext
      cases hnext
      rw [← h.read hread, h.skipTrivia, h.take? hpipe, h.skipTrivia]
  · cases hnext

/-- A name behind an ampersand or a comma is the next that is collected. -/
theorem joined (h : Collects collect tell Element.bareReader)
    (hnext : ListTail.joined.next run = .ok (some (element, rest))) :
    collect run = tell element :: collect rest := by
  simp only [ListTail.joined] at hnext
  split at hnext
  · next inner hjoiner =>
    have htake : collect inner = collect run := by
      rcases Option.or_eq_some_iff.mp hjoiner with htake | ⟨-, htake⟩ <;>
        rw [h.take? htake, h.skipTrivia]
    cases hread : Element.bareReader.read inner.skipTrivia with
    | error miss => rw [hread] at hnext; cases hnext
    | ok found =>
      rw [hread] at hnext
      cases hnext
      rw [← h.read hread, h.skipTrivia, htake]
  · split at hnext
    · next found hread =>
      cases hnext
      rw [← h.read hread, h.skipInline]
    · cases hnext

/-- From item to item what is collected is that of the items. -/
theorem items (hnext : ∀ {run rest element}, tail.next run = .ok (some (element, rest)) →
      collect run = tell element :: collect rest) {items : List Element}
    (h : tail.read run = .ok (items, rest)) : collect run = items.map tell ++ collect rest := by
  fun_induction ListTail.read tail run generalizing items rest with
  | case1 run miss hmiss => cases h
  | case2 run hnone => cases h; rfl
  | case3 run item left hsome miss hmiss ih => cases h
  | case4 run item left hsome others rest' hothers ih =>
    cases h
    rw [hnext hsome, ih hothers]
    rfl

/-- What is collected from a run is that of the items of the list, and of what is left. -/
theorem list {lead : Punctuation} (h : Collects collect tell item)
    (hnext : ∀ {run rest element}, tail.next run = .ok (some (element, rest)) →
      collect run = tell element :: collect rest) {list : NameList}
    (hlist : (NameList.reader lead item tail).read run = .ok (list, rest)) :
    run = list.run ++ rest ∧ collect run = list.items.map tell ++ collect rest := by
  have hleft := (NameList.reader lead item tail).left hlist
  obtain ⟨⟨first, afterFirst⟩, hfirst, hlist⟩ := bind_eq_ok.mp hlist
  obtain ⟨⟨others, afterOthers⟩, hothers, hlist⟩ := bind_eq_ok.mp hlist
  cases hlist
  refine ⟨(Run.upTo_append hleft.suffix).symm, ?_⟩
  have hstart : collect (((run.take? (.punctuation lead)).map Run.skipTrivia).getD run)
      = collect run := by
    cases hlead : run.take? (.punctuation lead) with
    | none => rfl
    | some inner => exact (h.skipTrivia inner).trans (h.take? hlead)
  rw [← hstart, h.read hfirst, Collects.items hnext hothers]
  rfl

end Collects

/-! ## Whole lists -/

/-- The names of a run. -/
def Run.names (run : Run) : List String := (run.filter Token.isName).map Token.word

/-- The names of a run are collected name by name. -/
theorem collects_names : Collects Run.names Element.name Element.bareReader where
  pass h := by rw [Run.names, List.filter_cons_of_neg (by simp [h]), Run.names]
  read h := by
    obtain ⟨⟨name, left⟩, hname, heq⟩ := bind_eq_ok.mp h
    cases heq
    obtain ⟨token, rfl, hisName, rfl⟩ := Run.expectName_eq_ok hname
    rw [Run.names, List.filter_cons_of_pos hisName]
    rfl

/-- The elements of a run are collected element by element. -/
theorem collects_elements : Collects elements id Element.reader where
  pass := elements_cons_of_not_name
  read {run rest element} h := by
    cases run with
    | nil => cases h
    | cons token tail =>
      rw [Element.reader_read_cons] at h
      split at h
      · next hname =>
        cases h
        rw [elements_cons, if_pos hname, elements_acceptMarkers]
        rfl
      · cases h

/-- Behind an item with markers no marker is left. -/
theorem afterMarkers_of_read {element : Element}
    (h : Element.reader.read run = .ok (element, rest)) :
    rest.afterMarkers Token.isInlineTrivia = none := by
  obtain ⟨⟨name, left⟩, -, heq⟩ := bind_eq_ok.mp h
  cases heq
  exact Run.afterMarkers_acceptMarkers left

theorem afterMarkers_of_piped {items : List Element}
    (hrun : run.afterMarkers Token.isInlineTrivia = none)
    (h : (ListTail.piped Element.reader).read run = .ok (items, rest)) :
    rest.afterMarkers Token.isInlineTrivia = none := by
  fun_induction ListTail.read (ListTail.piped Element.reader) run generalizing items rest with
  | case1 run miss hmiss => cases h
  | case2 run hnone => cases h; exact hrun
  | case3 run item left hsome miss hmiss ih => cases h
  | case4 run item left hsome others rest' hothers ih =>
    cases h
    refine ih ?_ hothers
    simp only [ListTail.piped] at hsome
    split at hsome
    · next inner hpipe =>
      cases hread : Element.reader.read inner.skipTrivia with
      | error miss => rw [hread] at hsome; cases hsome
      | ok found =>
        rw [hread] at hsome
        cases hsome
        exact afterMarkers_of_read hread
    · cases hsome

namespace NameList

/-- The tokens of a list of union members, read again, are its members with their markers. -/
theorem elements_members {list : NameList} (h : members.read run = .ok (list, rest)) :
    elements list.run = list.items := by
  obtain ⟨hrun, helements⟩ := collects_elements.list collects_elements.piped h
  have hrest : rest.afterMarkers Token.isInlineTrivia = none := by
    obtain ⟨⟨first, afterFirst⟩, hfirst, h⟩ := bind_eq_ok.mp h
    obtain ⟨⟨others, afterOthers⟩, hothers, h⟩ := bind_eq_ok.mp h
    cases h
    exact afterMarkers_of_piped (afterMarkers_of_read hfirst) hothers
  rw [hrun, elements_append hrest, List.map_id] at helements
  exact List.append_cancel_right helements

/-- The tokens of a list without markers, read again, bear its names. -/
theorem map_name_elements_run {lead : Punctuation} {tail : ListTail Element}
    (hnext : ∀ {run rest element}, tail.next run = .ok (some (element, rest)) →
      Run.names run = element.name :: Run.names rest) {list : NameList}
    (h : (reader lead Element.bareReader tail).read run = .ok (list, rest)) :
    (elements list.run).map Element.name = list.items.map Element.name := by
  obtain ⟨hrun, hnames⟩ := collects_names.list hnext h
  rw [hrun, Run.names, List.filter_append, List.map_append] at hnames
  rw [map_name_elements]
  exact List.append_cancel_right hnames

/-- The places of a directive, read again, have the names they had. -/
theorem map_name_elements_locations {list : NameList}
    (h : locations.read run = .ok (list, rest)) :
    (elements list.run).map Element.name = list.items.map Element.name :=
  map_name_elements_run collects_names.piped h

/-- The interfaces of an object, read again, have the names they had. -/
theorem map_name_elements_interfaces {list : NameList}
    (h : interfaces.read run = .ok (list, rest)) :
    (elements list.run).map Element.name = list.items.map Element.name :=
  map_name_elements_run collects_names.joined h

end NameList

end SdlSchema
