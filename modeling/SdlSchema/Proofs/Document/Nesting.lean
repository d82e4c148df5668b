/-
# Brackets in printed text

The brackets of a printed text are nested: each that opens is closed, and what stands between them
is nested again.  So the closing bracket that a reader looks for is the one that was printed.

* `Nested.closeBracket` : a nested run is found between its brackets;
* `nested_parameters`, `nested_lines` : what is printed between brackets is nested.
-/
import SdlSchema.Proofs.Document.Lines

namespace SdlSchema

open Token (ofMark space indent lineBreak)

/-! ## Nested brackets -/

/-- The brackets of a run open and close within it, so that it is passed over at any depth. -/
def Nested (bracket : Bracket) (run : Run) : Prop :=
  ∀ depth rest, Run.balanced bracket depth (run ++ rest)
    = (Run.balanced bracket depth rest).map fun (body, left) => (run ++ body, left)

namespace Nested

variable {bracket : Bracket} {run : Run}

theorem nil : Nested bracket [] := by
  intro depth rest
  cases h : Run.balanced bracket depth rest <;> simp [h]

/-- Two nested runs one behind the other are nested. -/
theorem append {other : Run} (h : Nested bracket run) (hother : Nested bracket other) :
    Nested bracket (run ++ other) := by
  intro depth rest
  rw [List.append_assoc, h, hother, Option.map_map]
  cases Run.balanced bracket depth rest <;> simp

/-- A token that is neither bracket is nested on its own. -/
theorem token {token : Token} (hopener : token.isMark bracket.opener = false)
    (hcloser : token.isMark bracket.closer = false) : Nested bracket [token] := by
  intro depth rest
  rw [List.singleton_append, Run.balanced, if_neg (by simp [hcloser])]
  simp [hopener, hcloser]

theorem cons {token : Token} (h : Nested bracket [token]) (hrun : Nested bracket run) :
    Nested bracket (token :: run) := h.append hrun

/-- Tokens that are no marks have no brackets. -/
theorem of_isMark {token : Token} (h : ∀ mark, token.isMark mark = false) :
    Nested bracket [token] := .token (h _) (h _)

/-- Items that are printed nested are nested one after the other. -/
theorem flatMap {α : Type} {print : α → Run} {items : List α}
    (h : ∀ item, Nested bracket (print item)) : Nested bracket (items.flatMap print) := by
  induction items with
  | nil => exact .nil
  | cons item items ih =>
    rw [List.flatMap_cons]
    exact (h item).append ih

/-- Brackets around nested brackets are nested, of whichever kind they are. -/
theorem enclosed (outer : Bracket) (h : Nested bracket run) :
    Nested bracket (ofMark outer.opener :: (run ++ [ofMark outer.closer])) := by
  -- brackets of another kind are tokens like any other
  by_cases hsame : outer = bracket
  · subst hsame
    intro depth rest
    have hopener : (ofMark outer.opener).isMark outer.opener = true ∧
        (ofMark outer.opener).isMark outer.closer = false := by cases outer <;> decide
    have hcloser : (ofMark outer.closer).isMark outer.opener = false ∧
        (ofMark outer.closer).isMark outer.closer = true := by cases outer <;> decide
    have hopen : ∀ tail, Run.balanced outer depth (ofMark outer.opener :: tail)
        = (Run.balanced outer (depth + 1) tail).map
          fun (body, left) => (ofMark outer.opener :: body, left) := by
      intro tail
      rw [Run.balanced, if_neg (by simp [hopener.2])]
      simp only [hopener.1, if_true]
    have hclose : ∀ tail, Run.balanced outer (depth + 1) (ofMark outer.closer :: tail)
        = (Run.balanced outer depth tail).map
          fun (body, left) => (ofMark outer.closer :: body, left) := by
      intro tail
      rw [Run.balanced, if_neg (by simp)]
      simp [hcloser.1, hcloser.2]
    rw [List.cons_append, List.append_assoc, hopen, h, List.singleton_append, hclose,
      Option.map_map, Option.map_map]
    cases Run.balanced outer depth rest <;> simp
  · have hopener : Nested bracket [ofMark outer.opener] := by
      refine .token ?_ ?_ <;> revert hsame <;> cases outer <;> cases bracket <;> decide
    have hcloser : Nested bracket [ofMark outer.closer] := by
      refine .token ?_ ?_ <;> revert hsame <;> cases outer <;> cases bracket <;> decide
    exact hopener.cons (h.append hcloser)

/-- A nested run is found between its brackets. -/
theorem closeBracket (h : Nested bracket run) (rest : Run) :
    Run.closeBracket bracket (run ++ ofMark bracket.closer :: rest) = .ok (run, rest) := by
  have hcloser : (ofMark bracket.closer).isMark bracket.closer = true := by
    cases bracket <;> decide
  have hbalanced : Run.balanced bracket 0 (run ++ ofMark bracket.closer :: rest)
      = some (run, rest) := by
    rw [h, Run.balanced, if_pos ⟨hcloser, rfl⟩]
    simp
  rw [Run.closeBracket, hbalanced]

end Nested

namespace Document

/-! ## Printed text -/

variable {bracket : Bracket}

/-- Marks other than the two brackets are nested. -/
theorem nested_mark {mark : Punctuation} (h : mark ≠ bracket.opener ∧ mark ≠ bracket.closer) :
    Nested bracket [ofMark mark] :=
  .token (by simpa [Token.isMark, ofMark] using h.1) (by simpa [Token.isMark, ofMark] using h.2)

theorem nested_space : Nested bracket [space] := .of_isMark fun _ => rfl

theorem nested_lineBreak : Nested bracket [lineBreak] := .of_isMark fun _ => rfl

theorem nested_indent : Nested bracket [indent] := .of_isMark fun _ => rfl

/-- The comma between two items is no bracket. -/
theorem nested_comma : Nested bracket [ofMark .comma, space] :=
  (nested_mark (by cases bracket <;> decide)).cons nested_space

theorem nested_colon : Nested bracket [ofMark .colon, space] :=
  (nested_mark (by cases bracket <;> decide)).cons nested_space

theorem Name.nested (name : Name) : Nested bracket [name.token] :=
  .of_isMark (Token.of_isName name.isName).2.2.2.2.2

/-- Printed markers hold no bracket. -/
theorem nested_markers (markers : List Marker) : Nested bracket (markersRun markers) :=
  .flatMap fun _ => nested_space.cons (.of_isMark fun _ => rfl)

/-- A description with a nested gap behind it is nested, for its text is a single token. -/
theorem nested_description (description : Option Description) {gap : Run}
    (hgap : Nested bracket gap) : Nested bracket (descriptionRun gap description) := by
  cases description with
  | none => exact .nil
  | some description => exact Nested.cons (.of_isMark fun _ => rfl) hgap

mutual

/-- The brackets of a printed value are nested, whichever bracket is counted. -/
theorem Value.nested (value : Value) : Nested bracket value.run := by
  cases value with
  | integer literal => exact .of_isMark fun _ => rfl
  | name name => exact name.nested
  | string literal => exact .of_isMark fun _ => rfl
  | list items => exact .enclosed .square items.nested.1
  | object entries => exact .enclosed .brace entries.nested.1

/-- The items of a list are nested, with commas between them and without. -/
theorem Values.nested (items : Values) :
    Nested bracket (items.run []) ∧ Nested bracket (items.run [ofMark .comma, space]) := by
  cases items with
  | nil => exact ⟨.nil, .nil⟩
  | cons value others =>
    have h := value.nested.append others.nested.2
    exact ⟨h, nested_comma.append h⟩

/-- The entries of an object are nested, with commas between them and without. -/
theorem Entries.nested (entries : Entries) :
    Nested bracket (entries.run []) ∧ Nested bracket (entries.run [ofMark .comma, space]) := by
  cases entries with
  | nil => exact ⟨.nil, .nil⟩
  | cons key value others =>
    have hvalue := value.nested.append others.nested.2
    have h := key.nested.append (nested_colon.append hvalue)
    exact ⟨h, nested_comma.append h⟩

end

/-- A default value is nested with the equals sign in front of it. -/
theorem nested_default (default : Option Value) : Nested bracket (defaultRun default) := by
  cases default with
  | none => exact .nil
  | some value =>
    have hequals : Nested bracket [ofMark .equals] := nested_mark (by cases bracket <;> decide)
    exact nested_space.cons (hequals.cons (nested_space.cons value.nested))

theorem nested_nonNull (isNonNull : Bool) : Nested bracket (nonNullRun isNonNull) := by
  cases isNonNull with
  | false => exact .nil
  | true => exact nested_mark (by cases bracket <;> decide)

/-- The square brackets of a list type are nested like those of the type within. -/
theorem TypeReference.nested (type : TypeReference) : Nested bracket type.run := by
  induction type with
  | named name isNonNull => exact name.nested.cons (nested_nonNull isNonNull)
  | list item isNonNull ih =>
    have hsplit : (list item isNonNull).run
        = (ofMark .leftBracket :: (item.run ++ [ofMark .rightBracket])) ++ nonNullRun isNonNull := by
      simp [run]
    rw [hsplit]
    exact (Nested.enclosed .square ih).append (nested_nonNull isNonNull)

theorem Parameter.nested_typeRun (parameter : Parameter) : Nested bracket parameter.typeRun :=
  nested_colon.append ((parameter.type.nested.append (nested_default parameter.default)).append
    (nested_markers parameter.markers))

/-- A printed parameter is nested, its default value included. -/
theorem Parameter.nested (parameter : Parameter) : Nested bracket parameter.run :=
  (nested_description _ nested_space).append (parameter.name.nested.cons parameter.nested_typeRun)

/-- All that is printed between the parentheses of a field is nested. -/
theorem nested_parameters (parameters : Nonempty Parameter) :
    Nested bracket (parametersRun parameters) :=
  parameters.first.nested.append (.flatMap fun parameter => nested_comma.append parameter.nested)

/-- A printed field is nested: its parameters are enclosed by a pair of parentheses. -/
theorem Field.nested (field : Field) : Nested bracket field.run := by
  have hparameters : Nested bracket (parenthesizedRun field.parameters) := by
    cases field.parameters with
    | none => exact .nil
    | some parameters => exact .enclosed .paren (nested_parameters parameters)
  exact (nested_description _ (nested_lineBreak.cons nested_indent)).append
    (field.name.nested.cons (hparameters.append field.nested_typeRun))

theorem Member.nested (member : Member) : Nested bracket member.run :=
  member.name.nested.cons (nested_markers member.markers)

end Document

end SdlSchema
