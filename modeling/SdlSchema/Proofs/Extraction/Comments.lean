/-
# Comments in documents

A document without its comments has the schema of the document, with one exception.  A fielded type
whose body holds comments and blanks and nothing else defines a type without fields, but without the
comments its body is blank, and it defines nothing.

* `Run.isHollow` : a body that holds comments and blanks alone;
* `Extractor.extract_withoutComments` : the schema of a document without its comments;
* `Extractor.extract_withoutComments_ne` : the exception.
-/
import SdlSchema.Proofs.Abridging.Schemas

namespace SdlSchema

/-- Whether the run is blank, comments apart. -/
def Run.isHollow (body : Run) : Bool := Text.allBlank body.withoutComments.chars

/-! ## The abridgement -/

namespace Abridgement

/-- Leaves out the comments. -/
def uncommented : Abridgement where
  token? token := if token.kind = .comment then none else some token
  content := id
  isInlineTrivia_of_eq_none {token} h := by
    split at h
    · next hkind => rw [Token.isInlineTrivia, hkind]; rfl
    · cases h
  kind_eq h := by
    split at h
    · cases h
    · cases h; rfl
  text_eq h _ := by
    split at h
    · cases h
    · cases h; rfl
  content_eq h _ := by
    split at h
    · cases h
    · cases h; rfl

/-- What the abridgement leaves of a run is the run without comments. -/
theorem part_uncommented (run : Run) : uncommented.part run = run.withoutComments := by
  induction run with
  | nil => rfl
  | cons token tail ih =>
    by_cases hkind : token.kind = .comment
    · rw [uncommented.part_cons_none (if_pos hkind), ih, Run.withoutComments, Run.withoutComments,
        List.filter_cons_of_neg (by simp [hkind])]
    · rw [uncommented.part_cons_some (if_neg hkind), ih, Run.withoutComments, Run.withoutComments,
        List.filter_cons_of_pos (by simp [hkind])]

theorem keepsBlanks_uncommented (document : Run) : uncommented.KeepsBlanks document := by
  intro token _ kept hkept
  by_cases hkind : token.kind = .comment
  · rw [show uncommented.token? token = none from if_pos hkind] at hkept
    cases hkept
  · rw [show uncommented.token? token = some token from if_neg hkind] at hkept
    cases hkept
    rfl

/-- Types hold no comments, so nothing of them is left out. -/
theorem hiddenBy_uncommented (text : List Char) :
    uncommented.HiddenBy View.plain (tokenize text) where
  commentsEndLines := commentsEndLines_tokenize text
  type_eq {type} _ htype := by
    have hsame : type.withoutComments = type :=
      List.filter_eq_self.mpr fun token hmem => by simpa using (htype token hmem).2
    rw [part_uncommented, hsame]
  description_eq description := by
    rw [show uncommented.content = id from rfl, Option.map_id]
    rfl

end Abridgement

/-! ## Schemas -/

namespace Extractor

variable (extractor : Extractor)

theorem map_schema_plain (result : Except SchemaError Schema) :
    result.map View.plain.schema = result := by
  cases result with
  | error miss => rfl
  | ok schema => exact congrArg Except.ok (View.schema_plain schema)

/-- Without comments, a document gives the schema of its declarations but those with hollow bodies.
-/
theorem extractInTurn_withoutComments (text : List Char) :
    extractor.extractInTurn (tokenize text).withoutComments
      = extractor.ofDeclarations (declarationsWithout Run.isHollow (tokenize text)) := by
  have hpart := extractor.view_extractInTurn_part
    (Abridgement.keepsBlanks_uncommented (tokenize text)) (Abridgement.hiddenBy_uncommented text)
  simp only [Abridgement.part_uncommented, map_schema_plain] at hpart
  exact hpart

/-- Extracted from its text without comments, a document gives the schema of its declarations but
those with hollow bodies. -/
theorem extract_eq_ofDeclarations_withoutComments (text : String) :
    extractor.extract (withoutComments text)
      = extractor.ofDeclarations (declarationsWithout Run.isHollow (Run.ofString text)) := by
  have hdocument : Run.ofString (withoutComments text)
      = (tokenize text.toList).withoutComments := by
    rw [withoutComments, Run.text, Run.ofString, String.toList_ofList]
    exact tokenize_withoutComments text.toList
  rw [extract_parallel, hdocument]
  exact extractor.extractInTurn_withoutComments text.toList

/-- **Comments do not count, except in bodies that hold nothing else.**  A document and the document
without its comments have the schemas of the same declarations, but from the second the fielded
types are left out whose bodies hold comments and blanks alone. -/
theorem extract_withoutComments (text : String) :
    extractor.extract text
      = extractor.ofDeclarations (fun kind => kind.declarations (Run.ofString text)) ∧
    extractor.extract (withoutComments text)
      = extractor.ofDeclarations (declarationsWithout Run.isHollow (Run.ofString text)) :=
  ⟨by rw [extract_parallel, extractInTurn_eq],
    extractor.extract_eq_ofDeclarations_withoutComments text⟩

/-- Where no body holds comments and blanks alone, comments do not count at all. -/
theorem extract_withoutComments_eq {text : String}
    (h : ∀ found ∈ fieldedDeclarations (Run.ofString text), found.item.body.isHollow = false) :
    extractor.extract (withoutComments text) = extractor.extract text := by
  have hall : declarationsWithout Run.isHollow (Run.ofString text)
      = fun kind => kind.declarations (Run.ofString text) := funext (declarationsWithout_eq h)
  rw [extract_eq_ofDeclarations_withoutComments, hall, extract_parallel, extractInTurn_eq]

/-- A type with a comment in its body and nothing else is there with the comment and not without. -/
theorem extract_withoutComments_ne : extract ⟨.empty, {}⟩ (withoutComments "type A \x7b # c\n\x7d")
    ≠ extract ⟨.empty, {}⟩ "type A \x7b # c\n\x7d" := by
  intro h
  have hkeys := congrArg (Except.map fun schema => schema.objects.keys) h
  revert hkeys
  decide +kernel

end Extractor

end SdlSchema
