/-
# Extensions beside what they extend

A declaration that extends another is indexed under its name with a suffix.  The suffix keeps the
two apart, but it is no more than a part of a name, and another declaration may bear just that name.
Then the two share an entry, and the one that comes first in the text is lost.

* `TypeKind.names_eq` : the names of the types of one kind come from the headings of their
  declarations;
* `Extractor.key_eq_iff` : which declarations of one kind share an entry;
* `Extractor.extensions_kept_iff` : exactly when none is lost.
-/
import Mathlib.Data.Finset.Card
import Mathlib.Data.List.Dedup
import Mathlib.Tactic.MkIffOfInductiveProp
import SdlSchema.Proofs.Extraction.Publication

namespace SdlSchema

/-- Where each key comes from a part of its capture, so do the names. -/
theorem Published.keys_eq_map {α γ δ : Type} [Named α] {captures : List γ} {part : γ → δ}
    {key : δ → String} {Gives : γ → α → Prop} {index : NameIndex α}
    (h : Published captures (fun capture => key (part capture)) Gives index) :
    index.keys = ((captures.map part).map key).eraseDups := by
  rw [h.keys_eq, List.map_map]
  rfl

/-! ## Kinds of type -/

/-- The kinds of type, each of which may be extended. -/
inductive TypeKind where
  | object | interface | input | union | enum | scalar
  deriving DecidableEq

namespace TypeKind

/-- The headings of the declarations of one kind that define a type, in the order of the text. -/
def headings (document : Run) : TypeKind → List Heading
  | .object => (Extractor.ofFieldedKind .object (fieldedDeclarations document)).map
      fun found => found.item.toHeading
  | .interface => (Extractor.ofFieldedKind .interface (fieldedDeclarations document)).map
      fun found => found.item.toHeading
  | .input => (Extractor.ofFieldedKind .input (fieldedDeclarations document)).map
      fun found => found.item.toHeading
  | .union => (unionDeclarations document).map fun found => found.item.toHeading
  | .enum => ((enumDeclarations document).filter Extractor.declaresValue).map
      fun found => found.item.toHeading
  | .scalar => (scalarDeclarations document).map fun found => found.item.toHeading

/-- The names of the types of one kind, in the order of their index. -/
def names (extractor : Extractor) (document : Run) : TypeKind → List String
  | .object => (extractor.fieldedTypes document).objects.keys
  | .interface => (extractor.fieldedTypes document).interfaces.keys
  | .input => (extractor.fieldedTypes document).inputs.keys
  | .union => (extractor.unions document).keys
  | .enum => (extractor.enums document).keys
  | .scalar => (extractor.scalars document).keys

/-- The names come from the headings, each once, in the order of their first occurrence. -/
theorem names_eq (extractor : Extractor) (document : Run) (kind : TypeKind) :
    kind.names extractor document = ((kind.headings document).map extractor.key).eraseDups := by
  cases kind with
  | object => exact (extractor.published_objects document).keys_eq_map
  | interface => exact (extractor.published_interfaces document).keys_eq_map
  | input => exact (extractor.published_inputs document).keys_eq_map
  | union => exact (extractor.published_unions document).keys_eq_map
  | enum => exact (extractor.published_enums document).keys_eq_map
  | scalar => exact (extractor.published_scalars document).keys_eq_map

theorem nodup_names (extractor : Extractor) (document : Run) (kind : TypeKind) :
    (kind.names extractor document).Nodup := by
  cases kind <;> exact NameIndex.nodup _

end TypeKind

/-! ## Shared entries -/

/-- The declared name, and whether the declaration extends another. -/
def Heading.identity (heading : Heading) : String × Bool := (heading.name, heading.isExtended)

namespace Extractor

variable (extractor : Extractor)

/-- A declaration that extends nothing bears the name under which an extension is indexed. -/
@[mk_iff]
structure Clash (extension base : Heading) : Prop where
  extended : extension.isExtended = true
  notExtended : base.isExtended = false
  name_eq : base.name = extension.name ++ extractor.options.extensionSuffix

/-- Two declarations share an entry exactly if they have the same name and either both extend
another or neither does, or if one of them bears the name under which the other is indexed. -/
theorem key_eq_iff (heading other : Heading) :
    extractor.key heading = extractor.key other ↔ heading.identity = other.identity ∨
      extractor.Clash heading other ∨ extractor.Clash other heading := by
  rw [clash_iff, clash_iff, key, key, ExtractionOptions.entityName, ExtractionOptions.entityName,
    Heading.identity, Heading.identity, Prod.mk.injEq]
  -- under equal flags a common suffix cancels; under different ones only the names can clash
  cases heading.isExtended <;> cases other.isExtended <;> simp [eq_comm]

/-- There are as many names as the identities are indexed under. -/
theorem length_names (document : Run) (kind : TypeKind) :
    (kind.names extractor document).length
      = (((kind.headings document).map Heading.identity).toFinset.image fun identity =>
        extractor.options.entityName identity.1 identity.2).card := by
  have hnames : (kind.names extractor document).toFinset
      = ((kind.headings document).map Heading.identity).toFinset.image fun identity =>
        extractor.options.entityName identity.1 identity.2 := by
    ext name
    rw [TypeKind.names_eq]
    simp [List.mem_eraseDups, key, Heading.identity]
  calc (kind.names extractor document).length
      = (kind.names extractor document).toFinset.card :=
        (List.toFinset_card_of_nodup (kind.nodup_names extractor document)).symm
    _ = _ := by rw [hnames]

/-- There are as many names as identities exactly if no two identities share a name. -/
theorem length_names_eq_iff (document : Run) (kind : TypeKind) :
    (kind.names extractor document).length
        = ((kind.headings document).map Heading.identity).toFinset.card ↔
      ∀ heading ∈ kind.headings document, ∀ other ∈ kind.headings document,
        extractor.key heading = extractor.key other → heading.identity = other.identity := by
  rw [length_names, Finset.card_image_iff]
  simp [Set.InjOn, key, Heading.identity]

/-- **An extension is lost only to its own indexed name.**  The types of one kind are indexed under
the names of their declarations, extensions under theirs with the suffix, each name once.  Two
declarations share an entry exactly if they have the same declared name and both or neither extend
another, or if one of them bears the very name under which the other, an extension, is indexed.  So
there are as many entries as declared names, told apart by whether they extend, exactly if no two
declarations of the latter sort are there. -/
theorem extensions_kept_iff (document : Run) (kind : TypeKind) :
    kind.names extractor document
      = ((kind.headings document).map extractor.key).eraseDups ∧
    (∀ heading other : Heading, extractor.key heading = extractor.key other ↔
      heading.identity = other.identity ∨
        extractor.Clash heading other ∨ extractor.Clash other heading) ∧
    ((kind.names extractor document).length
        = ((kind.headings document).map Heading.identity).toFinset.card ↔
      ¬ ∃ extension ∈ kind.headings document, ∃ base ∈ kind.headings document,
        extractor.Clash extension base) := by
  refine ⟨kind.names_eq extractor document, extractor.key_eq_iff, ?_⟩
  rw [length_names_eq_iff]
  constructor
  · rintro h ⟨extension, hextension, base, hbase, hclash⟩
    have hsame := h extension hextension base hbase
      ((extractor.key_eq_iff extension base).mpr (Or.inr (Or.inl hclash)))
    have hflag := congrArg Prod.snd hsame
    rw [Heading.identity, Heading.identity, hclash.extended, hclash.notExtended] at hflag
    cases hflag
  · intro h heading hheading other hother hkey
    rcases (extractor.key_eq_iff heading other).mp hkey with hsame | hclash | hclash
    · exact hsame
    · exact absurd ⟨heading, hheading, other, hother, hclash⟩ h
    · exact absurd ⟨other, hother, heading, hheading, hclash⟩ h

/-- The extension of `A` is lost, as a scalar bears the name that it is indexed under. -/
theorem extension_lost :
    (TypeKind.scalar.names ⟨.empty, {}⟩
        (Run.ofString "scalar A\nextend scalar A\nscalar A_isExtended_")).length
      ≠ ((TypeKind.scalar.headings
        (Run.ofString "scalar A\nextend scalar A\nscalar A_isExtended_")).map
          Heading.identity).toFinset.card ∧
    ∀ scalar ∈ (scalars ⟨.empty, {}⟩
        (Run.ofString "scalar A\nextend scalar A\nscalar A_isExtended_")).values,
      scalar.isExtended = false := by
  decide +kernel

end Extractor

end SdlSchema
