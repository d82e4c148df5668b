/-
# Directives as applied

A directive applied to a part of a schema: its name and the arguments it was given.  Optional
attributes throughout the model are absent rather than empty, which `present` sees to.
-/
import SdlSchema.NameIndex.Basic
import SdlSchema.Text.Blank

namespace SdlSchema

/-! ## Absent rather than empty -/

/-- An optional index, absent if it holds nothing. -/
def present {α : Type} (index : Option (NameIndex α)) : Option (NameIndex α) :=
  index.bind NameIndex.nonEmpty?

/-- An optional text, trimmed, and absent if nothing is left of it. -/
def presentText (text : Option String) : Option String := text.bind Text.nonBlank

theorem present_ne_empty {α : Type} {index : Option (NameIndex α)} {kept : NameIndex α}
    (h : present index = some kept) : kept.isEmpty = false := by
  obtain ⟨held, _, hkept⟩ := Option.bind_eq_some_iff.mp h
  unfold NameIndex.nonEmpty? at hkept
  split at hkept
  · cases hkept
  · next hne => cases hkept; simpa using hne

/-! ## Directives -/

/-- A directive with the arguments it was given, name to value. -/
structure Directive where
  name : String
  arguments : Option (NameIndex String)
  deriving BEq

instance : Named Directive := ⟨Directive.name⟩

namespace Directive

/-- A directive without arguments. -/
def ofName (name : String) : Directive := ⟨name, none⟩

/-- The directive with these arguments instead of its own. -/
def withArguments (directive : Directive) (arguments : Option (NameIndex String)) : Directive :=
  { directive with arguments := present arguments }

/-- The directive with one more argument. -/
def withArgument (directive : Directive) (key value : String) : Directive :=
  { directive with arguments := some ((directive.arguments.getD .empty).insert key value) }

end Directive

/-- The directives on a part of a schema, if there are any. -/
abbrev Directives := Option (NameIndex Directive)

end SdlSchema
