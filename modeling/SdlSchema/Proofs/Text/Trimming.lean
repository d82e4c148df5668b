/-
# Trimming

What trimming leaves of a text neither begins nor ends with a blank, so trimming it again changes
nothing.  Nothing is left exactly of the texts that are made of blanks alone, and those say nothing.

* `trim_trim` : trimming twice changes nothing more;
* `trim_eq_nil_iff`, `nonBlank_eq_none_iff` : exactly the texts made of blanks alone are dropped.
-/
import Mathlib.Data.List.DropRight
import SdlSchema.Text.Blank

namespace SdlSchema.Text

/-- What is left stands behind the blanks that the text begins with. -/
theorem trim_isPrefix (text : List Char) : trim text <+: text.dropWhile isBlank :=
  List.rdropWhile_prefix isBlank _

/-- What is left does not begin with a blank. -/
theorem dropWhile_trim (text : List Char) : (trim text).dropWhile isBlank = trim text := by
  rw [List.dropWhile_eq_self_iff]
  intro hpos
  have hlt := Nat.lt_of_lt_of_le hpos (trim_isPrefix text).length_le
  rw [(trim_isPrefix text).getElem hpos]
  exact List.dropWhile_get_zero_not isBlank text hlt

/-- Trimming twice changes nothing more. -/
theorem trim_trim (text : List Char) : trim (trim text) = trim text := by
  rw [trim, dropWhile_trim]
  exact List.rdropWhile_idempotent isBlank _

/-- Exactly the texts of blanks alone trim to nothing. -/
theorem trim_eq_nil_iff (text : List Char) : trim text = [] ↔ allBlank text = true := by
  rw [allBlank, List.all_eq_true]
  constructor
  · intro h
    rw [← List.dropWhile_eq_nil_iff]
    by_contra hne
    -- what is left in front of the last blanks would begin with a character that is none
    have hblank : ∀ c ∈ text.dropWhile isBlank, isBlank c = true := List.rdropWhile_eq_nil_iff.mp h
    have hfirst := List.head_dropWhile_not isBlank hne
    rw [hblank _ (List.head_mem hne)] at hfirst
    cases hfirst
  · intro h
    rw [trim, List.dropWhile_eq_nil_iff.mpr h]
    rfl

/-- Exactly the texts made of blanks alone are dropped. -/
theorem nonBlank_eq_none_iff (text : String) :
    nonBlank text = none ↔ allBlank text.toList = true := by
  rw [← trim_eq_nil_iff, nonBlank]
  cases trim text.toList <;> simp

end SdlSchema.Text
