/-
# Equality as maps

Two indexes are equal as maps if they give the same for each name; in which order the names came
does not count.  Schemas are compared with this equality at each of their levels, and every schema
is equal to itself.

* `NameIndex.beq_of_get?_eq` : indexes that give the same for each name are equal as maps;
* `NameIndex.get?_append_comm` : pairs under different names may be collected in either order.
-/
import Mathlib.Data.List.Nodup
import SdlSchema.NameIndex.Lemmas
import SdlSchema.Schema.Basic

namespace SdlSchema

namespace NameIndex

variable {α : Type}

/-- No name is in both indexes. -/
def Apart (index other : NameIndex α) : Prop := ∀ key ∈ index.keys, key ∉ other.keys

instance (index other : NameIndex α) : Decidable (index.Apart other) :=
  inferInstanceAs (Decidable (∀ key ∈ index.keys, key ∉ other.keys))

/-- Indexes that give the same for each name hold the same entries, perhaps in another order. -/
theorem perm_of_get?_eq {index other : NameIndex α}
    (h : ∀ key, index.get? key = other.get? key) : index.entries.Perm other.entries := by
  rw [List.perm_ext_iff_of_nodup (List.Nodup.of_map _ index.nodup)
    (List.Nodup.of_map _ other.nodup)]
  rintro ⟨key, value⟩
  rw [← get?_eq_some_iff, ← get?_eq_some_iff, h]

/-- Indexes that give the same for each name are equal as maps. -/
theorem beq_of_get?_eq [BEq α] [ReflBEq α] {index other : NameIndex α}
    (h : ∀ key, index.get? key = other.get? key) : (index == other) = true := by
  show equal index other = true
  unfold equal
  rw [Bool.and_eq_true, List.all_eq_true]
  constructor
  · exact beq_of_eq (perm_of_get?_eq h).length_eq
  · rintro ⟨key, value⟩ hmem
    have hvalue : other.get? key = some value := by
      rw [← h, get?_eq_some_iff]
      exact hmem
    simp [hvalue]

instance [BEq α] [ReflBEq α] : ReflBEq (NameIndex α) where
  rfl := beq_of_get?_eq fun _ => rfl

/-- Pairs whose names are apart may be collected in either order. -/
theorem get?_append_comm {pairs others : List (String × α)}
    (h : (ofPairs pairs).Apart (ofPairs others)) (key : String) :
    (ofPairs (pairs ++ others)).get? key = (ofPairs (others ++ pairs)).get? key := by
  have happend : ∀ left right : List (String × α),
      (ofPairs (left ++ right)).get? key
        = ((ofPairs right).get? key).or ((ofPairs left).get? key) := by
    intro left right
    rw [get?_ofPairs, get?_ofPairs, get?_ofPairs, List.reverse_append, List.lookup_append]
  rw [happend, happend]
  by_cases hkey : key ∈ (ofPairs pairs).keys
  · rw [(get?_eq_none_iff _ _).mpr (h key hkey), Option.none_or, Option.or_none]
  · rw [(get?_eq_none_iff _ _).mpr hkey, Option.none_or, Option.or_none]

/-- Of two lists with no name in common either may be collected first. -/
theorem beq_collect_append_comm [Named α] [BEq α] [ReflBEq α] {items others : List α}
    (h : (collect items).Apart (collect others)) :
    (collect (items ++ others) == collect (others ++ items)) = true := by
  apply beq_of_get?_eq
  intro key
  rw [collect, collect, List.map_append, List.map_append]
  exact get?_append_comm h key

end NameIndex

deriving instance ReflBEq for Directive
deriving instance ReflBEq for InputValue
deriving instance ReflBEq for Field
deriving instance ReflBEq for Member
deriving instance ReflBEq for TypeDefinition
deriving instance ReflBEq for ObjectBody
deriving instance ReflBEq for DirectiveDefinition

/-- No name is in both schemas, among the definitions of one kind. -/
structure Schema.Apart (first second : Schema) : Prop where
  objects : first.objects.Apart second.objects
  interfaces : first.interfaces.Apart second.interfaces
  inputs : first.inputs.Apart second.inputs
  unions : first.unions.Apart second.unions
  enums : first.enums.Apart second.enums
  scalars : first.scalars.Apart second.scalars
  directives : first.directives.Apart second.directives

instance (first second : Schema) : Decidable (first.Apart second) :=
  decidable_of_iff (first.objects.Apart second.objects ∧ first.interfaces.Apart second.interfaces ∧
      first.inputs.Apart second.inputs ∧ first.unions.Apart second.unions ∧
      first.enums.Apart second.enums ∧ first.scalars.Apart second.scalars ∧
      first.directives.Apart second.directives)
    ⟨fun ⟨ho, hi, hn, hu, he, hs, hd⟩ => ⟨ho, hi, hn, hu, he, hs, hd⟩,
      fun ⟨ho, hi, hn, hu, he, hs, hd⟩ => ⟨ho, hi, hn, hu, he, hs, hd⟩⟩

end SdlSchema
