/-
# Name indexes

A map from names to values that remembers the order in which its names were first inserted.
Inserting a name again keeps its place and replaces its value.  Two indexes are equal as maps
when they hold equal values under the same names, in whatever order.
-/

namespace SdlSchema

/-- Values under distinct names, in the order in which the names were first inserted. -/
structure NameIndex (α : Type) where
  /-- The names with their values, oldest name first. -/
  entries : List (String × α)
  /-- No name occurs twice. -/
  nodup : (entries.map Prod.fst).Nodup

/-- Values that carry the name they are indexed under. -/
class Named (α : Type) where
  name : α → String

namespace NameIndex

variable {α β : Type}

/-! ## Views -/

/-- The index without entries. -/
def empty : NameIndex α := ⟨[], List.nodup_nil⟩

instance : Inhabited (NameIndex α) := ⟨empty⟩
instance : EmptyCollection (NameIndex α) := ⟨empty⟩

/-- The names, oldest first. -/
def keys (index : NameIndex α) : List String := index.entries.map Prod.fst

/-- The values, in the order of their names. -/
def values (index : NameIndex α) : List α := index.entries.map Prod.snd

/-- The number of entries. -/
def size (index : NameIndex α) : Nat := index.entries.length

/-- Whether there are no entries. -/
def isEmpty (index : NameIndex α) : Bool := index.entries.isEmpty

/-- The value under a name, if the name was inserted. -/
def get? (index : NameIndex α) (key : String) : Option α := index.entries.lookup key

/-- Whether a name was inserted. -/
def contains (index : NameIndex α) (key : String) : Bool := (index.get? key).isSome

/-! ## Insertion -/

/-- The entries with `value` under `key`, in the place of the old entry if there is one, else
last. -/
def insertEntry (key : String) (value : α) : List (String × α) → List (String × α)
  | [] => [(key, value)]
  | entry :: entries =>
    if entry.1 = key then (key, value) :: entries else entry :: insertEntry key value entries

/-- The names of the entries after an insertion. -/
theorem map_fst_insertEntry (key : String) (value : α) (entries : List (String × α)) :
    (insertEntry key value entries).map Prod.fst
      = if key ∈ entries.map Prod.fst then entries.map Prod.fst
        else entries.map Prod.fst ++ [key] := by
  induction entries with
  | nil => rfl
  | cons entry entries ih =>
    rw [insertEntry]
    by_cases h : entry.1 = key
    · simp [h]
    · have h' : ¬ key = entry.1 := fun e => h e.symm
      simp only [h, if_false, List.map_cons, ih, List.mem_cons, h', false_or]
      split <;> rfl

/-- Put `value` under `key`, keeping the place of a name that is already there. -/
def insert (index : NameIndex α) (key : String) (value : α) : NameIndex α where
  entries := insertEntry key value index.entries
  nodup := by
    rw [map_fst_insertEntry]
    split
    · exact index.nodup
    · next h => simpa [List.nodup_append, index.nodup] using fun a b hab e => h (by
        simp only [List.mem_map, Prod.exists, exists_and_right, exists_eq_right]
        exact ⟨b, e ▸ hab⟩)

/-- The index of a list of named values: a later value replaces an earlier one of its name. -/
def ofPairs (pairs : List (String × α)) : NameIndex α :=
  pairs.foldl (fun index pair => index.insert pair.1 pair.2) empty

/-- The index of values under their own names: a later value replaces an earlier one of its name. -/
def collect [Named α] (items : List α) : NameIndex α :=
  ofPairs (items.map fun item => (Named.name item, item))

/-- The same names with other values. -/
def mapWithName (f : String → α → β) (index : NameIndex α) : NameIndex β where
  entries := index.entries.map fun entry => (entry.1, f entry.1 entry.2)
  nodup := by simpa [List.map_map, Function.comp_def] using index.nodup

/-- An index is worth keeping only if it holds something. -/
def nonEmpty? (index : NameIndex α) : Option (NameIndex α) :=
  if index.isEmpty then none else some index

/-! ## Equality as maps -/

/-- Equal as maps: as many names, and equal values under each. -/
def equal [BEq α] (left right : NameIndex α) : Bool :=
  left.size == right.size && left.entries.all fun (key, value) =>
    match right.get? key with
    | some other => value == other
    | none => false

instance [BEq α] : BEq (NameIndex α) := ⟨equal⟩

end NameIndex

end SdlSchema
