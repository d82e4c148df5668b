/-
# Name indexes under insertion

What insertion and collection do to the names of an index and to the value under each.

* `keys_insert`, `get?_insert` : insertion adds its name last or keeps its place, and changes
  one value;
* `keys_ofPairs`, `get?_ofPairs` : the names of collected pairs stand in the order of their
  first occurrence, each with the value of its last.
-/
import SdlSchema.NameIndex.Basic

namespace SdlSchema.NameIndex

variable {α β : Type}

/-! ## Look-up -/

@[simp] theorem get?_empty (key : String) : (empty : NameIndex α).get? key = none := rfl

@[simp] theorem keys_empty : (empty : NameIndex α).keys = [] := rfl

/-- A look-up among entries finds a value exactly if the name is there. -/
theorem lookup_isSome_iff (key : String) (entries : List (String × α)) :
    (entries.lookup key).isSome = true ↔ key ∈ entries.map Prod.fst := by
  induction entries with
  | nil => simp
  | cons entry entries ih =>
    obtain ⟨name, value⟩ := entry
    by_cases h : key = name
    · simp [h]
    · have hb : (key == name) = false := by simpa using h
      rw [List.lookup_cons, hb, List.map_cons, List.mem_cons]
      simp [ih, h]

/-- A name is contained exactly if it is among the keys. -/
theorem contains_iff (index : NameIndex α) (key : String) :
    index.contains key = true ↔ key ∈ index.keys :=
  lookup_isSome_iff key index.entries

theorem get?_eq_none_iff (index : NameIndex α) (key : String) :
    index.get? key = none ↔ key ∉ index.keys := by
  rw [← contains_iff, contains]
  cases index.get? key <;> simp

/-- Under different names a look-up finds exactly the entries. -/
theorem lookup_eq_some_iff {entries : List (String × α)} (h : (entries.map Prod.fst).Nodup)
    (key : String) (value : α) :
    entries.lookup key = some value ↔ (key, value) ∈ entries := by
  induction entries with
  | nil => simp
  | cons entry entries ih =>
    obtain ⟨name, first⟩ := entry
    obtain ⟨hname, hentries⟩ := List.nodup_cons.mp h
    rw [List.lookup_cons, List.mem_cons, Prod.mk.injEq]
    by_cases hkey : key = name
    · -- the name stands nowhere else, so the first entry is the only one under it
      subst hkey
      have hmem : (key, value) ∉ entries := fun hmem =>
        hname (List.mem_map.mpr ⟨(key, value), hmem, rfl⟩)
      simp [hmem, eq_comm]
    · have hb : (key == name) = false := by simpa using hkey
      simp [hb, hkey, ih hentries]

theorem get?_eq_some_iff (index : NameIndex α) (key : String) (value : α) :
    index.get? key = some value ↔ (key, value) ∈ index.entries :=
  lookup_eq_some_iff index.nodup key value

/-- Indexes with the same entries, in whatever order, give the same for each name. -/
theorem get?_eq_of_perm {index other : NameIndex α} (h : index.entries.Perm other.entries)
    (key : String) : index.get? key = other.get? key := by
  apply Option.ext
  intro value
  rw [get?_eq_some_iff, get?_eq_some_iff, h.mem_iff]

/-! ## Insertion -/

/-- Insertion keeps the place of a name that is there, and adds another last. -/
theorem keys_insert (index : NameIndex α) (key : String) (value : α) :
    (index.insert key value).keys
      = if key ∈ index.keys then index.keys else index.keys ++ [key] :=
  map_fst_insertEntry key value index.entries

/-- The look-up among entries after an insertion. -/
theorem lookup_insertEntry (key other : String) (value : α) (entries : List (String × α)) :
    (insertEntry key value entries).lookup other
      = if other = key then some value else entries.lookup other := by
  induction entries with
  | nil =>
    rw [insertEntry, List.lookup_cons]
    by_cases h : other = key
    · simp [h]
    · have hb : (other == key) = false := by simpa using h
      simp [hb, h]
  | cons entry entries ih =>
    obtain ⟨name, old⟩ := entry
    rw [insertEntry]
    by_cases hname : name = key
    · subst hname
      rw [if_pos rfl, List.lookup_cons, List.lookup_cons]
      by_cases h : other = name
      · simp [h]
      · have hb : (other == name) = false := by simpa using h
        simp [hb, h]
    · rw [if_neg hname, List.lookup_cons, List.lookup_cons, ih]
      by_cases h : other = name
      · have hk : ¬ other = key := fun e => hname (h.symm.trans e)
        simp [h, hname]
      · have hb : (other == name) = false := by simpa using h
        simp [hb]

/-- Insertion puts its value under its name and changes no other. -/
theorem get?_insert (index : NameIndex α) (key other : String) (value : α) :
    (index.insert key value).get? other = if other = key then some value else index.get? other :=
  lookup_insertEntry key other value index.entries

/-! ## Collection -/

@[simp] theorem ofPairs_nil : ofPairs ([] : List (String × α)) = empty := rfl

theorem ofPairs_concat (pairs : List (String × α)) (key : String) (value : α) :
    ofPairs (pairs ++ [(key, value)]) = (ofPairs pairs).insert key value := by
  simp [ofPairs, List.foldl_append]

/-- Induction over a list from its end. -/
theorem reverse_induction {motive : List (String × α) → Prop} (pairs : List (String × α))
    (nil : motive []) (concat : ∀ pairs pair, motive pairs → motive (pairs ++ [pair])) :
    motive pairs := by
  have h : ∀ reversed : List (String × α), motive reversed.reverse := by
    intro reversed
    induction reversed with
    | nil => exact nil
    | cons pair reversed ih => rw [List.reverse_cons]; exact concat _ pair ih
  simpa using h pairs.reverse

/-- Exactly the names of the pairs are collected. -/
theorem mem_keys_ofPairs (pairs : List (String × α)) (key : String) :
    key ∈ (ofPairs pairs).keys ↔ key ∈ pairs.map Prod.fst := by
  induction pairs using reverse_induction with
  | nil => simp
  | concat pairs pair ih =>
    obtain ⟨name, value⟩ := pair
    rw [ofPairs_concat, keys_insert, List.map_append, List.mem_append]
    split
    · next hin =>
      rw [ih]
      refine ⟨Or.inl, fun h => ?_⟩
      rcases h with h | h
      · exact h
      · have : key = name := by simpa using h
        exact this ▸ ih.mp (this ▸ hin)
    · rw [List.mem_append, ih]
      simp

/-- Collected names stand in the order of their first occurrence. -/
theorem keys_ofPairs (pairs : List (String × α)) :
    (ofPairs pairs).keys = (pairs.map Prod.fst).eraseDups := by
  induction pairs using reverse_induction with
  | nil => rfl
  | concat pairs pair ih =>
    obtain ⟨name, value⟩ := pair
    rw [ofPairs_concat, keys_insert, List.map_append, List.eraseDups_append]
    by_cases h : name ∈ pairs.map Prod.fst
    · have hnone : ([name] : List String).removeAll (pairs.map Prod.fst) = [] := by
        simp only [List.removeAll, List.filter_cons, List.filter_nil]
        simp [h]
      rw [if_pos ((mem_keys_ofPairs pairs name).mpr h), ih, List.map_singleton, hnone]
      simp
    · have hkeep : ([name] : List String).removeAll (pairs.map Prod.fst) = [name] := by
        simp only [List.removeAll, List.filter_cons, List.filter_nil]
        simp [h]
      rw [if_neg (fun hin => h ((mem_keys_ofPairs pairs name).mp hin)), ih, List.map_singleton,
        hkeep, List.eraseDups_cons]
      simp

/-- Under each name stands the value of its last occurrence. -/
theorem get?_ofPairs (pairs : List (String × α)) (key : String) :
    (ofPairs pairs).get? key = pairs.reverse.lookup key := by
  induction pairs using reverse_induction with
  | nil => rfl
  | concat pairs pair ih =>
    obtain ⟨name, value⟩ := pair
    rw [ofPairs_concat, get?_insert, List.reverse_append, List.reverse_singleton,
      List.singleton_append, List.lookup_cons, ih]
    by_cases h : key = name
    · simp [h]
    · have hb : (key == name) = false := by simpa using h
      simp [hb, h]

/-! ## Absence of the empty index -/

/-- What is kept of an index is the index, and it is not empty. -/
theorem nonEmpty?_eq_some_iff (index kept : NameIndex α) :
    index.nonEmpty? = some kept ↔ index.isEmpty = false ∧ index = kept := by
  unfold nonEmpty?
  cases h : index.isEmpty <;> simp

end SdlSchema.NameIndex
