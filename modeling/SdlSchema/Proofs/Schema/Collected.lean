/-
# What is collected from captures

An index is collected from values that each come from something captured in a document.  Its names
are then the keys of the captures, in the order of their first occurrence, and under each name
stands what the last capture of that key gives.

* `NameIndex.mem_entries_ofPairs` : under a name stands the last value of that name;
* `Published` : that an index holds what captures give;
* `published_collect` : what is collected is published.
-/
import Mathlib.Data.List.Forall2
import SdlSchema.NameIndex.Lemmas
import SdlSchema.Schema.Directive

namespace SdlSchema

variable {α γ : Type}

/-! ## The last value of a name -/

namespace NameIndex

/-- Under a name stands the value of the last pair with that name. -/
theorem mem_entries_ofPairs {pairs : List (String × α)} {key : String} {value : α} :
    (key, value) ∈ (ofPairs pairs).entries ↔
      ∃ before after, pairs = before ++ (key, value) :: after ∧ key ∉ after.map Prod.fst := by
  have hne : ∀ list : List (String × α),
      (∀ pair ∈ list, (key != pair.1) = true) ↔ key ∉ list.map Prod.fst := by
    intro list
    simp only [bne_iff_ne, List.mem_map, not_exists, not_and]
    exact ⟨fun h pair hmem heq => h pair hmem heq.symm, fun h pair hmem heq => h pair hmem heq.symm⟩
  rw [← get?_eq_some_iff, get?_ofPairs, List.lookup_eq_some_iff]
  constructor
  · rintro ⟨after, before, hsplit, hafter⟩
    refine ⟨before.reverse, after.reverse, ?_, ?_⟩
    · rw [← List.reverse_reverse pairs, hsplit]
      simp
    · rw [List.map_reverse, List.mem_reverse]
      exact (hne after).mp hafter
  · rintro ⟨before, after, rfl, hafter⟩
    refine ⟨after.reverse, before.reverse, by simp, (hne _).mpr ?_⟩
    rwa [List.map_reverse, List.mem_reverse]

/-- What is collected under a name is the last item of that name. -/
theorem mem_entries_collect [Named α] {items : List α} {key : String} {value : α} :
    (key, value) ∈ (collect items).entries ↔ Named.name value = key ∧
      ∃ before after, items = before ++ value :: after ∧
        ∀ other ∈ after, Named.name other ≠ key := by
  rw [collect, mem_entries_ofPairs]
  constructor
  · rintro ⟨before, after, hsplit, hafter⟩
    obtain ⟨front, rest, rfl, -, hrest⟩ := List.map_eq_append_iff.mp hsplit
    obtain ⟨item, behind, rfl, hitem, rfl⟩ := List.map_eq_cons_iff.mp hrest
    obtain ⟨rfl, rfl⟩ := Prod.mk.injEq .. ▸ hitem
    refine ⟨rfl, front, behind, rfl, fun other hother heq => hafter ?_⟩
    rw [List.map_map]
    exact List.mem_map.mpr ⟨other, hother, heq⟩
  · rintro ⟨rfl, before, after, rfl, hafter⟩
    refine ⟨_, _, by rw [List.map_append, List.map_cons], fun hmem => ?_⟩
    rw [List.map_map] at hmem
    obtain ⟨other, hother, heq⟩ := List.mem_map.mp hmem
    exact hafter other hother heq

theorem keys_collect [Named α] (items : List α) :
    (collect items).keys = (items.map Named.name).eraseDups := by
  rw [collect, keys_ofPairs, List.map_map]
  rfl

end NameIndex

/-! ## Captures and what they give -/

/-- The capture is among the captures, and behind it no other has its key. -/
def LastOfKey (key : γ → String) (captures : List γ) (capture : γ) : Prop :=
  ∃ before after, captures = before ++ capture :: after ∧
    ∀ other ∈ after, key other ≠ key capture

theorem LastOfKey.mem {key : γ → String} {captures : List γ} {capture : γ}
    (h : LastOfKey key captures capture) : capture ∈ captures := by
  obtain ⟨before, after, rfl, -⟩ := h
  simp

/-- The index holds what the captures give: under each key what the last capture with it gives. -/
structure Published [Named α] (captures : List γ) (key : γ → String) (Gives : γ → α → Prop)
    (index : NameIndex α) : Prop where
  /-- The names are the keys of the captures, each once, in the order of their first occurrence. -/
  keys_eq : index.keys = (captures.map key).eraseDups
  /-- Each value stands under its own name. -/
  name_eq : ∀ entry ∈ index.entries, Named.name entry.2 = entry.1
  /-- Each value is what the last capture with its name for a key gives. -/
  last : ∀ entry ∈ index.entries, ∃ capture, LastOfKey key captures capture ∧
    key capture = entry.1 ∧ Gives capture entry.2

/-- An optional index is absent if there are no captures, and else holds what they give. -/
structure PublishedIfAny [Named α] (captures : List γ) (key : γ → String) (Gives : γ → α → Prop)
    (index : Option (NameIndex α)) : Prop where
  absent_iff : index = none ↔ captures = []
  published : ∀ held ∈ index, Published captures key Gives held

variable [Named α] {captures : List γ} {key : γ → String} {Gives : γ → α → Prop}

/-- Values that each come from a capture, under its key, have the keys for names. -/
theorem map_name_of_forall₂ {items : List α}
    (h : List.Forall₂ (fun capture item => Named.name item = key capture ∧ Gives capture item)
      captures items) : items.map Named.name = captures.map key := by
  induction h with
  | nil => rfl
  | cons hitem _ ih => rw [List.map_cons, List.map_cons, hitem.1, ih]

/-- What is collected of values that each come from a capture, under its key, is published. -/
theorem published_collect {items : List α}
    (h : List.Forall₂ (fun capture item => Named.name item = key capture ∧ Gives capture item)
      captures items) : Published captures key Gives (NameIndex.collect items) := by
  refine ⟨?_, ?_, ?_⟩
  · rw [NameIndex.keys_collect, map_name_of_forall₂ h]
  · exact fun entry hentry => (NameIndex.mem_entries_collect.mp hentry).1
  · rintro ⟨name, item⟩ hentry
    obtain ⟨rfl, before, after, rfl, hafter⟩ := NameIndex.mem_entries_collect.mp hentry
    -- the items behind the last one of a name come from the captures behind its capture
    obtain ⟨capture, behind, ⟨hname, hgives⟩, hbehind, hdrop⟩ :=
      List.forall₂_cons_right_iff.mp (List.forall₂_drop_append _ _ _ h)
    refine ⟨capture, ⟨captures.take before.length, behind, ?_, ?_⟩, hname.symm, hgives⟩
    · rw [← hdrop, List.take_append_drop]
    · intro other hother heq
      have hmem : Named.name item ∈ after.map Named.name := by
        rw [map_name_of_forall₂ hbehind, hname, ← heq]
        exact List.mem_map_of_mem hother
      obtain ⟨twin, htwin, hsame⟩ := List.mem_map.mp hmem
      exact hafter twin htwin hsame

/-- What is collected of values made of the captures is published. -/
theorem published_collect_map {give : γ → α}
    (h : ∀ capture ∈ captures, Named.name (give capture) = key capture ∧
      Gives capture (give capture)) :
    Published captures key Gives (NameIndex.collect (captures.map give)) := by
  apply published_collect
  rw [List.forall₂_map_right_iff, List.forall₂_same]
  exact h

/-- Names that are all different are all kept. -/
theorem eraseDups_of_nodup {names : List String} (h : names.Nodup) : names.eraseDups = names := by
  induction names with
  | nil => rfl
  | cons name names ih =>
    obtain ⟨hname, hnames⟩ := List.nodup_cons.mp h
    have hkept : names.filter (fun other => !other == name) = names :=
      List.filter_eq_self.mpr fun other hother => by
        simpa using fun heq : other = name => hname (heq ▸ hother)
    rw [List.eraseDups_cons, hkept, ih hnames]

/-- An index made of another by naming each value after its key is published by the entries. -/
theorem published_mapWithName {β : Type} {f : String → β → α}
    (hname : ∀ name value, Named.name (f name value) = name) (index : NameIndex β) :
    Published index.entries Prod.fst (fun entry value => value = f entry.1 entry.2)
      (index.mapWithName f) := by
  refine ⟨?_, ?_, ?_⟩
  · rw [eraseDups_of_nodup index.nodup, NameIndex.keys, NameIndex.mapWithName, List.map_map]
    rfl
  · rintro ⟨name, value⟩ hentry
    obtain ⟨entry, -, heq⟩ := List.mem_map.mp hentry
    cases heq
    exact hname _ _
  · rintro ⟨name, value⟩ hentry
    obtain ⟨entry, hmem, heq⟩ := List.mem_map.mp hentry
    cases heq
    obtain ⟨before, after, hsplit⟩ := List.append_of_mem hmem
    refine ⟨entry, ⟨before, after, hsplit, ?_⟩, rfl, rfl⟩
    have hnodup := index.nodup
    rw [hsplit, List.map_append, List.map_cons, List.nodup_append] at hnodup
    intro other hother heq
    exact (List.nodup_cons.mp hnodup.2.1).1 (heq ▸ List.mem_map_of_mem hother)

namespace Published

/-- What the captures give may be said in weaker words. -/
theorem imp {Weaker : γ → α → Prop} {index : NameIndex α} (h : Published captures key Gives index)
    (himp : ∀ capture value, Gives capture value → Weaker capture value) :
    Published captures key Weaker index := by
  refine ⟨h.keys_eq, h.name_eq, fun entry hentry => ?_⟩
  obtain ⟨capture, hlast, hkey, hgives⟩ := h.last entry hentry
  exact ⟨capture, hlast, hkey, himp capture entry.2 hgives⟩

/-- Each value of the index is given by a capture. -/
theorem exists_mem {index : NameIndex α} (h : Published captures key Gives index) {value : α}
    (hvalue : value ∈ index.values) : ∃ capture ∈ captures, Gives capture value := by
  obtain ⟨entry, hentry, rfl⟩ := List.mem_map.mp hvalue
  obtain ⟨capture, hlast, -, hgives⟩ := h.last entry hentry
  exact ⟨capture, hlast.mem, hgives⟩

/-- The index is empty exactly if there are no captures. -/
theorem isEmpty_iff {index : NameIndex α} (h : Published captures key Gives index) :
    index.isEmpty = true ↔ captures = [] := by
  have hkeys : index.isEmpty = true ↔ index.keys = [] := by
    rw [NameIndex.isEmpty, List.isEmpty_iff, NameIndex.keys, List.map_eq_nil_iff]
  rw [hkeys, h.keys_eq]
  cases captures with
  | nil => simp
  | cons capture captures => simp [List.eraseDups_cons]

theorem isEmpty_eq_false {index : NameIndex α} (h : Published captures key Gives index)
    (hcaptures : captures ≠ []) : index.isEmpty = false := by
  rw [Bool.eq_false_iff, Ne, h.isEmpty_iff]
  exact hcaptures

/-- An index is kept if it holds something. -/
theorem present {index : NameIndex α} (h : Published captures key Gives index) :
    PublishedIfAny captures key Gives (present (some index)) := by
  have hpresent : SdlSchema.present (some index) = index.nonEmpty? := rfl
  rw [hpresent]
  refine ⟨?_, ?_⟩
  · rw [← h.isEmpty_iff, NameIndex.nonEmpty?]
    cases index.isEmpty <;> simp
  · intro held hheld
    obtain ⟨-, rfl⟩ := (NameIndex.nonEmpty?_eq_some_iff index held).mp hheld
    exact h

end Published

namespace PublishedIfAny

/-- An index of what is captured in an optional part is kept if the part is there and holds
something. -/
theorem present_map {β : Type} {part : Option β} {captured : β → List γ} {give : β → NameIndex α}
    (h : ∀ held, Published (captured held) key Gives (give held)) :
    PublishedIfAny (part.elim [] captured) key Gives (present (part.map give)) := by
  cases part with
  | none => exact ⟨⟨fun _ => rfl, fun _ => rfl⟩, nofun⟩
  | some held => exact (h held).present

/-- An index that is there has captures. -/
theorem captures_ne_nil {index : Option (NameIndex α)}
    (h : PublishedIfAny captures key Gives index) {held : NameIndex α} (hheld : held ∈ index) :
    captures ≠ [] := by
  rw [Ne, ← h.absent_iff, Option.mem_def.mp hheld]
  exact nofun

/-- An index that is there is not empty. -/
theorem isEmpty_eq_false {index : Option (NameIndex α)}
    (h : PublishedIfAny captures key Gives index) {held : NameIndex α} (hheld : held ∈ index) :
    held.isEmpty = false :=
  (h.published held hheld).isEmpty_eq_false (h.captures_ne_nil hheld)

end PublishedIfAny

end SdlSchema
