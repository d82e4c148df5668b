/-
# Lists of names in declarations

Union members and directive locations are joined by `|`; implemented interfaces by `&` or a
comma, or by nothing on one line.  A list may begin with its joining mark, and a joining mark
has to be followed by another name.

* `NameList.items_ne_nil` : a list that was read holds a name.
-/
import SdlSchema.Body.Element

namespace SdlSchema

/-! ## How a list goes on -/

/-- How a list goes on after an item: with a further item, or not at all; it misses where the list
is broken off. -/
structure ListTail (α : Type) where
  next : Run → Except Miss (Option (α × Run))
  left : ∀ {run rest : Run} {item : α}, next run = .ok (some (item, rest)) → Left rest run

namespace ListTail

variable {α : Type}

/-- The items with which a list goes on, and the run after them. -/
def read (tail : ListTail α) (run : Run) : Except Miss (List α × Run) :=
  match _hnext : tail.next run with
  | .error miss => .error miss
  | .ok none => .ok ([], run)
  | .ok (some (item, rest)) =>
    match read tail rest with
    | .error miss => .error miss
    | .ok (items, rest) => .ok (item :: items, rest)
  termination_by run.length
  decreasing_by exact (tail.left _hnext).length_lt

theorem read_suffix {tail : ListTail α} {run rest : Run} {items : List α}
    (h : tail.read run = .ok (items, rest)) : rest <:+ run := by
  fun_induction read tail run generalizing items rest with
  | case1 run miss hnext => cases h
  | case2 run hnext => cases h; exact List.suffix_refl _
  | case3 run item left hnext miss hread ih => cases h
  | case4 run item left hnext items' rest' hread ih =>
    cases h
    exact (ih hread).trans (tail.left hnext).suffix

/-- The tail of a list whose items are joined by `|`, on whatever line. -/
def piped (item : Reader α) : ListTail α where
  next run :=
    match run.skipTrivia.take? (.punctuation .pipe) with
    | some rest => (item.read rest.skipTrivia).map some
    | none => .ok none
  left := by
    intro run rest value h
    split at h
    · next inner hpipe =>
      cases hread : item.read inner.skipTrivia with
      | error miss => rw [hread] at h; cases h
      | ok found =>
        rw [hread] at h
        cases h
        exact (item.left hread).of_left_suffix ((Run.skipTrivia_suffix inner).trans
          ((Run.take?_left hpipe).suffix.trans (Run.skipTrivia_suffix run)))
    · cases h

/-- The run after a mark that joins interfaces, if one is next. -/
def afterJoiner? (run : Run) : Option Run :=
  (run.skipTrivia.take? (.punctuation .ampersand)).or (run.skipTrivia.take? (.punctuation .comma))

theorem afterJoiner?_suffix {run rest : Run} (h : afterJoiner? run = some rest) :
    rest <:+ run := by
  rcases Option.or_eq_some_iff.mp h with h | ⟨_, h⟩ <;>
    exact (Run.take?_left h).suffix.trans (Run.skipTrivia_suffix run)

/-- The tail of a list of interfaces. -/
def joined : ListTail Element where
  next run :=
    match afterJoiner? run with
    | some rest => (Element.bareReader.read rest.skipTrivia).map some
    | none =>
      match Element.bareReader.read run.skipInline with
      | .ok found => .ok (some found)
      | .error _ => .ok none
  left := by
    intro run rest value h
    split at h
    · next inner hjoin =>
      cases hread : Element.bareReader.read inner.skipTrivia with
      | error miss => rw [hread] at h; cases h
      | ok found =>
        rw [hread] at h
        cases h
        exact (Element.bareReader.left hread).of_left_suffix
          ((Run.skipTrivia_suffix inner).trans (afterJoiner?_suffix hjoin))
    · split at h
      · next found hread =>
        cases h
        exact (Element.bareReader.left hread).of_left_suffix (Run.skipInline_suffix run)
      · cases h

end ListTail

/-! ## Whole lists -/

/-- A list of names as read, and the tokens from the first to the last of it. -/
structure NameList where
  items : List Element
  run : Run

namespace NameList

/-- Whether or not the mark `lead` is there, the first item stands further on. -/
theorem lead_suffix (lead : Punctuation) (run : Run) :
    ((run.take? (.punctuation lead)).map Run.skipTrivia).getD run <:+ run := by
  cases hlead : run.take? (.punctuation lead) with
  | none => exact List.suffix_refl run
  | some inner => exact (Run.skipTrivia_suffix inner).trans (Run.take?_left hlead).suffix

/-- Reads a list that may begin with the mark `lead`. -/
def reader (lead : Punctuation) (item : Reader Element) (tail : ListTail Element) :
    Reader NameList where
  read run := do
    let start := ((run.take? (.punctuation lead)).map Run.skipTrivia).getD run
    let (first, rest) ← item.read start
    let (others, rest) ← tail.read rest
    pure (⟨first :: others, run.upTo rest⟩, rest)
  left := by
    intro run rest list h
    obtain ⟨⟨first, afterFirst⟩, hfirst, h⟩ := bind_eq_ok.mp h
    obtain ⟨⟨others, afterOthers⟩, hothers, h⟩ := bind_eq_ok.mp h
    cases h
    exact ((item.left hfirst).of_suffix (ListTail.read_suffix hothers)).of_left_suffix <|
      lead_suffix lead run

/-- Reads union members, each with the markers on its line. -/
def members : Reader NameList := reader .pipe Element.reader (.piped Element.reader)

/-- Reads directive locations. -/
def locations : Reader NameList := reader .pipe Element.bareReader (.piped Element.bareReader)

/-- Reads implemented interfaces. -/
def interfaces : Reader NameList := reader .ampersand Element.bareReader .joined

/-- A list that was read holds a name. -/
theorem items_ne_nil {lead : Punctuation} {item : Reader Element} {tail : ListTail Element}
    {run rest : Run} {list : NameList} (h : (reader lead item tail).read run = .ok (list, rest)) :
    list.items ≠ [] := by
  obtain ⟨⟨first, afterFirst⟩, hfirst, h⟩ := bind_eq_ok.mp h
  obtain ⟨⟨others, afterOthers⟩, hothers, h⟩ := bind_eq_ok.mp h
  cases h
  simp

end NameList

end SdlSchema
