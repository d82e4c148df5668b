/-
# Reading item after item

A reader reads one item and leaves less than it found.  Reading a body cuts it into segments:
items, and stretches passed over between them.  After a miss the reading goes on at the next
token that allows it.

* `flatMap_run_segments` : the segments put together are the body, so nothing is read twice or
  lost;
* `run_ne_nil_of_mem_segments` : the segment of an item is not empty.
-/
import SdlSchema.Reading.Basic

namespace SdlSchema

/-! ## Readers -/

/-- A way to read one item from the start of a run, which leaves less than it found. -/
structure Reader (α : Type) where
  read : Run → Except Miss (α × Run)
  left : ∀ {run rest : Run} {item : α}, read run = .ok (item, rest) → Left rest run

/-- Reads an item with the description in front of it. -/
def Reader.described {α : Type} (reader : Reader α) : Reader (Described α) where
  read run := do
    let (item, rest) ← reader.read run.acceptDescription.2
    pure (⟨run.acceptDescription.1, item⟩, rest)
  left := by
    intro run rest item h
    obtain ⟨⟨inner, rest'⟩, hread, heq⟩ := bind_eq_ok.mp h
    cases heq
    exact (reader.left hread).of_left_suffix (Run.acceptDescription_suffix run)

/-! ## Segments -/

/-- A stretch of a run that was passed over, or that was read as an item. -/
inductive Segment (α : Type) where
  | passed (run : Run)
  | item (value : α) (run : Run)

namespace Segment

variable {α : Type}

/-- The tokens of a segment. -/
def run : Segment α → Run
  | .passed run => run
  | .item _ run => run

/-- The item of a segment, if it was read as one. -/
def value? : Segment α → Option α
  | .passed _ => none
  | .item value _ => some value

/-- The items among segments. -/
def values (segments : List (Segment α)) : List α := segments.filterMap value?

end Segment

/-! ## Bodies -/

namespace Reader

variable {α : Type}

/-- The body cut into items and what is passed over.  Separators are passed over; after a miss so
is everything up to the next token that `resumes`; and when the text ends inside an item, the rest
is. -/
def segments (reader : Reader α) (separates resumes : Token → Bool) (run : Run) :
    List (Segment α) :=
  match _hrun : run.dropWhile separates with
  | [] => [.passed run]
  | token :: tail =>
    match _hread : reader.read (token :: tail) with
    | .ok (value, rest) =>
      .passed (run.takeWhile separates) :: .item value (Run.upTo (token :: tail) rest)
        :: segments reader separates resumes rest
    | .error .exhausted => [.passed run]
    | .error .noMatch =>
      .passed (run.takeWhile separates) :: .passed (token :: tail.takeWhile fun t => !resumes t)
        :: segments reader separates resumes (tail.dropWhile fun t => !resumes t)
  termination_by run.length
  decreasing_by
    · have h1 := (reader.left _hread).length_lt
      have h2 := (List.dropWhile_suffix separates (l := run)).length_le
      rw [_hrun] at h2
      omega
    · have h1 := (List.dropWhile_suffix (fun t => !resumes t) (l := tail)).length_le
      have h2 := (List.dropWhile_suffix separates (l := run)).length_le
      rw [_hrun] at h2
      simp only [List.length_cons] at h2
      omega

/-- The items of a body, in the order of the text. -/
def items (reader : Reader α) (separates resumes : Token → Bool) (run : Run) : List α :=
  Segment.values (reader.segments separates resumes run)

/-- The segments put together are the body. -/
theorem flatMap_run_segments (reader : Reader α) (separates resumes : Token → Bool) (run : Run) :
    (reader.segments separates resumes run).flatMap Segment.run = run := by
  fun_induction segments reader separates resumes run with
  | case1 run h => simp [Segment.run]
  | case2 run token tail h value rest hread ih =>
    rw [List.flatMap_cons, List.flatMap_cons, ih]
    simp only [Segment.run]
    rw [Run.upTo_append (reader.left hread).suffix, ← h, List.takeWhile_append_dropWhile]
  | case3 run token tail h hread =>
    simp [Segment.run]
  | case4 run token tail h hread ih =>
    rw [List.flatMap_cons, List.flatMap_cons, ih]
    simp only [Segment.run, List.cons_append]
    rw [List.takeWhile_append_dropWhile, ← h, List.takeWhile_append_dropWhile]

/-- The segment of an item is not empty. -/
theorem run_ne_nil_of_mem_segments {reader : Reader α} {separates resumes : Token → Bool}
    {run read : Run} {value : α}
    (h : .item value read ∈ reader.segments separates resumes run) : read ≠ [] := by
  fun_induction segments reader separates resumes run with
  | case1 run hrun => simp at h
  | case2 run token tail hrun value' rest hread ih =>
    rw [List.mem_cons, List.mem_cons] at h
    rcases h with h | h | h
    · cases h
    · cases h
      have := (reader.left hread).length_lt
      intro hnil
      have hlen := congrArg List.length hnil
      simp only [Run.upTo, List.length_take, List.length_nil] at hlen
      omega
    · exact ih h
  | case3 run token tail hrun hread => simp at h
  | case4 run token tail hrun hread ih =>
    rw [List.mem_cons, List.mem_cons] at h
    rcases h with h | h | h
    · cases h
    · cases h
    · exact ih h

end Reader

end SdlSchema
