/-
# Where items come from

Every item of a body and every declaration of a document was read by its reader at some suffix of
the run.  The five kinds of declaration are put under one name here, for what holds of all their
readers alike.

* `exists_read_of_mem_items` : an item of a body was read somewhere in it;
* `exists_read_of_mem_scan` : a declaration of a document was read somewhere in it.
-/
import SdlSchema.Body.Field
import SdlSchema.Declaration.Plain

namespace SdlSchema

/-! ## Reading with a description -/

namespace Reader

variable {α : Type}

/-- An item with its description is read behind the description and the trivia after it. -/
theorem described_read_eq_ok {reader : Reader α} {run rest : Run} {found : Described α} :
    reader.described.read run = .ok (found, rest) ↔
      found.description = run.acceptDescription.1 ∧
        reader.read run.acceptDescription.2 = .ok (found.item, rest) := by
  constructor
  · intro h
    obtain ⟨⟨item, rest'⟩, hread, heq⟩ := bind_eq_ok.mp h
    cases heq
    exact ⟨rfl, hread⟩
  · rintro ⟨hdescription, hread⟩
    refine bind_eq_ok.mpr ⟨(found.item, rest), hread, ?_⟩
    rw [← hdescription]
    rfl

end Reader

/-! ## Items and declarations -/

/-- The values among segments are those of the segments that were read as items. -/
theorem Segment.mem_values {α : Type} {segments : List (Segment α)} {value : α} :
    value ∈ values segments ↔ ∃ run, .item value run ∈ segments := by
  rw [values, List.mem_filterMap]
  constructor
  · rintro ⟨segment, hmem, hvalue⟩
    cases segment with
    | passed run => cases hvalue
    | item value' run => cases hvalue; exact ⟨run, hmem⟩
  · rintro ⟨run, hmem⟩
    exact ⟨_, hmem, rfl⟩

namespace Reader

variable {α : Type}

/-- A segment read as an item is what the reader took of some suffix of the body. -/
theorem read_of_mem_segments {reader : Reader α} {separates resumes : Token → Bool}
    {run read : Run} {value : α} (h : .item value read ∈ reader.segments separates resumes run) :
    ∃ rest, read ++ rest <:+ run ∧ reader.read (read ++ rest) = .ok (value, rest) := by
  -- each call goes on with a suffix of what it was given, so a suffix found later is one of `run`
  fun_induction segments reader separates resumes run with
  | case1 run hrun => simp at h
  | case2 run token tail hrun found rest hread ih =>
    have hstart : token :: tail <:+ run := hrun ▸ List.dropWhile_suffix separates
    have hleft := (reader.left hread).suffix
    rcases List.mem_cons.mp h with h | h
    · cases h
    rcases List.mem_cons.mp h with h | h
    · cases h
      exact ⟨rest, by rwa [Run.upTo_append hleft], by rwa [Run.upTo_append hleft]⟩
    · obtain ⟨rest', hsuffix, hread'⟩ := ih h
      exact ⟨rest', hsuffix.trans (hleft.trans hstart), hread'⟩
  | case3 run token tail hrun hread => simp at h
  | case4 run token tail hrun hread ih =>
    have hstart : token :: tail <:+ run := hrun ▸ List.dropWhile_suffix separates
    rcases List.mem_cons.mp h with h | h
    · cases h
    rcases List.mem_cons.mp h with h | h
    · cases h
    obtain ⟨rest', hsuffix, hread'⟩ := ih h
    exact ⟨rest', hsuffix.trans ((List.dropWhile_suffix _).trans
      ((List.suffix_cons token tail).trans hstart)), hread'⟩

/-- A segment read as a declaration is what the reader took of some suffix of the document. -/
theorem read_of_mem_segmentsFrom {reader : Reader α} {lineStart closable : Bool} {run read : Run}
    {found : Described α} (h : .item found read ∈ reader.segmentsFrom lineStart closable run) :
    ∃ rest, read ++ rest <:+ run ∧ reader.described.read (read ++ rest) = .ok (found, rest) := by
  fun_induction segmentsFrom reader lineStart closable run with
  | case1 lineStart closable run hrun => simp at h
  | case2 lineStart closable run token tail hrun blanks item rest hread ih =>
    have hstart : token :: tail <:+ run := hrun ▸ Run.skipTrivia_suffix run
    have hleft := (attempt_left hread).suffix
    rcases List.mem_cons.mp h with h | h
    · cases h
    rcases List.mem_cons.mp h with h | h
    · cases h
      -- it is the item of this turn, read from the significant token on
      refine ⟨rest, by rwa [Run.upTo_append hleft], ?_⟩
      rw [Run.upTo_append hleft]
      unfold attempt at hread
      split at hread
      · exact hread
      · cases hread
    · obtain ⟨rest', hsuffix, hread'⟩ := ih h
      exact ⟨rest', hsuffix.trans (hleft.trans hstart), hread'⟩
  | case3 lineStart closable run token tail hrun hread => simp at h
  | case4 lineStart closable run token tail hrun blanks hread ih =>
    have hstart : token :: tail <:+ run := hrun ▸ Run.skipTrivia_suffix run
    rcases List.mem_cons.mp h with h | h
    · cases h
    rcases List.mem_cons.mp h with h | h
    · cases h
    obtain ⟨rest', hsuffix, hread'⟩ := ih h
    exact ⟨rest', hsuffix.trans ((Run.stepOver_suffix closable token tail).trans
      ((List.suffix_cons token tail).trans hstart)), hread'⟩

/-- An item of a body was read somewhere in it. -/
theorem exists_read_of_mem_items {reader : Reader α} {separates resumes : Token → Bool}
    {run : Run} {item : α} (h : item ∈ reader.items separates resumes run) :
    ∃ start rest, start <:+ run ∧ reader.read start = .ok (item, rest) := by
  obtain ⟨read, hmem⟩ := Segment.mem_values.mp h
  obtain ⟨rest, hsuffix, hread⟩ := read_of_mem_segments hmem
  exact ⟨read ++ rest, rest, hsuffix, hread⟩

/-- A declaration of a document was read somewhere in it, its description in front. -/
theorem exists_read_of_mem_scan {reader : Reader α} {document : Run} {found : Described α}
    (h : found ∈ reader.scan document) :
    ∃ start rest, start <:+ document ∧ reader.described.read start = .ok (found, rest) := by
  obtain ⟨read, hmem⟩ := Segment.mem_values.mp h
  obtain ⟨rest, hsuffix, hread⟩ := read_of_mem_segmentsFrom hmem
  exact ⟨read ++ rest, rest, hsuffix, hread⟩

end Reader

/-! ## The kinds of declaration -/

/-- The kinds of declaration that are looked for in a document. -/
inductive DeclarationKind where
  | fielded | union | scalar | enum | directive
  deriving DecidableEq

namespace DeclarationKind

/-- What is captured of a declaration of each kind. -/
def Declaration : DeclarationKind → Type
  | .fielded => FieldedDeclaration
  | .union => UnionDeclaration
  | .scalar => ScalarDeclaration
  | .enum => EnumDeclaration
  | .directive => DirectiveDeclaration

/-- The reader of each kind of declaration. -/
def reader : (kind : DeclarationKind) → Reader kind.Declaration
  | .fielded => FieldedDeclaration.reader
  | .union => UnionDeclaration.reader
  | .scalar => ScalarDeclaration.reader
  | .enum => EnumDeclaration.reader
  | .directive => DirectiveDeclaration.reader

/-- The declarations of one kind in a document. -/
def declarations (kind : DeclarationKind) (document : Run) : List (Described kind.Declaration) :=
  kind.reader.scan document

end DeclarationKind

end SdlSchema
