/-
# Runs of markers and what they stand for

Markers are read as far as nothing but trivia stands between them, and what is kept is the text from
the first to the last.  That text is cut into the same tokens again, so resolving it finds exactly
the markers that were read.  A marker stands for the directive that was put under it last, or for
nothing; and of two markers that stand for directives of one name the later counts.

* `LongestMarkers.of_ne_nil`, `LongestMarkers.kept_eq_nil_iff_head?` : what the longest run of
  markers begins and ends with, and where there is none;
* `Walk.acceptMarkers_eq` : the text that is kept, and the position behind it;
* `MarkerTable.get?_resolve_eq_some_iff` : the last marker that stands for a directive of a name;
* `markers_read_and_resolved` : both, for any text and any table.
-/
import SdlSchema.MarkerTable
import SdlSchema.Proofs.Schema.Collected
import SdlSchema.Proofs.Cursor.Pieces
import SdlSchema.Proofs.Forms.Elements

namespace SdlSchema

/-! ## Reading -/

section Reading

variable {skip : Token → Bool} {run gap kept rest marked : Run} {marker : Token}

/-- A run of markers ends with a marker. -/
theorem MarkerRun.exists_getLast (h : MarkerRun skip marked) (hne : marked ≠ []) :
    ∃ last ∈ marked.getLast?, last.isMarker = true := by
  induction h with
  | nil => exact absurd rfl hne
  | @cons gap more marker _ hmarker _ ih =>
    rw [List.getLast?_append, List.getLast?_cons]
    cases hmore : more.getLast? with
    | none => exact ⟨marker, rfl, hmarker⟩
    | some last =>
      obtain ⟨other, hother, hlast⟩ := ih (by rintro rfl; cases hmore)
      rw [hmore] at hother
      exact ⟨other, hother, hlast⟩

/-- What is kept of the longest run of markers, if there is one, reaches from a marker that stands
behind what may be skipped to a marker. -/
theorem LongestMarkers.of_ne_nil (hskip : SkipsTrivia skip)
    (h : LongestMarkers skip gap kept rest run) (hne : kept ≠ []) :
    Gap skip gap ∧ kept.head? = (run.dropWhile skip).head? ∧
      ∃ last ∈ kept.getLast?, last.isMarker = true := by
  have hsplit := h.split
  have hform := h.isForm
  generalize hmarked : gap ++ kept = marked at hform
  cases hform with
  | absent => exact absurd (List.append_eq_nil_iff.mp hmarked).2 hne
  | @present gap' more marker hgap hmarker hmore =>
    obtain rfl := List.append_cancel_right hmarked
    have hstop : skip marker = false := by
      rw [Bool.eq_false_iff]
      exact fun hpass => by simp [hskip.isMarker hpass] at hmarker
    have hkept : MarkerRun skip ([] ++ marker :: more) := .cons .nil hmarker hmore
    refine ⟨hgap, ?_, hkept.exists_getLast (by simp)⟩
    rw [hsplit, List.cons_append, hgap.dropWhile_cons hstop]
    rfl

/-- Where nothing is kept nothing is passed over. -/
theorem LongestMarkers.of_nil (h : LongestMarkers skip gap [] rest run) :
    gap = [] ∧ rest = run := by
  have hsplit := h.split
  have hform := h.isForm
  rw [List.append_nil] at hform
  cases hform
  exact ⟨rfl, hsplit.symm⟩

/-- Nothing is kept exactly if the first token that may not be skipped is no marker. -/
theorem LongestMarkers.kept_eq_nil_iff_head? (hskip : SkipsTrivia skip)
    (h : LongestMarkers skip gap kept rest run) :
    kept = [] ↔ ∀ token ∈ (run.dropWhile skip).head?, token.isMarker = false := by
  obtain ⟨gap', hsplit, hgap'⟩ := Gap.exists_dropWhile skip run
  constructor
  · intro hnil token hmem
    obtain ⟨tail, htail⟩ := List.head?_eq_some_iff.mp hmem
    exact h.kept_eq_nil_iff.mp hnil gap' token tail hgap' (by rw [← htail]; exact hsplit)
  · intro hnone
    by_contra hne
    obtain ⟨-, hhead, -⟩ := h.of_ne_nil hskip hne
    have hform := h.isForm
    generalize gap ++ kept = marked at hform
    cases hform with
    | absent => exact hne rfl
    | present _ hmarker _ =>
      rw [hnone _ hhead.symm] at hmarker
      cases hmarker

end Reading

/-- The text of the longest run of markers is kept, if there is one, and the walk stands right
behind the last of them. -/
theorem Walk.acceptMarkers_eq {text : List Char} {position : Nat} {skip : Token → Bool}
    {run gap : Run} (hshort : Text.byteLength text < 2 ^ 32) (h : At text position run)
    (hskip : SkipsTrivia skip)
    (hlongest : LongestMarkers skip gap (run.acceptMarkers skip).1 (run.acceptMarkers skip).2 run) :
    Walk.acceptMarkers skip (Source.of text) position
      = .ok (Run.text? (run.acceptMarkers skip).1,
        position + gap.length + (run.acceptMarkers skip).1.length) := by
  obtain ⟨found, stop, hwalk, rfl, hstop⟩ := returns_acceptMarkers hshort h hskip
  have hbehind : At text position (gap ++ ((run.acceptMarkers skip).1
      ++ (run.acceptMarkers skip).2)) := by rwa [← hlongest.split]
  rw [hwalk, ← hbehind.behind.behind.unique hstop]

/-! ## Resolving -/

namespace MarkerTable

variable {table : MarkerTable} {run : Run}

/-- The directive that a token stands for, if it is a marker of the table. -/
def directive? (table : MarkerTable) (token : Token) : Option Directive :=
  if token.isMarker then table.get? token.word else none

theorem decode_eq_filterMap (table : MarkerTable) (run : Run) :
    table.decode run = run.filterMap table.directive? := List.filterMap_filter

theorem keys_resolve (table : MarkerTable) (run : Run) :
    (table.resolve run).keys
      = ((run.filterMap table.directive?).map Directive.name).eraseDups := by
  rw [resolve, NameIndex.keys_collect, decode_eq_filterMap]
  rfl

/-- Under a name stands what the last marker stands for that stands for a directive of that name. -/
theorem get?_resolve_eq_some_iff {name : String} {directive : Directive} :
    (table.resolve run).get? name = some directive ↔ directive.name = name ∧
      ∃ front token behind, run = front ++ token :: behind ∧
        table.directive? token = some directive ∧
        ∀ other ∈ behind, ∀ found ∈ table.directive? other, found.name ≠ name := by
  rw [NameIndex.get?_eq_some_iff, resolve, NameIndex.mem_entries_collect, decode_eq_filterMap]
  refine and_congr_right fun _ => ?_
  constructor
  · rintro ⟨before, after, hsplit, hafter⟩
    obtain ⟨front, rest, rfl, -, hrest⟩ := List.filterMap_eq_append_iff.mp hsplit
    obtain ⟨middle, token, behind, rfl, -, htoken, rfl⟩ := List.filterMap_eq_cons_iff.mp hrest
    refine ⟨front ++ middle, token, behind, by simp, htoken, fun other hother found hfound => ?_⟩
    exact hafter found (List.mem_filterMap.mpr ⟨other, hother, hfound⟩)
  · rintro ⟨front, token, behind, rfl, htoken, hbehind⟩
    refine ⟨front.filterMap table.directive?, behind.filterMap table.directive?, ?_, ?_⟩
    · rw [List.filterMap_append, List.filterMap_cons_some htoken]
    · intro found hfound
      obtain ⟨other, hother, hsome⟩ := List.mem_filterMap.mp hfound
      exact hbehind other hother found hsome

/-- What stands for no directive can be left out. -/
theorem resolve_filter (table : MarkerTable) (run : Run) :
    table.resolve (run.filter fun token => (table.directive? token).isSome)
      = table.resolve run := by
  rw [resolve, resolve, decode_eq_filterMap, decode_eq_filterMap, List.filterMap_filter]
  refine congrArg NameIndex.collect (List.filterMap_congr fun token _ => ?_)
  cases table.directive? token <;> rfl

end MarkerTable

/-! ## Texts and tables -/

/-- Wherever markers are looked for in a text, with or without line breaks between them, the longest
run of them is read, from the first to the last, and what follows the last is left: nothing is read
exactly where the first token that may not be skipped is no marker.  The text that is kept is cut
into the tokens of the run again.  And whatever is put into a table, a marker stands for what was
put under it last, and resolving a text gives each name that its markers stand for, in the order of
their first occurrence, the directive of the last marker that stands for that name. -/
theorem markers_read_and_resolved (text : List Char) :
    (∀ skip, skip = Token.isTrivia ∨ skip = Token.isInlineTrivia →
      ∀ position ≤ (tokenize text).length, ∀ run : Run, run = (tokenize text).drop position →
      ∃ gap kept rest, run.acceptMarkers skip = (kept, rest) ∧
        LongestMarkers skip gap kept rest run ∧
        (kept = [] ↔ ∀ token ∈ (run.dropWhile skip).head?, token.isMarker = false) ∧
        (kept = [] → gap = [] ∧ rest = run) ∧
        (kept ≠ [] → Gap skip gap ∧ kept.head? = (run.dropWhile skip).head? ∧
          ∃ last ∈ kept.getLast?, last.isMarker = true) ∧
        (Text.byteLength text < 2 ^ 32 → Walk.acceptMarkers skip (Source.of text) position
          = .ok (if kept = [] then none else some (Run.text kept),
            position + gap.length + kept.length)) ∧
        rest = (tokenize text).drop (position + gap.length + kept.length) ∧
        Text.slice (Text.byteLength (Run.chars ((tokenize text).take position ++ gap)))
          (Text.byteLength (Run.chars ((tokenize text).take position ++ gap))
            + Text.byteLength kept.chars) text = kept.chars ∧
        tokenize kept.chars = kept) ∧
    ∀ (inserts : List (String × Directive)) (table : MarkerTable),
      table = NameIndex.ofPairs inserts →
      (∀ marker directive, table.get? marker = some directive ↔ ∃ before after,
        inserts = before ++ (marker, directive) :: after ∧ marker ∉ after.map Prod.fst) ∧
      (table.resolve (tokenize text)).keys
        = (((tokenize text).filterMap table.directive?).map Directive.name).eraseDups ∧
      (∀ name directive, (table.resolve (tokenize text)).get? name = some directive ↔
        directive.name = name ∧ ∃ front token behind, tokenize text = front ++ token :: behind ∧
          table.directive? token = some directive ∧
          ∀ other ∈ behind, ∀ found ∈ table.directive? other, found.name ≠ name) ∧
      table.resolve ((tokenize text).filter fun token => (table.directive? token).isSome)
        = table.resolve (tokenize text) := by
  constructor
  · rintro skip hmode position hposition run rfl
    have hskip : SkipsTrivia skip := by
      rcases hmode with rfl | rfl
      · exact skipsTrivia_isTrivia
      · exact skipsTrivia_isInlineTrivia
    -- all of this part follows from the markers being the longest run of them
    obtain ⟨gap, hlongest⟩ := Run.acceptMarkers_longest hskip ((tokenize text).drop position)
    have hat : At text position ((tokenize text).drop position) :=
      ⟨(tokenize text).take position, (List.take_append_drop _ _).symm,
        (List.length_take_of_le hposition).symm⟩
    have hwalk := fun hshort => Walk.acceptMarkers_eq hshort hat hskip hlongest
    revert hlongest hwalk
    generalize Run.acceptMarkers skip ((tokenize text).drop position) = read
    obtain ⟨kept, rest⟩ := read
    intro hlongest hwalk
    -- what is in front, what is kept and what is left make up the tokens of the text
    have hsplit : tokenize text = ((tokenize text).take position ++ gap) ++ (kept ++ rest) := by
      rw [List.append_assoc, ← hlongest.split, List.take_append_drop]
    refine ⟨gap, kept, rest, rfl, hlongest, hlongest.kept_eq_nil_iff_head? hskip, ?_,
      hlongest.of_ne_nil hskip, fun hshort => ?_, ?_, slice_tokenize hsplit, ?_⟩
    · rintro rfl
      exact hlongest.of_nil
    · rw [hwalk hshort, Run.text?]
      simp only [List.isEmpty_iff]
    · rw [← List.drop_drop, ← List.drop_drop, hlongest.split, List.drop_left, List.drop_left]
    · exact tokenize_chars_of_isInfix ⟨_, rest, by rw [List.append_assoc]; exact hsplit.symm⟩
  · rintro inserts table rfl
    refine ⟨fun marker directive => ?_, MarkerTable.keys_resolve _ _,
      fun _ _ => MarkerTable.get?_resolve_eq_some_iff, MarkerTable.resolve_filter _ _⟩
    -- a table gives what was put in last, as every index does
    rw [NameIndex.get?_eq_some_iff, NameIndex.mem_entries_ofPairs]

/-- Over line breaks a run of markers goes on behind a comment, in which nothing is a marker.  Of
two directives of one name, the second replaces the first. -/
theorem markers_read_and_resolved_comment :
    (∃ gap kept rest : Run,
      LongestMarkers Token.isTrivia gap kept rest (tokenize " %0 # %9\n%1,%2".toList) ∧
      kept.text = "%0 # %9\n%1" ∧ (tokenize kept.chars).filter Token.isMarker
        = [⟨.marker, ['%', '0']⟩, ⟨.marker, ['%', '1']⟩] ∧
      Walk.acceptMarkers Token.isTrivia (Source.of " %0 # %9\n%1,%2".toList) 0
        = .ok (some "%0 # %9\n%1", 6)) ∧
    (MarkerTable.resolve (.ofPairs
        [("%0", .ofName "a"), ("%1", .ofName "b"), ("%2", .ofName "c"), ("%0", .ofName "b")])
      (tokenize " %0 # %9\n%1,%2".toList)).keys = ["b", "c"] := by
  obtain ⟨hread, hresolve⟩ := markers_read_and_resolved " %0 # %9\n%1,%2".toList
  constructor
  · obtain ⟨gap, kept, rest, haccept, hlongest, -, -, -, hwalk, -, -, hrelex⟩ :=
      hread Token.isTrivia (.inl rfl) 0 (Nat.zero_le _) _ rfl
    have hcomputed : Run.acceptMarkers Token.isTrivia (tokenize " %0 # %9\n%1,%2".toList)
        = ((tokenize " %0 # %9\n%1".toList).drop 1, tokenize ",%2".toList) := by decide +kernel
    obtain ⟨rfl, rfl⟩ := Prod.mk.inj (haccept.symm.trans hcomputed)
    have hgap : gap.length = 1 := by
      have hlength := congrArg List.length hlongest.split
      rw [List.length_append] at hlength
      exact Nat.add_right_cancel (hlength.symm.trans (by decide +kernel))
    refine ⟨gap, _, _, hlongest, by decide +kernel, by rw [hrelex]; decide +kernel, ?_⟩
    rw [hwalk (by decide +kernel), hgap]
    decide +kernel
  · exact (hresolve _ _ rfl).2.1.trans (by decide +kernel)

end SdlSchema
