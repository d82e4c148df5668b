/-
# In front of the end of an item

An item ends with its line or at a comma.  Steps of reading do the same in front of such an end as
where the text ends: trivia is skipped up to it, no token of an item is a line break or a comma,
and markers stop there.  A default value and arguments are read with a count of brackets, so they
stop there if the brackets in front of it are nested, and a description does if something
significant stands between the two.  What is left behind an item is nested again.

* `ClosesOver.wellNested` : what is left of a nested run is nested;
* `TypedLine.read_append`, `FieldLine.reader_append`, `ArgumentLine.reader_append` : a nested item
  is read as if nothing were behind its end;
* `Reader.IsLocal` : this much of a reader, and that it does not run out of text.
-/
import SdlSchema.Proofs.Forms.Fields

namespace SdlSchema

/-! ## What is left of nested runs -/

namespace Run

variable {bracket : Bracket} {run rest front : Run}

/-- The rest of a run closes its brackets if the run does. -/
theorem ClosesInside.of_suffix (h : run.ClosesInside) (hrest : rest <:+ run) :
    rest.ClosesInside := by
  obtain ⟨front, rfl⟩ := hrest
  rintro before opener behind rfl hopener
  exact h (front ++ before) opener behind (by simp) hopener

/-- Behind a run that closes inside what it opens, nothing is open that was not before. -/
theorem ClosesInside.suffix_of_nest {opened left : List Bracket} (hclosed : run.ClosesInside)
    (h : nest opened run = some left) : left <:+ opened := by
  induction hlength : run.length using Nat.strongRecOn generalizing run opened with
  | _ n ih =>
    cases run with
    | nil => cases h; exact List.suffix_refl _
    | cons token tail =>
      have htail : ClosesInside tail := hclosed.of_suffix (List.suffix_cons token tail)
      have hlt : tail.length < n := by simp [← hlength]
      rw [nest] at h
      split at h
      · next bracket closed hopened =>
        rcases List.suffix_cons_iff.mp (ih _ hlt htail h rfl) with rfl | hleft
        · -- the bracket is closed in front of some stretch, and not opened again behind it
          have hopens : token.opensBracket = true := by simp [Token.opensBracket_eq, hopened]
          obtain ⟨inner, ⟨behind, rfl⟩, kind, hover⟩ := hclosed [] token tail rfl hopens
          rw [nest_append, Option.bind_eq_some_iff] at h
          obtain ⟨middle, hinner, hbehind⟩ := h
          have hsuffix := ih _ (by rw [List.length_append] at hlt; omega)
            (htail.of_suffix (List.suffix_append inner behind)) hbehind rfl
          have hcount := openers_add_count kind hinner
          have hle := hsuffix.sublist.count_le kind
          omega
        · exact hleft
      · split at h
        · exact (ih _ hlt htail h rfl).trans (List.tail_suffix opened)
        · cases h
      · exact ih _ hlt htail h rfl

end Run

/-- What is left of a nested run behind what closes inside what it opens is nested. -/
theorem ClosesOver.wellNested {rest run : Run} (h : ClosesOver rest run)
    (hrun : run.WellNested) : rest.WellNested := by
  obtain ⟨front, rfl, rfl | hfront⟩ := h
  · rfl
  · rw [Run.WellNested, Run.nest_append, Option.bind_eq_some_iff] at hrun
    obtain ⟨left, hleft, hrest⟩ := hrun
    rw [List.suffix_nil.mp (hfront.suffix_of_nest hleft)] at hrest
    exact hrest

namespace Run

variable {bracket : Bracket} {run rest : Run}

/-- Where counting finds no closer, no more brackets are closed than are open. -/
theorem closers_le_of_balanced_eq_none {depth : Nat} (h : run.balanced bracket depth = none) :
    closers bracket run ≤ openers bracket run + depth := by
  induction run generalizing depth with
  | nil => exact Nat.zero_le _
  | cons token tail ih =>
    rw [balanced] at h
    split at h
    · cases h
    · next hclose =>
      have htail := ih (Option.map_eq_none_iff.mp h)
      rw [closers_cons, openers_cons]
      by_cases hopener : token.isMark bracket.opener = true
      · simp only [hopener, not_closer_of_opener hopener, if_true, Bool.false_eq_true,
          if_false] at htail ⊢
        omega
      · by_cases hcloser : token.isMark bracket.closer = true
        · have hdepth : depth ≠ 0 := fun hzero => hclose ⟨hcloser, hzero⟩
          simp only [hopener, hcloser, if_true, Bool.false_eq_true, if_false] at htail ⊢
          omega
        · simp only [hopener, hcloser, Bool.false_eq_true, if_false] at htail ⊢
          omega

/-- In a nested run the text does not end inside a bracket. -/
theorem WellNested.exists_closeBracket {opener : Token} {inner : Run} (bracket : Bracket)
    (h : WellNested (opener :: inner)) (hopener : opener.isMark bracket.opener = true) :
    ∃ body rest, inner.closeBracket bracket = .ok (body, rest) := by
  cases hbalanced : inner.balanced bracket 0 with
  | some found => exact ⟨found.1, found.2, by rw [closeBracket, hbalanced]⟩
  | none =>
    have hcount := openers_add_count bracket h
    have hle := closers_le_of_balanced_eq_none hbalanced
    simp only [openers_cons, closers_cons, hopener, not_closer_of_opener hopener, if_true,
      Bool.false_eq_true, if_false, List.count_nil] at hcount
    omega

end Run

/-! ## Steps in front of the end of an item -/

namespace Run

/-- What was read, with more behind what is left. -/
def onto {α : Type} (behind : Run) (found : α × Run) : α × Run := (found.1, found.2 ++ behind)

section ItemEnd

variable {behind run rest : Run}

/-- Trivia is not passed over beyond the end of an item. -/
theorem skipInline_append (hend : behind.atItemEnd = true) (run : Run) :
    skipInline (run ++ behind) = run.skipInline ++ behind := by
  have hbehind : behind.skipInline = behind := skipInline_of_atItemEnd hend .nil
  induction run with
  | nil => exact hbehind
  | cons token run ih =>
    rw [List.cons_append, skipInline, skipInline, List.dropWhile_cons, List.dropWhile_cons]
    split
    · exact ih
    · rfl

/-- An item ends in front of the end of another exactly if it ends where the text does. -/
theorem atItemEnd_append (hend : behind.atItemEnd = true) (run : Run) :
    atItemEnd (run ++ behind) = run.atItemEnd := by
  cases run with
  | nil => exact hend
  | cons token run => rfl

/-- A mark that a step takes is part of an item, unless it is a comma. -/
theorem take?_append {mark : Punctuation} (hend : behind.atItemEnd = true)
    (hmark : mark ≠ .comma) (run : Run) :
    (run ++ behind).take? (.punctuation mark)
      = (run.take? (.punctuation mark)).map (· ++ behind) := by
  cases run with
  | nil =>
    refine take?_mark_eq_none_of_head? fun token hmem => ?_
    exact Token.isMark_eq_false_of_ends (.inr (of_mem_head?_of_atItemEnd hend token hmem))
      hmark.symm
  | cons token run =>
    rw [List.cons_append, take?, take?]
    split <;> rfl

/-- In front of the end of an item a mark is required as where the text ends. -/
theorem expect_append {mark : Punctuation} (hend : behind.atItemEnd = true)
    (hmark : mark ≠ .comma) (run : Run) :
    (run ++ behind).expect (.punctuation mark)
      = (run.expect (.punctuation mark)).map (· ++ behind) := by
  rw [expect, expect, take?_append hend hmark]
  cases run.take? (.punctuation mark) <;> rfl

/-- In front of the end of an item a name is found as where the text ends. -/
theorem name?_append (hend : behind.atItemEnd = true) (run : Run) :
    (run ++ behind).name? = run.name?.map (onto behind) := by
  cases run with
  | nil =>
    cases behind with
    | nil => rfl
    | cons token behind =>
      have hname : token.isName = false := by
        rw [Bool.eq_false_iff]
        intro hname
        obtain ⟨-, -, -, hnewline, -, hmark⟩ := Token.of_isName hname
        simp [atItemEnd, hnewline, hmark] at hend
      exact if_neg (by simp [hname])
  | cons token run =>
    rw [List.cons_append, name?, name?]
    split <;> rfl

theorem expectName_append (hend : behind.atItemEnd = true) (run : Run) :
    (run ++ behind).expectName = run.expectName.map (onto behind) := by
  rw [expectName, expectName, name?_append hend]
  cases run.name? <;> rfl

/-! ### Types -/

theorem skipNonNull_append (hend : behind.atItemEnd = true) (run : Run) :
    skipNonNull (run ++ behind) = run.skipNonNull ++ behind := by
  rw [skipNonNull, skipNonNull, skipInline_append hend, take?_append hend (by decide)]
  cases run.skipInline.take? (.punctuation .bang) <;> rfl

/-- In front of the end of an item as many lists open as where the text ends. -/
theorem openLists_append (hend : behind.atItemEnd = true) (run : Run) :
    openLists (run ++ behind) = onto behind run.openLists := by
  fun_induction openLists run with
  | case1 =>
    cases behind with
    | nil => rw [List.nil_append, openLists]; rfl
    | cons token behind =>
      have hopener : token.isMark .leftBracket = false :=
        Token.isMark_eq_false_of_ends (.inr (of_mem_head?_of_atItemEnd hend token rfl)) (by decide)
      rw [List.nil_append, openLists, hopener]
      rfl
  | case2 token run hopener depth left heq ih =>
    rw [List.cons_append, openLists, if_pos hopener, skipInline_append hend, ih, heq]
    rfl
  | case3 token run hopener => rw [List.cons_append, openLists, if_neg hopener]; rfl

/-- In front of the end of an item as many lists close as where the text ends. -/
theorem closeLists_append (hend : behind.atItemEnd = true) (depth : Nat) (run : Run) :
    closeLists depth (run ++ behind) = (closeLists depth run).map (· ++ behind) := by
  induction depth generalizing run with
  | zero => rfl
  | succ depth ih =>
    rw [closeLists, closeLists, skipInline_append hend, take?_append hend (by decide)]
    cases run.skipInline.take? (.punctuation .rightBracket) with
    | none => rfl
    | some rest =>
      dsimp only [Option.map_some]
      rw [skipNonNull_append hend, ih]

/-- In front of the end of an item the same type is found as where the text ends. -/
theorem typeReference?_append (hend : behind.atItemEnd = true) (run : Run) :
    (run ++ behind).typeReference? = run.typeReference?.map (onto behind) := by
  rw [typeReference?, typeReference?, openLists_append hend]
  dsimp only [onto]
  rw [name?_append hend]
  cases run.openLists.2.name? with
  | none => rfl
  | some found =>
    dsimp only [Option.map_some, onto]
    rw [skipNonNull_append hend, closeLists_append hend]
    cases closeLists run.openLists.1 found.2.skipNonNull with
    | none => rfl
    | some left =>
      dsimp only [Option.map_some, onto]
      rw [upTo_append_append]

theorem expectType_append (hend : behind.atItemEnd = true) (run : Run) :
    (run ++ behind).expectType = run.expectType.map (onto behind) := by
  rw [expectType, expectType, typeReference?_append hend]
  cases run.typeReference? <;> rfl

/-! ### Markers -/

/-- In front of the end of an item the same markers are found as where the text ends. -/
theorem acceptMarkers_onto (hend : behind.atItemEnd = true) (run : Run) :
    acceptMarkers Token.isInlineTrivia (run ++ behind)
      = onto behind (run.acceptMarkers Token.isInlineTrivia) := by
  have hbehind : behind.afterMarkers Token.isInlineTrivia = none :=
    afterMarkers_of_atItemEnd hend .nil
  refine Prod.ext (acceptMarkers_append skipsTrivia_isInlineTrivia hbehind run) ?_
  rw [acceptMarkers, acceptMarkers, afterMarkers_append hbehind]
  cases run.afterMarkers Token.isInlineTrivia <;> rfl

/-! ### Default values and bodies, if their brackets are nested -/

/-- A value ends in front of the end of an item, if each bracket that is open is closed. -/
theorem skipValue_append (hend : behind.atItemEnd = true) {opened : List Bracket}
    (h : nest opened run = some []) :
    skipValue opened.length (run ++ behind) = skipValue opened.length run ++ behind := by
  induction run generalizing opened with
  | nil =>
    cases h
    cases behind with
    | nil => rfl
    | cons token behind =>
      -- no bracket is open, so the end of the item ends the value
      have hends : token.endsValue = true := by
        simp only [Token.endsValue, Bool.or_eq_true]
        exact .inl (.inl (Bool.or_eq_true_iff.mp hend))
      exact if_pos ⟨rfl, hends⟩
  | cons token run ih =>
    rw [nest] at h
    rw [List.cons_append, skipValue, skipValue, Token.opensBracket_eq, Token.closesBracket_eq]
    split
    · rfl
    · next hends =>
      split at h
      · -- the stack of open brackets is as high as the count of the reader
        next bracket closed hopened =>
        rw [hopened, Option.isSome_some, if_pos rfl, if_pos rfl]
        exact ih h
      · next bracket hopened hclosed =>
        split at h
        · next hhead =>
          obtain ⟨outer, rfl⟩ := List.head?_eq_some_iff.mp hhead
          rw [hopened, hclosed]
          exact ih h
        · cases h
      · next hopened hclosed =>
        rw [hopened, hclosed]
        exact ih h

/-- A default value with nested brackets is not passed over beyond the end of an item. -/
theorem skipDefault_append (hend : behind.atItemEnd = true) (hrun : run.WellNested) :
    skipDefault (run ++ behind) = run.skipDefault ++ behind := by
  rw [skipDefault, skipDefault, take?_append hend (by decide)]
  cases htake : run.take? (.punctuation .equals) with
  | none => rfl
  | some rest =>
    have hover := (OpensNone.take? htake fun bracket => by cases bracket <;> decide).closesOver
    exact skipValue_append hend (hover.wellNested hrun)

/-- Brackets that close do so whatever is behind them. -/
theorem closeBracket_append {bracket : Bracket} {body : Run}
    (h : run.closeBracket bracket = .ok (body, rest)) (behind : Run) :
    closeBracket bracket (run ++ behind) = .ok (body, rest ++ behind) := by
  obtain ⟨closer, rfl, hbody, hcloser⟩ := closeBracket_balances_iff.mp h
  exact closeBracket_balances_iff.mpr ⟨closer, by simp, hbody, hcloser⟩

end ItemEnd

end Run

/-! ## Items in front of their end -/

/-- A reader of items: on nested brackets it reads the same in front of the end of an item as where
the text ends, it does not run out of text, and it leaves nested brackets behind an item that has
ended. -/
structure Reader.IsLocal {α : Type} (reader : Reader α) : Prop where
  read_append : ∀ {run behind : Run}, run.WellNested → behind.atItemEnd = true →
    reader.read (run ++ behind) = (reader.read run).map (Run.onto behind)
  ne_exhausted : ∀ {run : Run}, run.WellNested → reader.read run ≠ .error .exhausted
  closesOver : ∀ {run rest : Run} {item : α}, reader.read run = .ok (item, rest) →
    ClosesOver rest run
  atItemEnd : ∀ {run rest : Run} {item : α}, reader.read run = .ok (item, rest) →
    rest.atItemEnd = true

variable {run behind rest : Run}

namespace TypedLine

/-- In front of the end of an item the same type and markers are read as where the text ends. -/
theorem read_append (hrun : run.WellNested) (hend : behind.atItemEnd = true) :
    TypedLine.read (run ++ behind) = (TypedLine.read run).map (Run.onto behind) := by
  refine bind_eq_map (Run.expect_append hend (by decide) run) fun afterColon hcolon => ?_
  rw [Run.skipInline_append hend]
  refine bind_eq_map (Run.expectType_append hend afterColon.skipInline) fun found htype => ?_
  obtain ⟨type, afterType⟩ := found
  have hcolonOver := OpensNone.expect hcolon fun bracket => by cases bracket <;> decide
  have hnested : afterType.skipInline.WellNested :=
    ((OpensNone.skipInline afterType).closesOver.trans <| (ClosesOver.expectType htype).trans
      ((OpensNone.skipInline afterColon).trans hcolonOver).closesOver).wellNested hrun
  simp only [Run.onto, Run.skipInline_append hend, Run.skipDefault_append hend hnested,
    Run.acceptMarkers_onto hend, Run.atItemEnd_append hend]
  split <;> rfl

theorem atItemEnd_of_read {line : TypedLine} (h : TypedLine.read run = .ok (line, rest)) :
    rest.atItemEnd = true := by
  obtain ⟨afterColon, -, h⟩ := bind_eq_ok.mp h
  obtain ⟨⟨type, afterType⟩, -, h⟩ := bind_eq_ok.mp h
  dsimp only at h
  split at h
  · next hend => cases h; exact hend
  · cases h

end TypedLine

/-- An argument is read alike in front of the end of an item and at the end of the text. -/
theorem ArgumentLine.isLocal_reader : ArgumentLine.reader.IsLocal where
  read_append {run behind} hrun hend := by
    refine bind_eq_map (Run.expectName_append hend run) fun found hname => ?_
    obtain ⟨name, afterName⟩ := found
    have hnested : afterName.skipInline.WellNested :=
      ((OpensNone.skipInline afterName).trans (.expectName hname)).closesOver.wellNested hrun
    dsimp only [Run.onto]
    rw [Run.skipInline_append hend]
    exact bind_eq_map (TypedLine.read_append hnested hend) fun _ _ => rfl
  ne_exhausted _ := ArgumentLine.read_ne_exhausted _
  closesOver := ArgumentLine.closesOver_reader
  atItemEnd h := by
    obtain ⟨⟨name, afterName⟩, -, h⟩ := bind_eq_ok.mp h
    obtain ⟨⟨line, afterLine⟩, hline, h⟩ := bind_eq_ok.mp h
    cases h
    exact TypedLine.atItemEnd_of_read hline

namespace FieldLine

theorem readArguments_onto (hrun : run.WellNested) (hend : behind.atItemEnd = true) :
    readArguments (run ++ behind) = (readArguments run).map (Run.onto behind) := by
  rw [readArguments, readArguments, Run.take?_append hend (by decide)]
  cases htake : run.take? (.punctuation .leftParen) with
  | none => rfl
  | some inner =>
    obtain ⟨opener, rfl, hkind⟩ := Run.take?_eq_some htake
    obtain ⟨body, rest, hclose⟩ := hrun.exists_closeBracket .paren
      (by simp [Token.isMark, hkind, Bracket.opener])
    dsimp only [Option.map_some]
    rw [Run.closeBracket_append hclose, hclose]
    exact congrArg (fun left => Except.ok (some body, left)) (Run.skipInline_append hend rest)

/-- A field is read alike in front of the end of an item and at the end of the text. -/
theorem isLocal_reader : reader.IsLocal where
  read_append {run behind} hrun hend := by
    refine bind_eq_map (Run.expectName_append hend run) fun found hname => ?_
    obtain ⟨name, afterName⟩ := found
    have hnested : afterName.skipInline.WellNested :=
      ((OpensNone.skipInline afterName).trans (.expectName hname)).closesOver.wellNested hrun
    dsimp only [Run.onto]
    rw [Run.skipInline_append hend]
    refine bind_eq_map (readArguments_onto hnested hend) fun found harguments => ?_
    obtain ⟨arguments, afterArguments⟩ := found
    exact bind_eq_map (TypedLine.read_append
      ((closesOver_readArguments harguments).wellNested hnested) hend) fun _ _ => rfl
  ne_exhausted {run} hrun h := by
    rcases bind_eq_error.mp h with h | ⟨⟨name, afterName⟩, hname, h⟩
    · exact Run.expectName_ne_exhausted _ h
    rcases bind_eq_error.mp h with h | ⟨⟨arguments, afterArguments⟩, -, h⟩
    · obtain ⟨opener, inner, hsplit, hopener, hclose⟩ := readArguments_error_iff.mp h
      have hnested : afterName.skipInline.WellNested :=
        ((OpensNone.skipInline afterName).trans (.expectName hname)).closesOver.wellNested hrun
      rw [hsplit] at hnested
      obtain ⟨body, rest, hclosed⟩ := hnested.exists_closeBracket .paren hopener
      rw [hclosed] at hclose
      cases hclose
    rcases bind_eq_error.mp h with h | ⟨found, -, h⟩
    · exact TypedLine.read_ne_exhausted _ h
    · cases h
  closesOver := closesOver_reader
  atItemEnd h := by
    obtain ⟨⟨name, afterName⟩, -, h⟩ := bind_eq_ok.mp h
    obtain ⟨⟨arguments, afterArguments⟩, -, h⟩ := bind_eq_ok.mp h
    obtain ⟨⟨line, afterLine⟩, hline, h⟩ := bind_eq_ok.mp h
    cases h
    exact TypedLine.atItemEnd_of_read hline

end FieldLine

end SdlSchema
