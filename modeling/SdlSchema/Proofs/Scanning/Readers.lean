/-
# What the readers of declarations have in common

Every declaration begins with a keyword, ends on the line of its last significant token, and
closes each brace that it opens.  Its reader gives up for lack of text only where a brace is never
closed.

* `Reader.IsDeclaration` : these four laws;
* `DeclarationKind.isDeclaration_reader` : the reader of each kind obeys them.
-/
import SdlSchema.Proofs.Scanning.Plain

namespace SdlSchema

/-! ## Blocks -/

/-- That `rest` is what is left of `run` after a stretch that closes each brace that it opens. -/
def ClosesBraces (rest run : Run) : Prop :=
  ∃ front, run = front ++ rest ∧ Run.Neutral .brace front

/-- Two stretches that close their own braces make one that does. -/
theorem ClosesBraces.trans {rest middle run : Run} (h : ClosesBraces rest middle)
    (h' : ClosesBraces middle run) : ClosesBraces rest run := by
  obtain ⟨front, rfl, hfront⟩ := h
  obtain ⟨front', rfl, hfront'⟩ := h'
  exact ⟨front' ++ front, (List.append_assoc _ _ _).symm, hfront'.append hfront⟩

/-- A stretch without braces has none to close. -/
theorem Braceless.closesBraces {rest run : Run} (h : Braceless rest run) :
    ClosesBraces rest run := by
  obtain ⟨front, rfl, hfront⟩ := h
  exact ⟨front, rfl, Run.neutral_of_forall fun token hmem =>
    Bool.or_eq_false_iff.mp (hfront token hmem)⟩

/-- That the run holds a brace for which counting finds no closer. -/
def HoldsOpenBrace (run : Run) : Prop :=
  ∃ (front : Run) (opener : Token) (tail : Run), run = front ++ opener :: tail ∧
    opener.isMark .leftBrace = true ∧ tail.balanced .brace 0 = none

/-- A brace that stays open does so whatever stands in front of it. -/
theorem HoldsOpenBrace.of_suffix {middle run : Run} (h : HoldsOpenBrace middle)
    (hs : middle <:+ run) : HoldsOpenBrace run := by
  obtain ⟨front, rfl⟩ := hs
  obtain ⟨front', opener, tail, rfl, hopener, hnone⟩ := h
  exact ⟨front ++ front', opener, tail, by rw [List.append_assoc], hopener, hnone⟩

namespace Run

variable {run inner : Run}

/-- A block from its opener to the closer that counting finds closes all its braces. -/
theorem block_closesBraces {body rest : Run}
    (hopen : run.expect (.punctuation .leftBrace) = .ok inner)
    (h : inner.closeBracket .brace = .ok (body, rest)) : ClosesBraces rest run := by
  obtain ⟨opener, rfl, hopener⟩ := expect_eq_ok hopen
  have hbalanced := closeBracket_eq_ok h
  obtain ⟨closer, hcloser, rfl⟩ := balanced_eq hbalanced
  have hmark : opener.isMark .leftBrace = true := by simp [Token.isMark, hopener]
  exact ⟨opener :: (body ++ [closer]), by simp, neutral_of_balanced hmark hcloser hbalanced⟩

/-- A block ends with its closer, which is significant. -/
theorem block_endsInLine {body rest : Run} (h : inner.closeBracket .brace = .ok (body, rest)) :
    EndsInLine rest inner := by
  obtain ⟨closer, hcloser, rfl⟩ := balanced_eq (closeBracket_eq_ok h)
  have hkind : closer.kind = .punctuation .rightBrace := by
    simpa [Token.isMark, Bracket.closer] using hcloser
  have hsignificant : closer.isTrivia = false := by simp [Token.isTrivia, hkind, Kind.isTrivia]
  exact (EndsInLine.cons hsignificant rest).of_suffix (List.suffix_append body _)

/-- Where a block does not close, its opener is a brace that stays open. -/
theorem block_holdsOpenBrace {miss : Miss}
    (hopen : run.expect (.punctuation .leftBrace) = .ok inner)
    (h : inner.closeBracket .brace = .error miss) : HoldsOpenBrace run := by
  obtain ⟨opener, rfl, hopener⟩ := expect_eq_ok hopen
  exact ⟨[], opener, inner, rfl, by simp [Token.isMark, hopener], closeBracket_eq_error h⟩

end Run

/-! ## Declarations -/

/-- That a keyword comes first. -/
def Run.BeginsWithKeyword (run : Run) : Prop :=
  ∃ token tail word, run = token :: tail ∧ token.kind = .keyword word

/-- What the readers of declarations have in common. -/
structure Reader.IsDeclaration {α : Type} (reader : Reader α) : Prop where
  begins : ∀ {run rest : Run} {item : α}, reader.read run = .ok (item, rest) →
    run.BeginsWithKeyword
  endsInLine : ∀ {run rest : Run} {item : α}, reader.read run = .ok (item, rest) →
    EndsInLine rest run
  closesBraces : ∀ {run rest : Run} {item : α}, reader.read run = .ok (item, rest) →
    ClosesBraces rest run
  exhausted : ∀ {run : Run}, reader.read run = .error .exhausted → HoldsOpenBrace run

/-- A plain reader has the other laws if its declaration begins with a keyword. -/
theorem Reader.IsPlain.isDeclaration {α : Type} {reader : Reader α} (h : reader.IsPlain)
    (hbegins : ∀ {run rest : Run} {item : α}, reader.read run = .ok (item, rest) →
      run.BeginsWithKeyword) : reader.IsDeclaration where
  begins := hbegins
  endsInLine := h.endsInLine
  closesBraces hread := (h.braceless hread).closesBraces
  exhausted hread := absurd hread (h.notExhausted _)

theorem Run.expect_begins {word : Keyword} {run rest : Run}
    (h : run.expect (.keyword word) = .ok rest) : run.BeginsWithKeyword := by
  obtain ⟨token, rfl, hkind⟩ := expect_eq_ok h
  exact ⟨token, rest, word, rfl, hkind⟩

/-- The keyword `extend` is one as well. -/
theorem Run.begins_of_acceptExtend {run : Run} (h : run.acceptExtend.2.BeginsWithKeyword) :
    run.BeginsWithKeyword := by
  unfold acceptExtend at h
  split at h
  · next hextend =>
    obtain ⟨token, rfl, hkind⟩ := take?_eq_some hextend
    exact ⟨token, _, .extend, rfl, hkind⟩
  · exact h

namespace FieldedDeclaration

/-- The kind of a fielded type is told by the keyword that it begins with. -/
theorem readKind_begins {run rest : Run} {kind : FieldedKind}
    (h : readKind run = .ok (kind, rest)) : run.BeginsWithKeyword := by
  cases run with
  | nil => cases h
  | cons token tail =>
    rw [readKind] at h
    split at h
    · next hkind =>
      cases hword : token.kind <;> simp [hword, FieldedKind.ofKind?] at hkind
      exact ⟨token, tail, _, rfl, hword⟩
    · cases h

theorem readKind_braceless {run rest : Run} {kind : FieldedKind}
    (h : readKind run = .ok (kind, rest)) : Braceless rest run := by
  obtain ⟨token, tail, word, rfl, hword⟩ := readKind_begins h
  rw [readKind] at h
  split at h
  · cases h
    exact .cons (Token.isBrace_eq_false_of_kind hword (by simp) (by simp)) _
  · cases h

theorem readKind_ne_exhausted (run : Run) : readKind run ≠ .error .exhausted := by
  unfold readKind
  split
  · simp
  · split <;> simp

/-- The interfaces of an object stand in front of its block and hold no brace. -/
theorem readInterfaces_braceless {run rest : Run} {interfaces : Option NameList}
    (h : readInterfaces run = .ok (interfaces, rest)) : Braceless rest run := by
  unfold readInterfaces at h
  split at h
  · next inner hkeyword =>
    obtain ⟨⟨list, afterList⟩, hlist, h⟩ := bind_eq_ok.mp h
    cases h
    exact (NameList.isPlain_interfaces.braceless hlist).trans
      ((Braceless.skipTrivia inner).trans (Run.take?_braceless hkeyword (by simp) (by simp)))
  · cases h; exact .refl run

theorem readInterfaces_ne_exhausted (run : Run) : readInterfaces run ≠ .error .exhausted := by
  unfold readInterfaces
  split
  · intro h
    rcases bind_eq_error.mp h with h | ⟨found, -, h⟩
    · exact NameList.isPlain_interfaces.notExhausted _ h
    · cases h
  · intro h; cases h

section Heading

variable {run afterKind afterName afterInterfaces : Run} {kind : FieldedKind} {name : String}
  {interfaces : Option NameList}

/-- The keyword and the name of a fielded type hold no brace, with `extend` in front or not. -/
theorem title_braceless (hkind : readKind run.acceptExtend.2 = .ok (kind, afterKind))
    (hname : afterKind.skipTrivia.expectName = .ok (name, afterName)) : Braceless afterName run :=
  (Run.expectName_braceless hname).trans <| (Braceless.skipTrivia afterKind).trans <|
    (readKind_braceless hkind).trans (Run.acceptExtend_braceless run)

/-- Up to its markers, a fielded type holds no brace, with interfaces or without. -/
theorem interfaces_braceless (hkind : readKind run.acceptExtend.2 = .ok (kind, afterKind))
    (hname : afterKind.skipTrivia.expectName = .ok (name, afterName))
    (hinterfaces : readInterfaces afterName.skipTrivia = .ok (interfaces, afterInterfaces)) :
    Braceless afterInterfaces run :=
  (readInterfaces_braceless hinterfaces).trans <| (Braceless.skipTrivia afterName).trans
    (title_braceless hkind hname)

end Heading

/-- A fielded type: the heading holds no brace, and only the block can lack text. -/
theorem isDeclaration_reader : reader.IsDeclaration where
  begins h := by
    obtain ⟨⟨kind, afterKind⟩, hkind, -⟩ := bind_eq_ok.mp h
    exact Run.begins_of_acceptExtend (readKind_begins hkind)
  endsInLine {run _ _} h := by
    obtain ⟨⟨kind, afterKind⟩, hkind, h⟩ := bind_eq_ok.mp h
    obtain ⟨⟨name, afterName⟩, hname, h⟩ := bind_eq_ok.mp h
    obtain ⟨⟨interfaces, afterInterfaces⟩, hinterfaces, h⟩ := bind_eq_ok.mp h
    obtain ⟨afterOpen, hopen, h⟩ := bind_eq_ok.mp h
    obtain ⟨⟨body, afterClose⟩, hclose, h⟩ := bind_eq_ok.mp h
    dsimp only at h
    split at h
    · cases h
    · cases h
      exact (Run.block_endsInLine hclose).of_suffix <| (Run.expect_left hopen).suffix.trans
        (interfaces_braceless hkind hname hinterfaces).markers.suffix
  closesBraces {run _ _} h := by
    obtain ⟨⟨kind, afterKind⟩, hkind, h⟩ := bind_eq_ok.mp h
    obtain ⟨⟨name, afterName⟩, hname, h⟩ := bind_eq_ok.mp h
    obtain ⟨⟨interfaces, afterInterfaces⟩, hinterfaces, h⟩ := bind_eq_ok.mp h
    obtain ⟨afterOpen, hopen, h⟩ := bind_eq_ok.mp h
    obtain ⟨⟨body, afterClose⟩, hclose, h⟩ := bind_eq_ok.mp h
    dsimp only at h
    split at h
    · cases h
    · cases h
      -- no brace stands in front of the block, and the block closes its own
      exact (Run.block_closesBraces hopen hclose).trans
        (interfaces_braceless hkind hname hinterfaces).markers.closesBraces
  exhausted {run} h := by
    rcases bind_eq_error.mp h with h | ⟨⟨kind, afterKind⟩, hkind, h⟩
    · exact absurd h (readKind_ne_exhausted _)
    rcases bind_eq_error.mp h with h | ⟨⟨name, afterName⟩, hname, h⟩
    · exact absurd h (Run.expectName_ne_exhausted _)
    rcases bind_eq_error.mp h with h | ⟨⟨interfaces, afterInterfaces⟩, hinterfaces, h⟩
    · exact absurd h (readInterfaces_ne_exhausted _)
    rcases bind_eq_error.mp h with h | ⟨afterOpen, hopen, h⟩
    · exact absurd h (Run.expect_ne_exhausted _ _)
    rcases bind_eq_error.mp h with h | ⟨⟨body, afterClose⟩, hclose, h⟩
    · -- only the block can lead to the end of the text
      exact (Run.block_holdsOpenBrace hopen h).of_suffix
        (interfaces_braceless hkind hname hinterfaces).markers.suffix
    · dsimp only at h
      split at h <;> cases h

end FieldedDeclaration

/-- An enum has a heading without interfaces, and a block like the others. -/
theorem EnumDeclaration.isDeclaration_reader : EnumDeclaration.reader.IsDeclaration where
  begins h := by
    obtain ⟨afterKeyword, hkeyword, -⟩ := bind_eq_ok.mp h
    exact Run.begins_of_acceptExtend (Run.expect_begins hkeyword)
  endsInLine {run _ _} h := by
    obtain ⟨afterKeyword, hkeyword, h⟩ := bind_eq_ok.mp h
    obtain ⟨⟨name, afterName⟩, hname, h⟩ := bind_eq_ok.mp h
    obtain ⟨afterOpen, hopen, h⟩ := bind_eq_ok.mp h
    obtain ⟨⟨body, afterClose⟩, hclose, h⟩ := bind_eq_ok.mp h
    cases h
    exact (Run.block_endsInLine hclose).of_suffix <| (Run.expect_left hopen).suffix.trans
      (Run.title_braceless hkeyword hname).markers.suffix
  closesBraces {run _ _} h := by
    obtain ⟨afterKeyword, hkeyword, h⟩ := bind_eq_ok.mp h
    obtain ⟨⟨name, afterName⟩, hname, h⟩ := bind_eq_ok.mp h
    obtain ⟨afterOpen, hopen, h⟩ := bind_eq_ok.mp h
    obtain ⟨⟨body, afterClose⟩, hclose, h⟩ := bind_eq_ok.mp h
    cases h
    exact (Run.block_closesBraces hopen hclose).trans
      (Run.title_braceless hkeyword hname).markers.closesBraces
  exhausted {run} h := by
    rcases bind_eq_error.mp h with h | ⟨afterKeyword, hkeyword, h⟩
    · exact absurd h (Run.expect_ne_exhausted _ _)
    rcases bind_eq_error.mp h with h | ⟨⟨name, afterName⟩, hname, h⟩
    · exact absurd h (Run.expectName_ne_exhausted _)
    rcases bind_eq_error.mp h with h | ⟨afterOpen, hopen, h⟩
    · exact absurd h (Run.expect_ne_exhausted _ _)
    rcases bind_eq_error.mp h with h | ⟨⟨body, afterClose⟩, -, h⟩
    · -- only the block can run out of text, and then its brace stays open
      exact (Run.block_holdsOpenBrace hopen h).of_suffix
        (Run.title_braceless hkeyword hname).markers.suffix
    · cases h

/-- The reader of each kind of declaration has what they have in common. -/
theorem DeclarationKind.isDeclaration_reader (kind : DeclarationKind) :
    kind.reader.IsDeclaration := by
  cases kind with
  | fielded => exact FieldedDeclaration.isDeclaration_reader
  | union =>
    refine UnionDeclaration.isPlain_reader.isDeclaration fun h => ?_
    obtain ⟨afterKeyword, hkeyword, -⟩ := bind_eq_ok.mp h
    exact Run.begins_of_acceptExtend (Run.expect_begins hkeyword)
  | scalar =>
    refine ScalarDeclaration.isPlain_reader.isDeclaration fun h => ?_
    obtain ⟨afterKeyword, hkeyword, -⟩ := bind_eq_ok.mp h
    exact Run.begins_of_acceptExtend (Run.expect_begins hkeyword)
  | enum => exact EnumDeclaration.isDeclaration_reader
  | directive =>
    refine DirectiveDeclaration.isPlain_reader.isDeclaration fun h => ?_
    obtain ⟨afterKeyword, hkeyword, -⟩ := bind_eq_ok.mp h
    exact Run.expect_begins hkeyword

end SdlSchema
